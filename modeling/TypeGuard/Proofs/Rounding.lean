import Mathlib.Data.Int.Log
import Mathlib.Data.Rat.Floor
import Mathlib.Tactic.Positivity
import TypeGuard.Number.Shortest

/-! Rounding to the nearest number. It depends on nothing but the value that is rounded, and what
is a number already is rounded to itself, so the decimal that is written for a number leads back to
it. -/

namespace TypeGuard

theorem roundDiv_mul (num den : Nat) {c : Nat} (hc : 0 < c) :
    roundDiv (num * c) (den * c) = roundDiv num den := by
  have hleft : 2 * (num % den * c) = 2 * (num % den) * c := (Nat.mul_assoc _ _ _).symm
  simp only [roundDiv, Nat.mul_div_mul_right _ _ hc, Nat.mul_mod_mul_right, hleft,
    Nat.mul_lt_mul_right hc]

theorem roundDiv_congr {num den num' den' : Nat} (hden : 0 < den) (hden' : 0 < den')
    (h : num * den' = num' * den) : roundDiv num den = roundDiv num' den' := by
  calc roundDiv num den = roundDiv (num * den') (den * den') := (roundDiv_mul num den hden').symm
    _ = roundDiv (num' * den) (den' * den) := by rw [h, Nat.mul_comm den]
    _ = roundDiv num' den' := roundDiv_mul num' den' hden

theorem roundDiv_of_mul_eq {num den k : Nat} (hden : 0 < den) (h : num = k * den) :
    roundDiv num den = k := by
  have hrest : num % den = 0 := by rw [h, Nat.mul_mod_left]
  have hlow : num / den = k := by rw [h, Nat.mul_div_cancel _ hden]
  simp [roundDiv, hrest, hlow, hden]

theorem two_zpow_sub (a b : Nat) : (2 : ℚ) ^ ((a : Int) - b) = 2 ^ a / 2 ^ b := by
  rw [zpow_sub₀ two_ne_zero, zpow_natCast, zpow_natCast]

theorem reached_iff {num den a b : Nat} (hden : 0 < den) :
    (if b ≤ a then den * Nat.pow 2 (a - b) ≤ num else den ≤ num * Nat.pow 2 (b - a)) ↔
      (2 : ℚ) ^ ((a : Int) - b) ≤ num / den := by
  have hden' : (0 : ℚ) < den := by exact_mod_cast hden
  rw [le_div_iff₀ hden', two_zpow_sub]
  split
  · next hle =>
      have hpow : (2 : ℚ) ^ a / 2 ^ b = 2 ^ (a - b) := by
        rw [pow_sub₀ _ two_ne_zero hle, div_eq_mul_inv]
      rw [hpow, mul_comm]
      exact_mod_cast Iff.rfl
  · next hlt =>
      have hpow : (2 : ℚ) ^ a / 2 ^ b = (2 ^ (b - a))⁻¹ := by
        rw [pow_sub₀ _ two_ne_zero (Nat.le_of_not_le hlt), mul_inv, inv_inv,
          div_eq_mul_inv, mul_comm]
      rw [hpow, inv_mul_le_iff₀ (by positivity), mul_comm]
      exact_mod_cast Iff.rfl

theorem floorLog2_bounds {num den : Nat} (hnum : 0 < num) (hden : 0 < den) :
    (2 : ℚ) ^ floorLog2 num den ≤ num / den ∧ (num / den : ℚ) < 2 ^ (floorLog2 num den + 1) := by
  have hden' : (0 : ℚ) < den := by exact_mod_cast hden
  have hnumLow : (2 : ℚ) ^ num.log2 ≤ num := by exact_mod_cast Nat.log2_self_le hnum.ne'
  have hnumHigh : (num : ℚ) < 2 ^ (num.log2 + 1) := by exact_mod_cast Nat.lt_log2_self
  have hdenLow : (2 : ℚ) ^ den.log2 ≤ den := by exact_mod_cast Nat.log2_self_le hden.ne'
  have hdenHigh : (den : ℚ) < 2 ^ (den.log2 + 1) := by exact_mod_cast Nat.lt_log2_self
  unfold floorLog2
  simp only [reached_iff hden]
  split
  · next hreached =>
      refine ⟨hreached, ?_⟩
      have hexp : ((num.log2 : Int) - den.log2 + 1) = ((num.log2 + 1 : Nat) : Int) - den.log2 := by
        push_cast
        omega
      rw [hexp, two_zpow_sub]
      exact div_lt_div₀ hnumHigh hdenLow (by positivity) (by positivity)
  · next hnot =>
      have hexp :
          ((num.log2 : Int) - den.log2 - 1) = (num.log2 : Int) - ((den.log2 + 1 : Nat) : Int) := by
        push_cast
        omega
      refine ⟨?_, ?_⟩
      · rw [hexp, two_zpow_sub]
        exact div_le_div₀ (by positivity) hnumLow hden' hdenHigh.le
      · rw [sub_add_cancel]
        exact not_le.1 hnot

theorem floorLog2_eq_log {num den : Nat} (hnum : 0 < num) (hden : 0 < den) :
    floorLog2 num den = Int.log 2 (num / den : ℚ) := by
  obtain ⟨hlow, hhigh⟩ := floorLog2_bounds hnum hden
  have hpos : (0 : ℚ) < num / den := by positivity
  have hle := (Int.zpow_le_iff_le_log (b := 2) (by norm_num) hpos).1 hlow
  have hlt := (Int.lt_zpow_iff_log_lt (b := 2) (by norm_num) hpos).1 hhigh
  omega

theorem Decimal.ratio_pos (d : Decimal) : 0 < d.ratio.2 := by
  unfold Decimal.ratio
  split
  · exact Nat.one_pos
  · exact Nat.pow_pos (by decide)

/-- The magnitude of a decimal. -/
def Decimal.magnitude (d : Decimal) : ℚ :=
  d.digits * 10 ^ d.exponent

theorem Decimal.ratio_eq_magnitude (d : Decimal) : (d.ratio.1 : ℚ) / d.ratio.2 = d.magnitude := by
  unfold ratio magnitude
  split
  · next hle =>
      have hexp : (10 : ℚ) ^ d.exponent = 10 ^ d.exponent.toNat := by
        rw [← zpow_natCast, Int.toNat_of_nonneg hle]
      rw [hexp, Nat.pow_eq]
      push_cast
      rw [div_one]
  · next hlt =>
      have hexp : (10 : ℚ) ^ d.exponent = (10 ^ (-d.exponent).toNat)⁻¹ := by
        rw [← zpow_natCast, Int.toNat_of_nonneg (by omega), zpow_neg, inv_inv]
      rw [hexp, div_eq_mul_inv, Nat.pow_eq]
      push_cast
      rfl

namespace Binary64

/-- The finite data of the format: a mantissa of 53 bits and an exponent within its range. -/
def IsFinite : Binary64 → Prop
  | finite x => ∃ m q : Int, x = .ofIntWithPrec m (-q) ∧ m.natAbs < 2 ^ 53 ∧ -1074 ≤ q ∧ q ≤ 971
  | negZero => True
  | inf _ => False
  | nan _ => False

/-- Rounding goes by the value of a fraction alone. -/
theorem nearest_congr (negative : Bool) {num den num' den' : Nat} (hden : 0 < den)
    (hden' : 0 < den')
    (h : (num / den : ℚ) = num' / den') :
      nearest negative num den = nearest negative num' den' := by
  have hcross : num * den' = num' * den := by
    rw [div_eq_div_iff (by positivity) (by positivity)] at h
    exact_mod_cast h
  have hzero : num = 0 ↔ num' = 0 := by
    constructor
    · rintro rfl
      rw [Nat.zero_mul] at hcross
      exact (Nat.mul_eq_zero.1 hcross.symm).resolve_right hden.ne'
    · rintro rfl
      rw [Nat.zero_mul] at hcross
      exact (Nat.mul_eq_zero.1 hcross).resolve_right hden'.ne'
  by_cases hnum : num = 0
  · rw [nearest, nearest, if_pos hnum, if_pos (hzero.1 hnum)]
  have hnum' : num' ≠ 0 := fun h => hnum (hzero.2 h)
  have hlog : floorLog2 num den = floorLog2 num' den' := by
    rw [floorLog2_eq_log (Nat.pos_of_ne_zero hnum) hden,
      floorLog2_eq_log (Nat.pos_of_ne_zero hnum') hden', h]
  have hup (k : Nat) : roundDiv num (den * Nat.pow 2 k) = roundDiv num' (den' * Nat.pow 2 k) := by
    refine roundDiv_congr (Nat.mul_pos hden (Nat.pow_pos Nat.two_pos))
      (Nat.mul_pos hden' (Nat.pow_pos Nat.two_pos)) ?_
    rw [← Nat.mul_assoc, hcross, Nat.mul_assoc]
  have hdown (k : Nat) : roundDiv (num * Nat.pow 2 k) den = roundDiv (num' * Nat.pow 2 k) den' := by
    refine roundDiv_congr hden hden' ?_
    rw [Nat.mul_right_comm, hcross, Nat.mul_right_comm]
  simp only [nearest, if_neg hnum, if_neg hnum', hlog, hup, hdown]

theorem mantissa_exact {num den m : Nat} {q : Int} (hden : 0 < den)
    (h : (num / den : ℚ) = m * 2 ^ q) :
    (if 0 ≤ q then roundDiv num (den * Nat.pow 2 q.toNat)
      else roundDiv (num * Nat.pow 2 (-q).toNat) den) = m := by
  have hnum : (num : ℚ) = m * 2 ^ q * den := by
    rw [← h, div_mul_cancel₀ _ (by positivity)]
  split
  · next hle =>
      refine roundDiv_of_mul_eq (Nat.mul_pos hden (Nat.pow_pos Nat.two_pos)) ?_
      rw [← Int.toNat_of_nonneg hle, zpow_natCast] at hnum
      rw [Nat.pow_eq]
      have hnat : (num : ℚ) = ((m * (den * 2 ^ q.toNat) : Nat) : ℚ) := by
        rw [hnum]
        push_cast
        ring
      exact_mod_cast hnat
  · next hlt =>
      refine roundDiv_of_mul_eq hden ?_
      rw [Nat.pow_eq]
      have hpow : (2 : ℚ) ^ q * 2 ^ (-q).toNat = 1 := by
        rw [← zpow_natCast, Int.toNat_of_nonneg (by omega), ← zpow_add₀ two_ne_zero, add_neg_cancel,
          zpow_zero]
      have hnat : ((num * 2 ^ (-q).toNat : Nat) : ℚ) = ((m * den : Nat) : ℚ) := by
        push_cast
        rw [hnum, mul_right_comm, mul_assoc (m : ℚ), hpow, mul_one]
      exact_mod_cast hnat

/-- A number of the format is nearest to itself. -/
theorem nearest_exact (negative : Bool) {num den m : Nat} {q : Int} (hm : 0 < m)
    (hbits : m < 2 ^ 53)
    (hlow : -1074 ≤ q) (hhigh : q ≤ 971) (hden : 0 < den) (h : (num / den : ℚ) = m * 2 ^ q) :
    nearest negative num den =
      .finite (.ofIntWithPrec (if negative then -(m : Int) else m) (-q)) := by
  have hpos : (0 : ℚ) < num / den := by
    rw [h]
    exact mul_pos (Nat.cast_pos.2 hm) (zpow_pos two_pos q)
  have hnum : 0 < num := by
    rcases Nat.eq_zero_or_pos num with rfl | hnum
    · simp at hpos
    · exact hnum
  have hlog : floorLog2 num den - 52 ≤ q := by
    have hlt : (2 : ℚ) ^ floorLog2 num den < 2 ^ (53 + q) := by
      calc (2 : ℚ) ^ floorLog2 num den ≤ num / den := (floorLog2_bounds hnum hden).1
        _ = m * 2 ^ q := h
        _ < 2 ^ 53 * 2 ^ q := mul_lt_mul_of_pos_right (by exact_mod_cast hbits) (zpow_pos two_pos q)
        _ = 2 ^ (53 + q) := by
            rw [zpow_add₀ two_ne_zero]
            norm_num
    have := (zpow_lt_zpow_iff_right₀ one_lt_two).1 hlt
    omega
  -- The unit that is chosen is at most that of the number, so that the mantissa is whole in it.
  obtain ⟨unit, hunit⟩ : ∃ unit, unit = max (floorLog2 num den - 52) (-1074) := ⟨_, rfl⟩
  obtain ⟨k, hk⟩ : ∃ k : Nat, q = unit + k := ⟨(q - unit).toNat, by omega⟩
  have hvalue : (num / den : ℚ) = ((m * 2 ^ k : Nat) : ℚ) * 2 ^ unit := by
    rw [h, hk, zpow_add₀ two_ne_zero, zpow_natCast]
    push_cast
    ring
  have hfits : ¬(971 < unit ∨ unit = 971 ∧ Nat.pow 2 53 ≤ m * 2 ^ k) := by
    rintro (hbig | ⟨hedge, hfull⟩)
    · omega
    · have hzero : k = 0 := by omega
      rw [hzero, pow_zero, Nat.mul_one] at hfull
      exact absurd hbits (Nat.not_lt.2 hfull)
  have hne : m * 2 ^ k ≠ 0 := by positivity
  simp only [nearest, if_neg hnum.ne', ← hunit, mantissa_exact hden hvalue, if_neg hfits, ofParts,
    if_neg hne]
  refine congrArg Binary64.finite (Dyadic.toRat_inj.1 ?_)
  rw [Dyadic.toRat_ofIntWithPrec_eq_mul_two_pow, Dyadic.toRat_ofIntWithPrec_eq_mul_two_pow, neg_neg,
    neg_neg, hk, zpow_add₀ two_ne_zero, zpow_natCast]
  cases negative with
  | false =>
      push_cast
      ring
  | true =>
      rw [if_pos rfl, if_pos rfl]
      push_cast
      ring

theorem mul_two_zpow_neg_iff (m q : Int) : (m : ℚ) * 2 ^ q < 0 ↔ m < 0 := by
  have hpow : (0 : ℚ) < 2 ^ q := zpow_pos two_pos q
  constructor
  · exact fun h => Int.cast_lt_zero.1 (neg_of_mul_neg_left h hpow.le)
  · exact fun h => mul_neg_of_neg_of_pos (Int.cast_lt_zero.2 h) hpow

theorem abs_mul_two_zpow (m q : Int) : |(m : ℚ) * 2 ^ q| = m.natAbs * 2 ^ q := by
  have hpow : (0 : ℚ) < 2 ^ q := zpow_pos two_pos q
  rw [abs_mul, abs_of_pos hpow, Nat.cast_natAbs, Int.cast_abs]

theorem exactDecimal_negative (x : Dyadic) : (exactDecimal x).negative = true ↔ x.toRat < 0 := by
  cases x with
  | zero => simp [exactDecimal]
  | ofOdd n k hn =>
      rw [Dyadic.toRat_ofOdd_eq_mul_two_pow, mul_two_zpow_neg_iff, exactDecimal]
      split
      · exact decide_eq_true_iff
      · exact decide_eq_true_iff

theorem exactDecimal_magnitude (x : Dyadic) : (exactDecimal x).magnitude = |x.toRat| := by
  cases x with
  | zero => simp [exactDecimal, Decimal.magnitude]
  | ofOdd n k hn =>
      rw [Dyadic.toRat_ofOdd_eq_mul_two_pow, abs_mul_two_zpow, exactDecimal]
      split
      · next hle =>
          have hexp : (2 : ℚ) ^ (-k) = 2 ^ (-k).toNat := by
            rw [← zpow_natCast, Int.toNat_of_nonneg (by omega)]
          rw [Decimal.magnitude, zpow_zero, mul_one, hexp, Nat.pow_eq]
          push_cast
          rfl
      · next hlt =>
          obtain ⟨j, rfl⟩ : ∃ j : Nat, k = j := ⟨k.toNat, by omega⟩
          have hten : (10 : ℚ) ^ j = 5 ^ j * 2 ^ j := by
            rw [← mul_pow]
            norm_num
          have hfive : (5 : ℚ) ^ j ≠ 0 := by positivity
          rw [Decimal.magnitude, Nat.pow_eq, Int.toNat_natCast, zpow_neg, zpow_neg, zpow_natCast,
            zpow_natCast, hten, Nat.cast_mul, Nat.cast_pow, mul_inv, mul_assoc]
          rw [Nat.cast_ofNat, mul_inv_cancel_left₀ hfive]

theorem digits_exactDecimal_ne_zero {x : Dyadic} (hx : x ≠ 0) : (exactDecimal x).digits ≠ 0 := by
  intro hdigits
  have hmagnitude := exactDecimal_magnitude x
  rw [Decimal.magnitude, hdigits, Nat.cast_zero, zero_mul, eq_comm, abs_eq_zero] at hmagnitude
  exact hx (Dyadic.toRat_eq_zero_iff.1 hmagnitude)

/-- Exact decimals are within the bounds beyond which no decimal is looked at. -/
theorem exponent_exactDecimal (x : Dyadic) :
    (exactDecimal x).exponent ≤ 0 ∧
      -(400 + (exactDecimal x).digits.log2 : Int) ≤ (exactDecimal x).exponent := by
  cases x with
  | zero => exact ⟨Int.le_refl 0, by simp [exactDecimal]⟩
  | ofOdd n k hn =>
      rw [exactDecimal]
      split
      · exact ⟨Int.le_refl 0, by simp⟩
      · next hlt =>
          obtain ⟨j, rfl⟩ : ∃ j : Nat, k = j := ⟨k.toNat, by omega⟩
          have hn0 : 0 < n.natAbs := by omega
          have hlog : j ≤ (n.natAbs * Nat.pow 5 j).log2 := by
            rw [Nat.pow_eq, Nat.le_log2 (Nat.mul_pos hn0 (Nat.pow_pos (by decide))).ne']
            calc 2 ^ j ≤ 5 ^ j := Nat.pow_le_pow_left (by decide) j
              _ ≤ n.natAbs * 5 ^ j := Nat.le_mul_of_pos_left _ hn0
          simp only [Int.toNat_natCast]
          omega

theorem ofDecimal_exactDecimal {x : Dyadic} (hx : x ≠ 0) (hfinite : (finite x).IsFinite) :
    ofDecimal (exactDecimal x) = .finite x := by
  obtain ⟨m, q, hvalue, hbits, hlow, hhigh⟩ := hfinite
  obtain ⟨hexp, hexp'⟩ := exponent_exactDecimal x
  have hrat : x.toRat = m * 2 ^ q := by
    rw [hvalue, Dyadic.toRat_ofIntWithPrec_eq_mul_two_pow, neg_neg]
  have hm : 0 < m.natAbs := by
    refine Int.natAbs_pos.2 fun hzero => hx (Dyadic.toRat_eq_zero_iff.1 ?_)
    rw [hrat, hzero, Int.cast_zero, zero_mul]
  have hratio : ((exactDecimal x).ratio.1 / (exactDecimal x).ratio.2 : ℚ) = m.natAbs * 2 ^ q := by
    rw [Decimal.ratio_eq_magnitude, exactDecimal_magnitude, hrat, abs_mul_two_zpow]
  have hsign : (if (exactDecimal x).negative then -(m.natAbs : Int) else m.natAbs) = m := by
    have hiff : (exactDecimal x).negative = true ↔ m < 0 := by
      rw [exactDecimal_negative, hrat, mul_two_zpow_neg_iff]
    split
    · next hneg =>
        have := hiff.1 hneg
        omega
    · next hpos =>
        have := mt hiff.2 hpos
        omega
  rw [ofDecimal, if_neg (digits_exactDecimal_ne_zero hx), if_neg (by omega), if_neg (by omega),
    nearest_exact _ hm hbits hlow hhigh (Decimal.ratio_pos _) hratio, hsign, hvalue]

theorem ofDecimal_searchDecimal {x : Dyadic} (hexact : ofDecimal (exactDecimal x) = .finite x)
    (tries : Nat) (unit : Int) : ofDecimal (searchDecimal x tries unit) = .finite x := by
  induction tries generalizing unit with
  | zero => exact hexact
  | succ tries ih =>
      rw [searchDecimal]
      split
      · next hfirst => exact hfirst
      · split
        · next hsecond => exact hsecond
        · exact ih _

/-- What is written for a number leads back to it. -/
theorem ofDecimal_shortestDecimal {x : Dyadic} (hx : x ≠ 0) (hfinite : (finite x).IsFinite) :
    ofDecimal (shortestDecimal x) = .finite x :=
  ofDecimal_searchDecimal (ofDecimal_exactDecimal hx hfinite) _ _

theorem nearest_of_ofDecimal {d : Decimal} {x : Dyadic} (hx : x ≠ 0) (h : ofDecimal d = .finite x) :
    nearest d.negative d.ratio.1 d.ratio.2 = .finite x := by
  have hzero : ofParts d.negative 0 0 ≠ .finite x := by
    unfold ofParts
    cases d.negative with
    | false => exact fun h => hx (finite.inj h).symm
    | true => exact Binary64.noConfusion
  unfold ofDecimal at h
  split at h
  · exact absurd h hzero
  · split at h
    · cases h
    · split at h
      · exact absurd h hzero
      · exact h

theorem ofDecimal_inj {d d' : Decimal} {x y : Dyadic} (hx : x ≠ 0) (hy : y ≠ 0)
    (hd : ofDecimal d = .finite x) (hd' : ofDecimal d' = .finite y)
    (hsign : d.negative = d'.negative) (hmagnitude : d.magnitude = d'.magnitude) : x = y := by
  have hnearest := nearest_of_ofDecimal hx hd
  rw [hsign, nearest_congr _ d.ratio_pos d'.ratio_pos, nearest_of_ofDecimal hy hd'] at hnearest
  · exact (finite.inj hnearest).symm
  · rw [Decimal.ratio_eq_magnitude, Decimal.ratio_eq_magnitude, hmagnitude]

end Binary64

end TypeGuard
