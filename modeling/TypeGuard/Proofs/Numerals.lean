import TypeGuard.Proofs.Rounding

/-! The text of a number reads back as a decimal of its sign and value, however it is laid out, so
no two numbers have the same text. -/

namespace TypeGuard

namespace Text

/-- The text goes on with no character of the class, if it goes on. -/
def Stops (p : Char → Bool) (s : List Char) : Prop :=
  ∀ c ∈ s.head?, p c = false

variable {p : Char → Bool} {u v s t : List Char}

theorem stops_cons {c : Char} (hc : p c = false) (s : List Char) : Stops p (c :: s) := by
  intro d hd
  cases hd
  exact hc

theorem takeWhile_run (hu : ∀ c ∈ u, p c = true) (hs : Stops p s) :
    (u ++ s).takeWhile p = u ∧ (u ++ s).dropWhile p = s := by
  rw [List.takeWhile_append_of_pos hu, List.dropWhile_append_of_pos hu]
  cases s with
  | nil => simp
  | cons c s =>
      have hc : p c = false := hs c rfl
      simp [hc]

end Text

namespace Decimal

theorem digitsValue_eq (s : List Char) : digitsValue s = Nat.ofDigitChars 10 s 0 :=
  Nat.ofDigitChars_eq_foldl.symm

theorem digitsValue_append (s t : List Char) :
    digitsValue (s ++ t) = digitsValue s * 10 ^ t.length + digitsValue t := by
  rw [digitsValue_eq, digitsValue_eq, digitsValue_eq, Nat.ofDigitChars_append,
    Nat.ofDigitChars_eq_ofDigitChars_zero, Nat.mul_comm]

@[simp] theorem digitsValue_zeros (n : Nat) : digitsValue (List.replicate n '0') = 0 := by
  rw [digitsValue_eq, Nat.ofDigitChars_replicate_zero, Nat.mul_zero]

@[simp] theorem digitsValue_toDigits (n : Nat) : digitsValue (Nat.toDigits 10 n) = n := by
  rw [digitsValue_eq, Nat.ofDigitChars_ten_toDigits]

theorem splitSign_digits {s : List Char} (hs : s ≠ []) (hdigits : ∀ c ∈ s, c.isDigit = true)
    (rest : List Char) : splitSign (s ++ rest) = (false, s ++ rest) := by
  cases s with
  | nil => exact absurd rfl hs
  | cons c s =>
      have hc := hdigits c List.mem_cons_self
      unfold splitSign
      split
      · next heq =>
          cases heq
          cases hc
      · next heq =>
          cases heq
          cases hc
      · rfl

/-- A sign, if the number is negative. -/
def signed (negative : Bool) (s : List Char) : List Char :=
  if negative then '-' :: s else s

theorem splitSign_signed {s : List Char} (hs : s ≠ []) (hdigits : ∀ c ∈ s, c.isDigit = true)
    (negative : Bool) (rest : List Char) :
    splitSign (signed negative (s ++ rest)) = (negative, s ++ rest) := by
  cases negative with
  | false => exact splitSign_digits hs hdigits rest
  | true => rfl

theorem read?_point {whole fraction : List Char} (hwhole : whole ≠ [])
    (hdigits : ∀ c ∈ whole, c.isDigit = true) (hfraction : ∀ c ∈ fraction, c.isDigit = true)
    (rest : List Char) (hrest : Text.Stops Char.isDigit rest) (negative : Bool) :
    read? (String.ofList (signed negative (whole ++ '.' :: (fraction ++ rest)))) =
      (readExponent? rest).map fun e =>
        ⟨negative, digitsValue (whole ++ fraction), e - fraction.length⟩ := by
  obtain ⟨htake, hdrop⟩ :=
    Text.takeWhile_run hdigits (Text.stops_cons (c := '.') rfl (fraction ++ rest))
  obtain ⟨htake', hdrop'⟩ := Text.takeWhile_run hfraction hrest
  simp only [read?, String.toList_ofList, splitSign_signed hwhole hdigits, htake,
    hdrop, htake', hdrop', hwhole, false_and, if_false]

theorem read?_mark {whole : List Char} (hwhole : whole ≠ [])
    (hdigits : ∀ c ∈ whole, c.isDigit = true) (negative : Bool) (rest : List Char) :
    read? (String.ofList (signed negative (whole ++ 'e' :: rest))) =
      (readExponent? ('e' :: rest)).map fun e => ⟨negative, digitsValue whole, e⟩ := by
  obtain ⟨htake, hdrop⟩ := Text.takeWhile_run hdigits (Text.stops_cons (c := 'e') rfl rest)
  simp [read?, splitSign_signed hwhole hdigits, htake, hdrop, hwhole]

theorem isDigit_replicate {n : Nat} : ∀ c ∈ List.replicate n '0', c.isDigit = true := by
  intro c hc
  rw [List.eq_of_mem_replicate hc]
  rfl

theorem readExponent?_mark (e : Int) (zeros : Nat) :
    readExponent? ('e' :: (if e < 0 then '-' else '+') ::
      (List.replicate zeros '0' ++ Nat.toDigits 10 e.natAbs)) = some e := by
  have hdigits : ∀ c ∈ List.replicate zeros '0' ++ Nat.toDigits 10 e.natAbs, c.isDigit = true := by
    intro c hc
    rcases List.mem_append.1 hc with hc | hc
    · exact isDigit_replicate c hc
    · exact Nat.isDigit_of_mem_toDigits (by decide) (by decide) hc
  have hne : List.replicate zeros '0' ++ Nat.toDigits 10 e.natAbs ≠ [] :=
    List.append_ne_nil_of_right_ne_nil _ Nat.toDigits_ne_nil
  have hvalue : digitsValue (List.replicate zeros '0' ++ Nat.toDigits 10 e.natAbs) = e.natAbs := by
    rw [digitsValue_append, digitsValue_zeros, Nat.zero_mul, Nat.zero_add, digitsValue_toDigits]
  have hall := List.all_eq_true.2 hdigits
  by_cases he : e < 0
  · have hread : (-(e.natAbs : Int)) = e := by omega
    simp only [readExponent?, if_pos he, splitSign, hall, hvalue]
    rw [if_pos ⟨.inl trivial, hne, trivial⟩, if_pos trivial, hread]
  · have hread : (e.natAbs : Int) = e := by omega
    simp only [readExponent?, if_neg he, splitSign, hall, hvalue]
    rw [if_pos ⟨.inl trivial, hne, trivial⟩, if_neg Bool.false_ne_true, hread]

end Decimal

namespace Binary64

open Decimal

/-- Digits and the place of the point before the first of them, as the magnitude they stand for. -/
def pointed (digits : List Char) (point : Int) : ℚ :=
  digitsValue digits * 10 ^ (point - digits.length)

/-- The significant digits are those of the decimal, and the place of the point makes up for the
zeros that are left out. -/
theorem significand_spec {d : Decimal} (hd : d.digits ≠ 0) :
    (significand d).1 ≠ [] ∧ (∀ c ∈ (significand d).1, c.isDigit = true) ∧
      pointed (significand d).1 (significand d).2 = d.magnitude := by
  obtain ⟨ts, hts⟩ : ∃ ts, ts = Nat.toDigits 10 d.digits := ⟨_, rfl⟩
  obtain ⟨zeros, hzeros⟩ : ∃ zeros, zeros = (ts.reverse.takeWhile (· = '0')).length := ⟨_, rfl⟩
  have hsplit : ts = (significand d).1 ++ List.replicate zeros '0' := by
    have htake : ts.reverse.takeWhile (· = '0') = List.replicate zeros '0' := by
      refine List.eq_replicate_iff.2 ⟨hzeros.symm, fun c hc => ?_⟩
      exact of_decide_eq_true (List.all_eq_true.1 List.all_takeWhile c hc)
    have hjoin :=
      congrArg List.reverse (List.takeWhile_append_dropWhile (p := (· = '0')) (l := ts.reverse))
    rw [List.reverse_append, List.reverse_reverse, htake, List.reverse_replicate] at hjoin
    rw [significand, ← hts]
    exact hjoin.symm
  have hvalue : digitsValue (significand d).1 * 10 ^ zeros = d.digits := by
    have hall : digitsValue ts = d.digits := by rw [hts, digitsValue_toDigits]
    rw [hsplit, digitsValue_append, digitsValue_zeros, List.length_replicate, Nat.add_zero] at hall
    exact hall
  have hpoint : (significand d).2 = ((significand d).1.length : Int) + zeros + d.exponent := by
    have hlength := congrArg List.length hsplit
    rw [List.length_append, List.length_replicate] at hlength
    have hdef : (significand d).2 = (ts.length : Int) + d.exponent := by
      rw [hts]
      rfl
    omega
  refine ⟨fun hnil => hd ?_, fun c hc => ?_, ?_⟩
  · rw [← hvalue, hnil]
    exact Nat.zero_mul _
  · have hmem : c ∈ ts := hsplit ▸ List.mem_append_left _ hc
    rw [hts] at hmem
    exact Nat.isDigit_of_mem_toDigits (by decide) (by decide) hmem
  · have hexp : ((significand d).1.length : Int) + zeros + d.exponent - (significand d).1.length =
        zeros + d.exponent := by omega
    rw [pointed, Decimal.magnitude, ← hvalue, hpoint, hexp, zpow_add₀ (by norm_num), zpow_natCast]
    push_cast
    ring

/-- The text reads as a decimal of that sign and magnitude. -/
def ReadsAs (s : List Char) (negative : Bool) (magnitude : ℚ) : Prop :=
  ∃ d, Decimal.read? (String.ofList s) = some d ∧ d.negative = negative ∧ d.magnitude = magnitude

theorem ReadsAs.unique {s : List Char} {negative negative' : Bool} {magnitude magnitude' : ℚ}
    (h : ReadsAs s negative magnitude) (h' : ReadsAs s negative' magnitude') :
    negative = negative' ∧ magnitude = magnitude' := by
  obtain ⟨d, hd, rfl, rfl⟩ := h
  obtain ⟨d', hd', rfl, rfl⟩ := h'
  cases hd.symm.trans hd'
  exact ⟨rfl, rfl⟩

theorem readsAs_point (whole fraction : List Char) (hwhole : whole ≠ [])
    (hdigits : ∀ c ∈ whole, c.isDigit = true) (hfraction : ∀ c ∈ fraction, c.isDigit = true)
    (negative : Bool) :
    ReadsAs (signed negative (whole ++ '.' :: fraction)) negative
      (digitsValue (whole ++ fraction) * 10 ^ (-(fraction.length : Int))) := by
  have hread := read?_point hwhole hdigits hfraction [] (fun c hc => by cases hc) negative
  rw [List.append_nil, readExponent?, Option.map_some, Int.zero_sub] at hread
  exact ⟨_, hread, rfl, rfl⟩

theorem readsAs_positional {digits : List Char} (hne : digits ≠ [])
    (hdigits : ∀ c ∈ digits, c.isDigit = true) (point : Int) (negative : Bool) :
    ReadsAs (signed negative (positional digits point)) negative (pointed digits point) := by
  unfold positional
  split
  · next hle =>
      have hfraction : ∀ c ∈ List.replicate (-point).toNat '0' ++ digits, c.isDigit = true := by
        intro c hc
        rcases List.mem_append.1 hc with hc | hc
        · exact isDigit_replicate c hc
        · exact hdigits c hc
      have hread := readsAs_point ['0'] _ (by simp) (by simp) hfraction negative
      have hvalue : digitsValue (['0'] ++ (List.replicate (-point).toNat '0' ++ digits)) =
          digitsValue digits := by
        rw [← List.append_assoc, digitsValue_append,
          show ['0'] ++ List.replicate (-point).toNat '0' =
            List.replicate ((-point).toNat + 1) '0' from rfl,
          digitsValue_zeros, Nat.zero_mul, Nat.zero_add]
      have hexp : -((List.replicate (-point).toNat '0' ++ digits).length : Int) =
          point - digits.length := by
        rw [List.length_append, List.length_replicate]
        omega
      rw [hvalue, hexp] at hread
      exact hread
  · next hpos =>
      split
      · next hlong =>
          have hwhole : ∀ c ∈ digits ++ List.replicate (point.toNat - digits.length) '0',
              c.isDigit = true := by
            intro c hc
            rcases List.mem_append.1 hc with hc | hc
            · exact hdigits c hc
            · exact isDigit_replicate c hc
          have hread :=
            readsAs_point _ ['0'] (List.append_ne_nil_of_left_ne_nil hne _) hwhole (by simp)
            negative
          obtain ⟨k, hk⟩ : ∃ k : Nat, point = digits.length + k :=
            ⟨(point - digits.length).toNat, by omega⟩
          have hzeros : point.toNat - digits.length = k := by omega
          have hvalue : (digitsValue (digits ++ List.replicate k '0' ++ ['0']) : ℚ) *
              10 ^ (-(['0'].length : Int)) = pointed digits point := by
            rw [List.append_assoc, digitsValue_append, ← List.replicate_succ', digitsValue_zeros,
              List.length_replicate, pointed, hk, add_sub_cancel_left, zpow_natCast]
            push_cast
            rw [pow_succ, zpow_neg, List.length_singleton]
            norm_num
            ring
          rw [hzeros, hvalue] at hread
          rw [hzeros]
          exact hread
      · next hshort =>
          have htake : digits.take point.toNat ≠ [] := by
            rw [Ne, List.take_eq_nil_iff, not_or]
            exact ⟨by omega, hne⟩
          have hread := readsAs_point (digits.take point.toNat) (digits.drop point.toNat) htake
            (fun c hc => hdigits c (List.mem_of_mem_take hc))
            (fun c hc => hdigits c (List.mem_of_mem_drop hc)) negative
          have hexp : -((digits.drop point.toNat).length : Int) = point - digits.length := by
            rw [List.length_drop]
            omega
          rw [List.take_append_drop, hexp] at hread
          exact hread

theorem readsAs_exponential {digits : List Char} (hne : digits ≠ [])
    (hdigits : ∀ c ∈ digits, c.isDigit = true) (point : Int) (negative : Bool) :
    ReadsAs (signed negative (exponential digits point)) negative (pointed digits point) := by
  obtain ⟨tail, htail⟩ : ∃ tail, tail = (if point - 1 < 0 then '-' else '+') ::
      (List.replicate (2 - (Nat.toDigits 10 (point - 1).natAbs).length) '0' ++
        Nat.toDigits 10 (point - 1).natAbs) := ⟨_, rfl⟩
  have hexponent : readExponent? ('e' :: tail) = some (point - 1) := htail ▸ readExponent?_mark _ _
  cases digits with
  | nil => exact absurd rfl hne
  | cons first rest =>
      rw [List.forall_mem_cons] at hdigits
      have hfirst : ∀ c ∈ [first], c.isDigit = true := List.forall_mem_singleton.2 hdigits.1
      cases rest with
      | nil =>
          have hread := read?_mark (List.cons_ne_nil first []) hfirst negative tail
          rw [hexponent, htail] at hread
          exact ⟨_, hread, rfl, rfl⟩
      | cons second rest =>
          have hread := read?_point (List.cons_ne_nil first []) hfirst hdigits.2 ('e' :: tail)
            (Text.stops_cons rfl tail) negative
          have hexp : point - 1 - ((second :: rest).length : Int) =
              point - ((first :: second :: rest).length : Int) := by
            simp only [List.length_cons]
            omega
          rw [hexponent, htail, Option.map_some, hexp] at hread
          exact ⟨_, hread, rfl, rfl⟩

/-- However a decimal is laid out, it reads back with its sign and magnitude. -/
theorem readsAs_layout {d : Decimal} (hd : d.digits ≠ 0) :
    ReadsAs (layout d) d.negative d.magnitude := by
  obtain ⟨hne, hdigits, hvalue⟩ := significand_spec hd
  rw [← hvalue]
  have hbody : layout d = signed d.negative
      (if -4 < (significand d).2 ∧ (significand d).2 ≤ 16 then
        positional (significand d).1 (significand d).2
      else exponential (significand d).1 (significand d).2) := rfl
  rw [hbody]
  split
  · exact readsAs_positional hne hdigits _ _
  · exact readsAs_exponential hne hdigits _ _

/-- The characters that numbers are written with. -/
def isNumeral (c : Char) : Bool :=
  c.isDigit || c = '.' || c = 'e' || c = '+' || c = '-'

theorem isNumeral_of_isDigit {c : Char} (h : c.isDigit = true) : isNumeral c = true := by
  simp [isNumeral, h]

theorem isNumeral_positional {digits : List Char}
    (hdigits : ∀ c ∈ digits, c.isDigit = true) (point : Int) :
    (∀ c ∈ positional digits point, isNumeral c = true) ∧ '.' ∈ positional digits point := by
  have hdigit : ∀ c ∈ digits, isNumeral c = true := fun c hc => isNumeral_of_isDigit (hdigits c hc)
  have hzeros : ∀ n, ∀ c ∈ List.replicate n '0', isNumeral c = true := fun n c hc =>
    isNumeral_of_isDigit (isDigit_replicate c hc)
  unfold positional
  split
  · refine ⟨?_, by simp⟩
    simp only [List.mem_cons, List.mem_append]
    rintro c (rfl | rfl | hc | hc)
    · rfl
    · rfl
    · exact hzeros _ c hc
    · exact hdigit c hc
  · split
    · refine ⟨?_, by simp⟩
      simp only [List.mem_cons, List.mem_append, List.not_mem_nil, or_false]
      rintro c ((hc | hc) | rfl | rfl)
      · exact hdigit c hc
      · exact hzeros _ c hc
      · rfl
      · rfl
    · refine ⟨?_, by simp⟩
      simp only [List.mem_cons, List.mem_append]
      rintro c (hc | rfl | hc)
      · exact hdigit c (List.mem_of_mem_take hc)
      · rfl
      · exact hdigit c (List.mem_of_mem_drop hc)

theorem isNumeral_exponential {digits : List Char}
    (hdigits : ∀ c ∈ digits, c.isDigit = true) (point : Int) :
    (∀ c ∈ exponential digits point, isNumeral c = true) ∧ 'e' ∈ exponential digits point := by
  have hdigit : ∀ c ∈ digits, isNumeral c = true := fun c hc => isNumeral_of_isDigit (hdigits c hc)
  have hexponent : ∀ c ∈ (if point - 1 < 0 then '-' else '+') ::
      (List.replicate (2 - (Nat.toDigits 10 (point - 1).natAbs).length) '0' ++
        Nat.toDigits 10 (point - 1).natAbs), isNumeral c = true := by
    simp only [List.mem_cons, List.mem_append]
    rintro c (rfl | hc | hc)
    · split
      · rfl
      · rfl
    · exact isNumeral_of_isDigit (isDigit_replicate c hc)
    · exact isNumeral_of_isDigit (Nat.isDigit_of_mem_toDigits (by decide) (by decide) hc)
  unfold exponential
  refine ⟨fun c hc => ?_, by simp⟩
  rcases List.mem_append.1 hc with hc | hc
  · split at hc
    · exact hdigit c hc
    · rcases List.mem_cons.1 hc with rfl | hc
      · exact hdigit c List.mem_cons_self
      · rcases List.mem_cons.1 hc with rfl | hc
        · rfl
        · exact hdigit c (List.mem_cons_of_mem _ hc)
    · cases hc
  · rcases List.mem_cons.1 hc with rfl | hc
    · rfl
    · exact hexponent c hc

theorem isNumeral_layout {d : Decimal} (hd : d.digits ≠ 0) :
    (∀ c ∈ layout d, isNumeral c = true) ∧ ('.' ∈ layout d ∨ 'e' ∈ layout d) := by
  obtain ⟨_, hdigits, _⟩ := significand_spec hd
  obtain ⟨hpositional, hpoint⟩ := isNumeral_positional hdigits (significand d).2
  obtain ⟨hexponential, hmark⟩ := isNumeral_exponential hdigits (significand d).2
  unfold layout
  simp only
  split
  · split
    · exact ⟨List.forall_mem_cons.2 ⟨rfl, hpositional⟩, .inl (List.mem_cons_of_mem _ hpoint)⟩
    · exact ⟨List.forall_mem_cons.2 ⟨rfl, hexponential⟩, .inr (List.mem_cons_of_mem _ hmark)⟩
  · split
    · exact ⟨hpositional, .inl hpoint⟩
    · exact ⟨hexponential, .inr hmark⟩

theorem exists_of_toInt?_eq_none {x : Binary64} (hx : x.IsFinite) (hwhole : x.toInt? = none) :
    ∃ (v : Dyadic) (d : Decimal), x = .finite v ∧ v ≠ 0 ∧ d.digits ≠ 0 ∧ ofDecimal d = .finite v ∧
      x.text.toList = layout d := by
  cases x with
  | negZero => cases hwhole
  | inf negative => exact hx.elim
  | nan tag => exact hx.elim
  | finite v =>
      cases v with
      | zero => cases hwhole
      | ofOdd n k hn =>
          have hne : Dyadic.ofOdd n k hn ≠ 0 := Dyadic.noConfusion
          have hback := ofDecimal_shortestDecimal hne hx
          refine ⟨_, _, rfl, hne, fun hzero => ?_, hback, String.toList_ofList⟩
          rw [ofDecimal, if_pos hzero, ofParts, if_pos rfl] at hback
          split at hback
          · cases hback
          · exact hne (finite.inj hback).symm

/-- No two numbers that are not whole have the same text. -/
theorem text_inj {x y : Binary64} (hx : x.IsFinite) (hy : y.IsFinite) (hwhole : x.toInt? = none)
    (hwhole' : y.toInt? = none) (h : x.text = y.text) : x = y := by
  obtain ⟨v, d, rfl, hv, hdigits, hback, htext⟩ := exists_of_toInt?_eq_none hx hwhole
  obtain ⟨w, d', rfl, hw, hdigits', hback', htext'⟩ := exists_of_toInt?_eq_none hy hwhole'
  have hreads := readsAs_layout hdigits
  rw [← htext, h, htext'] at hreads
  obtain ⟨hsign, hmagnitude⟩ := hreads.unique (readsAs_layout hdigits')
  exact congrArg finite (ofDecimal_inj hv hw hback hback' hsign hmagnitude)

end Binary64

theorem isDigit_of_mem_repr {n : Nat} : ∀ c ∈ n.repr.toList, c.isDigit = true := by
  intro c hc
  rw [Nat.repr_eq_ofList_toDigits, String.toList_ofList] at hc
  exact Nat.isDigit_of_mem_toDigits (by decide) (by decide) hc

theorem digit_or_minus_of_mem_repr (n : Int) : ∀ c ∈ n.repr.toList, c.isDigit = true ∨ c = '-' := by
  intro c hc
  rw [Int.repr_eq_if] at hc
  split at hc
  · exact .inl (isDigit_of_mem_repr c hc)
  · rw [String.toList_append] at hc
    rcases List.mem_append.1 hc with hc | hc
    · exact .inr (List.mem_singleton.1 hc)
    · exact .inl (isDigit_of_mem_repr c hc)

theorem natText_inj {n m : Nat} (h : n.repr.toList = m.repr.toList) : n = m := by
  rw [Nat.repr_eq_ofList_toDigits, Nat.repr_eq_ofList_toDigits, String.toList_ofList,
    String.toList_ofList] at h
  rw [← Decimal.digitsValue_toDigits n, h, Decimal.digitsValue_toDigits]

theorem natText_ne_minus (n : Nat) (s : List Char) : n.repr.toList ≠ '-' :: s := by
  intro h
  have hminus := isDigit_of_mem_repr '-' (h ▸ List.mem_cons_self)
  cases hminus

/-- No two whole numbers have the same text. -/
theorem intText_inj {n m : Int} (h : n.repr.toList = m.repr.toList) : n = m := by
  rw [Int.repr_eq_if, Int.repr_eq_if] at h
  split at h
  · split at h
    · have habs := natText_inj h
      omega
    · exact absurd (h.trans (String.toList_append ..)) (natText_ne_minus _ _)
  · split at h
    · exact absurd (h.symm.trans (String.toList_append ..)) (natText_ne_minus _ _)
    · rw [String.toList_append, String.toList_append] at h
      have habs := natText_inj (List.append_cancel_left h)
      omega

end TypeGuard
