import TypeGuard.Expr.Render
import TypeGuard.Proofs.Numerals

/-! The smallest parts of the text of an expression: words, strings between quotes and constants.
Where each of them ends can be seen from the text, and so can what it stands for. -/

namespace TypeGuard

namespace Text

variable {p : Char → Bool} {u v s t : List Char}

theorem run_cancel (hu : ∀ c ∈ u, p c = true) (hv : ∀ c ∈ v, p c = true) (hs : Stops p s)
    (ht : Stops p t) (h : u ++ s = v ++ t) : u = v ∧ s = t := by
  obtain ⟨hutake, hudrop⟩ := takeWhile_run hu hs
  obtain ⟨hvtake, hvdrop⟩ := takeWhile_run hv ht
  rw [h] at hutake hudrop
  exact ⟨hutake.symm.trans hvtake, hudrop.symm.trans hvdrop⟩

theorem length_hex (width n : Nat) : (hex width n).length = width := by
  induction width generalizing n with
  | zero => rfl
  | succ width ih => rw [hex, List.length_append, ih, List.length_singleton]

theorem hexDigit_inj {n m : Nat} (h : hexDigit n = hexDigit m) : n % 16 = m % 16 := by
  have hinj : ∀ i < 16, ∀ j < 16, Nat.digitChar i = Nat.digitChar j → i = j := by decide
  exact hinj _ (Nat.mod_lt _ (by decide)) _ (Nat.mod_lt _ (by decide)) h

theorem hex_inj {width n m : Nat} (h : hex width n = hex width m) :
    n % 16 ^ width = m % 16 ^ width := by
  induction width generalizing n m with
  | zero => rw [pow_zero, Nat.mod_one, Nat.mod_one]
  | succ width ih =>
      rw [hex, hex] at h
      obtain ⟨hhigh, hlow⟩ := List.append_inj h (by rw [length_hex, length_hex])
      have hdigit := hexDigit_inj (List.singleton_inj.1 hlow)
      rw [pow_succ, Nat.mul_comm, Nat.mod_mul, Nat.mod_mul, hdigit, ih hhigh]

namespace Escaped

theorem unit_cancel {n m : CodeUnit} (h : unit n ++ s = unit m ++ t) : n = m ∧ s = t := by
  have hcons : hex 4 n ++ s = hex 4 m ++ t := (List.cons.inj (List.cons.inj h).2).2
  obtain ⟨hhex, hrest⟩ := List.append_inj hcons (by rw [length_hex, length_hex])
  have hunits := hex_inj hhex
  exact ⟨Fin.ext (by omega), hrest⟩

/-- What stands for itself or is named by a letter after a backslash. -/
def plain : Char → Char
  | 'n' => '\n'
  | 'r' => '\r'
  | 't' => '\t'
  | 'b' => '\x08'
  | 'f' => '\x0c'
  | c => c

/-- What a unit is written with can be told from where it starts. -/
inductive Mark where
  | self
  | letter
  | unit

def Mark.ofText : List Char → Mark
  | '\\' :: 'u' :: _ => unit
  | '\\' :: _ => letter
  | _ => self

/-- The ways to write a unit. -/
inductive Spelling : Mark → CodeUnit → List Char → Prop
  | self {n : CodeUnit} {c : Char} (hc : n.val = c.toNat) (hslash : c ≠ '\\') (hquote : c ≠ '"') :
      Spelling .self n [c]
  | letter {n : CodeUnit} {x : Char} (hx : x ≠ 'u') (hn : n.val = (plain x).toNat) :
      Spelling .letter n ['\\', x]
  | unit (n : CodeUnit) : Spelling .unit n (unit n)

theorem spelling_encodeUnit (n : CodeUnit) : ∃ m, Spelling m n (encodeUnit n) := by
  rw [encodeUnit]
  by_cases hquote : n = 0x22 ∨ n = 0x5c
  · rw [if_pos hquote]
    rcases hquote with rfl | rfl
    · exact ⟨_, .letter (by decide) rfl⟩
    · exact ⟨_, .letter (by decide) rfl⟩
  rw [if_neg hquote]
  by_cases hn : n = 0x0a
  · rw [if_pos hn]
    exact ⟨_, .letter (by decide) (congrArg Fin.val hn)⟩
  rw [if_neg hn]
  by_cases hr : n = 0x0d
  · rw [if_pos hr]
    exact ⟨_, .letter (by decide) (congrArg Fin.val hr)⟩
  rw [if_neg hr]
  by_cases ht : n = 0x09
  · rw [if_pos ht]
    exact ⟨_, .letter (by decide) (congrArg Fin.val ht)⟩
  rw [if_neg ht]
  by_cases hb : n = 0x08
  · rw [if_pos hb]
    exact ⟨_, .letter (by decide) (congrArg Fin.val hb)⟩
  rw [if_neg hb]
  by_cases hf : n = 0x0c
  · rw [if_pos hf]
    exact ⟨_, .letter (by decide) (congrArg Fin.val hf)⟩
  rw [if_neg hf]
  by_cases hprintable : 0x20 ≤ n ∧ n < 0x7f
  · rw [if_pos hprintable]
    rw [not_or] at hquote
    have hback : (Char.ofNat n).toNat = n := by
      rw [Char.ofNat, dif_pos (.inl (Nat.lt_trans hprintable.2 (by decide)))]
      rfl
    refine ⟨_, .self hback.symm (fun hslash => hquote.2 ?_) (fun hquoted => hquote.1 ?_)⟩
    · exact Fin.ext (hback.symm.trans (congrArg Char.toNat hslash))
    · exact Fin.ext (hback.symm.trans (congrArg Char.toNat hquoted))
  · rw [if_neg hprintable]
    exact ⟨_, .unit n⟩

namespace Spelling

variable {m m' : Mark} {a b : CodeUnit}

theorem ofText_eq (h : Spelling m a u) (s : List Char) : Mark.ofText (u ++ s) = m := by
  cases h with
  | self _ hslash =>
      rw [List.singleton_append, Mark.ofText]
      · exact fun _ hcons => hslash (List.cons.inj hcons).1
      · exact fun _ hcons => hslash (List.cons.inj hcons).1
  | letter hx =>
      rw [List.cons_append, Mark.ofText]
      exact fun _ hcons => hx (List.cons.inj hcons).1
  | unit => rfl

theorem head (h : Spelling m a u) : ∃ x rest, u = x :: rest ∧ x ≠ '"' := by
  cases h with
  | self _ _ hquote => exact ⟨_, [], rfl, hquote⟩
  | letter => exact ⟨_, _, rfl, by decide⟩
  | unit => exact ⟨_, _, rfl, by decide⟩

/-- A unit and what comes after it can be told from the text. -/
theorem cancel (h : Spelling m a u) (h' : Spelling m' b v) (heq : u ++ s = v ++ t) :
    a = b ∧ s = t := by
  have hmark : m = m' := by rw [← h.ofText_eq s, ← h'.ofText_eq t, heq]
  cases h with
  | self ha =>
      cases h' with
      | self hb =>
          obtain ⟨rfl, hrest⟩ := List.cons.inj heq
          exact ⟨Fin.ext (ha.trans hb.symm), hrest⟩
      | _ => cases hmark
  | letter _ ha =>
      cases h' with
      | letter _ hb =>
          obtain ⟨rfl, hrest⟩ := List.cons.inj (List.cons.inj heq).2
          exact ⟨Fin.ext (ha.trans hb.symm), hrest⟩
      | _ => cases hmark
  | unit =>
      cases h' with
      | unit => exact unit_cancel heq
      | _ => cases hmark

end Spelling

theorem units_cancel {k l : List CodeUnit}
    (h : k.flatMap encodeUnit ++ '"' :: s = l.flatMap encodeUnit ++ '"' :: t) : k = l ∧ s = t := by
  induction k generalizing l with
  | nil =>
      cases l with
      | nil => exact ⟨rfl, (List.cons.inj h).2⟩
      | cons b l =>
          obtain ⟨_, hspelling⟩ := spelling_encodeUnit b
          obtain ⟨x, rest, hx, hquote⟩ := hspelling.head
          rw [List.flatMap_cons, hx] at h
          exact absurd (List.cons.inj h).1.symm hquote
  | cons a k ih =>
      cases l with
      | nil =>
          obtain ⟨_, hspelling⟩ := spelling_encodeUnit a
          obtain ⟨x, rest, hx, hquote⟩ := hspelling.head
          rw [List.flatMap_cons, hx] at h
          exact absurd (List.cons.inj h).1 hquote
      | cons b l =>
          rw [List.flatMap_cons, List.flatMap_cons, List.append_assoc, List.append_assoc] at h
          obtain ⟨_, ha⟩ := spelling_encodeUnit a
          obtain ⟨_, hb⟩ := spelling_encodeUnit b
          obtain ⟨rfl, hrest⟩ := ha.cancel hb h
          obtain ⟨rfl, hst⟩ := ih hrest
          exact ⟨rfl, hst⟩

/-- Where a string between quotes ends can be told from the text, and so can its units. -/
theorem encode_cancel {k l : List CodePoint} (h : encode k ++ s = encode l ++ t) :
    k.flatMap CodePoint.units = l.flatMap CodePoint.units ∧ s = t := by
  have htail : (k.flatMap CodePoint.units).flatMap encodeUnit ++ ['"'] ++ s =
      (l.flatMap CodePoint.units).flatMap encodeUnit ++ ['"'] ++ t := (List.cons.inj h).2
  rw [List.append_assoc, List.append_assoc] at htail
  exact units_cancel htail

end Escaped

namespace CodePoint

def IsHigh (n : CodePoint) : Prop :=
  0xd800 ≤ n.val ∧ n.val < 0xdc00

def IsLow (n : CodePoint) : Prop :=
  0xdc00 ≤ n.val ∧ n.val < 0xe000

/-- No two surrogates next to each other make a pair. -/
def Unpaired (s : List CodePoint) : Prop :=
  s.IsChain fun a b => ¬(a.IsHigh ∧ b.IsLow)

variable {a b : CodePoint} {k l : List CodePoint}

theorem units_of_lt (h : a.val < 0x10000) : a.units = [⟨a, h⟩] :=
  dif_pos h

theorem units_of_le (h : 0x10000 ≤ a.val) :
    ∃ high low : CodeUnit, a.units = [high, low] ∧
      high.val = 0xd800 + (a.val - 0x10000) / 0x400 ∧
        low.val = 0xdc00 + (a.val - 0x10000) % 0x400 :=
  ⟨_, _, dif_neg (Nat.not_lt.2 h), rfl, rfl⟩

theorem units_ne_nil (a : CodePoint) : a.units ≠ [] := by
  rcases Nat.lt_or_ge a.val 0x10000 with ha | ha
  · rw [units_of_lt ha]
    exact List.cons_ne_nil _ _
  · obtain ⟨high, low, hunits, _⟩ := units_of_le ha
    rw [hunits]
    exact List.cons_ne_nil _ _

/-- Two code points are not taken for a single one, unless they are a pair. -/
theorem Unpaired.ne_pair {rest : List CodeUnit} (h : Unpaired (a :: k)) (ha : a.val < 0x10000)
    (hb : 0x10000 ≤ b.val) : (a :: k).flatMap units ≠ b.units ++ rest := by
  intro heq
  obtain ⟨high, low, hunits, hhigh, hlow⟩ := units_of_le hb
  rw [List.flatMap_cons, units_of_lt ha, hunits] at heq
  obtain ⟨rfl, htail⟩ := List.cons.inj heq
  cases k with
  | nil => cases htail
  | cons c k =>
      rw [List.flatMap_cons] at htail
      rcases Nat.lt_or_ge c.val 0x10000 with hc | hc
      · rw [units_of_lt hc] at htail
        obtain ⟨rfl, _⟩ := List.cons.inj htail
        simp only at hhigh hlow
        exact (List.isChain_cons_cons.1 h).1 ⟨⟨by omega, by omega⟩, by omega, by omega⟩
      · obtain ⟨high, _, hunits', hhigh', _⟩ := units_of_le hc
        rw [hunits'] at htail
        obtain ⟨rfl, _⟩ := List.cons.inj htail
        omega

/-- The units of a string tell its code points, surrogates included, if none of them make a pair. -/
theorem Unpaired.eq_of_units (hk : Unpaired k) (hl : Unpaired l)
    (h : k.flatMap units = l.flatMap units) : k = l := by
  induction k generalizing l with
  | nil =>
      cases l with
      | nil => rfl
      | cons b l => exact absurd (List.append_eq_nil_iff.1 h.symm).1 b.units_ne_nil
  | cons a k ih =>
      cases l with
      | nil => exact absurd (List.append_eq_nil_iff.1 h).1 a.units_ne_nil
      | cons b l =>
          rcases Nat.lt_or_ge a.val 0x10000 with ha | ha <;>
            rcases Nat.lt_or_ge b.val 0x10000 with hb | hb
          · rw [List.flatMap_cons, List.flatMap_cons, units_of_lt ha, units_of_lt hb] at h
            obtain ⟨hfirst, hrest⟩ := List.cons.inj h
            have hab : a = b := Fin.ext (Fin.mk.inj hfirst)
            rw [hab, ih (l := l) hk.tail hl.tail hrest]
          · exact absurd h (hk.ne_pair ha hb)
          · exact absurd h.symm (hl.ne_pair hb ha)
          · obtain ⟨high, low, hunits, hhigh, hlow⟩ := units_of_le ha
            obtain ⟨high', low', hunits', hhigh', hlow'⟩ := units_of_le hb
            rw [List.flatMap_cons, List.flatMap_cons, hunits, hunits'] at h
            obtain ⟨rfl, htail⟩ := List.cons.inj h
            obtain ⟨rfl, hrest⟩ := List.cons.inj htail
            have hab : a = b := Fin.ext (by omega)
            rw [hab, ih (l := l) hk.tail hl.tail hrest]

end CodePoint

/-- A string of characters has no surrogates at all. -/
theorem unpaired_points (s : String) : CodePoint.Unpaired (points s) := by
  refine (List.isChain_map _).2 (List.pairwise_of_forall fun c _ hpair => ?_).isChain
  obtain ⟨hfirst, hlast⟩ := hpair.1
  have hc := toNat_valid c
  simp only at hfirst hlast
  omega

theorem points_inj {a b : String} (h : points a = points b) : a = b := by
  refine String.toList_injective (List.map_injective_iff.2 ?_ h)
  intro c d hcd
  exact Char.toNat_inj.1 (Fin.mk.inj hcd)

/-- Where a string between quotes ends can be told from the text, and so can the string. -/
theorem encode_points_cancel {a b : String}
    (h : Escaped.encode (points a) ++ s = Escaped.encode (points b) ++ t) : a = b ∧ s = t := by
  obtain ⟨hunits, hrest⟩ := Escaped.encode_cancel h
  exact ⟨points_inj ((unpaired_points a).eq_of_units (unpaired_points b) hunits), hrest⟩

end Text

namespace Scalar

/-- The numbers among the data are finite ones of their format. -/
def IsFinite : Scalar → Prop
  | float x => x.IsFinite
  | _ => True

/-- A whole number of either kind as a plain whole number. -/
def whole : Scalar → Scalar
  | float x => match x.toInt? with
      | some n => int n
      | none => float x
  | s => s

/-- How a datum is written in which whole numbers are plain. -/
inductive Written : Scalar → List Char → Prop
  | null : Written null ['n', 'u', 'l', 'l']
  | bool (b : Bool) :
      Written (bool b) (if b then ['t', 'r', 'u', 'e'] else ['f', 'a', 'l', 's', 'e'])
  | int (n : Int) : Written (int n) n.repr.toList
  | float {x : Binary64} (hx : x.IsFinite) (hwhole : x.toInt? = none) :
      Written (float x) x.text.toList
  | str (s : String) : Written (str s) (Text.Escaped.encode (Text.points s))

/-- The characters of constants without quotes. -/
def isBare (c : Char) : Bool :=
  c.isAlphanum || c = '.' || c = '+' || c = '-'

theorem isBare_of_isNumeral {c : Char} (h : Binary64.isNumeral c = true) : isBare c = true := by
  simp only [Binary64.isNumeral, Bool.or_eq_true, decide_eq_true_iff] at h
  rcases h with (((hdigit | rfl) | rfl) | rfl) | rfl
  · simp [isBare, Char.isAlphanum, hdigit]
  · rfl
  · rfl
  · rfl
  · rfl

/-- What the first character of a constant tells. -/
inductive Form where
  | null
  | truth (b : Bool)
  | number
  | string

def form : Scalar → Form
  | null => .null
  | bool b => .truth b
  | int _ => .number
  | float _ => .number
  | str _ => .string

def Form.ofText : List Char → Form
  | [] => .null
  | c :: _ =>
      if c = '"' then .string
      else if c = 't' then .truth true
      else if c = 'f' then .truth false
      else if Binary64.isNumeral c then .number
      else .null

theorem Form.ofText_of_isNumeral {u s : List Char} (hne : u ≠ [])
    (h : ∀ c ∈ u, Binary64.isNumeral c = true) : ofText (u ++ s) = .number := by
  cases u with
  | nil => exact absurd rfl hne
  | cons c rest =>
      have hc := h c List.mem_cons_self
      have hother : ∀ d, Binary64.isNumeral d = false → c ≠ d := by
        rintro d hd rfl
        rw [hc] at hd
        cases hd
      simp only [List.cons_append, ofText, hother '"' rfl, hother 't' rfl, hother 'f' rfl, hc,
        if_false, if_true]

namespace Written

variable {v w : Scalar} {u u' s t : List Char}

theorem int_numeral (n : Int) :
    n.repr.toList ≠ [] ∧ ∀ c ∈ n.repr.toList, Binary64.isNumeral c = true ∧ c ≠ '.' ∧ c ≠ 'e' := by
  refine ⟨fun hnil => ?_, fun c hc => ?_⟩
  · have hempty : n.repr = "" := String.toList_eq_nil_iff.1 hnil
    rw [Int.repr_eq_if] at hempty
    split at hempty
    · exact Nat.repr_ne_empty hempty
    · exact absurd hempty (by simp)
  · rcases digit_or_minus_of_mem_repr n c hc with hdigit | rfl
    · refine ⟨Binary64.isNumeral_of_isDigit hdigit, ?_, ?_⟩
      · rintro rfl
        cases hdigit
      · rintro rfl
        cases hdigit
    · exact ⟨rfl, by decide, by decide⟩

theorem float_numeral {x : Binary64} (hx : x.IsFinite) (hwhole : x.toInt? = none) :
    (∀ c ∈ x.text.toList, Binary64.isNumeral c = true) ∧
      ('.' ∈ x.text.toList ∨ 'e' ∈ x.text.toList) := by
  obtain ⟨_, d, _, _, hdigits, _, htext⟩ := Binary64.exists_of_toInt?_eq_none hx hwhole
  rw [htext]
  exact Binary64.isNumeral_layout hdigits

theorem int_ne_float (n : Int) {x : Binary64} (hx : x.IsFinite) (hwhole : x.toInt? = none) :
    n.repr.toList ≠ x.text.toList := by
  intro heq
  have hint := (int_numeral n).2
  rw [heq] at hint
  rcases (float_numeral hx hwhole).2 with hpoint | hmark
  · exact (hint _ hpoint).2.1 rfl
  · exact (hint _ hmark).2.2 rfl

theorem ofText_eq (h : Written v u) (s : List Char) : Form.ofText (u ++ s) = v.form := by
  cases h with
  | null => rfl
  | bool b =>
      cases b with
      | true => rfl
      | false => rfl
  | int n => exact Form.ofText_of_isNumeral (int_numeral n).1 fun c hc => ((int_numeral n).2 c hc).1
  | float hx hwhole =>
      obtain ⟨hall, hsome⟩ := float_numeral hx hwhole
      refine Form.ofText_of_isNumeral ?_ hall
      rcases hsome with hmem | hmem
      · exact List.ne_nil_of_mem hmem
      · exact List.ne_nil_of_mem hmem
  | str k => rfl

theorem isBare (h : Written v u) (hv : v.form ≠ .string) : ∀ c ∈ u, isBare c = true := by
  cases h with
  | null => exact List.all_eq_true.1 rfl
  | bool b =>
      cases b with
      | true => exact List.all_eq_true.1 rfl
      | false => exact List.all_eq_true.1 rfl
  | int n => exact fun c hc => isBare_of_isNumeral ((int_numeral n).2 c hc).1
  | float hx hwhole => exact fun c hc => isBare_of_isNumeral ((float_numeral hx hwhole).1 c hc)
  | str s => exact absurd rfl hv

/-- Where a constant ends can be told from the text, if no character of a constant comes after it,
and so can what it stands for. -/
theorem cancel (h : Written v u) (h' : Written w u') (hs : Text.Stops Scalar.isBare s)
    (ht : Text.Stops Scalar.isBare t) (heq : u ++ s = u' ++ t) : v = w ∧ s = t := by
  have hform : v.form = w.form := by rw [← h.ofText_eq s, ← h'.ofText_eq t, heq]
  have hbare : v.form ≠ .string → u = u' ∧ s = t := fun hv =>
    Text.run_cancel (h.isBare hv) (h'.isBare (hform ▸ hv)) hs ht heq
  cases h with
  | null =>
      cases h' with
      | null => exact ⟨rfl, (hbare nofun).2⟩
      | _ => cases hform
  | bool b =>
      cases h' with
      | bool b' =>
          cases hform
          exact ⟨rfl, (hbare nofun).2⟩
      | _ => cases hform
  | int n =>
      obtain ⟨htext, hrest⟩ := hbare nofun
      refine ⟨?_, hrest⟩
      cases h' with
      | int m => rw [intText_inj htext]
      | float hx hwhole => exact absurd htext (int_ne_float n hx hwhole)
      | _ => cases hform
  | float hx hwhole =>
      obtain ⟨htext, hrest⟩ := hbare nofun
      refine ⟨?_, hrest⟩
      cases h' with
      | int m => exact absurd htext.symm (int_ne_float m hx hwhole)
      | float hy hwhole' =>
          rw [Binary64.text_inj hx hy hwhole hwhole' (String.toList_injective htext)]
      | _ => cases hform
  | str k =>
      cases h' with
      | str l =>
          obtain ⟨rfl, hrest⟩ := Text.encode_points_cancel heq
          exact ⟨rfl, hrest⟩
      | _ => cases hform

end Written

end Scalar

namespace Text

/-- The characters of names. -/
def isWord (c : Char) : Bool :=
  c.isAlphanum || c = '_' || c = '$' || 0x80 ≤ c.toNat

/-- The words that expressions are written with. -/
def keywords : List String :=
  ["true", "false", "null", "typeof", "function", "return"]

/-- A plain identifier. -/
structure IsName (s : String) : Prop where
  nonempty : s ≠ ""
  word : s.toList.all isWord = true
  free : s ∉ keywords

/-- Plain identifiers with points between them. -/
def IsDotted (s : String) : Prop :=
  ∃ names : List String, (∀ name ∈ names, IsName name) ∧ s = ".".intercalate names

theorem IsDotted.isWord_or {s : String} (h : IsDotted s) :
    ∀ c ∈ s.toList, isWord c = true ∨ c = '.' := by
  obtain ⟨names, hnames, rfl⟩ := h
  induction names with
  | nil =>
      intro c hc
      rw [String.intercalate_nil] at hc
      cases hc
  | cons name rest ih =>
      rw [List.forall_mem_cons] at hnames
      have hname : ∀ c ∈ name.toList, isWord c = true ∨ c = '.' := fun c hc =>
        .inl (List.all_eq_true.1 hnames.1.word c hc)
      by_cases hrest : rest = []
      · rw [hrest, String.intercalate_singleton]
        exact hname
      · rw [String.intercalate_cons_of_ne_nil hrest, String.toList_append, String.toList_append]
        simp only [List.mem_append]
        rintro c ((hc | hc) | hc)
        · exact hname c hc
        · exact .inr (List.mem_singleton.1 hc)
        · exact ih hnames.2 c hc

theorem isWord_of_isDigit {c : Char} (h : c.isDigit = true) : isWord c = true := by
  simp [isWord, Char.isAlphanum, h]

end Text

namespace Ident

/-- The names that a value goes by. -/
def IsRoot : Ident → Prop
  | named s => Text.IsName s
  | slot _ => True
  | guard _ _ => False

/-- The names that a recursive condition goes by. -/
def IsLabel : Ident → Prop
  | guard subject _ => subject.toList.all Text.isWord = true
  | _ => False

theorem toList_slot (n : Nat) : (slot n).text.toList = '$' :: n.repr.toList :=
  String.toList_append

theorem toList_guard (subject : String) (n : Nat) :
    (guard subject n).text.toList = 'i' :: 's' :: '_' ::
      (subject.toList ++ '_' :: n.repr.toList) := by
  simp only [text, String.toList_append, List.append_assoc]
  rfl

theorem IsRoot.isWord {r : Ident} (h : r.IsRoot) : ∀ c ∈ r.text.toList, Text.isWord c = true := by
  cases r with
  | named s => exact List.all_eq_true.1 h.word
  | slot n =>
      rw [toList_slot]
      exact List.forall_mem_cons.2
        ⟨rfl, fun c hc => Text.isWord_of_isDigit (isDigit_of_mem_repr c hc)⟩
  | guard subject n => exact h.elim

theorem IsLabel.isWord {l : Ident} (h : l.IsLabel) : ∀ c ∈ l.text.toList, Text.isWord c = true := by
  cases l with
  | guard subject n =>
      rw [toList_guard]
      simp only [List.mem_cons, List.mem_append]
      rintro c (rfl | rfl | rfl | hc | rfl | hc)
      · rfl
      · rfl
      · rfl
      · exact List.all_eq_true.1 h c hc
      · rfl
      · exact Text.isWord_of_isDigit (isDigit_of_mem_repr c hc)
  | _ => exact h.elim

/-- The number of a label is what stands after its last underscore. -/
theorem IsLabel.inj {l k : Ident} (hl : l.IsLabel) (hk : k.IsLabel) (h : l.text = k.text) :
    l = k := by
  cases l with
  | guard subject n =>
      cases k with
      | guard subject' m =>
          have htext := congrArg String.toList h
          rw [toList_guard, toList_guard] at htext
          have hbody : subject.toList ++ '_' :: n.repr.toList = subject'.toList ++ '_' ::
              m.repr.toList :=
            (List.cons.inj (List.cons.inj (List.cons.inj htext).2).2).2
          have hreverse := congrArg List.reverse hbody
          simp only [List.reverse_append, List.reverse_cons, List.append_assoc] at hreverse
          have hdigits : ∀ n : Nat, ∀ c ∈ n.repr.toList.reverse, c.isDigit = true := fun n c hc =>
            isDigit_of_mem_repr c (List.mem_reverse.1 hc)
          obtain ⟨hnumber, hsubject⟩ :=
            Text.run_cancel (hdigits n) (hdigits m) (Text.stops_cons rfl _)
            (Text.stops_cons rfl _) hreverse
          have hn : n = m := natText_inj (List.reverse_injective hnumber)
          have hs : subject = subject' :=
            String.toList_injective (List.reverse_injective (List.cons.inj hsubject).2)
          rw [hn, hs]
      | _ => exact hk.elim
  | _ => exact hl.elim

end Ident

end TypeGuard
