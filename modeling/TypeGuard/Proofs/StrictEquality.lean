import Mathlib.Data.List.Forall2
import Mathlib.Data.List.Nodup
import Mathlib.Data.List.Pairwise
import Mathlib.Data.List.Perm.Basic
import Mathlib.Tactic.Choose
import TypeGuard.Proofs.Resolve
import TypeGuard.Value.Read

/-! Strict equality is an equivalence. Nested values compare by what they hold: numbers and truth
values by the exact number, lists item by item, dictionaries by their entries in any order, and
what has an identity by that alone. What `typeof` says counts at the top only, so 1, 1.0 and a
truth value can be one key of a dictionary, while the truth value alone is not equal to either
number. -/

namespace TypeGuard

namespace Scalar

/-- The exact number that a truth value, a whole number or a finite binary number is. -/
def rat? : Scalar → Option Rat
  | bool b => some (if b then 1 else 0)
  | int n => some n
  | float (.finite d) => some d.toRat
  | float .negZero => some 0
  | _ => none

variable {a b : Scalar}

theorem valueKey_eq_finite {d : Dyadic} :
    a.valueKey = float (.finite d) ↔ a.rat? = some d.toRat := by
  have hwhole : ∀ n : Int, Dyadic.ofInt n = d ↔ (n : Rat) = d.toRat := by
    intro n
    rw [← Dyadic.toRat_inj, ← Dyadic.toRat_intCast]
    rfl
  cases a with
  | null | str _ => simp [valueKey, rat?]
  | bool b => cases b <;> simp [valueKey, rat?, hwhole]
  | int n => simp [valueKey, rat?, hwhole]
  | float x =>
      cases x with
      | finite d' => simp [valueKey, rat?, Binary64.unsignedZero, Dyadic.toRat_inj]
      | negZero =>
          simp only [valueKey, rat?, Binary64.unsignedZero, float.injEq, Binary64.finite.injEq,
            Option.some.injEq]
          rw [← Dyadic.toRat_inj, Dyadic.toRat_zero]
      | inf _ | nan _ => simp [valueKey, rat?, Binary64.unsignedZero]

theorem exists_finite_of_rat? {x : Rat} (h : a.rat? = some x) :
    ∃ d : Dyadic, a.valueKey = float (.finite d) := by
  cases a with
  | null | str _ => cases h
  | bool b => exact ⟨_, rfl⟩
  | int n => exact ⟨_, rfl⟩
  | float y =>
      cases y with
      | finite d => exact ⟨d, rfl⟩
      | negZero => exact ⟨0, rfl⟩
      | inf _ | nan _ => cases h

theorem valueKey_of_not_rat? (h : a.rat? = none) : a.valueKey = a := by
  cases a with
  | null | str _ => rfl
  | bool b | int n => cases h
  | float x =>
      cases x with
      | finite d | negZero => cases h
      | inf _ | nan _ => rfl

theorem valueKey_eq_iff :
    a.valueKey = b.valueKey ↔ a = b ∨ ∃ x, a.rat? = some x ∧ b.rat? = some x := by
  constructor
  · intro h
    cases ha : a.rat? with
    | some x =>
        obtain ⟨d, hd⟩ := exists_finite_of_rat? ha
        have hx := valueKey_eq_finite.1 hd
        have hb := valueKey_eq_finite.1 (h.symm.trans hd)
        exact .inr ⟨_, ha.symm.trans hx, hb⟩
    | none =>
        cases hb : b.rat? with
        | none =>
            rw [valueKey_of_not_rat? ha, valueKey_of_not_rat? hb] at h
            exact .inl h
        | some y =>
            obtain ⟨d, hd⟩ := exists_finite_of_rat? hb
            rw [valueKey_eq_finite.1 (h.trans hd)] at ha
            cases ha
  · rintro (rfl | ⟨x, ha, hb⟩)
    · rfl
    · obtain ⟨d, hd⟩ := exists_finite_of_rat? ha
      have hx : some x = some d.toRat := ha.symm.trans (valueKey_eq_finite.1 hd)
      exact hd.trans (valueKey_eq_finite.2 (hb.trans hx)).symm

end Scalar

namespace Value

/-- What stands right inside a value. -/
def parts : Value → List Value
  | list items => items
  | tuple items => items
  | dict entries => entries.flatMap fun entry => [entry.1, entry.2]
  | _ => []

theorem mem_parts_dict {entries : List (Value × Value)} {u : Value} :
    u ∈ (dict entries).parts ↔ ∃ e ∈ entries, u = e.1 ∨ u = e.2 := by
  simp only [parts, List.mem_flatMap, List.mem_cons, List.not_mem_nil, or_false]

theorem key_mem_parts {entries : List (Value × Value)} {e : Value × Value} (h : e ∈ entries) :
    e.1 ∈ (dict entries).parts :=
  mem_parts_dict.2 ⟨e, h, .inl rfl⟩

theorem value_mem_parts {entries : List (Value × Value)} {e : Value × Value} (h : e ∈ entries) :
    e.2 ∈ (dict entries).parts :=
  mem_parts_dict.2 ⟨e, h, .inr rfl⟩

theorem sizeOf_lt_of_mem_parts {u v : Value} (h : u ∈ v.parts) : sizeOf u < sizeOf v := by
  cases v with
  | list items | tuple items =>
      have hlt := List.sizeOf_lt_of_mem (show u ∈ items from h)
      simp only [list.sizeOf_spec, tuple.sizeOf_spec]
      omega
  | dict entries =>
      obtain ⟨⟨k, w⟩, hmem, hu⟩ := mem_parts_dict.1 h
      have hlt := List.sizeOf_lt_of_mem hmem
      rw [Prod.mk.sizeOf_spec] at hlt
      rw [dict.sizeOf_spec]
      rcases hu with rfl | rfl
      all_goals omega
  | _ => cases h

theorem induction_parts {P : Value → Prop} (h : ∀ v, (∀ u ∈ v.parts, P u) → P v) (v : Value) :
    P v :=
  h v fun u _ => induction_parts h u
termination_by sizeOf v
decreasing_by exact sizeOf_lt_of_mem_parts (by assumption)

theorem forall₂_symm {R : Value → Value → Prop} {xs ys : List Value}
    (hR : ∀ x ∈ xs, ∀ y, R x y → R y x) (h : List.Forall₂ R xs ys) : List.Forall₂ R ys xs := by
  have hboth := (List.forall₂_and_left xs ys).2 ⟨hR, h⟩
  exact List.Forall₂.flip (hboth.imp fun x y hxy => hxy.1 y hxy.2)

theorem forall₂_trans {R : Value → Value → Prop} {xs ys zs : List Value}
    (hR : ∀ x ∈ xs, ∀ y z, R x y → R y z → R x z) (h : List.Forall₂ R xs ys)
    (h' : List.Forall₂ R ys zs) : List.Forall₂ R xs zs := by
  induction h generalizing zs with
  | nil =>
      cases h'
      exact .nil
  | cons hxy _ ih =>
      cases h' with
      | cons hyz hrest =>
          rw [List.forall_mem_cons] at hR
          exact .cons (hR.1 _ _ hxy hyz) (ih hR.2 hrest)

/-- How two values compare, given how what is inside them does. -/
inductive Compares (R : Value → Value → Prop) : Value → Value → Prop
  | scalar {a b : Scalar} (h : a.valueKey = b.valueKey) : Compares R (scalar a) (scalar b)
  | undefined : Compares R undefined undefined
  | list {items items' : List Value} (h : List.Forall₂ R items items') :
      Compares R (list items) (list items')
  | tuple {items items' : List Value} (h : List.Forall₂ R items items') :
      Compares R (tuple items) (tuple items')
  /-- Every entry of either is an entry of the other. -/
  | dict {as bs : List (Value × Value)} (h : ∀ a ∈ as, ∃ b ∈ bs, R a.1 b.1 ∧ R a.2 b.2)
      (h' : ∀ b ∈ bs, ∃ a ∈ as, R a.1 b.1 ∧ R a.2 b.2) : Compares R (dict as) (dict bs)
  | handle (name : String) : Compares R (handle name) (handle name)
  | func (name : String) : Compares R (func name) (func name)
  | code {e e' : Expr} (h : e.key = e'.key) : Compares R (code e) (code e')

namespace Compares

variable {R : Value → Value → Prop} {u v w : Value}

theorem refl (h : ∀ u ∈ v.parts, R u u) : Compares R v v := by
  cases v with
  | scalar s => exact .scalar rfl
  | undefined => exact .undefined
  | list items => exact .list (List.forall₂_same.2 h)
  | tuple items => exact .tuple (List.forall₂_same.2 h)
  | dict entries =>
      have hself : ∀ e ∈ entries, R e.1 e.1 ∧ R e.2 e.2 := fun e he =>
        ⟨h _ (key_mem_parts he), h _ (value_mem_parts he)⟩
      exact .dict (fun e he => ⟨e, he, hself e he⟩) fun e he => ⟨e, he, hself e he⟩
  | handle name => exact .handle name
  | func name => exact .func name
  | code e => exact .code rfl

theorem symm (hparts : ∀ u ∈ v.parts, ∀ w, R u w → R w u) (h : Compares R v w) :
    Compares R w v := by
  cases h with
  | scalar h => exact .scalar h.symm
  | undefined => exact .undefined
  | list h => exact .list (forall₂_symm hparts h)
  | tuple h => exact .tuple (forall₂_symm hparts h)
  | @dict as bs h h' =>
      have hentry : ∀ a ∈ as, ∀ b : Value × Value, R a.1 b.1 ∧ R a.2 b.2 → R b.1 a.1 ∧ R b.2 a.2 :=
        fun a ha b hab =>
          ⟨hparts _ (key_mem_parts ha) _ hab.1, hparts _ (value_mem_parts ha) _ hab.2⟩
      refine .dict (fun b hb => ?_) fun a ha => ?_
      · obtain ⟨a, ha, hab⟩ := h' b hb
        exact ⟨a, ha, hentry a ha b hab⟩
      · obtain ⟨b, hb, hab⟩ := h a ha
        exact ⟨b, hb, hentry a ha b hab⟩
  | handle name => exact .handle name
  | func name => exact .func name
  | code h => exact .code h.symm

theorem trans (hparts : ∀ x ∈ u.parts, ∀ y z, R x y → R y z → R x z) (h : Compares R u v)
    (h' : Compares R v w) : Compares R u w := by
  cases h with
  | scalar h =>
      cases h' with
      | scalar h' => exact .scalar (h.trans h')
  | undefined => exact h'
  | list h =>
      cases h' with
      | list h' => exact .list (forall₂_trans hparts h h')
  | tuple h =>
      cases h' with
      | tuple h' => exact .tuple (forall₂_trans hparts h h')
  | @dict as bs hab hba =>
      cases h' with
      | @dict _ cs hbc hcb =>
          have hentry : ∀ a ∈ as, ∀ b c : Value × Value, R a.1 b.1 ∧ R a.2 b.2 →
              R b.1 c.1 ∧ R b.2 c.2 → R a.1 c.1 ∧ R a.2 c.2 := fun a ha b c hab hbc =>
            ⟨hparts _ (key_mem_parts ha) _ _ hab.1 hbc.1,
              hparts _ (value_mem_parts ha) _ _ hab.2 hbc.2⟩
          refine .dict (fun a ha => ?_) fun c hc => ?_
          · obtain ⟨b, hb, hab⟩ := hab a ha
            obtain ⟨c, hc, hbc⟩ := hbc b hb
            exact ⟨c, hc, hentry a ha b c hab hbc⟩
          · obtain ⟨b, hb, hbc⟩ := hcb c hc
            obtain ⟨a, ha, hab⟩ := hba b hb
            exact ⟨a, ha, hentry a ha b c hab hbc⟩
  | handle _ => exact h'
  | func _ => exact h'
  | code h =>
      cases h' with
      | code h' => exact .code (h.trans h')

end Compares

/-- Two entries with equal keys and equal values. -/
abbrev EqualEntries (a b : Value × Value) : Prop :=
  a.1.equal b.1 = true ∧ a.2.equal b.2 = true

variable {as bs : List (Value × Value)}

theorem equalItems_iff {items items' : List Value} :
    equalItems items items' = true ↔ List.Forall₂ (fun v w => v.equal w = true) items items' := by
  induction items generalizing items' with
  | nil => cases items' <;> simp [equalItems]
  | cons v rest ih => cases items' <;> simp [equalItems, ih]

theorem entriesIn_iff : entriesIn as bs = true ↔ ∀ a ∈ as, ∃ b ∈ bs, EqualEntries a b := by
  induction as with
  | nil => simp [entriesIn]
  | cons a rest ih =>
      obtain ⟨k, v⟩ := a
      rw [entriesIn, Bool.and_eq_true, List.any_eq_true, ih, List.forall_mem_cons]
      simp only [Bool.and_eq_true]

theorem hasEntry_iff {b : Value × Value} :
    hasEntry as b = true ↔ ∃ a ∈ as, EqualEntries a b := by
  induction as with
  | nil => simp [hasEntry]
  | cons a rest ih =>
      obtain ⟨k, v⟩ := a
      rw [hasEntry, Bool.or_eq_true, Bool.and_eq_true, ih, List.exists_mem_cons_iff]

theorem equal_iff {v w : Value} :
    v.equal w = true ↔ Compares (fun v w => v.equal w = true) v w := by
  constructor
  · intro h
    cases v <;> cases w <;> simp only [equal, decide_eq_true_eq, Bool.false_eq_true] at h
    case scalar.scalar => exact .scalar h
    case undefined.undefined => exact .undefined
    case list.list => exact .list (equalItems_iff.1 h)
    case tuple.tuple => exact .tuple (equalItems_iff.1 h)
    case dict.dict =>
      rw [Bool.and_eq_true, List.all_eq_true, entriesIn_iff] at h
      exact .dict h.1 fun b hb => hasEntry_iff.1 (h.2 b hb)
    case handle.handle =>
      subst h
      exact .handle _
    case func.func =>
      subst h
      exact .func _
    case code.code => exact .code (of_decide_eq_true h)
  · intro h
    cases h with
    | scalar h => simpa only [equal, decide_eq_true_eq] using h
    | undefined => simp only [equal]
    | list h =>
        rw [equal]
        exact equalItems_iff.2 h
    | tuple h =>
        rw [equal]
        exact equalItems_iff.2 h
    | dict h h' =>
        rw [equal, Bool.and_eq_true, List.all_eq_true]
        exact ⟨entriesIn_iff.2 h, fun b hb => hasEntry_iff.2 (h' b hb)⟩
    | handle name | func name => simp only [equal, decide_true]
    | code h => simpa only [equal, Expr.same, decide_eq_true_eq] using h

theorem equal_refl (v : Value) : v.equal v = true := by
  induction v using induction_parts with
  | h v ih => exact equal_iff.2 (.refl ih)

theorem equal_symm {v w : Value} (h : v.equal w = true) : w.equal v = true := by
  induction v using induction_parts generalizing w with
  | h v ih => exact equal_iff.2 ((equal_iff.1 h).symm fun u hu _ => ih u hu)

theorem equal_trans {u v w : Value} (h : u.equal v = true) (h' : v.equal w = true) :
    u.equal w = true := by
  induction u using induction_parts generalizing v w with
  | h u ih => exact equal_iff.2 ((equal_iff.1 h).trans (fun x hx _ _ => ih x hx) (equal_iff.1 h'))

/-- Equality, said of what values are. Dictionaries are equal if their entries can be paired off,
key by equal key and value by equal value. -/
inductive Same : Value → Value → Prop
  /-- Whatever it is, it is equal to itself. -/
  | itself (v : Value) : Same v v
  | number {a b : Scalar} {x : Rat} (ha : a.rat? = some x) (hb : b.rat? = some x) :
      Same (scalar a) (scalar b)
  | list {items items' : List Value} (hlength : items.length = items'.length)
      (hitems : ∀ v w, (v, w) ∈ items.zip items' → Same v w) : Same (list items) (list items')
  | tuple {items items' : List Value} (hlength : items.length = items'.length)
      (hitems : ∀ v w, (v, w) ∈ items.zip items' → Same v w) : Same (tuple items) (tuple items')
  | dict {as bs paired : List (Value × Value)} (hperm : paired.Perm bs)
      (hlength : as.length = paired.length)
      (hkeys : ∀ a b, (a, b) ∈ as.zip paired → Same a.1 b.1)
      (hvalues : ∀ a b, (a, b) ∈ as.zip paired → Same a.2 b.2) : Same (dict as) (dict bs)
  /-- Recursive conditions are equal if they differ at most in the sign of a zero. -/
  | code {e e' : Expr} (h : e.key = e'.key) : Same (code e) (code e')

theorem Same.equal {v w : Value} (h : Same v w) : v.equal w = true := by
  induction h with
  | itself v => exact equal_refl v
  | number ha hb => exact equal_iff.2 (.scalar (Scalar.valueKey_eq_iff.2 (.inr ⟨_, ha, hb⟩)))
  | list hlength _ ih =>
      exact equal_iff.2 (.list (List.forall₂_iff_zip.2 ⟨hlength, fun hmem => ih _ _ hmem⟩))
  | tuple hlength _ ih =>
      exact equal_iff.2 (.tuple (List.forall₂_iff_zip.2 ⟨hlength, fun hmem => ih _ _ hmem⟩))
  | @dict as bs paired hperm hlength _ _ ihkeys ihvalues =>
      have hpaired : List.Forall₂ EqualEntries as paired :=
        List.forall₂_iff_zip.2 ⟨hlength, fun hmem => ⟨ihkeys _ _ hmem, ihvalues _ _ hmem⟩⟩
      refine equal_iff.2 (.dict (fun a ha => ?_) fun b hb => ?_)
      · obtain ⟨b, hb, hab⟩ := exists_of_forall₂_right hpaired.flip ha
        exact ⟨b, hperm.mem_iff.1 hb, hab⟩
      · exact exists_of_forall₂_right hpaired (hperm.mem_iff.2 hb)
  | code h => exact equal_iff.2 (.code h)

/-- No two of the entries have equal keys. -/
def KeysDiffer (entries : List (Value × Value)) : Prop :=
  entries.Pairwise fun a b => a.1.equal b.1 = false

namespace KeysDiffer

theorem nodup (h : KeysDiffer as) : as.Nodup := by
  refine List.Pairwise.imp (fun {a b} hdiffer => ?_) h
  rintro rfl
  rw [equal_refl] at hdiffer
  cases hdiffer

theorem eq_of_equal (h : KeysDiffer as) {a b : Value × Value} (ha : a ∈ as) (hb : b ∈ as)
    (hequal : a.1.equal b.1 = true) : a = b := by
  have hsymm : Std.Symm fun a b : Value × Value => a.1.equal b.1 = false := by
    refine ⟨fun a b hdiffer => ?_⟩
    rw [Bool.eq_false_iff] at hdiffer ⊢
    exact fun hequal => hdiffer (equal_symm hequal)
  by_contra hne
  rw [List.Pairwise.forall h ha hb hne] at hequal
  cases hequal

/-- Entries that are found on either side can be paired off, since none is found twice. -/
theorem exists_pairing (has : KeysDiffer as) (hbs : KeysDiffer bs)
    (h : ∀ a ∈ as, ∃ b ∈ bs, EqualEntries a b) (h' : ∀ b ∈ bs, ∃ a ∈ as, EqualEntries a b) :
    ∃ paired : List (Value × Value), paired.Perm bs ∧ List.Forall₂ EqualEntries as paired := by
  have hnonempty : Nonempty (Value × Value) := ⟨(undefined, undefined)⟩
  choose! partner hmem hequal using h
  refine ⟨as.map partner, ?_, List.forall₂_map_right_iff.2 (List.forall₂_same.2 hequal)⟩
  have hinj : ∀ a ∈ as, ∀ a' ∈ as, partner a = partner a' → a = a' := by
    intro a ha a' ha' heq
    have hback := equal_symm (hequal a' ha').1
    rw [← heq] at hback
    exact has.eq_of_equal ha ha' (equal_trans (hequal a ha).1 hback)
  refine (List.perm_ext_iff_of_nodup (has.nodup.map_on hinj) hbs.nodup).2 fun b => ?_
  constructor
  · intro hb
    obtain ⟨a, ha, rfl⟩ := List.mem_map.1 hb
    exact hmem a ha
  · intro hb
    obtain ⟨a, ha, hab⟩ := h' b hb
    have hkeys := equal_trans (equal_symm (hequal a ha).1) hab.1
    rw [← hbs.eq_of_equal (hmem a ha) hb hkeys]
    exact List.mem_map_of_mem ha

end KeysDiffer

/-- If it is a dictionary, its keys differ. -/
def HasKeysApart : Value → Prop
  | dict entries => KeysDiffer entries
  | _ => True

/-- The keys of every dictionary in the value differ. -/
inductive IsFormed : Value → Prop
  | intro {v : Value} (hkeys : v.HasKeysApart) (hparts : ∀ u ∈ v.parts, u.IsFormed) : IsFormed v

theorem IsFormed.same {v w : Value} (hv : v.IsFormed) (hw : w.IsFormed) (h : v.equal w = true) :
    Same v w := by
  induction hv generalizing w with
  | @intro v hkeys _ ih =>
      obtain ⟨hkeys', hparts'⟩ := hw
      have hitems : List.Forall₂ (fun v w => v.equal w = true) v.parts w.parts →
          ∀ x y, (x, y) ∈ v.parts.zip w.parts → Same x y := by
        intro hall x y hmem
        obtain ⟨hx, hy⟩ := List.of_mem_zip hmem
        exact ih x hx (hparts' y hy) ((List.forall₂_iff_zip.1 hall).2 hmem)
      rw [equal_iff] at h
      cases h with
      | scalar h =>
          rcases Scalar.valueKey_eq_iff.1 h with rfl | ⟨x, ha, hb⟩
          · exact .itself _
          · exact .number ha hb
      | undefined => exact .itself _
      | list h => exact .list h.length_eq (hitems h)
      | tuple h => exact .tuple h.length_eq (hitems h)
      | @dict as bs h h' =>
          obtain ⟨paired, hperm, hpaired⟩ := KeysDiffer.exists_pairing hkeys hkeys' h h'
          have hentries : ∀ a b, (a, b) ∈ as.zip paired → Same a.1 b.1 ∧ Same a.2 b.2 := by
            intro a b hmem
            obtain ⟨ha, hpair⟩ := List.of_mem_zip hmem
            have hb := hperm.mem_iff.1 hpair
            have hab := (List.forall₂_iff_zip.1 hpaired).2 hmem
            exact ⟨ih _ (key_mem_parts ha) (hparts' _ (key_mem_parts hb)) hab.1,
              ih _ (value_mem_parts ha) (hparts' _ (value_mem_parts hb)) hab.2⟩
          exact .dict hperm hpaired.length_eq (fun a b hmem => (hentries a b hmem).1)
            fun a b hmem => (hentries a b hmem).2
      | handle _ => exact .itself _
      | func _ => exact .itself _
      | code h => exact .code h

/-! Dictionaries that are made entry by entry. -/

section Insertion

variable {entries : List (Value × Value)} {key v : Value}

theorem forall_mem_insertEntry {P Q : Value → Prop} (h : ∀ e ∈ entries, P e.1 ∧ Q e.2)
    (hkey : P key) (hv : Q v) : ∀ e ∈ insertEntry entries key v, P e.1 ∧ Q e.2 := by
  fun_induction insertEntry entries key v with
  | case1 => exact List.forall_mem_singleton.2 ⟨hkey, hv⟩
  | case2 entry rest _ =>
      rw [List.forall_mem_cons] at h ⊢
      exact ⟨⟨h.1.1, hv⟩, h.2⟩
  | case3 entry rest _ ih =>
      rw [List.forall_mem_cons] at h ⊢
      exact ⟨h.1, ih h.2⟩

theorem KeysDiffer.insertEntry (h : KeysDiffer entries) :
    KeysDiffer (insertEntry entries key v) := by
  fun_induction Value.insertEntry entries key v with
  | case1 => exact List.pairwise_singleton _ _
  | case2 entry rest _ =>
      -- The key that is there stays.
      obtain ⟨hfirst, hrest⟩ := List.pairwise_cons.1 h
      exact List.pairwise_cons.2 ⟨hfirst, hrest⟩
  | case3 entry rest hother ih =>
      obtain ⟨hfirst, hrest⟩ := List.pairwise_cons.1 h
      have hapart := forall_mem_insertEntry (P := fun k => entry.1.equal k = false)
        (Q := fun _ => True) (v := v) (fun e he => ⟨hfirst e he, trivial⟩)
        (Bool.eq_false_iff.2 hother) trivial
      exact List.pairwise_cons.2 ⟨fun e he => (hapart e he).1, ih hrest⟩

theorem IsFormed.insertEntry (h : (dict entries).IsFormed) (hkey : key.IsFormed) (hv : v.IsFormed) :
    (dict (insertEntry entries key v)).IsFormed := by
  obtain ⟨hkeys, hparts⟩ := h
  have hentries := forall_mem_insertEntry
    (fun e he => ⟨hparts _ (key_mem_parts he), hparts _ (value_mem_parts he)⟩) hkey hv
  refine .intro (KeysDiffer.insertEntry hkeys) fun u hu => ?_
  obtain ⟨e, he, rfl | rfl⟩ := mem_parts_dict.1 hu
  · exact (hentries e he).1
  · exact (hentries e he).2

theorem isFormed_ofEntries (h : ofEntries entries = .ok v)
    (hentries : ∀ e ∈ entries, e.1.IsFormed ∧ e.2.IsFormed) : v.IsFormed := by
  have hrun : ∀ found, (dict found).IsFormed → IsFormed
      (dict (entries.foldl
        (fun found entry => Value.insertEntry found entry.1 entry.2) found)) := by
    clear h
    induction entries with
    | nil => exact fun found hfound => hfound
    | cons entry rest ih =>
        intro found hfound
        rw [List.forall_mem_cons] at hentries
        exact ih hentries.2 _ (hfound.insertEntry hentries.1.1 hentries.1.2)
  have hempty : (dict []).IsFormed := .intro .nil (List.forall_mem_nil _)
  unfold ofEntries at h
  split at h
  · cases h
    exact hrun [] hempty
  · cases h

end Insertion

/-- The values that come about: without parts, or put together from such values. A dictionary is
made entry by entry. -/
inductive IsMade : Value → Prop
  | scalar (s : Scalar) : IsMade (scalar s)
  | undefined : IsMade undefined
  | list {items : List Value} (h : ∀ v ∈ items, IsMade v) : IsMade (list items)
  | tuple {items : List Value} (h : ∀ v ∈ items, IsMade v) : IsMade (tuple items)
  | dict {entries : List (Value × Value)} {v : Value} (h : ofEntries entries = .ok v)
      (hkeys : ∀ e ∈ entries, IsMade e.1) (hvalues : ∀ e ∈ entries, IsMade e.2) : IsMade v
  | handle (name : String) : IsMade (handle name)
  | func (name : String) : IsMade (func name)
  | code (e : Expr) : IsMade (code e)

theorem IsMade.isFormed {v : Value} (h : v.IsMade) : v.IsFormed := by
  induction h with
  | list _ ih => exact .intro trivial ih
  | tuple _ ih => exact .intro trivial ih
  | dict h _ _ ihkeys ihvalues =>
      exact isFormed_ofEntries h fun e he => ⟨ihkeys e he, ihvalues e he⟩
  | _ => exact .intro trivial (List.forall_mem_nil _)

theorem strictEqual_iff {v w : Value} :
    v.strictEqual w = true ↔ v.typeOf = w.typeOf ∧ v.equal w = true := by
  rw [strictEqual, Bool.and_eq_true, decide_eq_true_eq]

/-- Strict equality is an equivalence on all values, and never holds where `typeof` differs. Of
values that come about it says that `typeof` is one and that they are the same. -/
theorem strictEqual_is_equivalence :
    Equivalence (fun v w : Value => v.strictEqual w = true) ∧
      (∀ v w : Value, v.typeOf ≠ w.typeOf → v.strictEqual w = false) ∧
      ∀ v w : Value, v.IsMade → w.IsMade →
        (v.strictEqual w = true ↔ v.typeOf = w.typeOf ∧ Same v w) := by
  refine ⟨⟨fun v => ?_, fun {v w} h => ?_, fun {u v w} h h' => ?_⟩, fun v w hne => ?_,
    fun v w hv hw => ?_⟩
  · exact strictEqual_iff.2 ⟨rfl, equal_refl v⟩
  · obtain ⟨htype, hequal⟩ := strictEqual_iff.1 h
    exact strictEqual_iff.2 ⟨htype.symm, equal_symm hequal⟩
  · obtain ⟨htype, hequal⟩ := strictEqual_iff.1 h
    obtain ⟨htype', hequal'⟩ := strictEqual_iff.1 h'
    exact strictEqual_iff.2 ⟨htype.trans htype', equal_trans hequal hequal'⟩
  · exact Bool.eq_false_iff.2 fun h => hne (strictEqual_iff.1 h).1
  · rw [strictEqual_iff]
    exact and_congr_right fun _ => ⟨hv.isFormed.same hw.isFormed, Same.equal⟩

/-- Entries with a number for a key and inside both values, one of them beside a not-a-number. -/
def counted (one zero : Scalar) : List (Value × Value) :=
  [(scalar one, list [scalar (.float (.nan 7)), scalar one]),
    (str "rest", tuple [scalar zero, undefined])]

theorem isMade_counted (one zero : Scalar) {entries : List (Value × Value)} {v : Value}
    (hperm : entries.Perm (counted one zero)) (h : ofEntries entries = .ok v) : v.IsMade := by
  have hentries : ∀ e ∈ counted one zero, e.1.IsMade ∧ e.2.IsMade := by
    simp only [counted, List.forall_mem_cons]
    refine ⟨⟨.scalar _, .list ?_⟩, ⟨.scalar _, .tuple ?_⟩, List.forall_mem_nil _⟩
    · exact List.forall_mem_cons.2 ⟨.scalar _, List.forall_mem_singleton.2 (.scalar _)⟩
    · exact List.forall_mem_cons.2 ⟨.scalar _, List.forall_mem_singleton.2 .undefined⟩
  exact .dict h (fun e he => (hentries e (hperm.mem_iff.1 he)).1)
    fun e he => (hentries e (hperm.mem_iff.1 he)).2

/-- A dictionary with whole numbers, one with truth values in the other order, and one with a binary
number for a key. -/
theorem strictEqual_is_equivalence_counted :
    let u := dict (counted (.int 1) (.float .negZero))
    let v := dict (counted (.bool true) (.bool false)).reverse
    let w := dict (counted (.float (.finite 1)) (.int 0))
    u.IsMade ∧ v.IsMade ∧ u.strictEqual v = true ∧ v.strictEqual w = true ∧
      w.strictEqual u = true ∧ Same u v ∧
      (int 1).typeOf ≠ (bool true).typeOf ∧ (int 1).strictEqual (bool true) = false := by
  intro u v w
  obtain ⟨hequivalence, hkinds, hmade⟩ := strictEqual_is_equivalence
  have hu : u.IsMade := by
    refine isMade_counted (.int 1) (.float .negZero) (.refl _) ?_
    simp [u, counted, ofEntries, isKey, insertEntry, equal, Scalar.valueKey, pure, Except.pure]
  have hv : v.IsMade := by
    refine isMade_counted (.bool true) (.bool false) (List.reverse_perm _) ?_
    simp [v, counted, ofEntries, isKey, insertEntry, equal, Scalar.valueKey, pure, Except.pure]
  have huv : u.strictEqual v = true := by decide +kernel
  have hvw : v.strictEqual w = true := by decide +kernel
  have hne : (int 1).typeOf ≠ (bool true).typeOf := by decide
  exact ⟨hu, hv, huv, hvw, hequivalence.symm (hequivalence.trans huv hvw),
    ((hmade u v hu hv).1 huv).2, hne, hkinds _ _ hne⟩

end Value

end TypeGuard
