import TypeGuard.Proofs.Numbering
import TypeGuard.Value.Equal

/-! Types are the same when they are the same trees. Parameters and declarations count by identity,
literals by kind and value. -/

namespace TypeGuard

namespace Scalar

def kind : Scalar → String
  | null => "null"
  | bool _ => "bool"
  | int _ => "int"
  | float _ => "float"
  | str _ => "str"

theorem ofInt_inj {m n : Int} : Dyadic.ofInt m = Dyadic.ofInt n ↔ m = n := by
  refine ⟨fun h => ?_, fun h => by rw [h]⟩
  have hrat : ((m : Dyadic)).toRat = ((n : Dyadic)).toRat := congrArg Dyadic.toRat h
  rw [Dyadic.toRat_intCast, Dyadic.toRat_intCast] at hrat
  exact Rat.intCast_inj.1 hrat

/-- All that is forgotten beside the kind and the value is the sign of a zero. -/
theorem unsignedZero_eq_iff {a b : Scalar} :
    a.unsignedZero = b.unsignedZero ↔ a.kind = b.kind ∧ a.valueKey = b.valueKey := by
  cases a with
  | null => cases b <;> simp [unsignedZero, kind, valueKey]
  | bool x =>
      cases b with
      | bool y => cases x <;> cases y <;> simp [unsignedZero, kind, valueKey, ofInt_inj]
      | _ => simp [unsignedZero, kind]
  | int m => cases b <;> simp [unsignedZero, kind, valueKey, ofInt_inj]
  | float x => cases b <;> simp [unsignedZero, kind, valueKey]
  | str s => cases b <;> simp [unsignedZero, kind, valueKey]

end Scalar

namespace Value

/-- The kind of a value, whatever it holds. -/
def kind : Value → String
  | scalar s => s.kind
  | undefined => "undefined"
  | list _ => "list"
  | tuple _ => "tuple"
  | dict _ => "dict"
  | handle _ => "handle"
  | func _ => "function"
  | code _ => "code"

mutual
theorem partKey_eq_iff : ∀ {v w : Value}, v.isKey = true → w.isKey = true →
    (v.partKey = w.partKey ↔ v.equal w = true)
  | scalar a, w, _, hw => by cases w <;> simp_all [partKey, equal, isKey]
  | undefined, w, _, hw => by cases w <;> simp_all [partKey, equal, isKey]
  | tuple as, w, hv, hw => by
      cases w with
      | tuple bs =>
          simp only [partKey, equal, tuple.injEq]
          exact partKeys_eq_iff hv hw
      | _ => simp_all [partKey, equal, isKey]
  | handle a, w, _, hw => by cases w <;> simp_all [partKey, equal, isKey]
  | func a, w, _, hw => by cases w <;> simp_all [partKey, equal, isKey]
  | code a, w, _, hw => by cases w <;> simp_all [partKey, equal, isKey, Expr.same]
  | list _, _, hv, _ => by cases hv
  | dict _, _, hv, _ => by cases hv

theorem partKeys_eq_iff : ∀ {as bs : List Value}, areKeys as = true → areKeys bs = true →
    (partKeys as = partKeys bs ↔ equalItems as bs = true)
  | [], bs, _, _ => by cases bs <;> simp [partKeys, equalItems]
  | a :: as, [], _, _ => by simp [partKeys, equalItems]
  | a :: as, b :: bs, has, hbs => by
      simp only [areKeys, Bool.and_eq_true] at has hbs
      simp only [partKeys, equalItems, List.cons.injEq, Bool.and_eq_true,
        partKey_eq_iff has.1 hbs.1, partKeys_eq_iff has.2 hbs.2]
end

theorem kind_eq_of_equal {v w : Value} (hv : v.toScalar? = none) (h : v.equal w = true) :
    v.kind = w.kind := by
  cases v <;> cases w <;> simp_all [equal, kind, toScalar?]

theorem literalKey_eq_iff {v w : Value} (hv : v.isKey = true) (hw : w.isKey = true) :
    v.literalKey = w.literalKey ↔ v.kind = w.kind ∧ v.equal w = true := by
  cases v with
  | scalar a =>
      cases w with
      | scalar b =>
          simp only [literalKey, scalar.injEq, kind, equal, decide_eq_true_eq]
          exact Scalar.unsignedZero_eq_iff
      | _ => simp [literalKey, equal, partKey]
  | _ =>
      cases w with
      | scalar b => simp [literalKey, equal, partKey]
      | _ =>
          have hpart := partKey_eq_iff hv hw
          exact ⟨fun h => ⟨kind_eq_of_equal rfl (hpart.1 h), hpart.1 h⟩, fun h => hpart.2 h.2⟩

end Value

namespace Ty

mutual
/-- The two types are the same tree. -/
def identical : Ty → Ty → Bool
  | primitive s, primitive s' => s = s'
  | literal v, literal w => v.kind = w.kind && v.equal w
  | boolean b, boolean b' => b = b'
  | union ts, union us => allIdentical ts us
  | inter ts, inter us => allIdentical ts us
  | object kind decl ts, object kind' decl' us => kind = kind' && decl = decl' && allIdentical ts us
  | sequence kind ts, sequence kind' us => kind = kind' && allIdentical ts us
  | ref target ts, ref target' us => target.identical target' && allIdentical ts us
  | param x, param y => x = y
  | keyOf t, keyOf u => t.identical u
  | index t k, index u l => t.identical u && k.identical l
  | mapped x c t xs, mapped y d u ys => x = y && c.identical d && t.identical u && xs = ys
  | name s ts, name s' us => s = s' && allIdentical ts us
  | _, _ => false

def allIdentical : List Ty → List Ty → Bool
  | [], [] => true
  | t :: ts, u :: us => t.identical u && allIdentical ts us
  | _, _ => false
end

mutual
/-- The literals inside of a type have values that can be told apart. -/
def isKeyed : Ty → Bool
  | literal v => v.isKey
  | union ts => areKeyed ts
  | inter ts => areKeyed ts
  | object _ _ ts => areKeyed ts
  | sequence _ ts => areKeyed ts
  | ref target ts => target.isKeyed && areKeyed ts
  | keyOf t => t.isKeyed
  | index t k => t.isKeyed && k.isKeyed
  | mapped _ c t _ => c.isKeyed && t.isKeyed
  | name _ ts => areKeyed ts
  | _ => true

def areKeyed : List Ty → Bool
  | [] => true
  | t :: ts => t.isKeyed && areKeyed ts
end

theorem areKeyed_iff {ts : List Ty} : areKeyed ts = true ↔ ∀ t ∈ ts, t.isKeyed = true := by
  induction ts with
  | nil => simp [areKeyed]
  | cons t rest ih => simp only [areKeyed, Bool.and_eq_true, ih, List.forall_mem_cons]

theorem allIdentical_iff {ts us : List Ty}
    (ih : ∀ t ∈ ts, ∀ {u : Ty}, t.isKeyed = true → u.isKeyed = true →
      (t.identical u = true ↔ t.key = u.key))
    (hts : areKeyed ts = true) (hus : areKeyed us = true) :
    allIdentical ts us = true ↔ ts.map key = us.map key := by
  induction ts generalizing us with
  | nil => cases us <;> simp [allIdentical]
  | cons t rest ihrest =>
      cases us with
      | nil => simp [allIdentical]
      | cons u others =>
          simp only [areKeyed, Bool.and_eq_true] at hts hus
          rw [List.forall_mem_cons] at ih
          simp only [allIdentical, Bool.and_eq_true, List.map_cons, List.cons.injEq,
            ih.1 hts.1 hus.1, ihrest (fun t ht => ih.2 t ht) hts.2 hus.2]

theorem identical_iff {t u : Ty} (ht : t.isKeyed = true) (hu : u.isKeyed = true) :
    t.identical u = true ↔ t.key = u.key := by
  induction t generalizing u with
  | primitive _ | boolean _ | param _ => cases u <;> simp [identical, key]
  | literal v =>
      cases u with
      | literal w =>
          simp only [identical, key, literal.injEq, Bool.and_eq_true, decide_eq_true_eq]
          exact (Value.literalKey_eq_iff ht hu).symm
      | _ => simp [identical, key]
  | union ts ih | inter ts ih | object kind decl ts ih | sequence kind ts ih | name s ts ih =>
      cases u <;> simp only [identical, key, keys_eq, reduceCtorEq, Bool.false_eq_true,
        union.injEq, inter.injEq, object.injEq, sequence.injEq, name.injEq, Bool.and_eq_true,
        decide_eq_true_eq]
      simp only [allIdentical_iff ih ht hu, and_assoc]
  | keyOf t ih =>
      cases u <;> simp only [identical, key, reduceCtorEq, Bool.false_eq_true, keyOf.injEq]
      exact ih ht hu
  | ref target ts ihtarget ih =>
      cases u <;> simp only [identical, key, keys_eq, reduceCtorEq, Bool.false_eq_true, ref.injEq,
        Bool.and_eq_true]
      simp only [isKeyed, Bool.and_eq_true] at ht hu
      rw [ihtarget ht.1 hu.1, allIdentical_iff ih ht.2 hu.2]
  | index t k iht ihk =>
      cases u <;> simp only [identical, key, reduceCtorEq, Bool.false_eq_true, index.injEq,
        Bool.and_eq_true]
      simp only [isKeyed, Bool.and_eq_true] at ht hu
      rw [iht ht.1 hu.1, ihk ht.2 hu.2]
  | mapped x c t xs ihc iht =>
      cases u <;> simp only [identical, key, reduceCtorEq, Bool.false_eq_true, mapped.injEq,
        Bool.and_eq_true, decide_eq_true_eq]
      simp only [isKeyed, Bool.and_eq_true] at ht hu
      rw [ihc ht.1 hu.1, iht ht.2 hu.2, and_assoc, and_assoc]

end Ty

end TypeGuard
