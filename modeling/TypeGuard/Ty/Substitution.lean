import TypeGuard.Ty.Basic

/-! Substitution of type parameters. -/

namespace TypeGuard

/-- What the parameters stand for. The first binding of a parameter counts. -/
abbrev Bindings := List (TypeParam × Ty)

namespace Bindings

/-- Binds a parameter in the place it has, or in the last place if it is new. -/
def bind (p : TypeParam) (t : Ty) : Bindings → Bindings
  | [] => [(p, t)]
  | (q, u) :: rest => if q = p then (p, t) :: rest else (q, u) :: bind p t rest

/-- A later binding of the same parameter takes the place of an earlier one. -/
def ofPairs (pairs : List (TypeParam × Ty)) : Bindings :=
  pairs.foldl (fun bindings pair => bindings.bind pair.1 pair.2) []

/-- Binds a parameter only if it has no binding. -/
def bindNew (p : TypeParam) (t : Ty) (bindings : Bindings) : Bindings :=
  if (bindings.lookup p).isSome then bindings else bindings ++ [(p, t)]

def hide (p : TypeParam) (bindings : Bindings) : Bindings :=
  bindings.filter fun binding => binding.1 ≠ p

theorem length_hide_lt {p : TypeParam} {t : Ty} {bindings : Bindings}
    (hbound : bindings.lookup p = some t) : (bindings.hide p).length < bindings.length := by
  induction bindings with
  | nil => simp at hbound
  | cons binding rest ih =>
      obtain ⟨q, u⟩ := binding
      by_cases heq : q = p
      · have hle : (rest.filter fun binding => binding.1 ≠ p).length ≤ rest.length :=
          List.length_filter_le _ _
        simpa [hide, heq] using Nat.lt_succ_of_le hle
      · have hrest : rest.lookup p = some t := by
          have hbeq : (p == q) = false := beq_eq_false_iff_ne.2 (Ne.symm heq)
          simpa [List.lookup_cons, hbeq] using hbound
        simpa [hide, heq] using ih hrest

@[simp] theorem lookup_hide_self (p : TypeParam) (bindings : Bindings) :
    (bindings.hide p).lookup p = none := by
  simp only [hide, List.lookup_eq_none_iff, List.mem_filter]
  intro binding hmem
  have hne : binding.1 ≠ p := of_decide_eq_true hmem.2
  exact bne_iff_ne.2 (Ne.symm hne)

theorem lookup_hide_of_ne {p q : TypeParam} (hne : q ≠ p) (bindings : Bindings) :
    (bindings.hide p).lookup q = bindings.lookup q := by
  induction bindings with
  | nil => rfl
  | cons binding rest ih =>
      obtain ⟨r, u⟩ := binding
      by_cases heq : r = p
      · have hbeq : (q == p) = false := beq_eq_false_iff_ne.2 hne
        simpa [hide, heq, List.lookup_cons, hbeq] using ih
      · by_cases hq : q = r
        · simp [hide, heq, hq]
        · have hbeq : (q == r) = false := beq_eq_false_iff_ne.2 hq
          simpa [hide, heq, List.lookup_cons, hbeq] using ih

end Bindings

namespace Ty

mutual
/-- Replaces parameters everywhere but in the target of a reference and in the parameters that a
mapped type carries. -/
def subst (σ : TypeParam → Ty) : Ty → Ty
  | primitive s => primitive s
  | literal v => literal v
  | boolean b => boolean b
  | union members => union (substList σ members)
  | inter members => inter (substList σ members)
  | object kind decl elements => object kind decl (substList σ elements)
  | sequence kind elements => sequence kind (substList σ elements)
  | ref target args => ref target (substList σ args)
  | param p => σ p
  | keyOf t => keyOf (t.subst σ)
  | index t k => index (t.subst σ) (k.subst σ)
  | mapped p constraint template params =>
      mapped p (constraint.subst σ) (template.subst σ) params
  | name s args => name s (substList σ args)

def substList (σ : TypeParam → Ty) : List Ty → List Ty
  | [] => []
  | t :: rest => t.subst σ :: substList σ rest
end

/-- Follows the bindings of a parameter. While its own binding is followed the parameter counts as
unbound, so a binding that mentions it leaves it in place. -/
def chase (bindings : Bindings) (p : TypeParam) : Ty :=
  match _hbound : bindings.lookup p with
  | none => param p
  | some t => if t = param p then param p else t.subst (chase (bindings.hide p))
termination_by bindings.length
decreasing_by exact Bindings.length_hide_lt _hbound

/-- Replaces every bound parameter by what its binding comes to. -/
def substitute (bindings : Bindings) (t : Ty) : Ty :=
  t.subst (chase bindings)

end Ty

end TypeGuard
