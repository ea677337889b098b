import Mathlib.Logic.Relation
import TypeGuard.Ty.Substitution

/-! Laws of substitution: which parameters a type mentions, how substitutions compose, and when the
chase of a parameter does not depend on the bindings that it hides or that stand further out. -/

namespace TypeGuard

namespace Ty

/-- Induction over types, with the hypothesis for every member of a list. -/
@[elab_as_elim, induction_eliminator]
theorem inductionOn {motive : Ty → Prop}
    (primitive : ∀ s, motive (primitive s))
    (literal : ∀ v, motive (literal v))
    (boolean : ∀ b, motive (boolean b))
    (union : ∀ members, (∀ t ∈ members, motive t) → motive (union members))
    (inter : ∀ members, (∀ t ∈ members, motive t) → motive (inter members))
    (object : ∀ kind decl elements, (∀ t ∈ elements, motive t) →
      motive (object kind decl elements))
    (sequence : ∀ kind elements, (∀ t ∈ elements, motive t) → motive (sequence kind elements))
    (ref : ∀ target args, motive target → (∀ t ∈ args, motive t) → motive (ref target args))
    (param : ∀ p, motive (param p))
    (keyOf : ∀ operand, motive operand → motive (keyOf operand))
    (index : ∀ object key, motive object → motive key → motive (index object key))
    (mapped : ∀ p constraint template params, motive constraint → motive template →
      motive (mapped p constraint template params))
    (name : ∀ s args, (∀ t ∈ args, motive t) → motive (name s args)) (t : Ty) : motive t :=
  @Ty.rec motive (fun ts => ∀ t ∈ ts, motive t) primitive literal boolean union inter object
    sequence ref param keyOf index mapped name (by simp)
    (fun _ _ head tail => List.forall_mem_cons.2 ⟨head, tail⟩) t

mutual
/-- The parameters that substitution meets. Those of the target of a reference are not among
them. -/
def params : Ty → List TypeParam
  | primitive _ => []
  | literal _ => []
  | boolean _ => []
  | union members => paramsList members
  | inter members => paramsList members
  | object _ _ elements => paramsList elements
  | sequence _ elements => paramsList elements
  | ref _ args => paramsList args
  | param p => [p]
  | keyOf t => t.params
  | index t k => t.params ++ k.params
  | mapped _ constraint template _ => constraint.params ++ template.params
  | name _ args => paramsList args

def paramsList : List Ty → List TypeParam
  | [] => []
  | t :: rest => t.params ++ paramsList rest
end

mutual
/-- The parameters that a type leaves open. A mapped type binds its parameter in its template. -/
def free : Ty → List TypeParam
  | primitive _ => []
  | literal _ => []
  | boolean _ => []
  | union members => freeList members
  | inter members => freeList members
  | object _ _ elements => freeList elements
  | sequence _ elements => freeList elements
  | ref _ args => freeList args
  | param p => [p]
  | keyOf t => t.free
  | index t k => t.free ++ k.free
  | mapped p constraint template _ => constraint.free ++ template.free.filter (· ≠ p)
  | name _ args => freeList args

def freeList : List Ty → List TypeParam
  | [] => []
  | t :: rest => t.free ++ freeList rest
end

mutual
/-- No mapped type stands in the type, but as the target of a reference. -/
def unmapped : Ty → Bool
  | union members => unmappedList members
  | inter members => unmappedList members
  | object _ _ elements => unmappedList elements
  | sequence _ elements => unmappedList elements
  | ref _ args => unmappedList args
  | keyOf t => t.unmapped
  | index t k => t.unmapped && k.unmapped
  | mapped _ _ _ _ => false
  | name _ args => unmappedList args
  | _ => true

def unmappedList : List Ty → Bool
  | [] => true
  | t :: rest => t.unmapped && unmappedList rest
end

-- Their equations are made here, once, and not by the first of the proofs below that needs them.
attribute [grind =] subst substList params paramsList free freeList unmapped unmappedList

@[simp] theorem substList_eq (σ : TypeParam → Ty) (ts : List Ty) :
    substList σ ts = ts.map (subst σ) := by
  induction ts with
  | nil => rfl
  | cons t rest ih => simp only [substList, List.map_cons, ih]

@[simp] theorem paramsList_eq (ts : List Ty) : paramsList ts = ts.flatMap params := by
  induction ts with
  | nil => rfl
  | cons t rest ih => simp only [paramsList, List.flatMap_cons, ih]

@[simp] theorem freeList_eq (ts : List Ty) : freeList ts = ts.flatMap free := by
  induction ts with
  | nil => rfl
  | cons t rest ih => simp only [freeList, List.flatMap_cons, ih]

@[simp] theorem unmappedList_eq (ts : List Ty) : unmappedList ts = ts.all unmapped := by
  induction ts with
  | nil => rfl
  | cons t rest ih => simp only [unmappedList, List.all_cons, ih]

/-! What a substitution does to the members of a list, it does to each of them. -/

theorem map_subst_congr {σ τ : TypeParam → Ty} {ts : List Ty}
    (ih : ∀ t ∈ ts, (∀ p ∈ t.params, σ p = τ p) → t.subst σ = t.subst τ)
    (h : ∀ p ∈ ts.flatMap params, σ p = τ p) : ts.map (subst σ) = ts.map (subst τ) := by
  apply List.map_congr_left
  intro t ht
  exact ih t ht fun p hp => h p (List.mem_flatMap.2 ⟨t, ht, hp⟩)

theorem subst_congr {σ τ : TypeParam → Ty} {t : Ty} (h : ∀ p ∈ t.params, σ p = τ p) :
    t.subst σ = t.subst τ := by
  induction t with
  | primitive _ | literal _ | boolean _ => rfl
  | union members ih | inter members ih | object _ _ members ih | sequence _ members ih
  | ref _ members _ ih | name _ members ih =>
      simp only [params, paramsList_eq] at h
      simp only [subst, substList_eq, map_subst_congr ih h]
  | param p => exact h p (List.mem_singleton.2 rfl)
  | keyOf t ih => simp only [subst, ih h]
  | index t k iht ihk =>
      simp only [params, List.mem_append] at h
      simp only [subst, iht fun p hp => h p (.inl hp), ihk fun p hp => h p (.inr hp)]
  | mapped q c u qs ihc ihu =>
      simp only [params, List.mem_append] at h
      simp only [subst, ihc fun p hp => h p (.inl hp), ihu fun p hp => h p (.inr hp)]

@[simp] theorem subst_param (t : Ty) : t.subst param = t := by
  induction t with
  | primitive _ | literal _ | boolean _ | param _ => rfl
  | union members ih | inter members ih | object _ _ members ih | sequence _ members ih
  | ref _ members _ ih | name _ members ih =>
      simp only [subst, substList_eq]
      rw [List.map_congr_left ih, List.map_id'']
      intro t
      rfl
  | keyOf t ih => simp only [subst, ih]
  | index t k iht ihk => simp only [subst, iht, ihk]
  | mapped p c t ps ihc iht => simp only [subst, ihc, iht]

theorem subst_eq_self {σ : TypeParam → Ty} {t : Ty} (h : ∀ p ∈ t.params, σ p = param p) :
    t.subst σ = t :=
  (subst_congr h).trans t.subst_param

theorem subst_subst (σ τ : TypeParam → Ty) (t : Ty) :
    (t.subst σ).subst τ = t.subst fun p => (σ p).subst τ := by
  induction t with
  | primitive _ | literal _ | boolean _ | param _ => rfl
  | union members ih | inter members ih | object _ _ members ih | sequence _ members ih
  | ref _ members _ ih | name _ members ih =>
      simp only [subst, substList_eq, List.map_map]
      rw [List.map_congr_left]
      exact ih
  | keyOf t ih => simp only [subst, ih]
  | index t k iht ihk => simp only [subst, iht, ihk]
  | mapped p c t ps ihc iht => simp only [subst, ihc, iht]

theorem mem_params_subst {σ : TypeParam → Ty} {t : Ty} {q : TypeParam} :
    q ∈ (t.subst σ).params ↔ ∃ p ∈ t.params, q ∈ (σ p).params := by
  induction t with
  | primitive _ | literal _ | boolean _ | param _ => simp [subst, params]
  | union members ih | inter members ih | object _ _ members ih | sequence _ members ih
  | ref _ members _ ih | name _ members ih =>
      simp only [subst, params, substList_eq, paramsList_eq, List.mem_flatMap, List.mem_map]
      constructor
      · rintro ⟨_, ⟨t, ht, rfl⟩, hq⟩
        obtain ⟨p, hp, hqp⟩ := (ih t ht).1 hq
        exact ⟨p, ⟨t, ht, hp⟩, hqp⟩
      · rintro ⟨p, ⟨t, ht, hp⟩, hqp⟩
        exact ⟨_, ⟨t, ht, rfl⟩, (ih t ht).2 ⟨p, hp, hqp⟩⟩
  | keyOf t ih => simpa only [subst, params] using ih
  | index t k iht ihk =>
      simp only [subst, params, List.mem_append, iht, ihk, or_and_right, exists_or]
  | mapped p c t ps ihc iht =>
      simp only [subst, params, List.mem_append, ihc, iht, or_and_right, exists_or]

theorem free_subset_params {t : Ty} {p : TypeParam} (h : p ∈ t.free) : p ∈ t.params := by
  induction t with
  | primitive _ | literal _ | boolean _ | param _ => exact h
  | union members ih | inter members ih | object _ _ members ih | sequence _ members ih
  | ref _ members _ ih | name _ members ih =>
      simp only [free, freeList_eq, List.mem_flatMap] at h
      obtain ⟨t, ht, hp⟩ := h
      simp only [params, paramsList_eq, List.mem_flatMap]
      exact ⟨t, ht, ih t ht hp⟩
  | keyOf t ih => exact ih h
  | index t k iht ihk =>
      simp only [free, params, List.mem_append] at h ⊢
      exact h.imp iht ihk
  | mapped q c t qs ihc iht =>
      simp only [free, params, List.mem_append, List.mem_filter] at h ⊢
      exact h.imp ihc fun hp => iht hp.1

theorem free_eq_params {t : Ty} (h : t.unmapped = true) : t.free = t.params := by
  induction t with
  | primitive _ | literal _ | boolean _ | param _ => rfl
  | union members ih | inter members ih | object _ _ members ih | sequence _ members ih
  | ref _ members _ ih | name _ members ih =>
      simp only [unmapped, unmappedList_eq, List.all_eq_true] at h
      simp only [free, params, freeList_eq, paramsList_eq, List.flatMap]
      rw [List.map_congr_left fun t ht => ih t ht (h t ht)]
  | keyOf t ih => exact ih h
  | index t k iht ihk =>
      simp only [unmapped, Bool.and_eq_true] at h
      simp only [free, params, iht h.1, ihk h.2]
  | mapped _ _ _ _ _ _ => simp [unmapped] at h

theorem unmapped_subst {σ : TypeParam → Ty} {t : Ty} (ht : t.unmapped = true)
    (hσ : ∀ p ∈ t.params, (σ p).unmapped = true) : (t.subst σ).unmapped = true := by
  induction t with
  | primitive _ | literal _ | boolean _ => rfl
  | param p => exact hσ p (List.mem_singleton.2 rfl)
  | union members ih | inter members ih | object _ _ members ih | sequence _ members ih
  | ref _ members _ ih | name _ members ih =>
      simp only [unmapped, unmappedList_eq, List.all_eq_true] at ht
      simp only [params, paramsList_eq, List.mem_flatMap] at hσ
      simp only [subst, substList_eq, unmapped, unmappedList_eq, List.all_eq_true, List.mem_map]
      rintro _ ⟨t, hmem, rfl⟩
      exact ih t hmem (ht t hmem) fun p hp => hσ p ⟨t, hmem, hp⟩
  | keyOf t ih => exact ih ht hσ
  | index t k iht ihk =>
      simp only [unmapped, Bool.and_eq_true] at ht
      simp only [params, List.mem_append] at hσ
      simp only [subst, unmapped, Bool.and_eq_true]
      exact ⟨iht ht.1 fun p hp => hσ p (.inl hp), ihk ht.2 fun p hp => hσ p (.inr hp)⟩
  | mapped _ _ _ _ _ _ => simp [unmapped] at ht

end Ty

namespace Bindings

theorem lookup_append (γ δ : Bindings) (p : TypeParam) :
    (γ ++ δ).lookup p = (γ.lookup p).or (δ.lookup p) := by
  induction γ with
  | nil => rfl
  | cons binding rest ih =>
      obtain ⟨q, t⟩ := binding
      simp only [List.cons_append, List.lookup_cons, ih]
      cases p == q <;> rfl

theorem mem_of_lookup {γ : Bindings} {p : TypeParam} {t : Ty} (h : γ.lookup p = some t) :
    (p, t) ∈ γ := by
  induction γ with
  | nil => simp at h
  | cons binding rest ih =>
      obtain ⟨q, u⟩ := binding
      rw [List.lookup_cons] at h
      cases hq : p == q with
      | true =>
          rw [hq] at h
          cases h
          rw [eq_of_beq hq]
          exact List.mem_cons_self
      | false =>
          rw [hq] at h
          exact List.mem_cons_of_mem _ (ih h)

theorem hide_comm (γ : Bindings) (p q : TypeParam) : (γ.hide p).hide q = (γ.hide q).hide p := by
  simp only [hide, List.filter_filter, Bool.and_comm]

theorem hide_append (γ δ : Bindings) (p : TypeParam) :
    hide p (γ ++ δ) = hide p γ ++ hide p δ :=
  List.filter_append _ _

theorem mem_of_mem_hide {γ : Bindings} {p : TypeParam} {binding : TypeParam × Ty}
    (h : binding ∈ γ.hide p) : binding ∈ γ :=
  (List.mem_filter.1 h).1

theorem lookup_of_lookup_hide {γ : Bindings} {p q : TypeParam} {t : Ty}
    (h : (γ.hide p).lookup q = some t) : γ.lookup q = some t := by
  by_cases hqp : q = p
  · rw [hqp, lookup_hide_self] at h
    cases h
  · rwa [lookup_hide_of_ne hqp] at h

/-- The first parameter is bound to a type that mentions the second. -/
def Mentions (γ : Bindings) (p q : TypeParam) : Prop :=
  ∃ t, γ.lookup p = some t ∧ q ∈ t.params

/-- The parameters that come up when a parameter is followed. -/
abbrev Leads (γ : Bindings) : TypeParam → TypeParam → Prop :=
  Relation.ReflTransGen γ.Mentions

theorem leads_of_leads_hide {γ : Bindings} {p q r : TypeParam} (h : (γ.hide p).Leads q r) :
    γ.Leads q r :=
  Relation.ReflTransGen.mono (fun _ _ ⟨t, hbound, hmem⟩ => ⟨t, lookup_of_lookup_hide hbound, hmem⟩)
    _ _ h

end Bindings

namespace Ty

theorem chase_of_none {γ : Bindings} {p : TypeParam} (h : γ.lookup p = none) :
    chase γ p = param p := by
  rw [chase]
  split
  · rfl
  · next heq => rw [h] at heq; cases heq

theorem chase_of_self {γ : Bindings} {p : TypeParam} (h : γ.lookup p = some (param p)) :
    chase γ p = param p := by
  rw [chase]
  split
  · rfl
  · next heq =>
      rw [h] at heq
      cases heq
      exact if_pos rfl

theorem chase_of_some {γ : Bindings} {p : TypeParam} {t : Ty} (h : γ.lookup p = some t)
    (hne : t ≠ param p) : chase γ p = t.subst (chase (γ.hide p)) := by
  rw [chase]
  split
  · next heq => rw [h] at heq; cases heq
  · next heq =>
      rw [h] at heq
      cases heq
      exact if_neg hne

@[simp] theorem chase_nil (p : TypeParam) : chase [] p = param p :=
  chase_of_none rfl

@[simp] theorem substitute_nil (t : Ty) : t.substitute [] = t :=
  subst_eq_self fun p _ => chase_nil p

/-- A parameter that does not show in what a chase comes to need not be hidden from it. -/
theorem chase_hide {γ : Bindings} {p q : TypeParam} (h : p ∉ (chase (γ.hide p) q).params) :
    chase (γ.hide p) q = chase γ q := by
  by_cases hpq : q = p
  · subst hpq
    rw [chase_of_none (Bindings.lookup_hide_self q γ)] at h
    exact absurd (List.mem_singleton.2 rfl) h
  have hlookup : (γ.hide p).lookup q = γ.lookup q := Bindings.lookup_hide_of_ne hpq γ
  cases hq : γ.lookup q with
  | none => rw [chase_of_none hq, chase_of_none (hlookup.trans hq)]
  | some t =>
      by_cases hself : t = param q
      · subst hself
        rw [chase_of_self hq, chase_of_self (hlookup.trans hq)]
      rw [chase_of_some (hlookup.trans hq) hself, Bindings.hide_comm] at h ⊢
      rw [chase_of_some hq hself]
      apply subst_congr
      intro r hr
      exact chase_hide fun hp => h (mem_params_subst.2 ⟨r, hr, hp⟩)
termination_by γ.length
decreasing_by exact Bindings.length_hide_lt hq

/-- A parameter that is gone after the chase stands for what its binding comes to. -/
theorem chase_unfold {γ : Bindings} {p : TypeParam} {t : Ty} (hbound : γ.lookup p = some t)
    (hgone : p ∉ (chase γ p).params) : chase γ p = t.subst (chase γ) := by
  have hne : t ≠ param p := by
    rintro rfl
    rw [chase_of_self hbound] at hgone
    exact hgone (List.mem_singleton.2 rfl)
  rw [chase_of_some hbound hne] at hgone ⊢
  apply subst_congr
  intro q hq
  exact chase_hide fun hp => hgone (mem_params_subst.2 ⟨q, hq, hp⟩)

/-- Bindings further out do not matter to a chase that leaves none of their parameters. -/
theorem chase_append {γ : Bindings} (δ : Bindings) {p : TypeParam}
    (h : ∀ q ∈ (chase γ p).params, δ.lookup q = none) : chase (γ ++ δ) p = chase γ p := by
  cases hp : γ.lookup p with
  | none =>
      rw [chase_of_none hp] at h ⊢
      apply chase_of_none
      rw [Bindings.lookup_append, hp]
      exact h p (List.mem_singleton.2 rfl)
  | some t =>
      have happend : (γ ++ δ).lookup p = some t := by
        rw [Bindings.lookup_append, hp]
        rfl
      by_cases hself : t = param p
      · subst hself
        rw [chase_of_self hp, chase_of_self happend]
      rw [chase_of_some hp hself] at h ⊢
      rw [chase_of_some happend hself, Bindings.hide_append]
      apply subst_congr
      intro q hq
      apply chase_append
      intro r hr
      by_cases hrp : r = p
      · subst hrp
        exact Bindings.lookup_hide_self r δ
      · rw [Bindings.lookup_hide_of_ne hrp]
        exact h r (mem_params_subst.2 ⟨q, hq, hr⟩)
termination_by γ.length
decreasing_by exact Bindings.length_hide_lt hp

theorem chase_cons {γ : Bindings} {p q : TypeParam} {t : Ty} (h : ¬γ.Leads q p) :
    chase ((p, t) :: γ) q = chase γ q := by
  have hne : q ≠ p := by
    rintro rfl
    exact h .refl
  have hcons : List.lookup q ((p, t) :: γ) = γ.lookup q := by
    rw [List.lookup_cons, beq_eq_false_iff_ne.2 hne]
  cases hq : γ.lookup q with
  | none => rw [chase_of_none hq, chase_of_none (hcons.trans hq)]
  | some u =>
      by_cases hself : u = param q
      · subst hself
        rw [chase_of_self hq, chase_of_self (hcons.trans hq)]
      have hhide : Bindings.hide q ((p, t) :: γ) = (p, t) :: γ.hide q :=
        List.filter_cons_of_pos (decide_eq_true hne.symm)
      rw [chase_of_some hq hself, chase_of_some (hcons.trans hq) hself, hhide]
      apply subst_congr
      intro r hr
      exact chase_cons fun hleads => h (.head ⟨u, hq, hr⟩ (Bindings.leads_of_leads_hide hleads))
termination_by γ.length
decreasing_by exact Bindings.length_hide_lt hq

theorem exists_lookup_of_chase {γ : Bindings} {p : TypeParam} (h : (chase γ p).params = []) :
    ∃ t, γ.lookup p = some t := by
  apply Option.ne_none_iff_exists'.1
  intro hnone
  rw [chase_of_none hnone] at h
  cases h

theorem params_chase_of_leads {γ : Bindings} {p q : TypeParam} (h : (chase γ p).params = [])
    (hleads : γ.Leads p q) : (chase γ q).params = [] := by
  induction hleads with
  | refl => exact h
  | @tail q r _ hmentions ih =>
      obtain ⟨t, hbound, hr⟩ := hmentions
      rw [chase_unfold hbound fun hmem => by rw [ih] at hmem; cases hmem] at ih
      refine List.eq_nil_iff_forall_not_mem.2 fun x hx => ?_
      have hmem := mem_params_subst.2 ⟨r, hr, hx⟩
      rw [ih] at hmem
      cases hmem

/-- What holds of parameters and of all types that come up, and is kept by substitution, holds of
what a chase comes to. -/
theorem chase_induction {P : Ty → Prop} (hparam : ∀ x, P (param x))
    (hsubst : ∀ t σ, P t → (∀ x ∈ t.params, P (σ x)) → P (t.subst σ)) {γ : Bindings} {p : TypeParam}
    (hbound : ∀ q t, γ.Leads p q → γ.lookup q = some t → P t) : P (chase γ p) := by
  cases hp : γ.lookup p with
  | none =>
      rw [chase_of_none hp]
      exact hparam p
  | some t =>
      by_cases hself : t = param p
      · subst hself
        rw [chase_of_self hp]
        exact hparam p
      rw [chase_of_some hp hself]
      refine hsubst t _ (hbound p t .refl hp) fun q hq => ?_
      refine chase_induction hparam hsubst fun r u hr hu => ?_
      exact hbound r u (.head ⟨t, hp, hq⟩ (Bindings.leads_of_leads_hide hr))
        (Bindings.lookup_of_lookup_hide hu)
termination_by γ.length
decreasing_by exact Bindings.length_hide_lt hp

end Ty

namespace Bindings

theorem mem_of_mem_bind {p : TypeParam} {t : Ty} {γ : Bindings} {binding : TypeParam × Ty}
    (h : binding ∈ γ.bind p t) : binding = (p, t) ∨ binding ∈ γ := by
  induction γ with
  | nil => exact .inl (List.mem_singleton.1 h)
  | cons first rest ih =>
      rw [bind] at h
      split at h
      · rcases List.mem_cons.1 h with rfl | h
        · exact .inl rfl
        · exact .inr (List.mem_cons_of_mem _ h)
      · rcases List.mem_cons.1 h with rfl | h
        · exact .inr List.mem_cons_self
        · exact (ih h).imp_right (List.mem_cons_of_mem _)

theorem mem_of_mem_ofPairs {pairs : List (TypeParam × Ty)} {binding : TypeParam × Ty}
    (h : binding ∈ ofPairs pairs) : binding ∈ pairs := by
  suffices hfold : ∀ γ : Bindings,
      binding ∈ pairs.foldl (fun bindings pair => bindings.bind pair.1 pair.2) γ →
        binding ∈ γ ∨ binding ∈ pairs by
    exact (hfold [] h).resolve_left List.not_mem_nil
  clear h
  induction pairs with
  | nil => exact fun γ hmem => .inl hmem
  | cons pair rest ih =>
      intro γ hmem
      rcases ih _ hmem with hbind | hrest
      · rcases mem_of_mem_bind hbind with rfl | hγ
        · exact .inr List.mem_cons_self
        · exact .inl hγ
      · exact .inr (List.mem_cons_of_mem _ hrest)

end Bindings

end TypeGuard
