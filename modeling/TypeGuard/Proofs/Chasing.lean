import TypeGuard.Proofs.Substitution

/-! Substitution as the calls that it makes. A call has a type and the bindings that are in view; a
call on a bound parameter hides the parameter and goes on with what it is bound to. However the
bindings refer to each other the calls come to an end, and what is left in place is known. Where no
binding leads back to its own parameter, nothing is left that is bound. -/

namespace TypeGuard

namespace Ty

/-- The types that stand right inside a type, where substitution gets to. -/
def parts : Ty → List Ty
  | union members => members
  | inter members => members
  | object _ _ elements => elements
  | sequence _ elements => elements
  | ref _ args => args
  | keyOf t => [t]
  | index t k => [t, k]
  | mapped _ constraint template _ => [constraint, template]
  | name _ args => args
  | _ => []

/-- The type with every part of it replaced. -/
def mapParts (f : Ty → Ty) : Ty → Ty
  | union members => union (members.map f)
  | inter members => inter (members.map f)
  | object kind decl elements => object kind decl (elements.map f)
  | sequence kind elements => sequence kind (elements.map f)
  | ref target args => ref target (args.map f)
  | keyOf t => keyOf (f t)
  | index t k => index (f t) (f k)
  | mapped p constraint template params => mapped p (f constraint) (f template) params
  | name s args => name s (args.map f)
  | t => t

def isParam : Ty → Bool
  | param _ => true
  | _ => false

theorem exists_of_isParam {t : Ty} (h : t.isParam = true) : ∃ p, t = param p := by
  cases t with
  | param p => exact ⟨p, rfl⟩
  | _ => cases h

theorem mapParts_congr {f g : Ty → Ty} {t : Ty} (h : ∀ u ∈ t.parts, f u = g u) :
    t.mapParts f = t.mapParts g := by
  cases t <;> simp_all [parts, mapParts]

theorem subst_eq_mapParts (σ : TypeParam → Ty) {t : Ty} (h : t.isParam = false) :
    t.subst σ = t.mapParts (subst σ) := by
  cases t <;> simp_all [subst, mapParts, isParam]

theorem mem_params_iff {t : Ty} (h : t.isParam = false) {q : TypeParam} :
    q ∈ t.params ↔ ∃ u ∈ t.parts, q ∈ u.params := by
  cases t <;> simp_all [params, parts, isParam]

theorem parts_mapParts (f : Ty → Ty) (t : Ty) : (t.mapParts f).parts = t.parts.map f := by
  cases t <;> rfl

theorem isParam_mapParts (f : Ty → Ty) (t : Ty) : (t.mapParts f).isParam = t.isParam := by
  cases t <;> rfl

/-- Induction over types by the parts that substitution gets to. -/
theorem inductionOnParts {motive : Ty → Prop}
    (parts : ∀ t : Ty, (∀ u ∈ t.parts, motive u) → motive t) (t : Ty) : motive t := by
  induction t with
  | primitive _ | literal _ | boolean _ | param _ =>
      exact parts _ fun _ hu => absurd hu List.not_mem_nil
  | union members ih | inter members ih | object _ _ members ih | sequence _ members ih
  | ref _ members _ ih | name _ members ih => exact parts _ ih
  | keyOf t ih => exact parts _ (List.forall_mem_singleton.2 ih)
  | index t k iht ihk | mapped _ t k _ iht ihk =>
      exact parts _ (List.forall_mem_cons.2 ⟨iht, List.forall_mem_singleton.2 ihk⟩)

/-- What substitution makes of a type, rule by rule. -/
inductive Rewrites : Bindings → Ty → Ty → Prop
  | unbound {view : Bindings} {p : TypeParam} (hnone : view.lookup p = none) :
      Rewrites view (param p) (param p)
  | self {view : Bindings} {p : TypeParam} (hself : view.lookup p = some (param p)) :
      Rewrites view (param p) (param p)
  | chase {view : Bindings} {p : TypeParam} {b u : Ty} (hbound : view.lookup p = some b)
      (hother : b ≠ param p) (h : Rewrites (view.hide p) b u) : Rewrites view (param p) u
  | parts {view : Bindings} {t : Ty} (ht : t.isParam = false) (f : Ty → Ty)
      (h : ∀ u ∈ t.parts, Rewrites view u (f u)) : Rewrites view t (t.mapParts f)

/-- A call of substitution. The chain has the parameters that were followed to get there, the last
one first; nothing is decided by it. -/
structure Call where
  chain : List TypeParam := []
  view : Bindings
  ty : Ty

namespace Call

/-- The first call makes the second. -/
inductive Makes : Call → Call → Prop
  | part {chain : List TypeParam} {view : Bindings} {t u : Ty} (hu : u ∈ t.parts) :
      Makes ⟨chain, view, t⟩ ⟨chain, view, u⟩
  | chase {chain : List TypeParam} {view : Bindings} {p : TypeParam} {b : Ty}
      (hbound : view.lookup p = some b) (hother : b ≠ param p) :
      Makes ⟨chain, view, param p⟩ ⟨p :: chain, view.hide p, b⟩

abbrev Reaches : Call → Call → Prop :=
  Relation.ReflTransGen Makes

/-- The call is on that parameter and leaves it in place. -/
def Leaves (c : Call) (p : TypeParam) : Prop :=
  c.ty = param p ∧ ∀ d, ¬c.Makes d

/-- Following a binding may make the type larger, but there are fewer bindings in view then. -/
theorem acc (chain : List TypeParam) (view : Bindings) (t : Ty) :
    Acc (fun d c => Makes c d) ⟨chain, view, t⟩ := by
  induction hn : view.length using Nat.strongRecOn generalizing chain view t with
  | ind n ih =>
      induction t using inductionOnParts with
      | parts t iht =>
          refine ⟨_, fun d hd => ?_⟩
          cases hd with
          | part hu => exact iht _ hu
          | chase hbound _ => exact ih _ (hn ▸ Bindings.length_hide_lt hbound) _ _ _ rfl

theorem wellFounded : WellFounded fun d c => Makes c d :=
  ⟨fun c => acc c.chain c.view c.ty⟩

/-- What holds of every call that the call with the given bindings comes to make. -/
structure Follows (γ : Bindings) (c : Call) : Prop where
  nodup : c.chain.Nodup
  expanded : ∀ p ∈ c.chain, ∃ b, γ.lookup p = some b ∧ b ≠ param p
  lookup : ∀ q, c.view.lookup q = if q ∈ c.chain then none else γ.lookup q
  length : c.chain.length + c.view.length ≤ γ.length
  leads : ∀ p ∈ c.chain, ∀ q ∈ c.ty.params, Relation.TransGen γ.Mentions p q

variable {γ : Bindings} {c d : Call} {t : Ty} {p q : TypeParam}

theorem follows_start (γ : Bindings) (t : Ty) : Follows γ { view := γ, ty := t } where
  nodup := .nil
  expanded _ h := absurd h List.not_mem_nil
  lookup _ := (if_neg List.not_mem_nil).symm
  length := Nat.le_of_eq (Nat.zero_add _)
  leads _ h := absurd h List.not_mem_nil

theorem Follows.makes (h : Follows γ c) (hmakes : c.Makes d) : Follows γ d := by
  cases hmakes with
  | @part chain view t u hu =>
      refine ⟨h.nodup, h.expanded, h.lookup, h.length, fun p hp q hq => h.leads p hp q ?_⟩
      have ht : t.isParam = false := by
        cases t with
        | param p => exact absurd hu List.not_mem_nil
        | _ => rfl
      exact (mem_params_iff ht).2 ⟨u, hu, hq⟩
  | @chase chain view p b hbound hother =>
      have hp : p ∉ chain := by
        intro hp
        rw [h.lookup p, if_pos hp] at hbound
        cases hbound
      have hγ : γ.lookup p = some b := by
        rw [h.lookup p, if_neg hp] at hbound
        exact hbound
      refine ⟨List.nodup_cons.2 ⟨hp, h.nodup⟩, ?_, fun q => ?_, ?_, ?_⟩
      · exact List.forall_mem_cons.2 ⟨⟨b, hγ, hother⟩, h.expanded⟩
      · show (view.hide p).lookup q = _
        by_cases hq : q = p
        · subst hq
          rw [Bindings.lookup_hide_self, if_pos List.mem_cons_self]
        · rw [Bindings.lookup_hide_of_ne hq, h.lookup q]
          simp only [List.mem_cons, hq, false_or]
      · have hlt := Bindings.length_hide_lt hbound
        have hle := h.length
        simp only [List.length_cons] at hle ⊢
        omega
      · refine List.forall_mem_cons.2 ⟨fun q hq => .single ⟨b, hγ, hq⟩, fun r hr q hq => ?_⟩
        exact (h.leads r hr p (List.mem_singleton.2 rfl)).tail ⟨b, hγ, hq⟩

theorem Follows.reaches (h : Follows γ c) (hreaches : c.Reaches d) : Follows γ d := by
  induction hreaches with
  | refl => exact h
  | tail _ hmakes ih => exact ih.makes hmakes

theorem lookup_of_leaves (h : c.Leaves p) :
    c.view.lookup p = none ∨ c.view.lookup p = some (param p) := by
  obtain ⟨chain, view, t⟩ := c
  obtain ⟨rfl, hstops⟩ := h
  cases hp : view.lookup p with
  | none => exact .inl rfl
  | some b =>
      by_cases hself : b = param p
      · exact .inr (congrArg some hself)
      · exact absurd (.chase hp hself) (hstops _)

theorem leaves_iff {chain : List TypeParam} {view : Bindings}
    (h : view.lookup p = none ∨ view.lookup p = some (param p)) :
    (⟨chain, view, param p⟩ : Call).Leaves q ↔ q = p := by
  refine ⟨fun hleaves => (param.inj hleaves.1).symm, ?_⟩
  rintro rfl
  refine ⟨rfl, fun d hmakes => ?_⟩
  cases hmakes with
  | part hu => exact absurd hu List.not_mem_nil
  | chase hbound hother =>
      rw [hbound] at h
      rcases h with hnone | hself
      · cases hnone
      · exact hother (Option.some.inj hself)

theorem Follows.leaves (h : Follows γ c) (hleaves : c.Leaves p) :
    γ.lookup p = none ∨ γ.lookup p = some (param p) ∨ p ∈ c.chain := by
  by_cases hp : p ∈ c.chain
  · exact .inr (.inr hp)
  · have hlookup := lookup_of_leaves hleaves
    rw [h.lookup p, if_neg hp] at hlookup
    exact hlookup.imp_right .inl

/-- Of the parameters in what a call comes to, each is the call's own or that of a call that it
makes. -/
theorem mem_params_substitute (c : Call) (q : TypeParam) :
    q ∈ (c.ty.substitute c.view).params ↔
      c.Leaves q ∨ ∃ d, c.Makes d ∧ q ∈ (d.ty.substitute d.view).params := by
  obtain ⟨chain, view, t⟩ := c
  have hleft : ∀ p, view.lookup p = none ∨ view.lookup p = some (param p) → chase view p = param p →
      (q ∈ (chase view p).params ↔ (⟨chain, view, param p⟩ : Call).Leaves q ∨
        ∃ d, Makes ⟨chain, view, param p⟩ d ∧ q ∈ (d.ty.substitute d.view).params) := by
    intro p hp hchase
    rw [hchase, leaves_iff hp, or_iff_left]
    · exact List.mem_singleton
    · rintro ⟨d, hmakes, _⟩
      exact ((leaves_iff hp).2 rfl).2 d hmakes
  cases ht : t.isParam with
  | true =>
      obtain ⟨p, rfl⟩ := exists_of_isParam ht
      cases hp : view.lookup p with
      | none => exact hleft p (.inl hp) (chase_of_none hp)
      | some b =>
          by_cases hself : b = param p
          · subst hself
            exact hleft p (.inr hp) (chase_of_self hp)
          · show q ∈ (chase view p).params ↔ _
            rw [chase_of_some hp hself]
            constructor
            · exact fun hq => .inr ⟨_, .chase hp hself, hq⟩
            · rintro (hleaves | ⟨d, hmakes, hq⟩)
              · exact absurd (.chase hp hself) (hleaves.2 _)
              · cases hmakes with
                | part hu => exact absurd hu List.not_mem_nil
                | chase hbound _ =>
                    cases hp.symm.trans hbound
                    exact hq
  | false =>
      show q ∈ (t.subst (chase view)).params ↔ _
      rw [subst_eq_mapParts _ ht, mem_params_iff ((isParam_mapParts _ t).trans ht), parts_mapParts]
      constructor
      · rintro ⟨_, hmem, hq⟩
        obtain ⟨u, hu, rfl⟩ := List.mem_map.1 hmem
        exact .inr ⟨_, .part hu, hq⟩
      · rintro (hleaves | ⟨d, hmakes, hq⟩)
        · obtain rfl : t = param q := hleaves.1
          cases ht
        · cases hmakes with
          | part hu => exact ⟨_, List.mem_map_of_mem hu, hq⟩
          | chase _ _ => cases ht

theorem mem_params_iff_leaves (c : Call) (q : TypeParam) :
    q ∈ (c.ty.substitute c.view).params ↔ ∃ d, c.Reaches d ∧ d.Leaves q := by
  induction c using wellFounded.induction with
  | _ c ih =>
      rw [mem_params_substitute]
      constructor
      · rintro (hleaves | ⟨d, hmakes, hq⟩)
        · exact ⟨c, .refl, hleaves⟩
        · obtain ⟨e, hreaches, hleaves⟩ := (ih d hmakes).1 hq
          exact ⟨e, .head hmakes hreaches, hleaves⟩
      · rintro ⟨e, hreaches, hleaves⟩
        rcases Relation.ReflTransGen.cases_head hreaches with rfl | ⟨d, hmakes, hreaches⟩
        · exact .inl hleaves
        · exact .inr ⟨d, hmakes, (ih d hmakes).2 ⟨e, hreaches, hleaves⟩⟩

end Call

/-- The rules give every type one result, and it is that of substitution. -/
theorem rewrites_iff {view : Bindings} {t u : Ty} : Rewrites view t u ↔ u = t.substitute view := by
  constructor
  · intro h
    induction h with
    | unbound hnone => exact (chase_of_none hnone).symm
    | self hself => exact (chase_of_self hself).symm
    | chase hbound hother _ ih => exact ih.trans (chase_of_some hbound hother).symm
    | parts ht f _ ih => exact (mapParts_congr ih).trans (subst_eq_mapParts _ ht).symm
  · rintro rfl
    induction hn : view.length using Nat.strongRecOn generalizing view t with
    | ind n ih =>
        induction t using inductionOnParts with
        | parts t iht =>
            cases ht : t.isParam with
            | true =>
                obtain ⟨p, rfl⟩ := exists_of_isParam ht
                show Rewrites view (param p) (Ty.chase view p)
                cases hp : view.lookup p with
                | none =>
                    rw [chase_of_none hp]
                    exact .unbound hp
                | some b =>
                    by_cases hself : b = param p
                    · subst hself
                      rw [chase_of_self hp]
                      exact .self hp
                    · rw [chase_of_some hp hself]
                      exact .chase hp hself (ih _ (hn ▸ Bindings.length_hide_lt hp) rfl)
            | false =>
                have hparts := Rewrites.parts ht (substitute view) iht
                rwa [substitute, subst_eq_mapParts _ ht]

/-- Substitution ends whatever the bindings are, and gives what the rules say. On the way to any of
its calls no parameter is followed twice, and only such as are bound to something else. A parameter
stands in the result just where a call leaves it in place, which is because it is unbound, bound to
itself or being followed already. -/
theorem substitution_ends (γ : Bindings) (t : Ty) :
    WellFounded (fun d c => Call.Makes c d) ∧
    (∀ u, Rewrites γ t u ↔ u = t.substitute γ) ∧
    (∀ c, Call.Reaches { view := γ, ty := t } c →
      c.chain.Nodup ∧ c.chain.length ≤ γ.length ∧
      (∀ p ∈ c.chain, ∃ b, γ.lookup p = some b ∧ b ≠ param p) ∧
      ∀ p, c.Leaves p → γ.lookup p = none ∨ γ.lookup p = some (param p) ∨ p ∈ c.chain) ∧
    ∀ q, q ∈ (t.substitute γ).params ↔ ∃ c, Call.Reaches { view := γ, ty := t } c ∧ c.Leaves q := by
  refine ⟨Call.wellFounded, fun u => rewrites_iff, fun c hc => ?_, ?_⟩
  · have hfollows := (Call.follows_start γ t).reaches hc
    refine ⟨hfollows.nodup, ?_, hfollows.expanded, fun p => hfollows.leaves⟩
    exact Nat.le_trans (Nat.le_add_right _ _) hfollows.length
  · exact Call.mem_params_iff_leaves { view := γ, ty := t }

/-- One parameter is bound to a box of the other and that one to the first. The second comes to a
box of itself, and it was being followed where it is left. -/
theorem substitution_ends_circle :
    let p : TypeParam := ⟨"T", 0⟩
    let q : TypeParam := ⟨"U", 1⟩
    let box (t : Ty) : Ty := .ref (.object .interface ⟨"Box", 0⟩ []) [t]
    let γ : Bindings := [(p, box (param q)), (q, param p)]
    (param q).substitute γ = box (param q) ∧
      ∃ c, Call.Reaches { view := γ, ty := param q } c ∧ c.Leaves q ∧ q ∈ c.chain := by
  intro p q box γ
  have hresult : (param q).substitute γ = box (param q) := by decide +kernel
  obtain ⟨_, _, hcalls, hparams⟩ := substitution_ends γ (param q)
  have hq : q ∈ ((param q).substitute γ).params := hresult ▸ List.mem_singleton.2 rfl
  obtain ⟨c, hreaches, hleaves⟩ := (hparams q).1 hq
  refine ⟨hresult, c, hreaches, hleaves, ?_⟩
  obtain ⟨_, _, _, hleft⟩ := hcalls c hreaches
  rcases hleft q hleaves with hnone | hself | hchain
  · cases hnone
  · exact absurd (Option.some.inj hself) (by decide)
  · exact hchain

end Ty

/-- No binding leads back to its own parameter. -/
def Bindings.Acyclic (γ : Bindings) : Prop :=
  ∀ p, ¬Relation.TransGen γ.Mentions p p

namespace Ty

variable {γ : Bindings}

theorem lookup_of_acyclic (h : γ.Acyclic) {t : Ty} {q : TypeParam}
    (hq : q ∈ (t.substitute γ).params) :
    γ.lookup q = none := by
  obtain ⟨c, hreaches, hleaves⟩ := (Call.mem_params_iff_leaves { view := γ, ty := t } q).1 hq
  have hfollows := (Call.follows_start γ t).reaches hreaches
  have hmem : q ∈ c.ty.params := hleaves.1 ▸ List.mem_singleton.2 rfl
  rcases hfollows.leaves hleaves with hnone | hself | hchain
  · exact hnone
  · exact absurd (.single ⟨_, hself, List.mem_singleton.2 rfl⟩) (h q)
  · exact absurd (hfollows.leads q hchain q hmem) (h q)

/-- Without cycles, substitution leaves no parameter that is bound and a second one changes
nothing. It puts for each bound parameter, all at once, what the parameter comes to by itself, and
that is what its binding comes to with nothing hidden. -/
theorem substitution_is_full (h : γ.Acyclic) (t : Ty) :
    (∀ q ∈ (t.substitute γ).params, γ.lookup q = none) ∧
    (t.substitute γ).substitute γ = t.substitute γ ∧
    t.substitute γ =
      t.subst (fun p => if (γ.lookup p).isSome then (param p).substitute γ else param p) ∧
    ∀ p b, γ.lookup p = some b → (param p).substitute γ = b.substitute γ := by
  refine ⟨fun q => lookup_of_acyclic h, ?_, ?_, fun p b hbound => ?_⟩
  · exact subst_eq_self fun q hq => chase_of_none (lookup_of_acyclic h hq)
  · refine subst_congr fun p _ => ?_
    split
    · rfl
    · next hunbound => exact chase_of_none (Option.not_isSome_iff_eq_none.1 hunbound)
  · refine chase_unfold hbound fun hp => ?_
    have hnone := lookup_of_acyclic h (t := param p) hp
    rw [hbound] at hnone
    cases hnone

/-- A chain of boxes: the first parameter stands for a box of the second, and that one for a list
of a third that is not bound. -/
theorem substitution_is_full_chain :
    let p : TypeParam := ⟨"T", 0⟩
    let q : TypeParam := ⟨"U", 1⟩
    let r : TypeParam := ⟨"V", 2⟩
    let box (t : Ty) : Ty := .ref (.object .interface ⟨"Box", 0⟩ []) [t]
    let γ : Bindings := [(p, box (param q)), (q, .sequence .array [param r])]
    γ.Acyclic ∧ (param p).substitute γ = (box (param q)).substitute γ ∧
      (box (.sequence .array [param r])).substitute γ = box (.sequence .array [param r]) := by
  intro p q r box γ
  have hup : ∀ x y, γ.Mentions x y → x.id < y.id := by
    rintro x y ⟨t, hbound, hy⟩
    rcases List.mem_cons.1 (Bindings.mem_of_lookup hbound) with heq | hmem
    · cases heq
      cases List.mem_singleton.1 hy
      decide
    · cases List.mem_singleton.1 hmem
      cases List.mem_singleton.1 hy
      decide
  have hacyclic : γ.Acyclic := by
    intro x hx
    have hlt : Relation.TransGen (fun m n : Nat => m < n) x.id x.id := hx.lift TypeParam.id hup
    rw [Relation.transGen_eq_self] at hlt
    exact Nat.lt_irrefl _ hlt
  obtain ⟨_, htwice, _, hbinding⟩ := substitution_is_full hacyclic (param p)
  have hp : (param p).substitute γ = box (.sequence .array [param r]) := by decide +kernel
  exact ⟨hacyclic, hbinding p _ rfl, hp ▸ htwice⟩

end Ty

end TypeGuard
