import Mathlib.Data.Nat.Find
import TypeGuard.Proofs.Coverage

/-! What the bindings of an interface have the parameters above it stand for: the arguments that
come of following the heritage clauses along a shortest way. -/

namespace TypeGuard

namespace Bindings

theorem lookup_of_mem {γ : Bindings} (hnodup : (γ.map Prod.fst).Nodup) {binding : TypeParam × Ty}
    (h : binding ∈ γ) : γ.lookup binding.1 = some binding.2 := by
  induction γ with
  | nil => cases h
  | cons first rest ih =>
      rw [List.map_cons, List.nodup_cons] at hnodup
      rw [List.lookup_cons]
      rcases List.mem_cons.1 h with rfl | hrest
      · rw [beq_self_eq_true]
      · have hne : binding.1 ≠ first.1 := by
          intro heq
          exact hnodup.1 (List.mem_map.2 ⟨binding, hrest, heq⟩)
        rw [beq_eq_false_iff_ne.2 hne]
        exact ih hnodup.2 hrest

theorem lookup_eq_none_of_not_mem {γ : Bindings} {p : TypeParam} (h : p ∉ γ.map Prod.fst) :
    γ.lookup p = none := by
  refine List.lookup_eq_none_iff.2 fun binding hmem => bne_iff_ne.2 ?_
  rintro rfl
  exact h (List.mem_map.2 ⟨binding, hmem, rfl⟩)

theorem foldl_bindNew_of_nodup {pairs : List (TypeParam × Ty)} {γ : Bindings}
    (h : ((γ ++ pairs).map Prod.fst).Nodup) :
    pairs.foldl (fun bindings pair => bindings.bindNew pair.1 pair.2) γ = γ ++ pairs := by
  induction pairs generalizing γ with
  | nil => rw [List.append_nil, List.foldl_nil]
  | cons pair rest ih =>
      have hnew : γ.lookup pair.1 = none := by
        apply lookup_eq_none_of_not_mem
        intro hmem
        rw [List.map_append, List.nodup_append] at h
        exact h.2.2 _ hmem _ List.mem_cons_self rfl
      have hbind : γ.bindNew pair.1 pair.2 = γ ++ [pair] := by
        rw [bindNew, hnew]
        rfl
      rw [List.foldl_cons, hbind, ih (by simpa using h), List.append_assoc, List.singleton_append]

end Bindings

namespace Ty

variable {t : Ty} {kind : ObjectKind} {decl : DeclId}

theorem head_subst (σ : TypeParam → Ty) (h : t.head = .object kind decl []) :
    (t.subst σ).head = .object kind decl [] := by
  cases t with
  | object k i us =>
      cases h
      rfl
  | ref target args =>
      cases h
      rfl
  | _ => cases h

theorem eq_object_of_key (h : t.key = (object kind decl []).key) : t = .object kind decl [] := by
  obtain ⟨elements, rfl⟩ := exists_object_of_key h
  cases elements with
  | nil => rfl
  | cons => cases h

end Ty

namespace Catalog

variable {cat : Catalog}

/-- A parameter of some declaration. -/
def HasParam (cat : Catalog) (x : TypeParam) : Prop :=
  ∃ i d, cat.declared? i = some d ∧ x ∈ d.params

theorem hasParam_of_mem_paramsOf {kind : ObjectKind} {decl : DeclId} {elements : List Ty}
    {x : TypeParam} (h : x ∈ cat.paramsOf (.object kind decl elements)) : cat.HasParam x := by
  rw [paramsOf] at h
  split at h
  · next d hfind => exact ⟨decl, d, hfind, h⟩
  · cases h

/-- Only the given parameters are open in a type, and no mapped type inside of it binds a parameter
of a declaration. -/
structure Phrased (cat : Catalog) (params : List TypeParam) (t : Ty) : Prop where
  free : t.free ⊆ params
  binders : t.Every (Ty.MapsOver fun x => ¬cat.HasParam x)

theorem Phrased.mem_params {params : List TypeParam} {t : Ty} {x : TypeParam}
    (h : cat.Phrased params t) (hx : x ∈ t.params) (hparam : cat.HasParam x) : x ∈ params :=
  h.free (Ty.mem_free_of_mem_params h.binders hx (not_not_intro hparam))

/-- Each declaration has parameters of its own, and each clause stands for an interface with
arguments that are phrased in the parameters of the heir. -/
structure Inheritable (cat : Catalog) : Prop where
  nodup : ∀ i d, cat.declared? i = some d → d.params.Nodup
  apart : ∀ i d i' d' x, cat.declared? i = some d → cat.declared? i' = some d' → x ∈ d.params →
    x ∈ d'.params → i = i'
  clauses : ∀ i d, cat.declared? i = some d → ∀ clause ∈ d.heritage, ∃ base decl,
    cat.resolve clause.annotation = .ok base ∧ base.head = .object .interface decl [] ∧
    base.args.length = (cat.paramsOf base.head).length ∧ ∀ u ∈ base.args, cat.Phrased d.params u

/-- An interface with arguments in which nothing is open. -/
structure Applied (cat : Catalog) (t : Ty) : Prop where
  head : ∃ decl, t.head = .object .interface decl []
  length : t.args.length = (cat.paramsOf t.head).length
  args : ∀ u ∈ t.args, cat.Phrased [] u

/-- What a type inherits from by so many steps, with the arguments that come of composing the
clauses on the way. -/
inductive InheritsIn (cat : Catalog) (t : Ty) : Nat → Ty → Prop
  | self : InheritsIn cat t 0 t
  | base {n : Nat} {heir base : Ty} {bases : List Ty} (hheir : InheritsIn cat t n heir)
      (hbases : cat.bases heir = .ok bases) (hbase : base ∈ bases) :
      InheritsIn cat t (n + 1) (base.substitute (cat.ownBindings heir))

theorem Applied.not_hasParam {t u : Ty} {x : TypeParam} (ht : cat.Applied t) (hu : u ∈ t.args)
    (hx : x ∈ u.params) : ¬cat.HasParam x :=
  fun hparam => List.not_mem_nil ((ht.args u hu).mem_params hx hparam)

theorem Applied.exists_argument {t : Ty} {x : TypeParam} (ht : cat.Applied t)
    (hx : x ∈ cat.paramsOf t.head) : ∃ u, (x, u) ∈ (cat.paramsOf t.head).zip t.args := by
  obtain ⟨u, _, hlookup⟩ := Bindings.exists_lookup_zip ht.length hx
  exact ⟨u, Bindings.mem_of_lookup hlookup⟩

namespace Inheritable

variable (hcat : cat.Inheritable)

include hcat

theorem base_of {t base : Ty} {bases : List Ty} (h : cat.bases t = .ok bases)
    (hbase : base ∈ bases) :
    ∃ kind decl elements d decl', t.head = .object kind decl elements ∧
      cat.declared? decl = some d ∧ base.head = .object .interface decl' [] ∧
      base.args.length = (cat.paramsOf base.head).length ∧ ∀ u ∈ base.args,
        cat.Phrased d.params u := by
  obtain ⟨kind, decl, elements, d, clause, hhead, hfind, hclause, hresolve⟩ := mem_bases h hbase
  obtain ⟨base', decl', hresolve', hbasehead, hrest⟩ := hcat.clauses decl d hfind clause hclause
  rw [hresolve] at hresolve'
  cases hresolve'
  exact ⟨kind, decl, elements, d, decl', hhead, hfind, hbasehead, hrest⟩

theorem nodup_params (kind : ObjectKind) (decl : DeclId) (elements : List Ty) :
    (cat.paramsOf (.object kind decl elements)).Nodup := by
  rw [paramsOf]
  split
  · next d hfind => exact hcat.nodup decl d hfind
  · exact List.nodup_nil

theorem nodup_zip {t : Ty} {decl : DeclId} (hhead : t.head = .object .interface decl [])
    (hlength : t.args.length = (cat.paramsOf t.head).length) :
    (((cat.paramsOf t.head).zip t.args).map Prod.fst).Nodup := by
  rw [List.map_fst_zip (Nat.le_of_eq hlength.symm), hhead]
  exact hcat.nodup_params .interface decl []

theorem ownBindings_of_applied {t : Ty} (ht : cat.Applied t) :
    cat.ownBindings t = (cat.paramsOf t.head).zip t.args := by
  obtain ⟨decl, hhead⟩ := ht.head
  refine Bindings.ofPairs_zip ?_ ht.length
  rw [hhead]
  exact hcat.nodup_params .interface decl []

theorem chase_ownBindings {t : Ty} (ht : cat.Applied t) {binding : TypeParam × Ty}
    (h : binding ∈ (cat.paramsOf t.head).zip t.args) :
    Ty.chase (cat.ownBindings t) binding.1 = binding.2 := by
  obtain ⟨decl, hhead⟩ := ht.head
  rw [hcat.ownBindings_of_applied ht]
  refine Ty.chase_of_lookup (Bindings.lookup_of_mem (hcat.nodup_zip hhead ht.length) h)
    fun x hx => ?_
  refine Bindings.lookup_zip_eq_none fun hparam => ?_
  rw [hhead] at hparam
  exact ht.not_hasParam (List.of_mem_zip h).2 hx (hasParam_of_mem_paramsOf hparam)

theorem chase_ownBindings_of_not {t : Ty} (ht : cat.Applied t) {x : TypeParam}
    (hx : ¬cat.HasParam x) : Ty.chase (cat.ownBindings t) x = .param x := by
  obtain ⟨decl, hhead⟩ := ht.head
  rw [hcat.ownBindings_of_applied ht, hhead]
  exact Ty.chase_of_none (Bindings.lookup_zip_eq_none fun hparam =>
    hx (hasParam_of_mem_paramsOf hparam))

/-- The parameters of an instance of the heir stand for types in which nothing is open, and all
other parameters in an argument of the base stay. -/
theorem chase_argument {t base u : Ty} {bases : List Ty} {x : TypeParam} (ht : cat.Applied t)
    (hbases : cat.bases t = .ok bases) (hbase : base ∈ bases) (hu : u ∈ base.args)
    (hx : x ∈ u.params) :
    (∃ a, (x, a) ∈ (cat.paramsOf t.head).zip t.args ∧ Ty.chase (cat.ownBindings t) x = a) ∨
      (¬cat.HasParam x ∧ Ty.chase (cat.ownBindings t) x = .param x) := by
  obtain ⟨kind, decl, _, d, _, hhead, hfind, _, _, hphrased⟩ := hcat.base_of hbases hbase
  by_cases hparam : cat.HasParam x
  · have hown : x ∈ cat.paramsOf t.head := by
      rw [hhead, paramsOf, hfind]
      exact (hphrased u hu).mem_params hx hparam
    obtain ⟨a, ha⟩ := ht.exists_argument hown
    exact .inl ⟨a, ha, hcat.chase_ownBindings ht ha⟩
  · exact .inr ⟨hparam, hcat.chase_ownBindings_of_not ht hparam⟩

theorem applied_base {t base : Ty} {bases : List Ty} (ht : cat.Applied t)
    (hbases : cat.bases t = .ok bases) (hbase : base ∈ bases) :
    cat.Applied (base.substitute (cat.ownBindings t)) := by
  obtain ⟨_, _, _, d, decl', hhead, hfind, hbasehead, hlength, hphrased⟩ :=
    hcat.base_of hbases hbase
  have hsubst := Ty.head_subst (Ty.chase (cat.ownBindings t)) hbasehead
  refine ⟨⟨decl', hsubst⟩, ?_, fun v hv => ?_⟩
  · rw [Ty.substitute, args_subst _ hbasehead, List.length_map, hsubst, ← hbasehead]
    exact hlength
  rw [Ty.substitute, args_subst _ hbasehead] at hv
  obtain ⟨u, hu, rfl⟩ := List.mem_map.1 hv
  have hbinders := (hphrased u hu).binders
  constructor
  · intro x hx
    obtain ⟨y, hy, hx⟩ := Ty.mem_free_subst (hbinders.mono fun _ hlayer =>
      hlayer.mono fun _ => hcat.chase_ownBindings_of_not ht) hx
    have hown : y ∈ cat.paramsOf t.head := by
      rw [hhead, paramsOf, hfind]
      exact (hphrased u hu).free hy
    obtain ⟨a, ha⟩ := ht.exists_argument hown
    rw [hcat.chase_ownBindings ht ha] at hx
    exact (ht.args a (List.of_mem_zip ha).2).free hx
  · refine hbinders.subst (S := fun x => x ∈ u.params) (fun x hx => ?_) (fun w hw _ hparam => ?_)
      fun x hx => hx
    · rcases hcat.chase_argument ht hbases hbase hu hx with ⟨a, ha, hchase⟩ | ⟨_, hchase⟩
      · rw [hchase]
        exact (ht.args a (List.of_mem_zip ha).2).binders
      · rw [hchase]
        exact ⟨trivial, trivial⟩
    · cases w with
      | param x => exact absurd rfl (hparam x)
      | mapped x c b xs => exact hw.1
      | _ => trivial

theorem applied_inherits {t u : Ty} {n : Nat} (ht : cat.Applied t) (h : cat.InheritsIn t n u) :
    cat.Applied u := by
  induction h with
  | self => exact ht
  | base _ hbases hbase ih => exact hcat.applied_base ih hbases hbase

theorem eq_of_mem_params {kind kind' : ObjectKind} {decl decl' : DeclId}
    {elements elements' : List Ty} {x : TypeParam}
    (h : x ∈ cat.paramsOf (.object kind decl elements))
    (h' : x ∈ cat.paramsOf (.object kind' decl' elements')) : decl = decl' := by
  rw [paramsOf] at h h'
  split at h
  · next d hfind =>
      split at h'
      · next d' hfind' => exact hcat.apart decl d decl' d' x hfind hfind' h h'
      · cases h'
  · cases h

end Inheritable

/-! The search for ancestors binds the parameters of what it meets. -/

/-- The bindings have the parameters of what is met stand for the arguments that come of the
clauses on the way there, and bind no others. -/
structure Hands (cat : Catalog) (t : Ty) (γ : Bindings) (met : List (Nat × Ty)) : Prop where
  nodup : (γ.map Prod.fst).Nodup
  bound : ∀ x, x ∈ γ.map Prod.fst ↔ ∃ entry ∈ (0, t.head) :: met, x ∈ cat.paramsOf entry.2.head
  heads : ∀ entry ∈ (0, t.head) :: met, ∃ decl, entry.2.head = .object .interface decl []
  covers : ∀ entry ∈ (0, t.head) :: met, ∃ u, cat.InheritsIn t entry.1 u ∧
    u.head = entry.2.head ∧ ∀ binding ∈ (cat.paramsOf u.head).zip u.args,
      Ty.chase γ binding.1 = binding.2

theorem Hands.lookup_eq_none {t : Ty} {γ : Bindings} {met : List (Nat × Ty)} {x : TypeParam}
    (h : cat.Hands t γ met) (hx : ¬cat.HasParam x) : γ.lookup x = none := by
  refine Bindings.lookup_eq_none_of_not_mem fun hmem => hx ?_
  obtain ⟨entry, hentry, hparam⟩ := (h.bound x).1 hmem
  obtain ⟨decl, hhead⟩ := h.heads entry hentry
  rw [hhead] at hparam
  exact hasParam_of_mem_paramsOf hparam

namespace Inheritable

variable (hcat : cat.Inheritable)

include hcat

theorem hands_own {t : Ty} (ht : cat.Applied t) : cat.Hands t (cat.ownBindings t) [] := by
  obtain ⟨decl, hhead⟩ := ht.head
  have hflat : t.head.head = t.head := by rw [hhead]; rfl
  constructor
  · rw [hcat.ownBindings_of_applied ht]
    exact hcat.nodup_zip hhead ht.length
  · intro x
    rw [hcat.ownBindings_of_applied ht, List.map_fst_zip (Nat.le_of_eq ht.length.symm)]
    simp [hflat]
  · exact List.forall_mem_singleton.2 ⟨decl, hflat.trans hhead⟩
  · exact List.forall_mem_singleton.2 ⟨t, .self, hflat.symm, fun _ => hcat.chase_ownBindings ht⟩

theorem chase_append_base {heir base : Ty} {γ : Bindings} {bases : List Ty}
    (hheir : cat.Applied heir)
    (hchase : ∀ binding ∈ (cat.paramsOf heir.head).zip heir.args, Ty.chase γ binding.1 = binding.2)
    (hbases : cat.bases heir = .ok bases) (hbase : base ∈ bases)
    (houter : ∀ x, ¬cat.HasParam x → γ.lookup x = none)
    (hfresh : ∀ x ∈ cat.paramsOf base.head, γ.lookup x = none ∧ x ∉ cat.paramsOf heir.head)
    {binding : TypeParam × Ty}
    (hmem : binding ∈ (cat.paramsOf (base.substitute (cat.ownBindings heir)).head).zip
      (base.substitute (cat.ownBindings heir)).args) :
    Ty.chase (γ ++ (cat.paramsOf base.head).zip base.args) binding.1 = binding.2 := by
  obtain ⟨_, _, _, d, decl, hheirhead, hfind, hhead, hlength, hphrased⟩ :=
    hcat.base_of hbases hbase
  rw [Ty.substitute, Ty.head_subst _ hhead, ← hhead, args_subst _ hhead, List.zip_map_right] at hmem
  obtain ⟨⟨x, a⟩, hpair, rfl⟩ := List.mem_map.1 hmem
  obtain ⟨hx, ha⟩ := List.of_mem_zip hpair
  have hlookup : ((cat.paramsOf base.head).zip base.args).lookup x = some a :=
    Bindings.lookup_of_mem (hcat.nodup_zip hhead hlength) hpair
  have hbound : (γ ++ (cat.paramsOf base.head).zip base.args).lookup x = some a := by
    rw [Bindings.lookup_append, (hfresh x hx).1, Option.none_or, hlookup]
  have hparam : ∀ {y : TypeParam}, y ∈ cat.paramsOf base.head → cat.HasParam y := by
    intro y hy
    rw [hhead] at hy
    exact hasParam_of_mem_paramsOf hy
  have hne : a ≠ .param x := by
    rintro rfl
    refine (hfresh x hx).2 ?_
    rw [hheirhead, paramsOf, hfind]
    exact (hphrased _ ha).mem_params (List.mem_singleton.2 rfl) (hparam hx)
  have hhidden : ∀ y, ¬cat.HasParam y →
      (Bindings.hide x ((cat.paramsOf base.head).zip base.args)).lookup y = none := by
    intro y hy
    have hne : y ≠ x := fun heq => hy (heq ▸ hparam hx)
    rw [Bindings.lookup_hide_of_ne hne]
    exact Bindings.lookup_zip_eq_none fun hmem => hy (hparam hmem)
  show Ty.chase _ x = a.subst _
  rw [Ty.chase_of_some hbound hne, Bindings.hide_append, Bindings.hide_of_none (hfresh x hx).1]
  apply Ty.subst_congr
  intro y hy
  rcases hcat.chase_argument hheir hbases hbase ha hy with ⟨c, hc, hyc⟩ | ⟨hy, hyc⟩
  · have hγ : Ty.chase γ y = c := hchase (y, c) hc
    rw [hyc, ← hγ]
    refine Ty.chase_append _ fun z hz => hhidden z ?_
    rw [hγ] at hz
    exact hheir.not_hasParam (List.of_mem_zip hc).2 hz
  · rw [hyc]
    apply Ty.chase_of_none
    rw [Bindings.lookup_append, houter y hy, Option.none_or, hhidden y hy]

/-- One more base, with its arguments as the clause has them. -/
theorem hands_snoc {t heir base : Ty} {γ : Bindings} {met : List (Nat × Ty)} {n : Nat}
    {bases : List Ty} (ht : cat.Applied t) (h : cat.Hands t γ met)
    (hheir : (n, heir) ∈ (0, t.head) :: met) (hbases : cat.bases heir.head = .ok bases)
    (hbase : base ∈ bases)
    (hnew : base.head.key ∉ Catalog.heads (t.head :: met.map Prod.snd)) :
    cat.Hands t (γ ++ (cat.paramsOf base.head).zip base.args) (met ++ [(n + 1, base)]) := by
  obtain ⟨w, hw, hwhead, hchase⟩ := h.covers (n, heir) hheir
  obtain ⟨declw, hheirhead⟩ := h.heads (n, heir) hheir
  simp only at hwhead hheirhead
  have hwapplied := hcat.applied_inherits ht hw
  have hwbases : cat.bases w = .ok bases := by
    rw [bases_of_head (hwhead.trans hheirhead) (congrArg Ty.head hheirhead)]
    exact hbases
  obtain ⟨_, decl, _, d, decl', hdecl, hfind, hhead, hlength, hphrased⟩ :=
    hcat.base_of hwbases hbase
  -- A parameter of the base is that of nothing met before, since the base is new.
  have hapart : ∀ x ∈ cat.paramsOf base.head, ∀ entry ∈ (0, t.head) :: met,
      x ∉ cat.paramsOf entry.2.head := by
    intro x hx entry hentry hparam
    obtain ⟨decl₁, hhead₁⟩ := h.heads entry hentry
    have hsame : base.head = entry.2.head := by
      rw [hhead] at hx
      rw [hhead₁] at hparam
      rw [hhead, hhead₁, hcat.eq_of_mem_params hx hparam]
    refine hnew (hsame ▸ List.mem_map.2 ⟨entry.2, ?_, rfl⟩)
    exact List.mem_map.2 ⟨entry, hentry, rfl⟩
  have hfresh : ∀ x ∈ cat.paramsOf base.head, x ∉ γ.map Prod.fst := by
    intro x hx hmem
    obtain ⟨entry, hentry, hparam⟩ := (h.bound x).1 hmem
    exact hapart x hx entry hentry hparam
  have hkeys : ((cat.paramsOf base.head).zip base.args).map Prod.fst = cat.paramsOf base.head :=
    List.map_fst_zip (Nat.le_of_eq hlength.symm)
  have houter : ∀ {x : TypeParam}, ¬cat.HasParam x →
      ((cat.paramsOf base.head).zip base.args).lookup x = none := by
    intro x hx
    refine Bindings.lookup_zip_eq_none fun hmem => hx ?_
    rw [hhead] at hmem
    exact hasParam_of_mem_paramsOf hmem
  refine ⟨?_, fun x => ?_, fun entry hentry => ?_, fun entry hentry => ?_⟩
  · rw [List.map_append, List.nodup_append]
    refine ⟨h.nodup, hcat.nodup_zip hhead hlength, fun x hx y hy heq => ?_⟩
    rw [hkeys] at hy
    exact hfresh y hy (heq ▸ hx)
  · rw [List.map_append, List.mem_append, hkeys, h.bound, ← List.cons_append]
    simp only [List.mem_append, List.mem_singleton, or_and_right, exists_or, exists_eq_left]
  · rw [← List.cons_append] at hentry
    rcases List.mem_append.1 hentry with hold | hlast
    · exact h.heads entry hold
    · rw [List.mem_singleton.1 hlast]
      exact ⟨decl', hhead⟩
  · rw [← List.cons_append] at hentry
    rcases List.mem_append.1 hentry with hold | hlast
    · obtain ⟨u, hu, huhead, hchase⟩ := h.covers entry hold
      refine ⟨u, hu, huhead, fun binding hmem => ?_⟩
      rw [← hchase binding hmem]
      refine Ty.chase_append _ fun x hx => houter ?_
      rw [hchase binding hmem] at hx
      exact (hcat.applied_inherits ht hu).not_hasParam (List.of_mem_zip hmem).2 hx
    · rw [List.mem_singleton.1 hlast]
      refine ⟨_, hw.base hwbases hbase, (Ty.head_subst _ hhead).trans hhead.symm,
        fun binding hmem => ?_⟩
      refine hcat.chase_append_base hwapplied hchase hwbases hbase (fun _ => h.lookup_eq_none)
        (fun x hx => ⟨Bindings.lookup_eq_none_of_not_mem (hfresh x hx), ?_⟩) hmem
      rw [hwhead]
      exact hapart x hx (n, heir) hheir

theorem hands_layers {t : Ty} {met : List (Nat × Ty)} (ht : cat.Applied t)
    (h : cat.Layers t.head met) :
    cat.Hands t ((cat.inherited (met.map Prod.snd)).foldl
      (fun bindings pair => bindings.bindNew pair.1 pair.2) (cat.ownBindings t)) met := by
  induction h with
  | nil => exact hcat.hands_own ht
  | @snoc met n heir base bases _ hheir hbases hbase hnew ih =>
      have hsnoc := hcat.hands_snoc ht ih hheir hbases hbase hnew
      have hinherited : cat.inherited ((met ++ [(n + 1, base)]).map Prod.snd) =
          cat.inherited (met.map Prod.snd) ++ (cat.paramsOf base.head).zip base.args := by
        rw [inherited, inherited, List.map_append, List.flatMap_append]
        exact congrArg _ (List.flatMap_singleton _ base)
      rw [hinherited, List.foldl_append, Bindings.foldl_bindNew_of_nodup hsnoc.nodup]
      exact hsnoc

/-- No way is shorter than the one by which the search meets an object. -/
theorem metWithin_inherits {t u : Ty} {met : List (Nat × Ty)} {n : Nat} (ht : cat.Applied t)
    (hspreads : ∀ entry ∈ (0, t.head) :: met, cat.Spreads t.head met entry)
    (h : cat.InheritsIn t n u) : MetWithin t.head met n u := by
  induction h with
  | self =>
      obtain ⟨decl, hhead⟩ := ht.head
      refine ⟨(0, t.head), List.mem_cons_self, ?_, Nat.le_refl 0⟩
      rw [hhead]
      rfl
  | @base n heir base bases hheir hbases hbase ih =>
      obtain ⟨entry, hentry, hkey, hle⟩ := ih
      obtain ⟨bases', hbases', hall⟩ := hspreads entry hentry
      obtain ⟨declh, hheirhead⟩ := (hcat.applied_inherits ht hheir).head
      obtain ⟨_, _, _, _, decl', _, _, hhead, _⟩ := hcat.base_of hbases hbase
      rw [bases_congr hkey, bases_of_head (congrArg Ty.head hheirhead) hheirhead, hbases] at hbases'
      cases hbases'
      obtain ⟨entry', hentry', hkey', hle'⟩ := hall base hbase
      refine ⟨entry', hentry', ?_, Nat.le_trans hle' (Nat.succ_le_succ hle)⟩
      rw [hkey', Ty.substitute, Ty.head_subst _ hhead, hhead]

theorem free_chase {t : Ty} {γ : Bindings} {met : List (Nat × Ty)} {x : TypeParam}
    (ht : cat.Applied t) (hhands : cat.Hands t γ met) (hx : x ∈ γ.map Prod.fst) :
    (Ty.chase γ x).free = [] := by
  obtain ⟨entry, hentry, hparam⟩ := (hhands.bound x).1 hx
  obtain ⟨u, hu, huhead, hchase⟩ := hhands.covers entry hentry
  have hu := hcat.applied_inherits ht hu
  rw [← huhead] at hparam
  obtain ⟨a, ha⟩ := hu.exists_argument hparam
  rw [show Ty.chase γ x = a from hchase (x, a) ha]
  exact List.subset_nil.1 (hu.args a (List.of_mem_zip ha).2).free

/-- The bindings come to the arguments along a shortest way to an object that is met. -/
theorem exists_nearest {t : Ty} {γ : Bindings} {met : List (Nat × Ty)} {entry : Nat × Ty}
    (ht : cat.Applied t) (hhands : cat.Hands t γ met)
    (hspreads : ∀ entry ∈ (0, t.head) :: met, cat.Spreads t.head met entry)
    (hentry : entry ∈ (0, t.head) :: met) :
    ∃ n u, cat.InheritsIn t n u ∧ u.head = entry.2.head ∧
      (∀ n' u', cat.InheritsIn t n' u' → u'.head = entry.2.head → n ≤ n') ∧
      ∀ binding ∈ (cat.paramsOf u.head).zip u.args, Ty.chase γ binding.1 = binding.2 := by
  classical
  have hsome : ∃ n u, cat.InheritsIn t n u ∧ u.head = entry.2.head := by
    obtain ⟨u, hu, huhead, _⟩ := hhands.covers entry hentry
    exact ⟨entry.1, u, hu, huhead⟩
  obtain ⟨u, hu, huhead⟩ := Nat.find_spec hsome
  obtain ⟨entry', hentry', hkey, hle⟩ := hcat.metWithin_inherits ht hspreads hu
  obtain ⟨decl, hhead⟩ := hhands.heads entry hentry
  have hsame : entry'.2.head = entry.2.head := by
    rw [huhead, hhead] at hkey
    rw [hhead]
    exact Ty.eq_object_of_key hkey
  obtain ⟨u', hu', huhead', hchase⟩ := hhands.covers entry' hentry'
  refine ⟨entry'.1, u', hu', huhead'.trans hsame, fun n' w hw hwhead => ?_, hchase⟩
  exact Nat.le_trans hle (Nat.find_min' hsome ⟨w, hw, hwhead⟩)

theorem founded : cat.Founded := by
  intro i d hfind clause hclause
  obtain ⟨base, _, hresolve, _⟩ := hcat.clauses i d hfind clause hclause
  exact ⟨base, hresolve⟩

theorem exists_ancestors {decl : DeclId} :
    ∃ found, cat.ancestors (.object .interface decl []) = .ok found :=
  ancestors_ok fun u _ => hcat.founded.bases u.head

end Inheritable

theorem Layers.above {t : Ty} {met : List (Nat × Ty)} (h : cat.Layers t met) :
    ∀ entry ∈ (0, t) :: met, cat.Above t entry.2 := by
  induction h with
  | nil => exact List.forall_mem_singleton.2 .self
  | snoc _ hheir hbases hbase _ ih =>
      intro entry hentry
      rw [← List.cons_append] at hentry
      rcases List.mem_append.1 hentry with hold | hlast
      · exact ih entry hold
      · rw [List.mem_singleton.1 hlast]
        exact (ih _ hheir).base hbases hbase

theorem Hands.exists_met {t u : Ty} {decl : DeclId} {γ : Bindings} {met : List (Nat × Ty)}
    (h : cat.Hands t γ met) (hhead : t.head = .object .interface decl [])
    (hfound : cat.ancestors (.object .interface decl []) = .ok (met.map Prod.snd))
    (hu : cat.Above t u) :
    ∃ entry ∈ (0, t.head) :: met, entry.2.head = u.head := by
  obtain ⟨u', hu', hsame⟩ : ∃ u', cat.Above (.object .interface decl []) u' ∧ u'.head = u.head :=
    hu.exists_of_head hhead.symm
  obtain ⟨w, hw, hkey⟩ := List.mem_map.1 (mem_heads_of_above hfound hu').1
  rw [← hhead] at hw
  obtain ⟨entry, hentry, rfl⟩ : ∃ entry ∈ (0, t.head) :: met, entry.2 = w := List.mem_map.1 hw
  obtain ⟨decl', hdecl'⟩ := h.heads entry hentry
  refine ⟨entry, hentry, ?_⟩
  rw [hdecl', hsame] at hkey
  rw [hdecl']
  exact (Ty.eq_object_of_key hkey.symm).symm

/-- The bindings of an interface bind every parameter of the interface and of what is above it
once. The own parameters stand for the own arguments, and those of an ancestor for the arguments
that come of the clauses along a shortest way. -/
theorem Inheritable.bindings_nearest_first {t : Ty} (hcat : cat.Inheritable) (ht : cat.Applied t) :
    ∃ bindings, cat.bindings t = .ok bindings ∧ (bindings.map Prod.fst).Nodup ∧
      (∀ x, x ∈ bindings.map Prod.fst ↔ ∃ u, cat.Above t u ∧ x ∈ cat.paramsOf u.head) ∧
      (∀ x ∈ bindings.map Prod.fst, (Ty.chase bindings x).free = []) ∧
      (∀ binding ∈ (cat.paramsOf t.head).zip t.args,
        binding ∈ bindings ∧ Ty.chase bindings binding.1 = binding.2) ∧
      ∀ u, cat.Above t u → ∃ n w, cat.InheritsIn t n w ∧ w.head = u.head ∧
        (∀ n' w', cat.InheritsIn t n' w' → w'.head = u.head → n ≤ n') ∧
        ∀ binding ∈ (cat.paramsOf w.head).zip w.args, Ty.chase bindings binding.1 = binding.2 := by
  obtain ⟨decl, hhead⟩ := ht.head
  obtain ⟨found, hfound⟩ : ∃ found, cat.ancestors (.object .interface decl []) = .ok found :=
    hcat.exists_ancestors
  obtain ⟨met, rfl, hlayers, hspreads⟩ := layers_ancestors hfound
  rw [← hhead] at hlayers hspreads
  have hhands := hcat.hands_layers ht hlayers
  have habove : ∀ u, cat.Above t u → ∃ entry ∈ (0, t.head) :: met, entry.2.head = u.head :=
    fun _ => hhands.exists_met hhead hfound
  have hmet : ∀ entry ∈ (0, t.head) :: met, ∃ u, cat.Above t u ∧ u.head = entry.2.head :=
    fun entry hentry => (hlayers.above entry hentry).exists_of_head (by rw [hhead]; rfl)
  have hbound : ∀ x, x ∈ ((cat.inherited (met.map Prod.snd)).foldl
      (fun bindings pair => bindings.bindNew pair.1 pair.2) (cat.ownBindings t)).map Prod.fst ↔
      ∃ u, cat.Above t u ∧ x ∈ cat.paramsOf u.head := by
    intro x
    rw [hhands.bound]
    constructor
    · rintro ⟨entry, hentry, hx⟩
      obtain ⟨u, hu, hsame⟩ := hmet entry hentry
      exact ⟨u, hu, by rwa [hsame]⟩
    · rintro ⟨u, hu, hx⟩
      obtain ⟨entry, hentry, hsame⟩ := habove u hu
      exact ⟨entry, hentry, by rwa [hsame]⟩
  refine ⟨_, (bindings_of_interface hhead).2 ⟨_, hfound, rfl⟩, hhands.nodup, hbound,
    fun x hx => hcat.free_chase ht hhands hx, fun binding hown => ⟨?_, ?_⟩, ?_⟩
  · obtain ⟨δ, hδ⟩ := Bindings.foldl_bindNew_eq_append (cat.inherited (met.map Prod.snd))
      (cat.ownBindings t)
    rw [hδ, hcat.ownBindings_of_applied ht]
    exact List.mem_append_left _ hown
  · obtain ⟨u, hu, _, hchase⟩ := hhands.covers (0, t.head) List.mem_cons_self
    cases hu
    exact hchase binding hown
  · intro u hu
    obtain ⟨entry, hentry, hsame⟩ := habove u hu
    rw [← hsame]
    exact hcat.exists_nearest ht hhands hspreads hentry

theorem Inheritable.of_entries (hnodup : ∀ entry ∈ cat.entries, entry.2.params.Nodup)
    (hapart : ∀ entry ∈ cat.entries, ∀ entry' ∈ cat.entries, ∀ x ∈ entry.2.params,
      x ∈ entry'.2.params → entry.1 = entry'.1)
    (hclauses : ∀ entry ∈ cat.entries, ∀ clause ∈ entry.2.heritage, ∃ base decl,
      cat.resolve clause.annotation = .ok base ∧ base.head = .object .interface decl [] ∧
      base.args.length = (cat.paramsOf base.head).length ∧
      ∀ u ∈ base.args, cat.Phrased entry.2.params u) : cat.Inheritable where
  nodup := forall_of_entries hnodup
  apart _ _ _ _ x hfind hfind' :=
    hapart _ (mem_entries_of_declared? hfind) _ (mem_entries_of_declared? hfind') x
  clauses := forall_of_entries hclauses

/-! An interface that inherits from another one twice, and from itself. -/

def generic (name : String) (x : TypeParam) (clauses : List Heritage) : Declaration where
  name := name
  params := [x]
  body := .interface clauses []

def circle : Catalog where
  entries := [
    (.listed "Base", generic "Base" ⟨"S", 0⟩ [⟨"Heir", [.param ⟨"S", 0⟩]⟩]),
    (.listed "Left", generic "Left" ⟨"L", 1⟩ [⟨"Base", [.param ⟨"L", 1⟩]⟩]),
    (.listed "Heir", generic "Heir" ⟨"T", 2⟩
      [⟨"Left", [.keyOf (.param ⟨"T", 2⟩)]⟩, ⟨"Base", [.param ⟨"T", 2⟩]⟩])]

def circleOf (t : Ty) : Ty :=
  .ref (.object .interface (.listed "Heir") []) [t]

theorem phrased_param (x : TypeParam) : cat.Phrased [x] (.param x) :=
  ⟨List.Subset.refl _, trivial, trivial⟩

theorem inheritable_circle : circle.Inheritable := by
  have hparam : ∀ x u, u ∈ [Ty.param x] → circle.Phrased [x] u := by
    intro x u hu
    rw [List.mem_singleton.1 hu]
    exact phrased_param x
  have hkey : ∀ u ∈ [Ty.keyOf (.param ⟨"T", 2⟩)], circle.Phrased [⟨"T", 2⟩] u := by
    intro u hu
    rw [List.mem_singleton.1 hu]
    exact ⟨List.Subset.refl _, trivial, trivial, trivial⟩
  refine .of_entries (by decide) (by decide)
    (List.forall_mem_cons.2 ⟨?_, List.forall_mem_cons.2 ⟨?_, List.forall_mem_singleton.2 ?_⟩⟩)
  · exact List.forall_mem_singleton.2 ⟨_, .listed "Heir", rfl, rfl, rfl, hparam _⟩
  · exact List.forall_mem_singleton.2 ⟨_, .listed "Base", rfl, rfl, rfl, hparam _⟩
  · exact List.forall_mem_cons.2 ⟨⟨_, .listed "Left", rfl, rfl, rfl, hkey⟩,
      List.forall_mem_singleton.2 ⟨_, .listed "Base", rfl, rfl, rfl, hparam _⟩⟩

theorem applied_circle : circle.Applied (circleOf (.primitive "string")) :=
  ⟨⟨.listed "Heir", rfl⟩, rfl, List.forall_mem_singleton.2 ⟨List.nil_subset _, trivial, trivial⟩⟩

theorem bindings_nearest_first_circle :
    let t := circleOf (.primitive "string")
    circle.Inheritable ∧ circle.Applied t ∧ ∃ bindings, circle.bindings t = .ok bindings ∧
      (bindings.map Prod.fst).Nodup ∧
      ∀ x ∈ bindings.map Prod.fst, (Ty.chase bindings x).free = [] := by
  intro t
  obtain ⟨bindings, h, hnodup, _, hclosed, _⟩ :=
    inheritable_circle.bindings_nearest_first applied_circle
  exact ⟨inheritable_circle, applied_circle, bindings, h, hnodup, hclosed⟩

/-- A mapped type over a parameter of an ancestor: nothing is open in it, but in what the parameter
of the heir stands for. -/
theorem binder_is_captured :
    let x : TypeParam := ⟨"S", 0⟩
    let y : TypeParam := ⟨"T", 2⟩
    let u : Ty := .mapped x (.literal (.str "a")) (.param x) []
    let bindings : Bindings := [(y, u), (⟨"L", 1⟩, .keyOf (.param y)), (x, .param y)]
    circle.Inheritable ∧
    circle.reference (.object .interface (.listed "Heir") []) [u] = .ok (circleOf u) ∧
    u.free = [] ∧ circle.bindings (circleOf u) = .ok bindings ∧
    (Ty.chase bindings y).free = [y] :=
  ⟨inheritable_circle, rfl, by decide, rfl, by decide +kernel⟩

end Catalog

end TypeGuard
