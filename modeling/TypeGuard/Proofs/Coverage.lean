import TypeGuard.Proofs.Sealing

/-! The bindings of a type without open parameters: each parameter of an ancestor stands for an
argument that the ancestor is inherited with. -/

namespace TypeGuard

namespace Bindings

theorem hide_of_none {γ : Bindings} {p : TypeParam} (h : γ.lookup p = none) : γ.hide p = γ := by
  refine List.filter_eq_self.2 fun binding hmem => decide_eq_true fun heq => ?_
  have hne := List.lookup_eq_none_iff.1 h binding hmem
  rw [heq, bne_self_eq_false] at hne
  cases hne

theorem foldl_bindNew_eq_append (pairs : List (TypeParam × Ty)) (γ : Bindings) :
    ∃ δ, pairs.foldl (fun bindings pair => bindings.bindNew pair.1 pair.2) γ = γ ++ δ := by
  induction pairs generalizing γ with
  | nil => exact ⟨[], (List.append_nil γ).symm⟩
  | cons pair rest ih =>
      have hbind : ∃ δ, γ.bindNew pair.1 pair.2 = γ ++ δ := by
        rw [bindNew]
        split
        · exact ⟨[], (List.append_nil γ).symm⟩
        · exact ⟨_, rfl⟩
      obtain ⟨δ, hδ⟩ := hbind
      obtain ⟨δ', hδ'⟩ := ih (γ ++ δ)
      exact ⟨δ ++ δ', by rw [List.foldl_cons, hδ, hδ', List.append_assoc]⟩

theorem lookup_bindNew (γ : Bindings) (p : TypeParam) (t : Ty) (q : TypeParam) :
    (γ.bindNew p t).lookup q = (γ.lookup q).or (if q = p then some t else none) := by
  rw [bindNew]
  split
  · next hbound =>
      by_cases hqp : q = p
      · subst hqp
        obtain ⟨u, hu⟩ := Option.isSome_iff_exists.1 hbound
        rw [hu, Option.some_or]
      · rw [if_neg hqp, Option.or_none]
  · rw [lookup_append, List.lookup_cons, List.lookup_nil]
    by_cases hqp : q = p
    · rw [if_pos hqp, hqp, beq_self_eq_true]
    · rw [if_neg hqp, beq_eq_false_iff_ne.2 hqp]

theorem lookup_foldl_bindNew (pairs : List (TypeParam × Ty)) (γ : Bindings) (q : TypeParam) :
    (pairs.foldl (fun bindings pair => bindings.bindNew pair.1 pair.2) γ).lookup q =
      (γ.lookup q).or (pairs.lookup q) := by
  induction pairs generalizing γ with
  | nil => rw [List.foldl_nil, List.lookup_nil, Option.or_none]
  | cons pair rest ih =>
      obtain ⟨p, t⟩ := pair
      rw [List.foldl_cons, ih, lookup_bindNew, Option.or_assoc, List.lookup_cons]
      by_cases hqp : q = p
      · rw [if_pos hqp, hqp, beq_self_eq_true, Option.some_or]
      · rw [if_neg hqp, beq_eq_false_iff_ne.2 hqp, Option.none_or]

end Bindings

theorem Ty.exists_object_of_key {t : Ty} {kind : ObjectKind} {decl : DeclId} {elements : List Ty}
    (h : t.key = (Ty.object kind decl elements).key) :
      ∃ elements', t = .object kind decl elements' := by
  cases t with
  | object k s us =>
      obtain ⟨rfl, rfl, _⟩ := Ty.object.inj h
      exact ⟨us, rfl⟩
  | _ => cases h

namespace Declaration

theorem kind?_of_mem_heritage {d : Declaration} {h : Heritage} (hmem : h ∈ d.heritage) :
    d.kind? ≠ none := by
  unfold heritage at hmem
  unfold kind?
  split at hmem <;> simp_all

theorem kind?_of_mem_members {d : Declaration} {p : Property} (hmem : p ∈ d.members) :
    d.kind? ≠ none := by
  unfold members at hmem
  unfold kind?
  split at hmem <;> simp_all

end Declaration

namespace Catalog

variable {cat : Catalog} {keys : TypeParam → Bool} {elements : List Ty}

/-- A type that fits and has no open parameters. No indexed access inside of it looks into a class
that has a generic ancestor. -/
structure Whole (cat : Catalog) (keys : TypeParam → Bool) (t : Ty) : Prop where
  fits : t.Every (cat.Fits keys)
  closed : t.free = []
  sealed : cat.Sealed keys t

/-- The types a type inherits from, with the arguments it inherits from them with. -/
inductive Inherits (cat : Catalog) (t : Ty) : Ty → Prop
  | self : Inherits cat t t
  | base {heir base : Ty} {bases : List Ty} (hheir : Inherits cat t heir)
      (hbases : cat.bases heir = .ok bases) (hbase : base ∈ bases) :
      Inherits cat t (base.substitute (cat.ownBindings heir))

theorem unmapped_args {t u : Ty} (h : t.Every (cat.Fits keys)) (hu : u ∈ t.args) :
    u.unmapped = true := by
  cases t with
  | ref target args => exact h.1.1 u hu
  | _ => cases hu

theorem fits_args {t u : Ty} (h : t.Every (cat.Fits keys)) (hu : u ∈ t.args) :
    u.Every (cat.Fits keys) := by
  cases t with
  | ref target args => exact Ty.insideList_iff.1 h.2.2 u hu
  | _ => cases hu

theorem mem_free_of_mem_args {t u : Ty} {x : TypeParam} (h : t.Every (cat.Fits keys))
    (hu : u ∈ t.args) (hx : x ∈ u.params) : x ∈ t.free := by
  rw [← Ty.free_eq_params (unmapped_args h hu)] at hx
  cases t with
  | ref target args =>
      simp only [Ty.free, Ty.freeList_eq, List.mem_flatMap]
      exact ⟨u, hu, hx⟩
  | _ => cases hu

theorem Whole.params_args {t u : Ty} (h : cat.Whole keys t) (hu : u ∈ t.args) : u.params = [] := by
  refine List.eq_nil_iff_forall_not_mem.2 fun x hx => ?_
  have hmem := mem_free_of_mem_args h.fits hu hx
  rw [h.closed] at hmem
  cases hmem

theorem length_args {t : Ty} {kind : ObjectKind} {decl : DeclId} (h : cat.Fits keys t)
    (hhead : t.head = .object kind decl elements) :
      t.args.length = (cat.paramsOf t.head).length := by
  cases t with
  | ref target args => exact h.2.1
  | object k s us => exact (congrArg List.length h.1).symm
  | _ => cases hhead

theorem head_head_of_fits {t : Ty} (h : cat.Fits keys t) : t.head.head = t.head := by
  cases t with
  | ref target args =>
      cases target with
      | ref _ _ => exact h.2.2.elim
      | _ => rfl
  | _ => rfl

theorem backs_of_head {t : Ty} {kind : ObjectKind} {decl : DeclId} (h : cat.Fits keys t)
    (hhead : t.head = .object kind decl elements) : cat.Backs kind decl := by
  cases t with
  | ref target args =>
      cases hhead
      exact h.2.2.2
  | object k s us =>
      cases hhead
      exact h.2.2
  | _ => cases hhead

theorem exists_head_subst {t : Ty} {kind : ObjectKind} {decl : DeclId} (σ : TypeParam → Ty)
    (h : t.head = .object kind decl elements) :
    ∃ elements', (t.subst σ).head = .object kind decl elements' := by
  cases t with
  | ref target args => exact ⟨elements, h⟩
  | object k s us =>
      cases h
      exact ⟨_, rfl⟩
  | _ => cases h

theorem args_subst {t : Ty} {kind : ObjectKind} {decl : DeclId} (σ : TypeParam → Ty)
    (h : t.head = .object kind decl elements) : (t.subst σ).args = t.args.map (Ty.subst σ) := by
  cases t with
  | ref target args => exact Ty.substList_eq σ args
  | object k s us => rfl
  | _ => cases h

theorem Above.head_eq_object {t u : Ty} (h : cat.Above t u) :
    u = t ∨ ∃ kind decl elements, t.head.head = .object kind decl elements := by
  induction h with
  | self => exact .inl rfl
  | base _ hbases hbase ih =>
      rcases ih with rfl | hhead
      · obtain ⟨kind, decl, elements, _, _, hhead, _⟩ := mem_bases hbases hbase
        exact .inr ⟨kind, decl, elements, hhead⟩
      · exact .inr hhead

namespace WellScoped

theorem nodup_paramsOf (hcat : cat.WellScoped keys) (kind : ObjectKind) (decl : DeclId)
    (elements : List Ty) : (cat.paramsOf (.object kind decl elements)).Nodup := by
  rw [paramsOf]
  split
  · next d hfind => exact hcat.nodup decl d hfind
  · exact List.nodup_nil

theorem ownBindings_eq (hcat : cat.WellScoped keys) {t : Ty} (h : cat.Fits keys t) :
    cat.ownBindings t = (cat.paramsOf t.head).zip t.args := by
  cases t with
  | ref target args =>
      refine Bindings.ofPairs_zip ?_ h.2.1
      cases target with
      | object kind decl elements => exact hcat.nodup_paramsOf kind decl elements
      | mapped x c t xs => exact h.2.2.2.1
      | _ => exact List.nodup_nil
  | _ => simp only [ownBindings, Ty.args, List.zip_nil_right]; rfl

theorem unmarked_of_mem_zip (hcat : cat.WellScoped keys) {t : Ty} {binding : TypeParam × Ty}
    (h : cat.Fits keys t) (hmem : binding ∈ (cat.paramsOf t.head).zip t.args) :
    keys binding.1 = false := by
  have hparam : binding.1 ∈ cat.paramsOf t.head := (List.of_mem_zip hmem).1
  cases t with
  | ref target args =>
      cases target with
      | object kind decl elements =>
          rw [Ty.head, paramsOf] at hparam
          split at hparam
          · next d hfind => exact hcat.unmarked decl d _ hfind hparam
          · cases hparam
      | mapped x c t xs => exact (h.2.2.2.2.1 _ hparam).1
      | _ => cases hparam
  | _ => exact absurd (List.of_mem_zip hmem).2 List.not_mem_nil

theorem fits_bases (hcat : cat.WellScoped keys) {t base : Ty} {bases : List Ty}
    (h : cat.bases t = .ok bases) (hbase : base ∈ bases) :
    ∃ kind decl elements d, t.head = .object kind decl elements ∧ cat.declared? decl = some d ∧
      d.kind? ≠ none ∧ base.Every (cat.Fits keys) ∧ base.free ⊆ d.params := by
  obtain ⟨kind, decl, elements, d, heritage, hhead, hfind, hheritage, hresolve⟩ := mem_bases h hbase
  have hunmapped : ∀ u ∈ heritage.args, u.unmapped = true := fun u hu =>
    hcat.heritage decl d heritage u hfind hheritage hu
  refine ⟨kind, decl, elements, d, hhead, hfind, Declaration.kind?_of_mem_heritage hheritage,
    hcat.fits_resolve (fun u hu => ?_) hunmapped hresolve, fun x hx => ?_⟩
  · exact hcat.fits decl d u hfind (.argument hheritage hu)
  · obtain ⟨u, hu, hx⟩ := hcat.mem_free_resolve hunmapped hresolve hx
    exact hcat.scope decl d u hfind (.argument hheritage hu) hx

theorem exists_ownBindings (hcat : cat.WellScoped keys) {t : Ty} {kind : ObjectKind} {decl : DeclId}
    (ht : cat.Whole keys t) (hhead : t.head = .object kind decl elements) {x : TypeParam}
    (hx : x ∈ cat.paramsOf t.head) :
    ∃ u ∈ t.args, (cat.ownBindings t).lookup x = some u ∧ Ty.chase (cat.ownBindings t) x = u := by
  rw [hcat.ownBindings_eq ht.fits.1]
  obtain ⟨u, hu, hlookup⟩ := Bindings.exists_lookup_zip (length_args ht.fits.1 hhead) hx
  refine ⟨u, hu, hlookup, Ty.chase_of_lookup hlookup fun y hy => ?_⟩
  rw [ht.params_args hu] at hy
  cases hy

theorem params_chase_ownBindings (hcat : cat.WellScoped keys) {t : Ty} {kind : ObjectKind}
    {decl : DeclId} (ht : cat.Whole keys t)
    (hhead : t.head = .object kind decl elements) {x : TypeParam}
    (hx : x ∈ cat.paramsOf t.head) : (Ty.chase (cat.ownBindings t) x).params = [] := by
  obtain ⟨u, hu, _, hchase⟩ := hcat.exists_ownBindings ht hhead hx
  rw [hchase]
  exact ht.params_args hu

theorem chase_ownBindings_of_marked (hcat : cat.WellScoped keys) {t : Ty} {x : TypeParam}
    (h : cat.Fits keys t) (hx : keys x = true) : Ty.chase (cat.ownBindings t) x = .param x := by
  refine Ty.chase_of_none (Option.eq_none_iff_forall_ne_some.2 fun u hlookup => ?_)
  have hmem := Bindings.mem_of_mem_ofPairs (Bindings.mem_of_lookup hlookup)
  have hunmarked := hcat.unmarked_of_mem_zip h hmem
  rw [hx] at hunmarked
  cases hunmarked

theorem whole_base (hcat : cat.WellScoped keys) {t base : Ty} {bases : List Ty}
    (ht : cat.Whole keys t) (h : cat.bases t = .ok bases) (hbase : base ∈ bases) :
    cat.Whole keys (base.substitute (cat.ownBindings t)) := by
  obtain ⟨kind, decl, elements, d, hhead, hfind, _, hfits, hfree⟩ := hcat.fits_bases h hbase
  have hown : ∀ y u, (cat.ownBindings t).lookup y = some u →
      u.Every (cat.Fits keys) ∧ u.unmapped = true := by
    intro y u hy
    have harg := (List.of_mem_zip (Bindings.mem_of_mem_ofPairs (Bindings.mem_of_lookup hy))).2
    exact ⟨fits_args ht.fits harg, unmapped_args ht.fits harg⟩
  refine ⟨fits_subst hfits fun x _ => fits_chase fun y u _ => hown y u, ?_,
    ht.sealed.unfold (.base h hbase)⟩
  refine List.eq_nil_iff_forall_not_mem.2 fun x hx => ?_
  obtain ⟨y, hy, hx⟩ :=
    mem_free_subst hfits (fun _ => hcat.chase_ownBindings_of_marked ht.fits.1) hx
  have hparam : y ∈ cat.paramsOf t.head := by
    rw [hhead, paramsOf, hfind]
    exact hfree hy
  have hmem := Ty.free_subset_params hx
  rw [hcat.params_chase_ownBindings ht hhead hparam] at hmem
  cases hmem

theorem whole_inherits (hcat : cat.WellScoped keys) {t u : Ty} (ht : cat.Whole keys t)
    (h : cat.Inherits t u) : cat.Whole keys u := by
  induction h with
  | self => exact ht
  | base _ hbases hbase ih => exact hcat.whole_base ih hbases hbase

end WellScoped

/-! The search for ancestors gathers the arguments they are inherited with. -/

/-- The bindings have the parameters of a declaration stand for the arguments that some instance of
it is inherited with. -/
def Covers (cat : Catalog) (t : Ty) (γ : Bindings) (decl : DeclId) : Prop :=
  ∃ u kind elements, cat.Inherits t u ∧ u.head = .object kind decl elements ∧
    ∀ x ∈ cat.paramsOf u.head, Ty.chase γ x = Ty.chase (cat.ownBindings u) x

namespace WellScoped

theorem params_chase_of_covers (hcat : cat.WellScoped keys) {t : Ty} {γ : Bindings} {decl : DeclId}
    {d : Declaration} (ht : cat.Whole keys t) (h : cat.Covers t γ decl)
    (hfind : cat.declared? decl = some d) {x : TypeParam} (hx : x ∈ d.params) :
    (Ty.chase γ x).params = [] := by
  obtain ⟨u, kind, elements, hu, hhead, hchase⟩ := h
  have hparam : x ∈ cat.paramsOf u.head := by rwa [hhead, paramsOf, hfind]
  rw [hchase x hparam]
  exact hcat.params_chase_ownBindings (hcat.whole_inherits ht hu) hhead hparam

theorem covers_append (hcat : cat.WellScoped keys) {t : Ty} {γ : Bindings} {decl : DeclId}
    (ht : cat.Whole keys t) (h : cat.Covers t γ decl) (δ : Bindings) :
    cat.Covers t (γ ++ δ) decl := by
  obtain ⟨u, kind, elements, hu, hhead, hchase⟩ := h
  refine ⟨u, kind, elements, hu, hhead, fun x hx => ?_⟩
  rw [← hchase x hx]
  refine Ty.chase_append δ fun y hy => ?_
  rw [hchase x hx, hcat.params_chase_ownBindings (hcat.whole_inherits ht hu) hhead hx] at hy
  cases hy

/-- The arguments of a new base are covered, since they are phrased in what its heir covers. -/
theorem covers_base (hcat : cat.WellScoped keys) {t heir base : Ty} {γ : Bindings} {bases : List Ty}
    {kind kind' : ObjectKind} {decl decl' : DeclId} {elements' : List Ty} (ht : cat.Whole keys t)
    (hheir : heir.head = .object kind decl elements) (hcovers : cat.Covers t γ decl)
    (hbases : cat.bases heir = .ok bases) (hbase : base ∈ bases)
    (hhead : base.head = .object kind' decl' elements')
    (hnew : ∀ x ∈ cat.paramsOf base.head, γ.lookup x = none) :
    cat.Covers t (((cat.paramsOf base.head).zip base.args).foldl
      (fun bindings pair => bindings.bindNew pair.1 pair.2) γ) decl' := by
  obtain ⟨kind₁, decl₁, elements₁, d, hheir₁, hfind, _, hfits, hfree⟩ :=
    hcat.fits_bases hbases hbase
  cases hheir₁.symm.trans hheir
  have hclosed : ∀ x ∈ d.params, (Ty.chase γ x).params = [] := fun x hx =>
    hcat.params_chase_of_covers ht hcovers hfind hx
  obtain ⟨u, kind₂, elements₂, hu, hheadu, hchase⟩ := hcovers
  rw [bases_of_head hheir hheadu] at hbases
  have hinherits := hu.base hbases hbase
  obtain ⟨elements₃, hheadr⟩ := exists_head_subst (Ty.chase (cat.ownBindings u)) hhead
  refine ⟨_, kind', elements₃, hinherits, hheadr, fun x hx => ?_⟩
  have hparams : cat.paramsOf (base.subst (Ty.chase (cat.ownBindings u))).head =
      cat.paramsOf base.head := by
    rw [hheadr, hhead]
    rfl
  have hxbase : x ∈ cat.paramsOf base.head := hparams ▸ hx
  obtain ⟨a, ha, hlookup⟩ := Bindings.exists_lookup_zip (length_args hfits.1 hhead) hxbase
  have haparams : ∀ y ∈ a.params, y ∈ d.params := fun y hy =>
    hfree (mem_free_of_mem_args hfits ha hy)
  -- In the instance the parameter stands for the argument, phrased in those of the heir.
  have hinstance : Ty.chase (cat.ownBindings (base.substitute (cat.ownBindings u))) x =
      a.subst (Ty.chase (cat.ownBindings u)) := by
    have hwhole := hcat.whole_inherits ht hinherits
    obtain ⟨b, _, hb, hchase⟩ := hcat.exists_ownBindings hwhole hheadr hx
    rw [hcat.ownBindings_eq hwhole.fits.1, Ty.substitute, hparams, args_subst _ hhead,
      Bindings.lookup_zip_map, hlookup] at hb
    rw [hchase, ← Option.some.inj hb]
  -- In what is gathered it stands for the same, since the heir is covered.
  obtain ⟨δ, hδ⟩ := Bindings.foldl_bindNew_eq_append ((cat.paramsOf base.head).zip base.args) γ
  have hbound := Bindings.lookup_foldl_bindNew ((cat.paramsOf base.head).zip base.args) γ x
  rw [hnew x hxbase, Option.none_or, hlookup] at hbound
  rw [hδ] at hbound ⊢
  have hne : a ≠ .param x := by
    rintro rfl
    have hparams := hclosed x (haparams x (List.mem_singleton.2 rfl))
    rw [Ty.chase_of_none (hnew x hxbase)] at hparams
    cases hparams
  rw [hinstance, Ty.chase_of_some hbound hne, Bindings.hide_append,
    Bindings.hide_of_none (hnew x hxbase)]
  apply Ty.subst_congr
  intro y hy
  have hyu : y ∈ cat.paramsOf u.head := by
    rw [hheadu, paramsOf, hfind]
    exact haparams y hy
  rw [← hchase y hyu]
  refine Ty.chase_append _ fun z hz => ?_
  rw [hclosed y (haparams y hy)] at hz
  cases hz

end WellScoped

/-- Every object that the search has met is covered, and so is every object with a parameter
bound. -/
structure Gathers (cat : Catalog) (t : Ty) (γ : Bindings) (found : List Ty) : Prop where
  covers : ∀ u ∈ t.head :: found, ∀ kind decl elements, u.head = .object kind decl elements →
    cat.Covers t γ decl
  bound : ∀ x decl d, γ.lookup x ≠ none → cat.declared? decl = some d → d.kind? ≠ none →
    x ∈ d.params → cat.Covers t γ decl

namespace WellScoped

theorem eq_of_mem_paramsOf (hcat : cat.WellScoped keys) {kind : ObjectKind} {decl decl' : DeclId}
    {d : Declaration} {x : TypeParam} (hx : x ∈ cat.paramsOf (.object kind decl elements))
    (hfind : cat.declared? decl' = some d) (hd : x ∈ d.params) : decl = decl' := by
  rw [paramsOf] at hx
  split at hx
  · next d' hfind' => exact hcat.apart decl d' decl' d x hfind' hfind hx hd
  · cases hx

theorem gathers_own (hcat : cat.WellScoped keys) {t : Ty} {kind : ObjectKind} {decl : DeclId}
    (hhead : t.head = .object kind decl elements) : cat.Gathers t (cat.ownBindings t) [] where
  covers u hu kind' decl' elements' hu' := by
    rw [List.mem_singleton.1 hu, hhead] at hu'
    cases hu'
    exact ⟨t, kind, elements, .self, hhead, fun _ _ => rfl⟩
  bound x decl' d hbound hfind _ hx := by
    obtain ⟨u, hlookup⟩ := Option.ne_none_iff_exists'.1 hbound
    have hpair := Bindings.mem_of_mem_ofPairs (Bindings.mem_of_lookup hlookup)
    have hparam := (List.of_mem_zip hpair).1
    rw [hhead] at hparam
    cases hcat.eq_of_mem_paramsOf hparam hfind hx
    exact ⟨t, kind, elements, .self, hhead, fun _ _ => rfl⟩

theorem gathers_snoc (hcat : cat.WellScoped keys) {t heir base : Ty} {γ : Bindings}
    {found bases : List Ty} (ht : cat.Whole keys t) (h : cat.Gathers t γ found)
    (hheir : heir ∈ t.head :: found) (hflat : heir.head.head = heir.head)
    (hbases : cat.bases heir.head = .ok bases) (hbase : base ∈ bases) :
    cat.Gathers t (((cat.paramsOf base.head).zip base.args).foldl
      (fun bindings pair => bindings.bindNew pair.1 pair.2) γ) (found ++ [base]) := by
  obtain ⟨kind, decl, elements, d, hhead, hfind, _, hfits, hfree⟩ := hcat.fits_bases hbases hbase
  obtain ⟨δ, hδ⟩ := Bindings.foldl_bindNew_eq_append ((cat.paramsOf base.head).zip base.args) γ
  have hold : ∀ decl, cat.Covers t γ decl →
      cat.Covers t (((cat.paramsOf base.head).zip base.args).foldl
        (fun bindings pair => bindings.bindNew pair.1 pair.2) γ) decl := by
    intro decl hcovers
    rw [hδ]
    exact hcat.covers_append ht hcovers δ
  have hnew : ∀ kind' decl' elements', base.head = .object kind' decl' elements' →
      cat.Covers t (((cat.paramsOf base.head).zip base.args).foldl
        (fun bindings pair => bindings.bindNew pair.1 pair.2) γ) decl' := by
    intro kind' decl' elements' hbasehead
    by_cases hall : ∀ x ∈ cat.paramsOf base.head, γ.lookup x = none
    · refine hcat.covers_base ht (hflat ▸ hhead)
        (h.covers heir hheir kind decl elements (hflat ▸ hhead)) ?_ hbase hbasehead hall
      rw [bases_of_head (hflat ▸ hhead) hhead]
      exact hbases
    · -- The declaration has been met before, as an object of the other kind.
      push Not at hall
      obtain ⟨x, hx, hbound⟩ := hall
      obtain ⟨d', hfind', hkind, _⟩ := backs_of_head hfits.1 hbasehead
      rw [hbasehead, paramsOf, hfind'] at hx
      exact hold _ (h.bound x decl' d' hbound hfind' hkind hx)
  refine ⟨fun u hu kind' decl' elements' hu' => ?_, fun x decl' d' hbound hfind' hkind hx => ?_⟩
  · rw [← List.cons_append, List.mem_append, List.mem_singleton] at hu
    rcases hu with hu | rfl
    · exact hold _ (h.covers u hu kind' decl' elements' hu')
    · exact hnew kind' decl' elements' hu'
  · rw [Bindings.lookup_foldl_bindNew] at hbound
    by_cases hγ : γ.lookup x = none
    · rw [hγ, Option.none_or] at hbound
      obtain ⟨a, hlookup⟩ := Option.ne_none_iff_exists'.1 hbound
      have hpair := Bindings.mem_of_lookup hlookup
      have hparam := (List.of_mem_zip hpair).1
      cases base with
      | ref target args =>
          cases target with
          | object kind' decl'' elements' =>
              cases hcat.eq_of_mem_paramsOf hparam hfind' hx
              exact hnew kind' _ elements' rfl
          | mapped y c t ys =>
              exact absurd ⟨decl', d', hfind', hkind, hx⟩ (hfits.1.2.2.2.2.1 x hparam).2.1
          | _ => cases hparam
      | _ => exact absurd (List.of_mem_zip hpair).2 List.not_mem_nil
    · exact hold _ (h.bound x decl' d' hγ hfind' hkind hx)

theorem gathers_lines (hcat : cat.WellScoped keys) {t : Ty} {kind : ObjectKind} {decl : DeclId}
    {found : List Ty} (ht : cat.Whole keys t) (hhead : t.head = .object kind decl elements)
    (h : cat.Lines (.object kind decl elements) found) :
    cat.Gathers t ((cat.inherited found).foldl
      (fun bindings pair => bindings.bindNew pair.1 pair.2) (cat.ownBindings t)) found ∧
      ∀ u ∈ found, u.Every (cat.Fits keys) := by
  induction h with
  | nil => exact ⟨hcat.gathers_own hhead, fun u hu => absurd hu List.not_mem_nil⟩
  | @snoc found heir base bases _ hheir hbases hbase _ ih =>
      have hflat : heir.head.head = heir.head := by
        rcases List.mem_cons.1 hheir with rfl | hheir
        · rfl
        · exact head_head_of_fits (ih.2 heir hheir).1
      rw [← hhead] at hheir
      refine ⟨?_, fun u hu => ?_⟩
      · have hstep := hcat.gathers_snoc ht ih.1 hheir hflat hbases hbase
        rwa [← List.foldl_append, inherited, ← List.flatMap_singleton
          (fun base => (cat.paramsOf base.head).zip base.args) base, ← List.flatMap_append] at hstep
      · rcases List.mem_append.1 hu with hu | hu
        · exact ih.2 u hu
        · obtain ⟨_, _, _, _, _, _, _, hfits, _⟩ := hcat.fits_bases hbases hbase
          exact List.mem_singleton.1 hu ▸ hfits

theorem fits_above (hcat : cat.WellScoped keys) {t u : Ty} (h : cat.Above t u) :
    u = t ∨ u.Every (cat.Fits keys) := by
  cases h with
  | self => exact .inl rfl
  | base _ hbases hbase =>
      obtain ⟨_, _, _, _, _, _, _, hfits, _⟩ := hcat.fits_bases hbases hbase
      exact .inr hfits

theorem head_head_above (hcat : cat.WellScoped keys) {t u : Ty} (ht : cat.Fits keys t)
    (h : cat.Above t u) : u.head.head = u.head := by
  rcases hcat.fits_above h with rfl | hfits
  · exact head_head_of_fits ht
  · exact head_head_of_fits hfits.1

theorem exists_inherits_of_above (hcat : cat.WellScoped keys) {t u : Ty} {kind : ObjectKind}
    {decl : DeclId} (ht : cat.Fits keys t) (habove : cat.Above t u)
    (hu : u.head = .object kind decl elements) :
    ∃ w kind' elements', cat.Inherits t w ∧ w.head = .object kind' decl elements' := by
  induction habove generalizing kind decl elements with
  | self => exact ⟨t, kind, elements, .self, hu⟩
  | @base heir base bases habove hbases hbase ih =>
      obtain ⟨kind₁, decl₁, elements₁, _, _, hhead, _⟩ := mem_bases hbases hbase
      rw [hcat.head_head_above ht habove] at hhead
      obtain ⟨w, kind₂, elements₂, hw, hwhead⟩ := ih hhead
      have hbases' : cat.bases w = .ok bases := by
        rw [bases_of_head hwhead (u := heir.head) (hcat.head_head_above ht habove ▸ hhead), hbases]
      obtain ⟨elements', hbasehead⟩ := exists_head_subst (Ty.chase (cat.ownBindings w)) hu
      exact ⟨_, kind, elements', hw.base hbases' hbase, hbasehead⟩

/-- The bindings of a whole type cover what is above it, unless it is a class with a generic
ancestor. -/
theorem covers_above (hcat : cat.WellScoped keys) {t u : Ty} {decl : DeclId} {kind : ObjectKind}
    {bindings : Bindings} (ht : cat.Whole keys t) (hleaks : ¬cat.Leaks t)
    (h : cat.bindings t = .ok bindings) (habove : cat.Above t u)
    (hu : u.head = .object kind decl elements) : cat.Covers t bindings decl := by
  by_cases hinterface : ∃ decl₀ elements₀, t.head = .object .interface decl₀ elements₀
  · obtain ⟨decl₀, elements₀, hhead⟩ := hinterface
    have hflat : t.head.head = t.head := head_head_of_fits ht.fits.1
    obtain ⟨u', habove', hu'⟩ := habove.exists_of_head hflat
    rw [hhead] at habove'
    obtain ⟨found, hancestors, rfl⟩ := (bindings_of_interface hhead).1 h
    have hgathers := (hcat.gathers_lines ht hhead (lines_ancestors hancestors).1).1
    obtain ⟨w, hw, hkey⟩ := List.mem_map.1 (mem_heads_of_above hancestors habove').1
    rw [hu', hu] at hkey
    obtain ⟨elements', hwhead⟩ := Ty.exists_object_of_key hkey
    exact hgathers.covers w (hhead ▸ hw) kind decl elements' hwhead
  · cases (bindings_of_not_interface fun i us hhead => hinterface ⟨i, us, hhead⟩).symm.trans h
    have hself : u = t → cat.Covers t (cat.ownBindings t) decl := by
      rintro rfl
      exact ⟨u, kind, elements, .self, hu, fun _ _ => rfl⟩
    rcases hcat.fits_above habove with heq | hfits
    · exact hself heq
    rcases habove.head_eq_object with heq | ⟨kind₀, decl₀, elements₀, hhead⟩
    · exact hself heq
    rw [head_head_of_fits ht.fits.1] at hhead
    cases bare_of_fits ht.fits.1 _ _ _ hhead
    have hobject : (Ty.object kind₀ decl₀ []).head = t.head := hhead.symm
    rcases habove.of_head hobject with heq | habove'
    · exact hself heq
    -- What is above a class that does not leak has no parameters.
    have hargs : u.args = [] := by
      by_contra hargs
      obtain ⟨d, hfind, _, hkind⟩ := backs_of_head ht.fits.1 hhead
      cases kind₀ with
      | interface => exact hinterface ⟨decl₀, [], hhead⟩
      | nominal => exact hleaks ⟨decl₀, [], d, u, hhead, hfind, hkind rfl, habove', hargs⟩
    have hparams := length_args hfits.1 hu
    rw [hargs, hu] at hparams
    obtain ⟨w, kind', elements', hw, hwhead⟩ := hcat.exists_inherits_of_above ht.fits.1 habove hu
    refine ⟨w, kind', elements', hw, hwhead, fun x hx => ?_⟩
    rw [hwhead] at hx
    exact absurd hx (List.eq_nil_of_length_eq_zero hparams.symm ▸ List.not_mem_nil)

end WellScoped

end Catalog

end TypeGuard
