import TypeGuard.Proofs.Heritage

/-! Catalogs in which every declaration keeps to its own parameters, and the types that fit into
them. The parameters of mapped types are told from all others by a mark. -/

namespace TypeGuard

namespace Bindings

theorem foldl_bind_eq_append {pairs : List (TypeParam × Ty)} {γ : Bindings}
    (h : ((γ ++ pairs).map Prod.fst).Nodup) :
    pairs.foldl (fun bindings pair => bindings.bind pair.1 pair.2) γ = γ ++ pairs := by
  have hbind : ∀ {p : TypeParam} {t : Ty} {γ : Bindings}, p ∉ γ.map Prod.fst →
      γ.bind p t = γ ++ [(p, t)] := by
    intro p t γ hp
    induction γ with
    | nil => rfl
    | cons binding rest ih =>
        simp only [List.map_cons, List.mem_cons, not_or] at hp
        rw [bind, if_neg (Ne.symm hp.1), ih hp.2, List.cons_append]
  induction pairs generalizing γ with
  | nil => rw [List.append_nil, List.foldl_nil]
  | cons pair rest ih =>
      have hnew : pair.1 ∉ γ.map Prod.fst := by
        intro hmem
        rw [List.map_append, List.nodup_append] at h
        exact h.2.2 _ hmem _ List.mem_cons_self rfl
      rw [List.foldl_cons, hbind hnew, ih (by simpa using h), List.append_assoc,
        List.singleton_append]

theorem ofPairs_zip {xs : List TypeParam} {ts : List Ty} (hnodup : xs.Nodup)
    (hlength : ts.length = xs.length) : ofPairs (xs.zip ts) = xs.zip ts := by
  refine foldl_bind_eq_append (γ := []) ?_
  rwa [List.nil_append, List.map_fst_zip (Nat.le_of_eq hlength.symm)]

theorem exists_lookup_zip {xs : List TypeParam} {ts : List Ty} (hlength : ts.length = xs.length)
    {x : TypeParam} (hx : x ∈ xs) : ∃ t ∈ ts, (xs.zip ts).lookup x = some t := by
  induction xs generalizing ts with
  | nil => cases hx
  | cons y rest ih =>
      cases ts with
      | nil => cases hlength
      | cons t ts =>
          rw [List.zip_cons_cons, List.lookup_cons]
          by_cases heq : x = y
          · exact ⟨t, List.mem_cons_self, by rw [heq, beq_self_eq_true]⟩
          · obtain ⟨u, hu, hlookup⟩ :=
              ih (Nat.succ.inj hlength) ((List.mem_cons.1 hx).resolve_left heq)
            exact ⟨u, List.mem_cons_of_mem _ hu, by rwa [beq_eq_false_iff_ne.2 heq]⟩

theorem lookup_zip_eq_none {xs : List TypeParam} {ts : List Ty} {x : TypeParam} (hx : x ∉ xs) :
    (xs.zip ts).lookup x = none := by
  rw [List.lookup_eq_none_iff]
  rintro ⟨y, t⟩ hmem
  refine bne_iff_ne.2 fun heq => hx ?_
  rw [heq]
  exact (List.of_mem_zip hmem).1

theorem lookup_zip_map (xs : List TypeParam) (ts : List Ty) (f : Ty → Ty) (x : TypeParam) :
    (xs.zip (ts.map f)).lookup x = ((xs.zip ts).lookup x).map f := by
  induction xs generalizing ts with
  | nil => rfl
  | cons y rest ih =>
      cases ts with
      | nil => rfl
      | cons t ts =>
          simp only [List.map_cons, List.zip_cons_cons, List.lookup_cons, ih]
          cases x == y <;> rfl

end Bindings

namespace Ty

theorem chase_of_lookup {γ : Bindings} {p : TypeParam} {t : Ty} (hbound : γ.lookup p = some t)
    (hfree : ∀ q ∈ t.params, γ.lookup q = none) : chase γ p = t := by
  have hne : t ≠ param p := by
    rintro rfl
    rw [hfree p (List.mem_singleton.2 rfl)] at hbound
    cases hbound
  rw [chase_of_some hbound hne]
  refine subst_eq_self fun q hq => chase_of_none ?_
  by_cases hqp : q = p
  · rw [hqp, Bindings.lookup_hide_self]
  · rw [Bindings.lookup_hide_of_ne hqp, hfree q hq]

theorem mem_params_chase {γ : Bindings} {p q : TypeParam} (h : q ∈ (chase γ p).params) :
    (q = p ∧ γ.lookup p = none) ∨ ∃ binding ∈ γ, q ∈ binding.2.params := by
  cases hp : γ.lookup p with
  | none =>
      rw [chase_of_none hp] at h
      exact .inl ⟨List.mem_singleton.1 h, rfl⟩
  | some t =>
      have hmem : (p, t) ∈ γ := Bindings.mem_of_lookup hp
      by_cases hself : t = param p
      · subst hself
        rw [chase_of_self hp] at h
        exact .inr ⟨_, hmem, h⟩
      rw [chase_of_some hp hself] at h
      obtain ⟨r, hr, hq⟩ := mem_params_subst.1 h
      rcases mem_params_chase hq with ⟨rfl, _⟩ | ⟨binding, hbinding, hq⟩
      · exact .inr ⟨_, hmem, hr⟩
      · exact .inr ⟨binding, Bindings.mem_of_mem_hide hbinding, hq⟩
termination_by γ.length
decreasing_by exact Bindings.length_hide_lt hp

end Ty

namespace Catalog

variable {cat : Catalog} {keys : TypeParam → Bool}

/-- A parameter of an interface or of a class. -/
def Owns (cat : Catalog) (x : TypeParam) : Prop :=
  ∃ i d, cat.declared? i = some d ∧ d.kind? ≠ none ∧ x ∈ d.params

/-- A parameter of an alias that is rewritten where it is used. -/
def Rewrites (cat : Catalog) (x : TypeParam) : Prop :=
  ∃ i d t, cat.declared? i = some d ∧ d.body = .alias (some t) ∧ t.isMapped = false ∧ x ∈ d.params

/-- The declaration of an object is that of an interface or a class, and that of a class object is
that of a class. -/
def Backs (cat : Catalog) (kind : ObjectKind) (decl : DeclId) : Prop :=
  ∃ d, cat.declared? decl = some d ∧ d.kind? ≠ none ∧ (kind = .nominal → d.kind? = some .nominal)

/-- What can be the target of a reference. A mapped type keeps to the parameters it carries. -/
def Aims (cat : Catalog) (keys : TypeParam → Bool) : Ty → Prop
  | .object kind decl elements => elements = [] ∧ cat.Backs kind decl
  | .sequence _ _ => True
  | .mapped x constraint template params => keys x = true ∧ params.Nodup ∧
      (∀ y ∈ params, keys y = false ∧ ¬cat.Owns y ∧ ¬cat.Rewrites y) ∧
      constraint.free ⊆ params ∧ template.free ⊆ x :: params
  | _ => False

/-- Generic objects are applied to as many arguments as they have parameters, no mapped type is
inside an argument, and mapped types bind marked parameters. -/
def Fits (cat : Catalog) (keys : TypeParam → Bool) : Ty → Prop
  | .object kind decl elements =>
      cat.paramsOf (.object kind decl elements) = [] ∧ elements = [] ∧ cat.Backs kind decl
  | .ref target args => (∀ t ∈ args, t.unmapped = true) ∧
      args.length = (cat.paramsOf target).length ∧ cat.Aims keys target
  | .mapped x _ _ _ => keys x = true
  | .name _ args => ∀ t ∈ args, t.unmapped = true
  | _ => True

/-- Every declaration has parameters of its own and mentions no others. -/
structure WellScoped (cat : Catalog) (keys : TypeParam → Bool) : Prop where
  named : cat.Named
  fits : cat.Upholds (cat.Fits keys)
  nodup : ∀ i d, cat.declared? i = some d → d.params.Nodup
  apart : ∀ i d i' d' x, cat.declared? i = some d → cat.declared? i' = some d' → x ∈ d.params →
    x ∈ d'.params → i = i'
  unmarked : ∀ i d x, cat.declared? i = some d → x ∈ d.params → keys x = false
  scope : ∀ i d t, cat.declared? i = some d → d.Lists t → t.free ⊆ d.params
  heritage : ∀ i d h t, cat.declared? i = some d → h ∈ d.heritage → t ∈ h.args → t.unmapped = true
  /-- The mapped body of a generic alias carries the parameters of the alias. -/
  bodies : ∀ i d x c t xs, cat.declared? i = some d → d.body = .alias (some (.mapped x c t xs)) →
    d.params ≠ [] → xs = d.params

/-- The arguments of a name can be put in one after another: none of them is changed by what the
parameters of the alias stand for. -/
def Straight (cat : Catalog) (s : String) (args : List Ty) : Prop :=
  ∀ d t, cat.find? s = some d → d.body = .alias (some t) → t.isMapped = false →
    ∀ x u, (d.params.zip args).lookup x = some u → Ty.chase (d.params.zip args) x = u

theorem straight_of_apart {s : String} {args : List Ty}
    (h : ∀ d t, cat.find? s = some d → d.body = .alias (some t) → t.isMapped = false →
      ∀ u ∈ args, ∀ x ∈ u.params, x ∉ d.params) : cat.Straight s args := by
  intro d t hfind hbody hmapped x u hlookup
  have hu : u ∈ args := (List.of_mem_zip (Bindings.mem_of_lookup hlookup)).2
  exact Ty.chase_of_lookup hlookup fun y hy =>
    Bindings.lookup_zip_eq_none (h d t hfind hbody hmapped u hu y hy)

/-- An alias of one parameter cannot mix its arguments up. -/
theorem straight_of_single {s : String} {args : List Ty} {x : TypeParam}
    (h : ∀ d, cat.find? s = some d → d.params = [x]) : cat.Straight s args := by
  intro d t hfind _ _ y u hlookup
  rw [h d hfind] at hlookup ⊢
  by_cases hself : u = .param y
  · rw [hself] at hlookup ⊢
    exact Ty.chase_of_self hlookup
  · rw [Ty.chase_of_some hlookup hself]
    have hy : y = x := List.mem_singleton.1 (List.of_mem_zip (Bindings.mem_of_lookup hlookup)).1
    refine Ty.subst_eq_self fun z _ => Ty.chase_of_none ?_
    rw [hy]
    by_cases hz : z = x
    · rw [hz, Bindings.lookup_hide_self]
    · rw [Bindings.lookup_hide_of_ne hz]
      exact Bindings.lookup_zip_eq_none (mt List.mem_singleton.1 hz)

theorem Backs.declares {kind : ObjectKind} {decl : DeclId}
    (h : cat.Backs kind decl) (elements : List Ty) : cat.Declares (.object kind decl elements) := by
  intro d hfind
  obtain ⟨d', hfind', hkind, _⟩ := h
  cases hfind.symm.trans hfind'
  exact hkind

theorem declares_of_fits {t : Ty} (h : cat.Fits keys t) : cat.Declares t := by
  cases t with
  | object kind decl elements => exact h.2.2.declares elements
  | ref target args =>
      cases target with
      | object kind decl elements => exact h.2.2.2.declares elements
      | ref _ _ => exact h.2.2.elim
      | _ => trivial
  | _ => trivial

theorem every_declares_of_fits {t : Ty} (h : t.Every (cat.Fits keys)) : t.Every cat.Declares :=
  h.mono fun _ => declares_of_fits

theorem bare_of_aims {target : Ty} (h : cat.Aims keys target) (args : List Ty) :
    (Ty.ref target args).Bare := by
  rintro kind decl elements hhead
  cases hhead
  exact h.1

theorem bare_of_fits {t : Ty} (h : cat.Fits keys t) : t.Bare := by
  intro kind decl elements hhead
  cases t with
  | ref target args => exact bare_of_aims h.2.2 args kind decl elements hhead
  | object _ _ _ =>
      cases hhead
      exact h.2.1
  | _ => cases hhead

theorem isApplicable_of_aims {t : Ty} (h : cat.Aims keys t) : isApplicable t = true := by
  cases t with
  | object _ _ _ | sequence _ _ | mapped _ _ _ _ => rfl
  | _ => exact h.elim

theorem fits_subst {σ : TypeParam → Ty} {t : Ty} (h : t.Every (cat.Fits keys))
    (hσ : ∀ x ∈ t.params, (σ x).Every (cat.Fits keys) ∧ (σ x).unmapped = true) :
    (t.subst σ).Every (cat.Fits keys) := by
  have hargs : ∀ args : List Ty, (∀ t ∈ args, t.unmapped = true) →
      (∀ x ∈ args.flatMap Ty.params, (σ x).Every (cat.Fits keys) ∧ (σ x).unmapped = true) →
      ∀ t ∈ args.map (Ty.subst σ), t.unmapped = true := by
    intro args hargs hσ u hu
    obtain ⟨t, ht, rfl⟩ := List.mem_map.1 hu
    exact Ty.unmapped_subst (hargs t ht) fun x hx => (hσ x (List.mem_flatMap.2 ⟨t, ht, hx⟩)).2
  refine h.subst (fun x hx => hx.1) (fun u hu hσ hne => ?_) hσ
  cases u with
  | param x => exact absurd rfl (hne x)
  | object kind decl elements =>
      obtain ⟨hparams, rfl, hbacks⟩ := hu.1
      exact ⟨hparams, rfl, hbacks⟩
  | mapped x c t xs => exact hu.1
  | ref target args =>
      simp only [Ty.params, Ty.paramsList_eq] at hσ
      simp only [Ty.subst, Ty.substList_eq, Fits, List.length_map]
      exact ⟨hargs args hu.1.1 hσ, hu.1.2⟩
  | name s args =>
      simp only [Ty.params, Ty.paramsList_eq] at hσ
      simp only [Ty.subst, Ty.substList_eq, Fits]
      exact hargs args hu.1 hσ
  | _ => trivial

theorem fits_chase {γ : Bindings} {x : TypeParam}
    (hbound : ∀ y t, γ.Leads x y → γ.lookup y = some t →
      t.Every (cat.Fits keys) ∧ t.unmapped = true) :
    (Ty.chase γ x).Every (cat.Fits keys) ∧ (Ty.chase γ x).unmapped = true :=
  Ty.chase_induction (P := fun t => t.Every (cat.Fits keys) ∧ t.unmapped = true)
    (fun _ => ⟨⟨trivial, trivial⟩, rfl⟩)
    (fun _ _ ht hσ => ⟨fits_subst ht.1 hσ, Ty.unmapped_subst ht.2 fun x hx => (hσ x hx).2⟩) hbound

theorem mapsOver_of_fits {t : Ty} (h : cat.Fits keys t) : t.MapsOver (keys · = true) := by
  cases t with
  | mapped x c t xs => exact h
  | _ => trivial

theorem mem_free_of_mem_params {t : Ty} {x : TypeParam} (h : t.Every (cat.Fits keys))
    (hx : x ∈ t.params) (hkey : keys x = false) : x ∈ t.free :=
  Ty.mem_free_of_mem_params (h.mono fun _ => mapsOver_of_fits) hx (by simp [hkey])

theorem mem_free_subst {σ : TypeParam → Ty} {t : Ty} {x : TypeParam} (h : t.Every (cat.Fits keys))
    (hσ : ∀ y, keys y = true → σ y = .param y) (hx : x ∈ (t.subst σ).free) :
    ∃ y ∈ t.free, x ∈ (σ y).free :=
  Ty.mem_free_subst (h.mono fun _ hu => (mapsOver_of_fits hu).mono hσ) hx

theorem exists_resolve_of_length {s : String} {args args' : List Ty} {t : Ty}
    (h : cat.resolve (.name s args) = .ok t) (hlength : args'.length = args.length) :
    ∃ t', cat.resolve (.name s args') = .ok t' := by
  simp only [resolve_eq_ok] at h ⊢
  cases h with
  | object hfind hkind hparams hargs =>
      rw [hargs] at hlength
      exact ⟨_, .object hfind hkind hparams (List.eq_nil_of_length_eq_zero hlength)⟩
  | objectRef hfind hkind hparams harity htarget =>
      exact ⟨_, .objectRef hfind hkind hparams (hlength.trans harity) (hlength.trans htarget)⟩
  | body hfind hbody hparams hargs =>
      rw [hargs] at hlength
      exact ⟨_, .body hfind hbody hparams (List.eq_nil_of_length_eq_zero hlength)⟩
  | mapped hfind hbody hparams harity htarget =>
      exact ⟨_, .mapped hfind hbody hparams (hlength.trans harity) (hlength.trans htarget)⟩
  | rewrite hfind hbody hmapped hparams harity =>
      exact ⟨_, .rewrite hfind hbody hmapped hparams (hlength.trans harity)⟩

namespace WellScoped

theorem upholds_declares (hcat : cat.WellScoped keys) : cat.Upholds cat.Declares :=
  fun i d t hfind hlists => every_declares_of_fits (hcat.fits i d t hfind hlists)

/-! Names in a well-scoped catalog. -/

theorem ofPairs_zip (hcat : cat.WellScoped keys) {i : DeclId} {d : Declaration} {args : List Ty}
    (hfind : cat.declared? i = some d) (harity : args.length = d.params.length) :
    Bindings.ofPairs (d.params.zip args) = d.params.zip args :=
  Bindings.ofPairs_zip (hcat.nodup i d hfind) harity

theorem paramsOf_object (hcat : cat.WellScoped keys) {i : DeclId} {d : Declaration}
    (hfind : cat.declared? i = some d) (kind : ObjectKind) (elements : List Ty) :
    cat.paramsOf (.object kind d.id elements) = d.params := by
  rw [hcat.named i d hfind, paramsOf, hfind]

theorem eq_of_mem_params (hcat : cat.WellScoped keys) {i i' : DeclId} {d d' : Declaration}
    {x : TypeParam} (hfind : cat.declared? i = some d) (hfind' : cat.declared? i' = some d')
    (hx : x ∈ d.params) (hx' : x ∈ d'.params) : d = d' := by
  have hsame : i = i' := hcat.apart i d i' d' x hfind hfind' hx hx'
  subst hsame
  exact Option.some.inj (hfind.symm.trans hfind')

theorem not_rewrites_of_kind? (hcat : cat.WellScoped keys) {i : DeclId} {d : Declaration}
    {x : TypeParam} (hfind : cat.declared? i = some d) (hkind : d.kind? ≠ none)
    (hx : x ∈ d.params) :
    ¬cat.Rewrites x := by
  rintro ⟨i', d', t, hfind', hbody, _, hx'⟩
  cases hcat.eq_of_mem_params hfind hfind' hx hx'
  rw [Declaration.kind?, hbody] at hkind
  exact hkind rfl

theorem backs_object (hcat : cat.WellScoped keys) {i : DeclId} {d : Declaration} {kind : ObjectKind}
    (hfind : cat.declared? i = some d) (hkind : d.kind? = some kind) : cat.Backs kind d.id := by
  rw [hcat.named i d hfind]
  refine ⟨d, hfind, ?_⟩
  rw [hkind]
  exact ⟨nofun, fun h => congrArg some h⟩

theorem aims_mapped (hcat : cat.WellScoped keys) {i : DeclId} {d : Declaration} {x : TypeParam}
    {c t : Ty} {xs : List TypeParam} (hfind : cat.declared? i = some d)
    (hbody : d.body = .alias (some (.mapped x c t xs))) (hparams : d.params ≠ []) :
    cat.Aims keys (.mapped x c t xs) := by
  have hxs : xs = d.params := hcat.bodies _ d x c t xs hfind hbody hparams
  subst hxs
  have hkind : d.kind? = none := by rw [Declaration.kind?, hbody]
  have hscope : (Ty.mapped x c t d.params).free ⊆ d.params := hcat.scope _ d _ hfind (.body hbody)
  refine ⟨(hcat.fits _ d _ hfind (.body hbody)).1, hcat.nodup _ d hfind, fun y hy => ⟨?_, ?_, ?_⟩,
    fun y hy => ?_, fun y hy => ?_⟩
  · exact hcat.unmarked _ d y hfind hy
  · rintro ⟨i', d', hfind', hkind', hy'⟩
    cases hcat.eq_of_mem_params hfind hfind' hy hy'
    exact hkind' hkind
  · rintro ⟨i', d', t', hfind', hbody', hmapped, hy'⟩
    cases hcat.eq_of_mem_params hfind hfind' hy hy'
    cases hbody.symm.trans hbody'
    cases hmapped
  · exact hscope (List.mem_append_left _ hy)
  · by_cases hyx : y = x
    · exact hyx ▸ List.mem_cons_self
    · refine List.mem_cons_of_mem _ (hscope (List.mem_append_right _ ?_))
      exact List.mem_filter.2 ⟨hy, decide_eq_true hyx⟩

theorem chase_zip_of_marked (hcat : cat.WellScoped keys) {i : DeclId} {d : Declaration}
    {args : List Ty} {x : TypeParam} (hfind : cat.declared? i = some d) (hx : keys x = true) :
    Ty.chase (d.params.zip args) x = .param x := by
  refine Ty.chase_of_none (Bindings.lookup_zip_eq_none fun hmem => ?_)
  rw [hcat.unmarked _ d x hfind hmem] at hx
  cases hx

theorem fits_resolve (hcat : cat.WellScoped keys) {s : String} {args : List Ty} {t : Ty}
    (hargs : ∀ u ∈ args, u.Every (cat.Fits keys)) (hunmapped : ∀ u ∈ args, u.unmapped = true)
    (h : cat.resolve (.name s args) = .ok t) : t.Every (cat.Fits keys) := by
  cases resolve_eq_ok.1 h with
  | object hfind hkind hparams _ =>
      refine ⟨⟨?_, rfl, hcat.backs_object hfind hkind⟩, trivial⟩
      rw [hcat.paramsOf_object hfind, hparams]
  | objectRef hfind hkind _ _ htarget =>
      exact ⟨⟨hunmapped, htarget, rfl, hcat.backs_object hfind hkind⟩, trivial,
        Ty.insideList_iff.2 hargs⟩
  | body hfind hbody _ _ => exact hcat.fits _ _ _ hfind (.body hbody)
  | mapped hfind hbody hparams _ htarget =>
      exact ⟨⟨hunmapped, htarget, hcat.aims_mapped hfind hbody hparams⟩,
        (hcat.fits _ _ _ hfind (.body hbody)).2, Ty.insideList_iff.2 hargs⟩
  | rewrite hfind hbody _ _ _ =>
      refine fits_subst (hcat.fits _ _ _ hfind (.body hbody)) fun x _ => fits_chase ?_
      intro y u _ hy
      have harg := (List.of_mem_zip (Bindings.mem_of_mem_ofPairs (Bindings.mem_of_lookup hy))).2
      exact ⟨hargs _ harg, hunmapped _ harg⟩

/-- Nothing is open in what a name stands for but what is open in its arguments. -/
theorem mem_free_resolve (hcat : cat.WellScoped keys) {s : String} {args : List Ty} {t : Ty}
    {x : TypeParam} (hunmapped : ∀ u ∈ args, u.unmapped = true)
    (h : cat.resolve (.name s args) = .ok t) (hx : x ∈ t.free) : ∃ u ∈ args, x ∈ u.free := by
  cases resolve_eq_ok.1 h with
  | object _ _ _ _ => cases hx
  | objectRef _ _ _ _ _ | mapped _ _ _ _ _ =>
      simpa only [Ty.free, Ty.freeList_eq, List.mem_flatMap] using hx
  | body hfind hbody hparams _ =>
      have hmem := hcat.scope _ _ _ hfind (.body hbody) hx
      rw [hparams] at hmem
      cases hmem
  | @rewrite d t hfind hbody _ _ harity =>
      rw [hcat.ofPairs_zip hfind harity] at hx
      obtain ⟨y, hy, hx⟩ := mem_free_subst (hcat.fits _ d t hfind (.body hbody))
        (fun _ => hcat.chase_zip_of_marked hfind) hx
      obtain ⟨u, _, hlookup⟩ :=
        Bindings.exists_lookup_zip harity (hcat.scope _ d t hfind (.body hbody) hy)
      rcases Ty.mem_params_chase (Ty.free_subset_params hx) with ⟨_, hnone⟩ | ⟨⟨z, u⟩, hmem, hx⟩
      · rw [hlookup] at hnone
        cases hnone
      · have hu : u ∈ args := (List.of_mem_zip hmem).2
        exact ⟨u, hu, by rwa [Ty.free_eq_params (hunmapped u hu)]⟩

/-- A substitution before a name is resolved and one afterwards come to the same. -/
theorem resolve_subst (hcat : cat.WellScoped keys) {σ : TypeParam → Ty} {s : String}
    {args : List Ty} {t : Ty} (hσ : ∀ x, keys x = true → σ x = .param x)
    (hargs : cat.Straight s args) (hargs' : cat.Straight s (args.map (Ty.subst σ)))
    (h : cat.resolve (.name s args) = .ok t) :
    cat.resolve (.name s (args.map (Ty.subst σ))) = .ok (t.subst σ) := by
  rw [resolve_eq_ok] at h ⊢
  cases h with
  | object hfind hkind hparams hargs =>
      exact .object hfind hkind hparams (by rw [hargs, List.map_nil])
  | objectRef hfind hkind hparams harity htarget =>
      rw [Ty.subst, Ty.substList_eq]
      exact .objectRef hfind hkind hparams (by rwa [List.length_map]) (by rwa [List.length_map])
  | @body d t hfind hbody hparams hargs =>
      have hself : t.subst σ = t := by
        refine Ty.subst_eq_self fun x hx => hσ x ?_
        by_contra hkey
        have hfree := mem_free_of_mem_params (hcat.fits _ d t hfind (.body hbody)) hx
          (Bool.eq_false_iff.2 hkey)
        have hmem := hcat.scope _ d t hfind (.body hbody) hfree
        rw [hparams] at hmem
        cases hmem
      rw [hself]
      exact .body hfind hbody hparams (by rw [hargs, List.map_nil])
  | mapped hfind hbody hparams harity htarget =>
      rw [Ty.subst, Ty.substList_eq]
      exact .mapped hfind hbody hparams (by rwa [List.length_map]) (by rwa [List.length_map])
  | @rewrite d t hfind hbody hmapped hparams harity =>
      have harity' : (args.map (Ty.subst σ)).length = d.params.length := by rwa [List.length_map]
      suffices heq : (t.substitute (d.params.zip args)).subst σ =
          t.substitute (d.params.zip (args.map (Ty.subst σ))) by
        rw [hcat.ofPairs_zip hfind harity, heq, ← hcat.ofPairs_zip hfind harity']
        exact .rewrite hfind hbody hmapped hparams harity'
      rw [Ty.substitute, Ty.substitute, Ty.subst_subst]
      apply Ty.subst_congr
      intro x hx
      by_cases hkey : keys x = true
      · rw [hcat.chase_zip_of_marked hfind hkey, hcat.chase_zip_of_marked hfind hkey, Ty.subst,
          hσ x hkey]
      have hfree := mem_free_of_mem_params (hcat.fits _ d t hfind (.body hbody)) hx
        (Bool.eq_false_iff.2 hkey)
      obtain ⟨u, _, hlookup⟩ :=
        Bindings.exists_lookup_zip harity (hcat.scope _ d t hfind (.body hbody) hfree)
      have hlookup' : (d.params.zip (args.map (Ty.subst σ))).lookup x = some (u.subst σ) := by
        rw [Bindings.lookup_zip_map, hlookup, Option.map_some]
      rw [hargs d t hfind hbody hmapped x u hlookup, hargs' d t hfind hbody hmapped x _ hlookup']

end WellScoped

end Catalog

namespace Declaration

/-- A declaration that keeps to the parameters it has. -/
structure Keeps (cat : Catalog) (keys : TypeParam → Bool) (d : Declaration) : Prop where
  fits : ∀ t ∈ d.types, t.Every (cat.Fits keys)
  nodup : d.params.Nodup
  unmarked : ∀ x ∈ d.params, keys x = false
  scope : ∀ t ∈ d.types, t.free ⊆ d.params
  heritage : ∀ h ∈ d.heritage, ∀ t ∈ h.args, t.unmapped = true
  bodies : ∀ x c t xs, d.body = .alias (some (.mapped x c t xs)) → d.params ≠ [] → xs = d.params

end Declaration

namespace Catalog

variable {cat : Catalog} {keys : TypeParam → Bool}

theorem WellScoped.of_entries (hnamed : ∀ entry ∈ cat.entries, entry.2.id = entry.1)
    (hkeeps : ∀ entry ∈ cat.entries, entry.2.Keeps cat keys)
    (hapart : ∀ entry ∈ cat.entries, ∀ entry' ∈ cat.entries, ∀ x ∈ entry.2.params,
      x ∈ entry'.2.params → entry.1 = entry'.1) : cat.WellScoped keys := by
  have hfound : ∀ {i d}, cat.declared? i = some d → d.Keeps cat keys := fun hfind =>
    hkeeps _ (mem_entries_of_declared? hfind)
  constructor
  · exact fun i d hfind => hnamed _ (mem_entries_of_declared? hfind)
  · exact fun i d t hfind hlists => (hfound hfind).fits t hlists.mem_types
  · exact fun i d hfind => (hfound hfind).nodup
  · exact fun i d i' d' x hfind hfind' hx hx' =>
      hapart _ (mem_entries_of_declared? hfind) _ (mem_entries_of_declared? hfind') x hx hx'
  · exact fun i d x hfind => (hfound hfind).unmarked x
  · exact fun i d t hfind hlists => (hfound hfind).scope t hlists.mem_types
  · exact fun i d h t hfind hh ht => (hfound hfind).heritage h hh t ht
  · exact fun i d x c t xs hfind => (hfound hfind).bodies x c t xs

end Catalog

end TypeGuard
