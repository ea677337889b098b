import TypeGuard.Proofs.Coverage
import TypeGuard.Proofs.Literals

/-! Types among bindings. Each type that is met on a walk comes to a type of its own in the
bindings it is met in; the marked parameters stay, since a mapped type may bind them again. -/

namespace TypeGuard

namespace Catalog

variable {cat : Catalog} {keys : TypeParam → Bool} {env env' : Bindings}

/-- A type that means the same wherever it is put: nothing around it binds its parameters. -/
structure Portable (cat : Catalog) (keys : TypeParam → Bool) (t : Ty) : Prop where
  fits : t.Every (cat.Fits keys)
  unmapped : t.unmapped = true
  unmarked : ∀ x ∈ t.params, keys x = false
  steady : cat.Steady t

theorem WellScoped.portable_of_closed (hcat : cat.WellScoped keys) {t : Ty}
    (hfits : t.Every (cat.Fits keys)) (hunmapped : t.unmapped = true) (hclosed : t.params = []) :
    cat.Portable keys t := by
  have hparams : ∀ x, x ∉ t.params := fun x hx => by
    rw [hclosed] at hx
    cases hx
  exact ⟨hfits, hunmapped, fun x hx => absurd hx (hparams x),
    hcat.steady hfits fun x hx => absurd (Ty.free_subset_params hx) (hparams x)⟩

/-- Bindings of types that mean the same wherever they are put. -/
def Scoped (cat : Catalog) (keys : TypeParam → Bool) (env : Bindings) : Prop :=
  ∀ x t, env.lookup x = some t → cat.Portable keys t

/-- Nothing that comes up when the parameter is followed is bound again on the way. -/
def Sound (cat : Catalog) (keys : TypeParam → Bool) (env : Bindings) (x : TypeParam) : Prop :=
  ∀ y, env.Leads x y → keys y = false ∧ ∀ t, env.lookup y = some t → cat.Portable keys t

theorem Scoped.sound (h : cat.Scoped keys env) {x : TypeParam} (hx : keys x = false) :
    cat.Sound keys env x := by
  intro y hy
  refine ⟨?_, h y⟩
  cases hy with
  | refl => exact hx
  | tail _ hmentions =>
      obtain ⟨t, hbound, hmem⟩ := hmentions
      exact (h _ t hbound).unmarked y hmem

namespace Sound

variable {x : TypeParam}

theorem leads {y : TypeParam} (h : cat.Sound keys env x) (hy : env.Leads x y) :
    cat.Sound keys env y :=
  fun z hz => h z (hy.trans hz)

theorem portable {t : Ty} (h : cat.Sound keys env x) (hbound : env.lookup x = some t) :
    cat.Portable keys t :=
  (h x .refl).2 t hbound

theorem not_leads {y : TypeParam} (h : cat.Sound keys env x) (hy : keys y = true) :
    ¬env.Leads x y := by
  intro hleads
  rw [(h y hleads).1] at hy
  cases hy

theorem fits_chase (h : cat.Sound keys env x) :
    (Ty.chase env x).Every (cat.Fits keys) ∧ (Ty.chase env x).unmapped = true :=
  Catalog.fits_chase fun y t hy hbound =>
    ⟨((h y hy).2 t hbound).fits, ((h y hy).2 t hbound).unmapped⟩

theorem congr (h : cat.Sound keys env x)
    (hlookup : ∀ y, env.Leads x y → env'.lookup y = env.lookup y) : cat.Sound keys env' x := by
  have hleads : ∀ y, env'.Leads x y → env.Leads x y := by
    intro y hy
    induction hy with
    | refl => exact .refl
    | tail _ hmentions ih =>
        obtain ⟨t, hbound, hmem⟩ := hmentions
        exact ih.tail ⟨t, (hlookup _ ih).symm.trans hbound, hmem⟩
  intro y hy
  rw [hlookup y (hleads y hy)]
  exact h y (hleads y hy)

theorem cons {y : TypeParam} (h : cat.Sound keys env x) (hy : keys y = true) (t : Ty) :
    cat.Sound keys ((y, t) :: env) x := by
  refine h.congr fun z hz => ?_
  have hne : z ≠ y := by
    rintro rfl
    exact h.not_leads hy hz
  rw [List.lookup_cons, beq_eq_false_iff_ne.2 hne]

theorem append (h : cat.Sound keys env x) (hclosed : (Ty.chase env x).params = [])
    (outer : Bindings) : cat.Sound keys (env ++ outer) x := by
  refine h.congr fun y hy => ?_
  obtain ⟨t, hbound⟩ := Ty.exists_lookup_of_chase (Ty.params_chase_of_leads hclosed hy)
  rw [Bindings.lookup_append, hbound]
  rfl

end Sound

theorem WellScoped.unmarked_bindings (hcat : cat.WellScoped keys) {t : Ty} {bindings : Bindings}
    (ht : cat.Whole keys t) (h : cat.bindings t = .ok bindings) {x : TypeParam}
    (hx : keys x = true) : bindings.lookup x = none := by
  by_contra hbound
  obtain ⟨a, ha⟩ := Option.ne_none_iff_exists'.1 hbound
  obtain ⟨u, hu, hpair⟩ := mem_bindings h (Bindings.mem_of_lookup ha)
  have hfits : cat.Fits keys u := by
    rcases hu with rfl | ⟨heir, bases, hbases, hbase⟩
    · exact ht.fits.1
    · obtain ⟨_, _, _, _, _, _, _, hfits, _⟩ := hcat.fits_bases hbases hbase
      exact hfits.1
  rw [hcat.unmarked_of_mem_zip hfits hpair] at hx
  cases hx

theorem WellScoped.scoped_bindings (hcat : cat.WellScoped keys) {t : Ty} {bindings : Bindings}
    (ht : cat.Whole keys t) (h : cat.bindings t = .ok bindings) : cat.Scoped keys bindings := by
  intro y a hy
  obtain ⟨u, hu, hpair⟩ := mem_bindings h (Bindings.mem_of_lookup hy)
  have harg := (List.of_mem_zip hpair).2
  have hfits : u.Every (cat.Fits keys) := by
    rcases hu with rfl | ⟨heir, bases, hbases, hbase⟩
    · exact ht.fits
    · obtain ⟨_, _, _, _, _, _, _, hfits, _⟩ := hcat.fits_bases hbases hbase
      exact hfits
  have hplain : ∀ x ∈ a.params, keys x = false ∧ ¬cat.Rewrites x := by
    intro x hx
    have hfree := mem_free_of_mem_args hfits harg hx
    rcases hu with rfl | ⟨heir, bases, hbases, hbase⟩
    · rw [ht.closed] at hfree
      cases hfree
    · obtain ⟨_, decl, _, d, _, hfind, hkind, _, hscope⟩ := hcat.fits_bases hbases hbase
      exact ⟨hcat.unmarked decl d x hfind (hscope hfree),
        hcat.not_rewrites_of_kind? hfind hkind (hscope hfree)⟩
  exact ⟨fits_args hfits harg, unmapped_args hfits harg, fun x hx => (hplain x hx).1,
    hcat.steady (fits_args hfits harg) fun x hx => (hplain x (Ty.free_subset_params hx)).2⟩

/-- A type that a walk can meet among bindings: no parameter is left open, and names that come up
can be resolved before or after the parameters in them are replaced. -/
structure Sits (cat : Catalog) (keys : TypeParam → Bool) (env : Bindings) (t : Ty) : Prop where
  fits : t.Every (cat.Fits keys)
  steady : cat.Steady t
  sound : ∀ x ∈ t.params, keys x = false → cat.Sound keys env x
  closed : ∀ x ∈ t.params, keys x = false → (Ty.chase env x).params = []
  bound : ∀ x ∈ t.free, keys x = true → ∃ key : String, env.lookup x = some (.literal (.str key))
  sealed : cat.Sealed keys (t.settle keys env)

namespace Sits

variable {t u : Ty}

theorem part (h : cat.Sits keys env t) (hreveals : cat.Reveals t u) (hname : t.isName = false)
    (hfits : u.Every (cat.Fits keys)) (hparams : ∀ x ∈ u.params, x ∈ t.params)
    (hfree : ∀ x ∈ u.free, x ∈ t.free) : cat.Sits keys env u :=
  ⟨hfits, h.steady.reveal hreveals, fun x hx => h.sound x (hparams x hx),
    fun x hx => h.closed x (hparams x hx), fun x hx => h.bound x (hfree x hx),
    h.sealed.unfold (.reveal (hreveals.settle hname env))⟩

theorem literal (env : Bindings) (v : Value) : cat.Sits keys env (.literal v) :=
  ⟨⟨trivial, trivial⟩, steady_literal v, fun _ hx => absurd hx List.not_mem_nil,
    fun _ hx => absurd hx List.not_mem_nil, fun _ hx => absurd hx List.not_mem_nil,
    sealed_literal v⟩

theorem marked_of_mem_settle (h : cat.Sits keys env t) {x : TypeParam}
    (hx : x ∈ (t.settle keys env).params) : keys x = true ∧ x ∈ t.params := by
  obtain ⟨y, hy, hx⟩ := Ty.mem_params_subst.1 hx
  by_cases hkey : keys y = true
  · rw [if_pos hkey] at hx
    rw [List.mem_singleton.1 hx]
    exact ⟨hkey, hy⟩
  · rw [if_neg hkey, h.closed y hy (Bool.eq_false_iff.2 hkey)] at hx
    cases hx

theorem bound_of_mem_settle (h : cat.Sits keys env t) {x : TypeParam}
    (hx : x ∈ (t.settle keys env).free) :
    keys x = true ∧ ∃ key : String, env.lookup x = some (.literal (.str key)) := by
  have hkey := (h.marked_of_mem_settle (Ty.free_subset_params hx)).1
  obtain ⟨y, hy, hxy⟩ := mem_free_subst h.fits (fun y hy => if_pos hy) hx
  by_cases hykey : keys y = true
  · rw [if_pos hykey] at hxy
    rw [List.mem_singleton.1 hxy] at hkey ⊢
    exact ⟨hkey, h.bound y hy hkey⟩
  · rw [if_neg hykey] at hxy
    have hmem := Ty.free_subset_params hxy
    rw [h.closed y (Ty.free_subset_params hy) (Bool.eq_false_iff.2 hykey)] at hmem
    cases hmem

theorem param {x : TypeParam} (h : cat.Sits keys env (.param x)) (hx : keys x = false)
    (hbound : env.lookup x = some u) :
    cat.Sits keys env u ∧ u.settle keys env = (Ty.param x).settle keys env := by
  have hsound := h.sound x (List.mem_singleton.2 rfl) hx
  have hclosed := h.closed x (List.mem_singleton.2 rfl) hx
  have hportable := hsound.portable hbound
  have hleads : ∀ y ∈ u.params, env.Leads x y := fun y hy => .single ⟨u, hbound, hy⟩
  have hunfold : Ty.chase env x = u.subst (Ty.chase env) := by
    refine Ty.chase_unfold hbound fun hmem => ?_
    rw [hclosed] at hmem
    cases hmem
  have hsettle : u.settle keys env = (Ty.param x).settle keys env := by
    rw [Ty.settle_param hx, hunfold]
    apply Ty.subst_congr
    intro y hy
    rw [if_neg (Bool.eq_false_iff.1 (hportable.unmarked y hy))]
  refine ⟨⟨hportable.fits, hportable.steady, fun y hy _ => hsound.leads (hleads y hy),
    fun y hy _ => Ty.params_chase_of_leads hclosed (hleads y hy), fun y hy hkey => ?_,
    hsettle ▸ h.sealed⟩, hsettle⟩
  rw [hportable.unmarked y (Ty.free_subset_params hy)] at hkey
  cases hkey

theorem name (hcat : cat.WellScoped keys) {s : String} {args : List Ty}
    (h : cat.Sits keys env (.name s args)) (hresolve : cat.resolve (.name s args) = .ok t) :
    cat.Sits keys env t ∧
      cat.resolve (.name s (args.map (Ty.settle keys env))) = .ok (t.settle keys env) := by
  have hfits : ∀ u ∈ args, u.Every (cat.Fits keys) := Ty.insideList_iff.1 h.fits.2
  have hparams : ∀ u ∈ args, ∀ x ∈ u.params, x ∈ (Ty.name s args).params := by
    intro u hu x hx
    simp only [Ty.params, Ty.paramsList_eq, List.mem_flatMap]
    exact ⟨u, hu, hx⟩
  have hfree : ∀ u ∈ args, ∀ x ∈ u.free, x ∈ (Ty.name s args).free := by
    intro u hu x hx
    simp only [Ty.free, Ty.freeList_eq, List.mem_flatMap]
    exact ⟨u, hu, hx⟩
  have htfits : t.Every (cat.Fits keys) := hcat.fits_resolve hfits h.fits.1 hresolve
  have hold : ∀ x ∈ t.params, keys x = false → x ∈ (Ty.name s args).params := by
    intro x hx hkey
    obtain ⟨u, hu, hxu⟩ :=
      hcat.mem_free_resolve h.fits.1 hresolve (mem_free_of_mem_params htfits hx hkey)
    exact hparams u hu x (Ty.free_subset_params hxu)
  have hsettled : cat.resolve (.name s (args.map (Ty.settle keys env))) =
      .ok (t.settle keys env) := by
    refine hcat.resolve_subst (fun x hx => if_pos hx) h.steady.straight
      (straight_of_apart fun d _ hfind _ _ u hu x hx hmem => ?_) hresolve
    have hsettled : x ∈ ((Ty.name s args).settle keys env).params := by
      rw [Ty.settle_name, Ty.params, Ty.paramsList_eq]
      exact List.mem_flatMap.2 ⟨u, hu, hx⟩
    have hkey := (h.marked_of_mem_settle hsettled).1
    rw [hcat.unmarked _ d x hfind hmem] at hkey
    cases hkey
  have hsealed := h.sealed
  rw [Ty.settle_name] at hsealed
  refine ⟨⟨htfits, h.steady.reveal (.name hresolve), fun x hx hkey =>
    h.sound x (hold x hx hkey) hkey,
    fun x hx hkey => h.closed x (hold x hx hkey) hkey, fun x hx => ?_,
    hsealed.unfold (.reveal (.name hsettled))⟩, hsettled⟩
  obtain ⟨u, hu, hxu⟩ := hcat.mem_free_resolve h.fits.1 hresolve hx
  exact h.bound x (hfree u hu x hxu)

theorem params_substitute (h : cat.Sits keys env t) (hopen : ∀ x ∈ t.params, x ∈ t.free) :
    (t.substitute env).params = [] := by
  refine List.eq_nil_iff_forall_not_mem.2 fun x hx => ?_
  obtain ⟨y, hy, hx⟩ := Ty.mem_params_subst.1 hx
  by_cases hkey : keys y = true
  · obtain ⟨key, hbound⟩ := h.bound y (hopen y hy) hkey
    rw [Ty.chase_of_lookup hbound fun z hz => absurd hz List.not_mem_nil] at hx
    cases hx
  · rw [h.closed y hy (Bool.eq_false_iff.2 hkey)] at hx
    cases hx

theorem substitute_eq (h : cat.Sits keys env t) :
    t.substitute env = (t.settle keys env).subst (Ty.chase env) := by
  rw [Ty.settle, Ty.subst_subst]
  apply Ty.subst_congr
  intro x hx
  by_cases hkey : keys x = true
  · rw [if_pos hkey, Ty.subst]
  · rw [if_neg hkey]
    refine (Ty.subst_eq_self fun y hy => ?_).symm
    rw [h.closed x hx (Bool.eq_false_iff.2 hkey)] at hy
    cases hy

/-- What a type comes to in the end has keys put in for its marked parameters. -/
theorem exists_fill (h : cat.Sits keys env t) (hopen : ∀ x ∈ t.params, x ∈ t.free) :
    ∃ f, t.substitute env = (t.settle keys env).fill keys f := by
  have hkey : ∀ x, ∃ key : String, x ∈ (t.settle keys env).params →
      env.lookup x = some (.literal (.str key)) := by
    intro x
    by_cases hx : x ∈ (t.settle keys env).params
    · obtain ⟨hmark, hmem⟩ := h.marked_of_mem_settle hx
      obtain ⟨key, hbound⟩ := h.bound x (hopen x hmem) hmark
      exact ⟨key, fun _ => hbound⟩
    · exact ⟨"", fun hmem => absurd hmem hx⟩
  choose f hf using hkey
  refine ⟨f, h.substitute_eq.trans (Ty.subst_congr fun x hx => ?_)⟩
  rw [if_pos (h.marked_of_mem_settle hx).1]
  exact Ty.chase_of_lookup (hf x hx) fun y hy => absurd hy List.not_mem_nil

theorem whole_substitute (h : cat.Sits keys env t) (hopen : ∀ x ∈ t.params, x ∈ t.free) :
    cat.Whole keys (t.substitute env) := by
  refine ⟨fits_subst h.fits fun x hx => ?_, ?_, ?_⟩
  · by_cases hkey : keys x = true
    · obtain ⟨key, hbound⟩ := h.bound x (hopen x hx) hkey
      rw [Ty.chase_of_lookup hbound fun z hz => absurd hz List.not_mem_nil]
      exact ⟨⟨trivial, trivial⟩, rfl⟩
    · exact (h.sound x hx (Bool.eq_false_iff.2 hkey)).fits_chase
  · refine List.eq_nil_iff_forall_not_mem.2 fun x hx => ?_
    have hmem := Ty.free_subset_params hx
    rw [h.params_substitute hopen] at hmem
    cases hmem
  · obtain ⟨f, hf⟩ := h.exists_fill hopen
    rw [hf]
    exact h.sealed.unfold (.fill f _)

theorem unmapped_settle (h : cat.Sits keys env t) (hu : u.unmapped = true)
    (hparams : ∀ x ∈ u.params, x ∈ t.params) : (u.settle keys env).unmapped = true := by
  refine Ty.unmapped_subst hu fun x hx => ?_
  split
  · rfl
  · next hkey => exact (h.sound x (hparams x hx) (Bool.eq_false_iff.2 hkey)).fits_chase.2

theorem fits_settle (h : cat.Sits keys env t) : (t.settle keys env).Every (cat.Fits keys) := by
  refine fits_subst h.fits fun x hx => ?_
  split
  · exact ⟨⟨trivial, trivial⟩, rfl⟩
  · next hkey => exact (h.sound x hx (Bool.eq_false_iff.2 hkey)).fits_chase

end Sits

namespace Whole

variable {t : Ty}

theorem marked (h : cat.Whole keys t) {x : TypeParam} (hx : x ∈ t.params) : keys x = true := by
  by_contra hkey
  have hfree := mem_free_of_mem_params h.fits hx (Bool.eq_false_iff.2 hkey)
  rw [h.closed] at hfree
  cases hfree

theorem settle (h : cat.Whole keys t) (env : Bindings) : t.settle keys env = t :=
  Ty.subst_eq_self fun _ hx => if_pos (h.marked hx)

theorem sits (hcat : cat.WellScoped keys) (h : cat.Whole keys t) (env : Bindings) :
    cat.Sits keys env t := by
  have hunmarked : ∀ x ∈ t.params, keys x ≠ false := by
    intro x hx hkey
    rw [h.marked hx] at hkey
    cases hkey
  have hfree : ∀ x, x ∉ t.free := fun x hx => by
    rw [h.closed] at hx
    cases hx
  exact ⟨h.fits, hcat.steady h.fits fun x hx => absurd hx (hfree x),
    fun x hx hkey => absurd hkey (hunmarked x hx), fun x hx hkey => absurd hkey (hunmarked x hx),
    fun x hx => absurd hx (hfree x), (h.settle env).symm ▸ h.sealed⟩

end Whole

/-- A type whose open parameters all stand for something whole. -/
structure Grounded (cat : Catalog) (keys : TypeParam → Bool) (bindings : Bindings) (t : Ty) :
    Prop where
  fits : t.Every (cat.Fits keys)
  steady : cat.Steady t
  unmarked : ∀ x ∈ t.free, keys x = false
  closed : ∀ x ∈ t.free, (Ty.chase bindings x).params = []
  sealed : cat.Sealed keys (t.settle keys bindings)

namespace Grounded

variable {bindings : Bindings} {t : Ty}

theorem mem_free (h : cat.Grounded keys bindings t) {x : TypeParam} (hx : x ∈ t.params)
    (hkey : keys x = false) : x ∈ t.free :=
  mem_free_of_mem_params h.fits hx hkey

theorem chase_append (h : cat.Grounded keys bindings t) (env : Bindings) {x : TypeParam}
    (hx : x ∈ t.params) (hkey : keys x = false) :
    Ty.chase (bindings ++ env) x = Ty.chase bindings x := by
  refine Ty.chase_append env fun y hy => ?_
  rw [h.closed x (h.mem_free hx hkey)] at hy
  cases hy

theorem settle_append (h : cat.Grounded keys bindings t) (env : Bindings) :
    t.settle keys (bindings ++ env) = t.settle keys bindings :=
  Ty.settle_congr fun _ hx hkey => h.chase_append env hx hkey

/-- A type sits inside the bindings that ground it, whatever is around them. -/
theorem sits (h : cat.Grounded keys bindings t) (hbindings : cat.Scoped keys bindings)
    (env : Bindings) : cat.Sits keys (bindings ++ env) t := by
  refine ⟨h.fits, h.steady, fun x hx hkey => ?_, fun x hx hkey => ?_, fun x hx hkey => ?_,
    (h.settle_append env).symm ▸ h.sealed⟩
  · exact (hbindings.sound hkey).append (h.closed x (h.mem_free hx hkey)) env
  · rw [h.chase_append env hx hkey]
    exact h.closed x (h.mem_free hx hkey)
  · rw [h.unmarked x hx] at hkey
    cases hkey

theorem free_settle (h : cat.Grounded keys bindings t) : (t.settle keys bindings).free = [] := by
  refine List.eq_nil_iff_forall_not_mem.2 fun x hx => ?_
  obtain ⟨y, hy, hx⟩ := mem_free_subst h.fits (fun y hy => if_pos hy) hx
  rw [if_neg (Bool.eq_false_iff.1 (h.unmarked y hy))] at hx
  have hmem := Ty.free_subset_params hx
  rw [h.closed y hy] at hmem
  cases hmem

end Grounded

namespace WellScoped

theorem unmarked_ownBindings (hcat : cat.WellScoped keys) {t : Ty} (ht : cat.Fits keys t)
    {x : TypeParam} (hx : keys x = true) : (cat.ownBindings t).lookup x = none := by
  by_contra hbound
  obtain ⟨a, ha⟩ := Option.ne_none_iff_exists'.1 hbound
  have hpair := Bindings.mem_of_mem_ofPairs (Bindings.mem_of_lookup ha)
  rw [hcat.unmarked_of_mem_zip ht hpair] at hx
  cases hx

theorem grounded_member (hcat : cat.WellScoped keys) {t u : Ty} (ht : cat.Whole keys t)
    {kind : ObjectKind} {decl : DeclId} {elements : List Ty}
    (hhead : t.head = .object kind decl elements) {d : Declaration}
    (hfind : cat.declared? decl = some d) {p : Property} (hp : p ∈ d.members)
    (htype : p.type? = some u) : cat.Grounded keys (cat.ownBindings t) u := by
  have hscope := hcat.scope decl d u hfind (.member hp htype)
  have hfits := hcat.fits decl d u hfind (.member hp htype)
  refine ⟨hfits, hcat.steady hfits fun x hx => ?_, fun x hx => ?_, fun x hx => ?_,
    ht.sealed.unfold (.member hhead hfind hp htype)⟩
  · exact hcat.not_rewrites_of_kind? hfind (Declaration.kind?_of_mem_members hp) (hscope hx)
  · exact hcat.unmarked decl d x hfind (hscope hx)
  · refine hcat.params_chase_ownBindings ht hhead ?_
    rw [hhead, paramsOf, hfind]
    exact hscope hx

/-- What is above a type is inherited with arguments that the bindings of the type agree with. -/
theorem exists_inherits (hcat : cat.WellScoped keys) {t u : Ty} {bindings : Bindings}
    (ht : cat.Whole keys t) (hleaks : ¬cat.Leaks t) (hbindings : cat.bindings t = .ok bindings)
    (habove : cat.Above t u) {kind : ObjectKind} {decl : DeclId} {elements : List Ty}
    (hu : u.head = .object kind decl elements) {d : Declaration}
    (hfind : cat.declared? decl = some d) :
    ∃ w kind' elements', cat.Inherits t w ∧ w.head = .object kind' decl elements' ∧
      ∀ p ∈ d.members, ∀ m, p.type? = some m → ∀ x ∈ m.params,
        Ty.chase bindings x = Ty.chase (cat.ownBindings w) x := by
  obtain ⟨w, kind', elements', hw, hwhead, hchase⟩ :=
    hcat.covers_above ht hleaks hbindings habove hu
  refine ⟨w, kind', elements', hw, hwhead, fun p hp m htype x hx => ?_⟩
  have hwhole := hcat.whole_inherits ht hw
  by_cases hmark : keys x = true
  · rw [Ty.chase_of_none (hcat.unmarked_bindings ht hbindings hmark),
      Ty.chase_of_none (hcat.unmarked_ownBindings hwhole.fits.1 hmark)]
  · have hlists : d.Lists m := .member hp htype
    apply hchase
    rw [hwhead, paramsOf, hfind]
    exact hcat.scope _ d m hfind hlists (mem_free_of_mem_params (hcat.fits _ d m hfind hlists) hx
      (Bool.eq_false_iff.2 hmark))

theorem grounded_property (hcat : cat.WellScoped keys) {t u : Ty} {bindings : Bindings}
    {properties : List Property} {p : Property} (ht : cat.Whole keys t) (hleaks : ¬cat.Leaks t)
    (hname : t.isName = false) (hbindings : cat.bindings t = .ok bindings)
    (hproperties : cat.properties t = .ok properties) (hp : p ∈ properties)
    (htype : p.type? = some u) : cat.Grounded keys bindings u := by
  obtain ⟨t', w, head, ht', habove, hw, hmem⟩ := mem_properties hproperties hp
  cases (followNames_of_isName hname _ _).symm.trans ht'
  obtain ⟨elements, hwhead, _⟩ := exists_head_of_objectHead? hw
  obtain ⟨d, hfind, hmember⟩ := mem_membersOf hmem
  obtain ⟨w', _, _, hw', hhead', hchase⟩ :=
    hcat.exists_inherits ht hleaks hbindings habove hwhead hfind
  have hground := hcat.grounded_member (hcat.whole_inherits ht hw') hhead' hfind hmember htype
  refine ⟨hground.fits, hground.steady, hground.unmarked, fun x hx => ?_, ?_⟩
  · rw [hchase p hmember u htype x (Ty.free_subset_params hx)]
    exact hground.closed x hx
  · rw [Ty.settle_congr fun x hx _ => hchase p hmember u htype x hx]
    exact hground.sealed

theorem grounded_target (hcat : cat.WellScoped keys) {target : Ty} {args : List Ty}
    {bindings : Bindings} (ht : cat.Whole keys (.ref target args))
    (hmapped : target.isMapped = true)
    (h : cat.bindings (.ref target args) = .ok bindings) : cat.Grounded keys bindings target := by
  have hsealed := ht.sealed.unfold (.target args hmapped)
  obtain ⟨x, c, u, xs, rfl⟩ := Ty.eq_mapped_of_isMapped hmapped
  cases (bindings_of_not_interface fun _ _ hhead => by cases hhead).symm.trans h
  obtain ⟨hmark, _, hparams, hc, hu⟩ := ht.fits.1.2.2
  have hfree : ∀ y ∈ (Ty.mapped x c u xs).free, y ∈ xs := by
    intro y hy
    rcases List.mem_append.1 hy with hy | hy
    · exact hc hy
    · obtain ⟨hy, hne⟩ := List.mem_filter.1 hy
      exact (List.mem_cons.1 (hu hy)).resolve_left (of_decide_eq_true hne)
  have hfits : (Ty.mapped x c u xs).Every (cat.Fits keys) := ⟨hmark, ht.fits.2.1⟩
  refine ⟨hfits, hcat.steady hfits fun y hy => (hparams y (hfree y hy)).2.2,
    fun y hy => (hparams y (hfree y hy)).1, fun y hy => ?_, hsealed⟩
  rw [hcat.ownBindings_eq ht.fits.1]
  obtain ⟨a, ha, hlookup⟩ := Bindings.exists_lookup_zip ht.fits.1.2.1 (hfree y hy)
  have hclosed : a.params = [] := ht.params_args ha
  have hchase := Ty.chase_of_lookup hlookup fun z hz => by
    rw [hclosed] at hz
    cases hz
  exact (congrArg Ty.params hchase).trans hclosed

end WellScoped

theorem Sits.exposes_leaking (hcat : cat.WellScoped keys) {t o : Ty} (h : cat.Sits keys env t)
    (hexposes : Exposes cat env t o) (hleaks : cat.Leaks o) :
    ∃ o', Exposes cat [] (t.settle keys env) o' ∧ cat.Leaks o' := by
  induction hexposes with
  | @here t hdirect =>
      refine ⟨(t.settle keys env).substitute [], .here ?_, ?_⟩
      · cases t with
        | param x | name s args => cases hdirect
        | _ => rfl
      · rw [Ty.substitute_nil]
        exact hleaks.of_subst hdirect
  | @follow t t' o hfollow _ ih =>
      cases hfollow with
      | name hresolve =>
          obtain ⟨ht', hsettled⟩ := h.name hcat hresolve
          obtain ⟨o', ho', hleaks'⟩ := ih ht' hleaks
          rw [Ty.settle_name]
          exact ⟨o', .follow (.name hsettled) ho', hleaks'⟩
      | @param x _ hbound =>
          by_cases hx : keys x = true
          · -- A marked parameter stands for a key, which is no object.
            obtain ⟨key, hkey⟩ := h.bound x (List.mem_singleton.2 rfl) hx
            cases hbound.symm.trans hkey
            obtain ⟨o', ho', hleaks'⟩ := ih (.literal env _) hleaks
            cases ho' with
            | here =>
                obtain ⟨_, _, _, _, hhead, _⟩ := hleaks'
                cases hhead
            | follow hfollow => cases hfollow
          · obtain ⟨ht', hsettle⟩ := h.param (Bool.eq_false_iff.2 hx) hbound
            rw [← hsettle]
            exact ih ht' hleaks

end Catalog

end TypeGuard
