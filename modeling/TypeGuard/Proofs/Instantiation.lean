import TypeGuard.Proofs.Transfer
import TypeGuard.Proofs.WalkSubject

/-! Looking parameters up on a walk comes to the same as replacing them beforehand, and where there
are none to be looked up, nothing depends on the frames. -/

namespace TypeGuard

open Filter

namespace Walk

variable {α : Type} {w : Nat → Walk α} {s : Session} {a b : α}

/-- The walk returns a result, given a limit that is high enough. -/
def Returns (w : Nat → Walk α) (s : Session) (a : α) : Prop :=
  ∃ limit s', w limit s = .ok a s'

/-- The result of a walk that ends. -/
def result? (w : Walk α) (s : Session) : Option α :=
  match w s with
  | .ok a _ => some a
  | .error _ _ => none

theorem Returns.of_result? (limit : Nat) (h : result? (w limit) s = some a) : Returns w s a := by
  unfold result? at h
  split at h
  · next b s' hrun =>
      cases h
      exact ⟨limit, s', hrun⟩
  · cases h

theorem Meets.run {w : Walk α} {env : Bindings} {path : List Ty} {p : Progress}
    {Q : α → Progress → Prop} (h : Meets False w env path p Q) (hat : s.At env path p) :
    ∃ a s' p', w s = .ok a s' ∧ Q a p' := by
  have hs := h s hat
  cases hrun : w s with
  | ok a s' =>
      rw [hrun] at hs
      obtain ⟨_, p', _, hQ⟩ := hs
      exact ⟨a, s', p', rfl, hQ⟩
  | error fault s' =>
      rw [hrun] at hs
      exact hs.elim

theorem Returns.unique
    (hstable : ∀ a, Returns w s a → ∀ᶠ limit in atTop, ∃ s', w limit s = .ok a s')
    (ha : Returns w s a) (hb : Returns w s b) : a = b := by
  obtain ⟨limit, ⟨s', hs'⟩, s'', hs''⟩ := ((hstable a ha).and (hstable b hb)).exists
  rw [hs'] at hs''
  exact (EStateM.Result.ok.inj hs'').1

end Walk

variable {cat : Catalog} {env : Bindings} {path : List Ty} {p : Progress} {s : Session} {t : Ty}

namespace Guard

variable {accessor e : Expr}

theorem eventually_ofType {p' : Progress} (hat : s.At env path p)
    (h : Compiles cat path [⟨false, env, t, accessor⟩] p [e] p') :
    ∀ᶠ limit in atTop, ∃ s', ofType cat limit t accessor s = .ok e s' := by
  refine (ofType_complete h (List.forall_mem_singleton.2 rfl)).mono fun limit hlimit => ?_
  obtain ⟨e', s', _, hrun, rfl, _⟩ := (runs_singleton.1 hlimit).run hat
  exact ⟨s', hrun⟩

theorem returns_iff (hat : s.At env path p) :
    Walk.Returns (ofType cat · t accessor) s e ↔
      ∃ p', Compiles cat path [⟨false, env, t, accessor⟩] p [e] p' := by
  constructor
  · rintro ⟨limit, s', hrun⟩
    exact (ofType_sound cat limit env path t accessor p).of_ok hat hrun
  · rintro ⟨p', h⟩
    exact (eventually_ofType hat h).exists

theorem returns_unique {e' : Expr} (hat : s.At env path p)
    (he : Walk.Returns (ofType cat · t accessor) s e)
    (he' : Walk.Returns (ofType cat · t accessor) s e') : e = e' :=
  Walk.Returns.unique (fun _ h => eventually_ofType hat ((returns_iff hat).1 h).choose_spec) he he'

end Guard

namespace Shape

variable {shape : Shape}

theorem eventually_ofType (hat : s.At env path p) (h : Classifies cat .strings env path t shape) :
    ∀ᶠ limit in atTop, ∃ s', ofType cat limit t s = .ok shape s' := by
  refine (Query.walk_complete h).mono fun limit hlimit => ?_
  obtain ⟨shape', s', _, hrun, _, rfl⟩ := (hlimit p).run hat
  exact ⟨s', hrun⟩

theorem returns_iff (hat : s.At env path p) :
    Walk.Returns (ofType cat · t) s shape ↔ Classifies cat .strings env path t shape := by
  constructor
  · rintro ⟨limit, s', hrun⟩
    obtain ⟨_, _, h⟩ := (Query.walk_sound limit .strings env path p t).of_ok hat hrun
    exact h
  · intro h
    exact (eventually_ofType hat h).exists

theorem returns_unique {shape' : Shape} (hat : s.At env path p)
    (h : Walk.Returns (ofType cat · t) s shape) (h' : Walk.Returns (ofType cat · t) s shape') :
    shape = shape' :=
  Walk.Returns.unique (fun _ h => eventually_ofType hat ((returns_iff hat).1 h)) h h'

end Shape

theorem Session.at_frames {ctx : Context} (hsound : ctx.Sound) (hpath : ctx.path = [])
    (hmarked : ctx.marked = []) (numbering : Numbering) :
    Session.At { ctx := ctx, numbering := numbering } ctx.bindings [] ⟨numbering, []⟩ := by
  refine ⟨nofun, rfl, hpath, ?_, hsound⟩
  rw [Session.progress, hmarked]

namespace Catalog

variable {keys : TypeParam → Bool} {env' : Bindings} {s' : Session} {t' : Ty}

/-- Bindings that come to closed types and leave the marked parameters alone. -/
structure Framed (cat : Catalog) (keys : TypeParam → Bool) (env : Bindings) : Prop where
  fits : ∀ x t, env.lookup x = some t → t.Every (cat.Fits keys)
  unmapped : ∀ x t, env.lookup x = some t → t.unmapped = true
  plain : ∀ x t, env.lookup x = some t → ∀ y ∈ t.params, ¬cat.Rewrites y
  unmarked : ∀ x, keys x = true → env.lookup x = none
  closed : ∀ x t, env.lookup x = some t → (Ty.chase env x).params = []

theorem Framed.of_closed (h : ∀ x t, env.lookup x = some t →
    t.Every (cat.Fits keys) ∧ t.unmapped = true ∧ t.params = [] ∧ keys x = false) :
    cat.Framed keys env := by
  refine ⟨fun x t hx => (h x t hx).1, fun x t hx => (h x t hx).2.1, fun x t hx y hy => ?_,
    fun x hkey => ?_, fun x t hx => ?_⟩
  · rw [(h x t hx).2.2.1] at hy
    cases hy
  · by_contra hbound
    obtain ⟨t, hx⟩ := Option.ne_none_iff_exists'.1 hbound
    rw [(h x t hx).2.2.2] at hkey
    cases hkey
  · have hclosed := (h x t hx).2.2.1
    rw [Ty.chase_of_lookup hx, hclosed]
    rw [hclosed]
    exact fun y hy => absurd hy List.not_mem_nil

theorem Framed.scoped (hcat : cat.WellScoped keys) (h : cat.Framed keys env) :
    cat.Scoped keys env := by
  intro x t hx
  refine ⟨h.fits x t hx, h.unmapped x t hx, fun y hy => ?_,
    hcat.steady (h.fits x t hx) fun y hy => h.plain x t hx y (Ty.free_subset_params hy)⟩
  by_contra hkey
  have hclosed := Ty.params_chase_of_leads (h.closed x t hx) (.single ⟨t, hx, hy⟩)
  obtain ⟨u, hu⟩ := Ty.exists_lookup_of_chase hclosed
  rw [h.unmarked y (Bool.eq_true_of_not_eq_false hkey)] at hu
  cases hu

theorem Framed.alike (hcat : cat.WellScoped keys) {g : Value → Value} (h : cat.Framed keys env)
    (ht : t.Every (cat.Fits keys)) (hplain : ∀ x ∈ t.params, ¬cat.Rewrites x)
    (hbound : ∀ x ∈ t.free, env.lookup x ≠ none) (hsealed : cat.Sealed keys (t.substitute env)) :
    cat.Alike keys g env t [] (t.substitute env) := by
  have hgrounded : cat.Grounded keys env t := by
    refine ⟨ht, hcat.steady ht fun x hx => hplain x (Ty.free_subset_params hx), fun x hx => ?_,
      fun x hx => ?_, ?_⟩
    · by_contra hkey
      exact hbound x hx (h.unmarked x (Bool.eq_true_of_not_eq_false hkey))
    · obtain ⟨u, hu⟩ := Option.ne_none_iff_exists'.1 (hbound x hx)
      exact h.closed x u hu
    · rwa [Ty.settle_eq_substitute fun x _ => h.unmarked x]
  have halike : cat.Alike keys g (env ++ []) t [] (t.substitute env) :=
    .substitute hcat (h.scoped hcat) h.unmarked hgrounded
  rwa [List.append_nil] at halike

theorem Alike.guard_iff (hcat : cat.WellScoped keys) (h : cat.Alike keys id env t env' t')
    (hat : s.At env [] p) (hat' : s'.At env' [] p) (accessor e : Expr) :
    Walk.Returns (Guard.ofType cat · t accessor) s e ↔
      Walk.Returns (Guard.ofType cat · t' accessor) s' e := by
  have hnil : cat.Treads [] := fun r hr => absurd hr List.not_mem_nil
  rw [Guard.returns_iff hat, Guard.returns_iff hat']
  refine exists_congr fun p' => ⟨fun hguard => ?_, fun hguard => ?_⟩
  · exact hguard.transfer hcat (.cons ⟨rfl, rfl, rfl, h⟩ .nil) hnil
  · exact hguard.transfer hcat (.cons ⟨rfl, rfl, rfl, h.symm⟩ .nil) hnil

theorem Alike.shape_iff (hcat : cat.WellScoped keys)
    (h : cat.Alike keys Value.literalKey env t env' t') (hat : s.At env [] p)
    (hat' : s'.At env' [] p) (shape : Shape) :
    Walk.Returns (Shape.ofType cat · t) s shape ↔
      Walk.Returns (Shape.ofType cat · t') s' shape := by
  have hnil : cat.Treads [] := fun r hr => absurd hr List.not_mem_nil
  rw [Shape.returns_iff hat, Shape.returns_iff hat']
  exact ⟨fun hshape => hshape.transfer hcat h hnil hnil,
    fun hshape => hshape.transfer hcat h.symm hnil hnil⟩

/-- Looking parameters up while a type is visited equals replacing them beforehand: guards and
shapes are found together, and are the same. -/
theorem WellScoped.lookup_or_instantiate (hcat : cat.WellScoped keys) {ctx : Context}
    (hsound : ctx.Sound) (hpath : ctx.path = []) (hmarked : ctx.marked = [])
    (hframes : cat.Framed keys ctx.bindings) {t : Ty} (ht : t.Every (cat.Fits keys))
    (hplain : ∀ x ∈ t.params, ¬cat.Rewrites x) (hbound : ∀ x ∈ t.free, ctx.resolve x ≠ none)
    (hsealed : cat.Sealed keys (ctx.instantiate t)) (accessor : Expr) (numbering : Numbering) :
    let inside : Session := { ctx := ctx, numbering := numbering }
    let fresh : Session := { numbering := numbering }
    ((∃ e, Walk.Returns (Guard.ofType cat · t accessor) inside e) ↔
      ∃ e, Walk.Returns (Guard.ofType cat · (ctx.instantiate t) accessor) fresh e) ∧
    (∀ e e', Walk.Returns (Guard.ofType cat · t accessor) inside e →
      Walk.Returns (Guard.ofType cat · (ctx.instantiate t) accessor) fresh e' → e = e') ∧
    ((∃ shape, Walk.Returns (Shape.ofType cat · t) inside shape) ↔
      ∃ shape, Walk.Returns (Shape.ofType cat · (ctx.instantiate t)) fresh shape) ∧
    ∀ shape shape', Walk.Returns (Shape.ofType cat · t) inside shape →
      Walk.Returns (Shape.ofType cat · (ctx.instantiate t)) fresh shape' → shape = shape' := by
  intro inside fresh
  have hinside : inside.At ctx.bindings [] ⟨numbering, []⟩ :=
    Session.at_frames hsound hpath hmarked numbering
  have hfresh : fresh.At [] [] ⟨numbering, []⟩ := Session.at_start numbering
  have hguards := Alike.guard_iff hcat (hframes.alike hcat ht hplain hbound hsealed) hinside hfresh
    accessor
  have hshapes := Alike.shape_iff hcat (hframes.alike hcat ht hplain hbound hsealed) hinside hfresh
  refine ⟨exists_congr hguards, fun e e' he he' => ?_, exists_congr hshapes,
    fun shape shape' h h' => ?_⟩
  · exact Guard.returns_unique hfresh ((hguards e).1 he) he'
  · exact Shape.returns_unique hfresh ((hshapes shape).1 h) h'

/-- An interface of one property, whose type is a parameter. -/
def boxes : Catalog :=
  { entries := [(.listed "Box", {
    name := "Box"
    params := [⟨"T", 0⟩]
    body := .interface [] [⟨.str "value", some (.param ⟨"T", 0⟩), false, none, .listed "Box"⟩] })] }

theorem wellScoped_boxes (hkeys : keys ⟨"T", 0⟩ = false) : boxes.WellScoped keys := by
  refine WellScoped.of_entries ?_ ?_ ?_
  all_goals simp only [boxes, List.forall_mem_singleton]
  · rfl
  · constructor
    all_goals simp [Declaration.types, Declaration.heritage, Declaration.members,
      Ty.Every, Ty.Inside, Fits, Ty.free, hkeys]
  · simp

theorem sealed_boxes (t : Ty) : boxes.Sealed keys t := by
  refine sealed_of_no_class ?_ t
  simp only [boxes, List.forall_mem_singleton]
  simp [Declaration.kind?]

theorem WellScoped.lookup_or_instantiate_box :
    let ctx :
      Context := { frames := [⟨0, [(⟨"U", 1⟩, .primitive "string")]⟩], depth := 1, nextStamp := 1 }
    let t : Ty := .name "Box" [.param ⟨"U", 1⟩]
    ∃ e, Walk.Returns (Guard.ofType boxes · t (.named "x")) { ctx := ctx } e ∧
      Walk.Returns (Guard.ofType boxes · (ctx.instantiate t) (.named "x")) {} e := by
  intro ctx t
  have hframes : boxes.Framed (fun _ => false) ctx.bindings := by
    refine .of_closed fun x u hu => ?_
    have hmem := Bindings.mem_of_lookup hu
    cases List.mem_singleton.1 hmem
    exact ⟨⟨trivial, trivial⟩, rfl, rfl, rfl⟩
  have hparam : ∀ x ∈ t.params, ¬boxes.Rewrites x ∧ ctx.resolve x ≠ none := by
    intro x hx
    cases List.mem_singleton.1 hx
    refine ⟨?_, Option.some_ne_none _⟩
    rintro ⟨_, d, u, hfind, hbody, _⟩
    cases List.mem_singleton.1 (mem_entries_of_declared? hfind)
    cases hbody
  have hsound : ctx.Sound := ⟨rfl, rfl, List.nodup_nil⟩
  obtain ⟨hiff, heq, _⟩ := WellScoped.lookup_or_instantiate (wellScoped_boxes rfl) hsound rfl rfl
    hframes (t := t) ⟨fun u hu => by cases List.mem_singleton.1 hu; rfl,
      ⟨trivial, trivial⟩, trivial⟩
    (fun x hx => (hparam x hx).1) (fun x hx => (hparam x hx).2) (sealed_boxes _) (.named "x") {}
  have hinside : Walk.Returns (Guard.ofType boxes · t (.named "x")) { ctx := ctx }
      (Guard.whole (.named "x")
        [.hasTypeOf (.elem (.named "x") (.const (.str "value"))) "string"]) :=
    Walk.Returns.of_result? 5 (by decide +kernel)
  obtain ⟨e, he⟩ := hiff.1 ⟨_, hinside⟩
  cases heq _ _ hinside he
  exact ⟨_, hinside, he⟩

/-- A class whose base has a parameter. -/
def heirs : Catalog :=
  { entries := [(.listed "Base", {
      name := "Base"
      params := [⟨"T", 0⟩]
      body := .nominal [] [⟨.str "x", some (.param ⟨"T", 0⟩), false, none, .listed "Base"⟩] }),
    (.listed "Heir", {
      name := "Heir"
      body := .nominal [⟨"Base", [.primitive "string"]⟩] [] })] }

theorem wellScoped_heirs : heirs.WellScoped fun _ => false := by
  refine WellScoped.of_entries ?_ ?_ ?_
  all_goals simp only [heirs, List.forall_mem_cons, List.not_mem_nil,
    IsEmpty.forall_iff, implies_true, and_true]
  · exact ⟨rfl, rfl⟩
  · refine ⟨?_, ?_⟩ <;> constructor
    all_goals simp [Declaration.types, Declaration.heritage, Declaration.members,
      Ty.Every, Ty.Inside, Fits, Ty.free, Ty.unmapped]

/-- An alias that is rewritten where it is used, with a mapped type inside. -/
def wrappers : Catalog :=
  { entries := [(.listed "Wrapper", {
    name := "Wrapper"
    params := [⟨"A", 0⟩]
    body := .alias (some (.union [.primitive "null",
      .mapped ⟨"P", 1⟩ (.literal (.str "a")) (.param ⟨"A", 0⟩) []])) })] }

theorem wellScoped_wrappers : wrappers.WellScoped fun x => x == ⟨"P", 1⟩ := by
  refine WellScoped.of_entries ?_ ?_ ?_
  all_goals simp only [wrappers, List.forall_mem_singleton]
  · rfl
  · constructor
    all_goals simp [Declaration.types, Declaration.heritage, Declaration.members,
      Ty.Every, Ty.Inside, Ty.InsideList, Fits, Ty.free, Ty.freeList]
  · simp

theorem not_rewrites_wrappers {x : TypeParam} (h : x ≠ ⟨"A", 0⟩) : ¬wrappers.Rewrites x := by
  rintro ⟨_, d, t, hfind, _, _, hmem⟩
  cases List.mem_singleton.1 (mem_entries_of_declared? hfind)
  exact h (List.mem_singleton.1 hmem)

/-- A class does not bind what its base is written in, so that a frame from outside shows through;
and a parameter that is bound to the key of a mapped type is looked up again under that key. -/
theorem lookup_unlike_instantiate :
    (∃ (cat : Catalog) (keys : TypeParam → Bool) (ctx : Context) (t : Ty), cat.WellScoped keys ∧
      ctx.Sound ∧ ctx.path = [] ∧ ctx.marked = [] ∧ cat.Framed keys ctx.bindings ∧
        t.Every (cat.Fits keys) ∧
      (∀ x ∈ t.params, ¬cat.Rewrites x) ∧ (∀ x ∈ t.free, ctx.resolve x ≠ none) ∧
      (∃ e, Walk.Returns (Guard.ofType cat · t (.named "v")) { ctx := ctx } e) ∧
      ¬∃ e, Walk.Returns (Guard.ofType cat · (ctx.instantiate t) (.named "v")) {} e) ∧
    ∃ (cat : Catalog) (keys : TypeParam → Bool) (ctx : Context) (t : Ty), cat.WellScoped keys ∧
      ctx.Sound ∧ ctx.path = [] ∧ ctx.marked = [] ∧ t.unmapped = true ∧ t.Every (cat.Fits keys) ∧
      (∀ x u, ctx.resolve x = some u → u.Every (cat.Fits keys) ∧ u.unmapped = true ∧
        (∀ y ∈ u.params, ¬cat.Rewrites y) ∧ (Ty.chase ctx.bindings x).params = []) ∧
      (∀ x ∈ t.params, ¬cat.Rewrites x) ∧ (∀ x ∈ t.free, ctx.resolve x ≠ none) ∧
      ∃ e e', Walk.Returns (Guard.ofType cat · t (.named "v")) { ctx := ctx } e ∧
        Walk.Returns (Guard.ofType cat · (ctx.instantiate t) (.named "v")) {} e' ∧ e ≠ e' := by
  constructor
  · refine ⟨heirs, fun _ => false,
      { frames := [⟨0, [(⟨"T", 0⟩, .primitive "number")]⟩], depth := 1, nextStamp := 1 },
      .index (.name "Heir" []) (.literal (.str "x")), wellScoped_heirs, ⟨rfl, rfl, List.nodup_nil⟩,
        rfl, rfl, ?_, ?_, ?_, ?_,
      ⟨_, .of_result? (a := .hasTypeOf (.named "v") "number") 5 rfl⟩, ?_⟩
    · refine .of_closed fun x u hu => ?_
      cases List.mem_singleton.1 (Bindings.mem_of_lookup hu)
      exact ⟨⟨trivial, trivial⟩, rfl, rfl, rfl⟩
    · exact ⟨trivial, ⟨fun u hu => absurd hu List.not_mem_nil, trivial⟩, trivial, trivial⟩
    · exact fun x hx => absurd hx List.not_mem_nil
    · exact fun x hx => absurd hx List.not_mem_nil
    · rintro ⟨e, he⟩
      have hstart := Session.at_start {}
      obtain ⟨p', hcompiles⟩ := (Guard.returns_iff hstart).1 he
      obtain ⟨limit, hlimit⟩ := eventually_atTop.1 (Guard.eventually_ofType hstart hcompiles)
      obtain ⟨s', hrun⟩ := hlimit (limit + 5) (Nat.le_add_right _ _)
      cases hrun
  · refine ⟨wrappers, fun x => x == ⟨"P", 1⟩,
      { frames := [⟨1, [(⟨"T", 2⟩, .param ⟨"P", 1⟩)]⟩, ⟨0, [(⟨"P", 1⟩, .primitive "number")]⟩]
        depth := 2
        nextStamp := 2 },
      .name "Wrapper" [.param ⟨"T", 2⟩], wellScoped_wrappers, ⟨rfl, rfl, List.nodup_nil⟩, rfl, rfl,
        rfl, ?_, fun x u hu => ?_,
      fun x hx => ?_, fun x hx => ?_, ?_⟩
    · refine ⟨fun u hu => ?_, ⟨trivial, trivial⟩, trivial⟩
      cases List.mem_singleton.1 hu
      rfl
    · rcases List.mem_cons.1 (Bindings.mem_of_lookup hu) with hmem | hmem
      · cases hmem
        refine ⟨⟨trivial, trivial⟩, rfl, fun y hy => not_rewrites_wrappers ?_, by decide +kernel⟩
        rw [List.mem_singleton.1 hy]
        decide
      · cases List.mem_singleton.1 hmem
        exact ⟨⟨trivial, trivial⟩, rfl, fun y hy => absurd hy List.not_mem_nil, by decide +kernel⟩
    · cases List.mem_singleton.1 hx
      exact not_rewrites_wrappers (by decide)
    · cases List.mem_singleton.1 hx
      exact Option.some_ne_none _
    · let key := Expr.elem (.named "v") (.const (.str "a"))
      let guard (test : Expr) :=
        Expr.anyOf [.equalTo (.named "v") .null, Guard.whole (.named "v") [test]]
      refine ⟨guard (.equalTo key (.str "a")), guard (.hasTypeOf key "number"),
        .of_result? 6 (by decide +kernel), .of_result? 6 (by decide +kernel), by decide⟩

/-- A type that leaves nothing open is compiled to the same guard in any frames. -/
theorem WellScoped.compiles_in_any_frames (hcat : cat.WellScoped keys) {ctx : Context}
    (hsound : ctx.Sound) (hpath : ctx.path = []) (hmarked : ctx.marked = []) {t : Ty}
    (ht : cat.Whole keys t) (accessor : Expr) (numbering : Numbering) (e : Expr) :
    Walk.Returns (Guard.ofType cat · t accessor) { ctx := ctx, numbering := numbering } e ↔
      Walk.Returns (Guard.ofType cat · t accessor) { numbering := numbering } e :=
  Alike.guard_iff hcat (.of_whole hcat ht ht rfl ctx.bindings [])
    (Session.at_frames hsound hpath hmarked numbering) (Session.at_start numbering) accessor e

theorem WellScoped.compiles_in_any_frames_key :
    let ctx :
      Context := { frames := [⟨0, [(⟨"P", 1⟩, .literal (.str "a"))]⟩], depth := 1, nextStamp := 1 }
    let t : Ty := .mapped ⟨"P", 1⟩ (.literal (.str "b")) (.name "Box" [.param ⟨"P", 1⟩]) []
    ∃ e, Walk.Returns (Guard.ofType boxes · t (.named "x")) { ctx := ctx } e ∧
      Walk.Returns (Guard.ofType boxes · t (.named "x")) {} e := by
  intro ctx t
  have ht : t.Every (boxes.Fits fun x => x == ⟨"P", 1⟩) := by
    refine ⟨rfl, ⟨trivial, trivial⟩, fun u hu => ?_, ⟨trivial, trivial⟩, trivial⟩
    cases List.mem_singleton.1 hu
    rfl
  let entry := Expr.elem (.named "x") (.const (.str "b"))
  have hinside : Walk.Returns (Guard.ofType boxes · t (.named "x")) { ctx := ctx }
      (Guard.whole (.named "x") [Guard.whole entry
        [.equalTo (.elem entry (.const (.str "value"))) (.str "b")]]) :=
    .of_result? 6 (by decide +kernel)
  have hsound : ctx.Sound := ⟨rfl, rfl, List.nodup_nil⟩
  exact ⟨_, hinside,
    (WellScoped.compiles_in_any_frames (wellScoped_boxes rfl) hsound rfl rfl
      ⟨ht, rfl, sealed_boxes t⟩ (.named "x") {} _).1 hinside⟩

/-- Instantiation does not hide the parameter of a mapped type among the arguments of a reference,
so a frame that binds it gets in. -/
theorem frames_get_into_arguments :
    ∃ (cat : Catalog) (keys : TypeParam → Bool) (ctx : Context) (t : Ty) (e e' : Expr),
      cat.WellScoped keys ∧ ctx.Sound ∧ ctx.path = [] ∧ ctx.marked = [] ∧ t.free = [] ∧
      (∀ x ∈ t.params, keys x = true) ∧
      Walk.Returns (Guard.ofType cat · t (.named "v")) { ctx := ctx } e ∧
      Walk.Returns (Guard.ofType cat · t (.named "v")) {} e' ∧ e ≠ e' := by
  let entry := Expr.elem (.named "v") (.const (.str "value"))
  let guard (key : String) := Guard.whole (.named "v") [Guard.whole entry
    [.equalTo (.elem entry (.const (.str "a"))) (.str "a"),
      .equalTo (.elem entry (.const (.str "b"))) (.str key)]]
  refine ⟨boxes, fun x => x == ⟨"P", 1⟩,
    { frames := [⟨0, [(⟨"P", 1⟩, .literal (.str "a"))]⟩], depth := 1, nextStamp := 1 },
    .name "Box" [.mapped ⟨"P", 1⟩ (.union [.literal (.str "a"), .literal (.str "b")])
      (.param ⟨"P", 1⟩) []],
    guard "a", guard "b", wellScoped_boxes rfl, ⟨rfl, rfl, List.nodup_nil⟩, rfl, rfl,
      rfl, fun x hx => ?_,
    .of_result? 8 (by decide +kernel), .of_result? 8 (by decide +kernel), by decide⟩
  cases List.mem_singleton.1 hx
  rfl

end Catalog

end TypeGuard
