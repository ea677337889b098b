import TypeGuard.Proofs.Rules
import TypeGuard.Proofs.Scoped

/-! Types that come to the same among the bindings that each of them is met in. -/

namespace TypeGuard

theorem forall₂_of_map_eq {α β γ : Type} {R : α → β → Prop} {f : α → γ} {f' : β → γ} {xs : List α}
    {ys : List β} (h : xs.map f = ys.map f') (hR : ∀ x ∈ xs, ∀ y ∈ ys, f x = f' y → R x y) :
    List.Forall₂ R xs ys := by
  induction xs generalizing ys with
  | nil =>
      cases ys with
      | nil => exact .nil
      | cons y ys => cases h
  | cons x xs ih =>
      cases ys with
      | nil => cases h
      | cons y ys =>
          obtain ⟨hhead, htail⟩ := List.cons.inj h
          exact .cons (hR x List.mem_cons_self y List.mem_cons_self hhead)
            (ih htail fun x hx y hy =>
              hR x (List.mem_cons_of_mem _ hx) y (List.mem_cons_of_mem _ hy))

theorem exists_left_of_mem_zip {α β γ : Type} {R : α → β → Prop} {xs : List α} {ys : List β}
    {zs : List γ} {y : β} {z : γ} (h : List.Forall₂ R xs ys) (hmem : (y, z) ∈ ys.zip zs) :
    ∃ x, (x, z) ∈ xs.zip zs ∧ R x y := by
  induction h generalizing zs with
  | nil => cases hmem
  | @cons x y' xs ys hhead htail ih =>
      cases zs with
      | nil => cases hmem
      | cons z' zs =>
          rcases List.mem_cons.1 hmem with heq | hmem
          · cases heq
            exact ⟨x, List.mem_cons_self, hhead⟩
          · obtain ⟨w, hw, hR⟩ := ih hmem
            exact ⟨w, List.mem_cons_of_mem _ hw, hR⟩

/-- What names and parameters lead to, step by step. -/
abbrev Reaches (cat : Catalog) (env : Bindings) : Ty → Ty → Prop :=
  Relation.ReflTransGen (Follows cat env)

namespace Catalog

variable {cat : Catalog} {keys : TypeParam → Bool} {g : Value → Value} {env env' : Bindings}
  {t t' u : Ty}

/-- A parameter can be followed to something else, since its bindings come to an end. -/
theorem Sits.unwind_param {γ : Bindings} {x : TypeParam} (h : cat.Sits keys env (.param x))
    (hx : keys x = false) (hwithin : ∀ y u, γ.lookup y = some u → env.lookup y = some u)
    (hclosed : (Ty.chase γ x).params = []) :
    ∃ u, Reaches cat env (.param x) u ∧ cat.Sits keys env u ∧
      u.settle keys env = (Ty.param x).settle keys env ∧ ∀ y, u ≠ .param y := by
  cases hγ : γ.lookup x with
  | none =>
      rw [Ty.chase_of_none hγ] at hclosed
      cases hclosed
  | some u =>
      have hbound := hwithin x u hγ
      obtain ⟨hu, hsettle⟩ := h.param hx hbound
      by_cases hparam : ∃ y, u = .param y
      · obtain ⟨y, rfl⟩ := hparam
        have hne : Ty.param y ≠ .param x := by
          intro heq
          rw [Ty.chase_of_self (heq ▸ hγ)] at hclosed
          cases hclosed
        -- What was followed is hidden from the rest of the chain, which gets shorter that way.
        rw [Ty.chase_of_some hγ hne] at hclosed
        have hy := ((h.sound x (List.mem_singleton.2 rfl) hx).portable hbound).unmarked y
          (List.mem_singleton.2 rfl)
        have hwithin' : ∀ z w, (γ.hide x).lookup z = some w → env.lookup z = some w :=
          fun z w hz => hwithin z w (Bindings.lookup_of_lookup_hide hz)
        obtain ⟨w, hw, hsits, hsettle', hfinal⟩ := hu.unwind_param hy hwithin' hclosed
        exact ⟨w, .head (.param hbound) hw, hsits, hsettle'.trans hsettle, hfinal⟩
      · exact ⟨u, .single (.param hbound), hu, hsettle, fun y hy => hparam ⟨y, hy⟩⟩
termination_by γ.length
decreasing_by exact Bindings.length_hide_lt hγ

theorem Sits.unwind (h : cat.Sits keys env t) :
    ∃ u, Reaches cat env t u ∧ cat.Sits keys env u ∧ u.settle keys env = t.settle keys env ∧
      ∀ x, u = .param x → keys x = true := by
  by_cases hparam : ∃ x, t = .param x ∧ keys x = false
  · obtain ⟨x, rfl, hx⟩ := hparam
    obtain ⟨u, hu, hsits, hsettle, hfinal⟩ :=
      h.unwind_param hx (fun _ _ hy => hy) (h.closed x (List.mem_singleton.2 rfl) hx)
    exact ⟨u, hu, hsits, hsettle, fun y hy => absurd hy (hfinal y)⟩
  · refine ⟨t, .refl, h, rfl, fun x hx => ?_⟩
    by_contra hkey
    exact hparam ⟨x, hx, Bool.eq_false_iff.2 hkey⟩

/-- Both types can be met where they are, come to the same up to literals, and the parameters that
are left are keys for both. -/
structure Alike (cat : Catalog) (keys : TypeParam → Bool) (g : Value → Value) (env : Bindings)
    (t : Ty) (env' : Bindings) (t' : Ty) : Prop where
  left : cat.Sits keys env t
  right : cat.Sits keys env' t'
  same : (t.settle keys env).mapLiterals g = (t'.settle keys env').mapLiterals g
  agree : ∀ x ∈ (t.settle keys env).free, env.lookup x = env'.lookup x

namespace Alike

theorem refl (h : cat.Sits keys env t) : cat.Alike keys g env t env t :=
  ⟨h, h, rfl, fun _ _ => rfl⟩

theorem symm (h : cat.Alike keys g env t env' t') : cat.Alike keys g env' t' env t := by
  refine ⟨h.right, h.left, h.same.symm, fun x hx => (h.agree x ?_).symm⟩
  rwa [← Ty.free_mapLiterals, h.same, Ty.free_mapLiterals]

theorem trans {env'' : Bindings} {t'' : Ty} (h : cat.Alike keys g env t env' t')
    (h' : cat.Alike keys g env' t' env'' t'') : cat.Alike keys g env t env'' t'' := by
  refine ⟨h.left, h'.right, h.same.trans h'.same, fun x hx => (h.agree x hx).trans (h'.agree x ?_)⟩
  rwa [← Ty.free_mapLiterals, ← h.same, Ty.free_mapLiterals]

theorem literal (env env' : Bindings) (v : Value) :
    cat.Alike keys g env (.literal v) env' (.literal v) :=
  ⟨.literal env v, .literal env' v, rfl, fun _ hx => absurd hx List.not_mem_nil⟩

theorem of_whole (hcat : cat.WellScoped keys) (ht : cat.Whole keys t) (ht' : cat.Whole keys t')
    (hsame : t.mapLiterals g = t'.mapLiterals g) (env env' : Bindings) :
    cat.Alike keys g env t env' t' := by
  refine ⟨ht.sits hcat env, ht'.sits hcat env', ?_, fun x hx => ?_⟩
  · rw [ht.settle, ht'.settle, hsame]
  · rw [ht.settle, ht.closed] at hx
    cases hx

theorem param_left {x : TypeParam} (h : cat.Alike keys g env (.param x) env' t')
    (hx : keys x = false) (hbound : env.lookup x = some u) : cat.Alike keys g env u env' t' := by
  obtain ⟨hu, hsettle⟩ := h.left.param hx hbound
  refine ⟨hu, h.right, ?_, ?_⟩
  · rw [hsettle]
    exact h.same
  · rw [hsettle]
    exact h.agree

theorem unwind (h : cat.Alike keys g env t env' t') :
    ∃ u, Reaches cat env' t' u ∧ cat.Alike keys g env t env' u ∧ ∀ x, u = .param x →
      keys x = true := by
  obtain ⟨u, hu, hsits, hsettle, hfinal⟩ := h.right.unwind
  exact ⟨u, hu, ⟨h.left, hsits, by rw [hsettle]; exact h.same, h.agree⟩, hfinal⟩

theorem part {m m' : Ty} (h : cat.Alike keys g env t env' t') (hm : cat.Sits keys env m)
    (hm' : cat.Sits keys env' m')
    (hfree : ∀ x ∈ (m.settle keys env).free, x ∈ (t.settle keys env).free)
    (hsame : (m.settle keys env).mapLiterals g = (m'.settle keys env').mapLiterals g) :
    cat.Alike keys g env m env' m' :=
  ⟨hm, hm', hsame, fun x hx => h.agree x (hfree x hx)⟩

theorem members {ms ms' : List Ty} (h : cat.Alike keys g env t env' t')
    (hms : ∀ m ∈ ms, cat.Sits keys env m) (hms' : ∀ m ∈ ms', cat.Sits keys env' m)
    (hfree : (t.settle keys env).free = Ty.freeList (ms.map (Ty.settle keys env)))
    (hsame : Ty.mapLiteralsList g (ms.map (Ty.settle keys env)) =
      Ty.mapLiteralsList g (ms'.map (Ty.settle keys env'))) :
    List.Forall₂ (fun m m' => cat.Alike keys g env m env' m') ms ms' := by
  rw [Ty.mapLiteralsList_eq, Ty.mapLiteralsList_eq, List.map_map, List.map_map] at hsame
  refine forall₂_of_map_eq hsame fun m hm m' hm' heq =>
    h.part (hms m hm) (hms' m' hm') (fun x hx => ?_) heq
  rw [hfree, Ty.freeList_eq, List.flatMap_map]
  exact List.mem_flatMap.2 ⟨m, hm, hx⟩

end Alike

/-- One layer of two types that are alike. -/
inductive Layer (cat : Catalog) (keys : TypeParam → Bool) (g : Value → Value)
    (env env' : Bindings) : Ty → Ty → Prop
  | primitive (s : String) : Layer cat keys g env env' (.primitive s) (.primitive s)
  | literal {v v' : Value} (h : g v = g v') : Layer cat keys g env env' (.literal v) (.literal v')
  | boolean (b : Bool) : Layer cat keys g env env' (.boolean b) (.boolean b)
  | union {ms ms' : List Ty}
      (h : List.Forall₂ (fun m m' => cat.Alike keys g env m env' m') ms ms') :
      Layer cat keys g env env' (.union ms) (.union ms')
  | inter {ms ms' : List Ty}
      (h : List.Forall₂ (fun m m' => cat.Alike keys g env m env' m') ms ms') :
      Layer cat keys g env env' (.inter ms) (.inter ms')
  | object (kind : ObjectKind) (decl : DeclId) :
      Layer cat keys g env env' (.object kind decl []) (.object kind decl [])
  | sequence (kind : SequenceKind) (ts ts' : List Ty) :
      Layer cat keys g env env' (.sequence kind ts) (.sequence kind ts')
  | ref {target target' : Ty} {args args' : List Ty}
      (h : target.mapLiterals g = target'.mapLiterals g) :
      Layer cat keys g env env' (.ref target args) (.ref target' args')
  | param {x : TypeParam} (hx : keys x = true) : Layer cat keys g env env' (.param x) (.param x)
  | keyOf {t t' : Ty} (h : cat.Alike keys g env t env' t') :
      Layer cat keys g env env' (.keyOf t) (.keyOf t')
  | index {t t' k k' : Ty} (h : cat.Alike keys g env t env' t')
      (hk : cat.Alike keys g env k env' k') : Layer cat keys g env env' (.index t k) (.index t' k')
  /-- The template is met where the parameter stands for a key. -/
  | mapped {x : TypeParam} {c c' t t' : Ty} {xs : List TypeParam}
      (hc : cat.Alike keys g env c env' c')
      (ht : ∀ key : String, cat.Alike keys g ((x, .literal (.str key)) :: env) t
        ((x, .literal (.str key)) :: env') t') :
      Layer cat keys g env env' (.mapped x c t xs) (.mapped x c' t' xs)
  | name {s : String} {args args' : List Ty} :
      Layer cat keys g env env' (.name s args) (.name s args')

namespace Sits

theorem member {ms : List Ty} {m : Ty} (h : cat.Sits keys env t) (hreveals : cat.Reveals t m)
    (hname : t.isName = false) (hfits : Ty.InsideList (cat.Fits keys) ms)
    (hparams : t.params = Ty.paramsList ms)
    (hfree : t.free = Ty.freeList ms) (hm : m ∈ ms) : cat.Sits keys env m := by
  refine h.part hreveals hname (Ty.insideList_iff.1 hfits m hm) (fun x hx => ?_) fun x hx => ?_
  · rw [hparams, Ty.paramsList_eq]
    exact List.mem_flatMap.2 ⟨m, hm, hx⟩
  · rw [hfree, Ty.freeList_eq]
    exact List.mem_flatMap.2 ⟨m, hm, hx⟩

theorem union {ms : List Ty} {m : Ty} (h : cat.Sits keys env (.union ms)) (hm : m ∈ ms) :
    cat.Sits keys env m :=
  h.member (.union hm) rfl h.fits.2 rfl rfl hm

theorem inter {ms : List Ty} {m : Ty} (h : cat.Sits keys env (.inter ms)) (hm : m ∈ ms) :
    cat.Sits keys env m :=
  h.member (.inter hm) rfl h.fits.2 rfl rfl hm

theorem keyOf (h : cat.Sits keys env (.keyOf t)) : cat.Sits keys env t :=
  h.part (.operand t) rfl h.fits.2 (fun _ hx => hx) fun _ hx => hx

theorem index_left {k : Ty} (h : cat.Sits keys env (.index t k)) : cat.Sits keys env t :=
  h.part (.object t k) rfl h.fits.2.1 (fun _ hx => List.mem_append_left _ hx)
    fun _ hx => List.mem_append_left _ hx

/-- An indexed access that is met does not look into a class that has a generic ancestor. -/
theorem not_leaks (hcat : cat.WellScoped keys) {k o : Ty} (h : cat.Sits keys env (.index t k))
    (hexposes : Exposes cat env t o) : ¬cat.Leaks o := by
  intro hleaks
  obtain ⟨o', ho', hleaks'⟩ := h.index_left.exposes_leaking hcat hexposes hleaks
  exact h.sealed _ _ o' .refl ho' hleaks'

theorem index_right {k : Ty} (h : cat.Sits keys env (.index t k)) : cat.Sits keys env k :=
  h.part (.key t k) rfl h.fits.2.2 (fun _ hx => List.mem_append_right _ hx)
    fun _ hx => List.mem_append_right _ hx

theorem constraint {x : TypeParam} {c : Ty} {xs : List TypeParam}
    (h : cat.Sits keys env (.mapped x c t xs)) : cat.Sits keys env c :=
  h.part (.constraint x c t xs) rfl h.fits.2.1 (fun _ hx => List.mem_append_left _ hx)
    fun _ hx => List.mem_append_left _ hx

theorem settle_template {x : TypeParam} {c : Ty} {xs : List TypeParam}
    (h : cat.Sits keys env (.mapped x c t xs)) (u : Ty) :
    t.settle keys ((x, u) :: env) = t.settle keys env := by
  refine Ty.settle_congr fun y hy hkey => Ty.chase_cons ?_
  exact (h.sound y (List.mem_append_right _ hy) hkey).not_leads h.fits.1

theorem template {x : TypeParam} {c : Ty} {xs : List TypeParam}
    (h : cat.Sits keys env (.mapped x c t xs)) (key : String) :
    cat.Sits keys ((x, .literal (.str key)) :: env) t := by
  have hmark : keys x = true := h.fits.1
  have hsound : ∀ y ∈ t.params, keys y = false → cat.Sound keys env y :=
    fun y hy => h.sound y (List.mem_append_right _ hy)
  refine ⟨h.fits.2.2, h.steady.reveal (.template x c t xs),
    fun y hy hkey => (hsound y hy hkey).cons hmark _, fun y hy hkey => ?_, fun y hy hkey => ?_,
    ?_⟩
  · rw [Ty.chase_cons ((hsound y hy hkey).not_leads hmark)]
    exact h.closed y (List.mem_append_right _ hy) hkey
  · rw [List.lookup_cons]
    by_cases hyx : y = x
    · exact ⟨key, by rw [hyx, beq_self_eq_true]⟩
    · rw [beq_eq_false_iff_ne.2 hyx]
      refine h.bound y (List.mem_append_right _ ?_) hkey
      exact List.mem_filter.2 ⟨hy, decide_eq_true hyx⟩
  · rw [h.settle_template]
    exact h.sealed.unfold (.reveal (.template _ _ _ _))

end Sits

namespace Alike

theorem eq_param {x : TypeParam} (h : (t.settle keys env).mapLiterals g = .param x)
    (ht : ∀ y, t = .param y → keys y = true) : t = .param x := by
  cases t with
  | param y =>
      rw [Ty.settle_param_marked (ht y rfl)] at h
      exact h
  | _ => cases h

theorem template {x : TypeParam} {c c' : Ty} {xs xs' : List TypeParam}
    (h : cat.Alike keys g env (.mapped x c t xs) env' (.mapped x c' t' xs'))
    (hsame : (t.settle keys env).mapLiterals g = (t'.settle keys env').mapLiterals g)
    (key : String) :
    cat.Alike keys g ((x, .literal (.str key)) :: env) t ((x, .literal (.str key)) :: env') t' := by
  refine ⟨h.left.template key, h.right.template key, ?_, fun y hy => ?_⟩
  · rw [h.left.settle_template, h.right.settle_template]
    exact hsame
  · rw [h.left.settle_template] at hy
    rw [List.lookup_cons, List.lookup_cons]
    by_cases hyx : y = x
    · rw [hyx, beq_self_eq_true]
    · rw [beq_eq_false_iff_ne.2 hyx]
      exact h.agree y (List.mem_append_right _ (List.mem_filter.2 ⟨hy, decide_eq_true hyx⟩))

/-- Types that are alike, and no parameters to be followed, are alike layer by layer. -/
theorem layer_of_marked (h : cat.Alike keys g env t env' t')
    (ht : ∀ x, t = .param x → keys x = true)
    (ht' : ∀ x, t' = .param x → keys x = true) : cat.Layer keys g env env' t t' := by
  have hsame := h.same
  by_cases hparam : ∃ x, t = .param x
  · obtain ⟨x, rfl⟩ := hparam
    rw [Ty.settle_param_marked (ht x rfl)] at hsame
    rw [eq_param hsame.symm ht']
    exact .param (ht x rfl)
  have hparam' : ∀ x, t' ≠ .param x := by
    rintro x rfl
    rw [Ty.settle_param_marked (ht' x rfl)] at hsame
    exact hparam ⟨x, eq_param hsame ht⟩
  cases t with
  | param x => exact absurd ⟨x, rfl⟩ hparam
  | primitive s =>
      cases t' with
      | param x => exact absurd rfl (hparam' x)
      | primitive s' => exact Ty.primitive.inj hsame ▸ .primitive s
      | _ => cases hsame
  | literal v =>
      cases t' with
      | param x => exact absurd rfl (hparam' x)
      | literal v' => exact .literal (Ty.literal.inj hsame)
      | _ => cases hsame
  | boolean b =>
      cases t' with
      | param x => exact absurd rfl (hparam' x)
      | boolean b' => exact Ty.boolean.inj hsame ▸ .boolean b
      | _ => cases hsame
  | object kind decl elements =>
      cases t' with
      | param x => exact absurd rfl (hparam' x)
      | object kind' decl' elements' =>
          obtain ⟨rfl, rfl, _⟩ := Ty.object.inj hsame
          cases h.left.fits.1.2.1
          cases h.right.fits.1.2.1
          exact .object kind decl
      | _ => cases hsame
  | sequence kind elements =>
      cases t' with
      | param x => exact absurd rfl (hparam' x)
      | sequence kind' elements' =>
          obtain ⟨rfl, _⟩ := Ty.sequence.inj hsame
          exact .sequence kind elements elements'
      | _ => cases hsame
  | union ms =>
      cases t' with
      | param x => exact absurd rfl (hparam' x)
      | union ms' =>
          rw [Ty.settle_union, Ty.settle_union] at hsame
          refine .union (h.members (fun m hm => h.left.union hm) (fun m hm => h.right.union hm) ?_
            (Ty.union.inj hsame))
          rw [Ty.settle_union, Ty.free]
      | _ => cases hsame
  | inter ms =>
      cases t' with
      | param x => exact absurd rfl (hparam' x)
      | inter ms' =>
          rw [Ty.settle_inter, Ty.settle_inter] at hsame
          refine .inter (h.members (fun m hm => h.left.inter hm) (fun m hm => h.right.inter hm) ?_
            (Ty.inter.inj hsame))
          rw [Ty.settle_inter, Ty.free]
      | _ => cases hsame
  | ref target args =>
      cases t' with
      | param x => exact absurd rfl (hparam' x)
      | ref target' args' => exact .ref (Ty.ref.inj hsame).1
      | _ => cases hsame
  | keyOf operand =>
      cases t' with
      | param x => exact absurd rfl (hparam' x)
      | keyOf operand' =>
          exact .keyOf (h.part h.left.keyOf h.right.keyOf (fun _ hx => hx) (Ty.keyOf.inj hsame))
      | _ => cases hsame
  | index object key =>
      cases t' with
      | param x => exact absurd rfl (hparam' x)
      | index object' key' =>
          obtain ⟨hobject, hkey⟩ := Ty.index.inj hsame
          exact .index
            (h.part h.left.index_left h.right.index_left
              (fun _ hx => List.mem_append_left _ hx) hobject)
            (h.part h.left.index_right h.right.index_right
              (fun _ hx => List.mem_append_right _ hx) hkey)
      | _ => cases hsame
  | mapped x c template xs =>
      cases t' with
      | param x => exact absurd rfl (hparam' x)
      | mapped x' c' template' xs' =>
          obtain ⟨rfl, hc, htemplate, rfl⟩ := Ty.mapped.inj hsame
          exact .mapped
            (h.part h.left.constraint h.right.constraint (fun _ hx => List.mem_append_left _ hx) hc)
            (h.template htemplate)
      | _ => cases hsame
  | name s args =>
      cases t' with
      | param x => exact absurd rfl (hparam' x)
      | name s' args' =>
          obtain ⟨rfl, _⟩ := Ty.name.inj hsame
          exact .name
      | _ => cases hsame

end Alike

/-! Names, instances and what is inside of them. -/

theorem Alike.name (hcat : cat.WellScoped keys) {s : String} {args args' : List Ty}
    (h : cat.Alike keys g env (.name s args) env' (.name s args'))
    (hresolve : cat.resolve (.name s args) = .ok t) :
    ∃ t', cat.resolve (.name s args') = .ok t' ∧ cat.Alike keys g env t env' t' := by
  have hargs : (args.map (Ty.settle keys env)).map (Ty.mapLiterals g) =
      (args'.map (Ty.settle keys env')).map (Ty.mapLiterals g) := by
    have hsame := h.same
    simp only [Ty.settle_name, Ty.mapLiterals, Ty.mapLiteralsList_eq] at hsame
    exact (Ty.name.inj hsame).2
  have hlength : args'.length = args.length := by
    have hlengths := congrArg List.length hargs
    simpa only [List.length_map] using hlengths.symm
  obtain ⟨t', hresolve'⟩ := exists_resolve_of_length hresolve hlength
  obtain ⟨hsits, hsettled⟩ := h.left.name hcat hresolve
  obtain ⟨hsits', hsettled'⟩ := h.right.name hcat hresolve'
  obtain ⟨u, hu, hsame⟩ := resolve_congr hargs hsettled
  cases hsettled'.symm.trans hu
  refine ⟨t', hresolve', hsits, hsits', hsame, fun x hx => h.agree x ?_⟩
  have hunmapped : ∀ u ∈ args.map (Ty.settle keys env), u.unmapped = true := by
    intro u hu
    obtain ⟨a, ha, rfl⟩ := List.mem_map.1 hu
    exact h.left.unmapped_settle (h.left.fits.1 a ha) fun x hx => by
      simp only [Ty.params, Ty.paramsList_eq, List.mem_flatMap]
      exact ⟨a, ha, hx⟩
  rw [Ty.settle_name, Ty.free, Ty.freeList_eq]
  exact List.mem_flatMap.2 (hcat.mem_free_resolve hunmapped hsettled hx)

end Catalog

namespace Ty

/-- Declared objects and references. -/
def isInstance : Ty → Bool
  | object _ _ _ => true
  | ref _ _ => true
  | _ => false

theorem isInstance_subst {t : Ty} (h : t.isInstance = true) (σ : TypeParam → Ty) :
    (t.subst σ).isInstance = true := by
  cases t with
  | object _ _ _ | ref _ _ => rfl
  | _ => cases h

theorem isKnot_congr {g : Value → Value} {t u : Ty} (h : t.mapLiterals g = u.mapLiterals g) :
    t.isKnot = u.isKnot := by
  have hsame : ∀ t : Ty, (t.mapLiterals g).isKnot = t.isKnot := by
    intro t
    cases t with
    | ref target args =>
        cases target with
        | object kind decl elements => cases kind <;> rfl
        | _ => rfl
    | object kind decl elements => cases kind <;> rfl
    | _ => rfl
  rw [← hsame t, h, hsame]

theorem isKnot_ref (target : Ty) (args args' : List Ty) :
    (ref target args).isKnot = (ref target args').isKnot := by
  cases target with
  | object kind decl elements => cases kind <;> rfl
  | _ => rfl

theorem isKnot_substitute {env : Bindings} {t : Ty} (h : t.isKnot = true) :
    (t.substitute env).isKnot = true := by
  cases t with
  | object kind decl elements => cases kind <;> exact h
  | ref target args => exact (isKnot_ref target _ _).trans h
  | _ => cases h

theorem isKnot_knot {env : Bindings} {t : Ty} (h : t.isKnot = true) :
    (t.knot env).isKnot = true := by
  cases t with
  | ref target args => exact isKnot_substitute h
  | _ => exact h

theorem isInstance_of_isKnot {t : Ty} (h : t.isKnot = true) : t.isInstance = true := by
  cases t with
  | object _ _ _ | ref _ _ => rfl
  | _ => cases h

theorem isInstance_of_head {t : Ty} {kind : ObjectKind} {decl : DeclId} {elements : List Ty}
    (h : t.head = object kind decl elements) : t.isInstance = true := by
  cases t with
  | object _ _ _ | ref _ _ => rfl
  | _ => cases h

end Ty

namespace Catalog

variable {cat : Catalog} {keys : TypeParam → Bool} {g : Value → Value} {env env' : Bindings}
  {t t' u : Ty}

theorem mem_free_of_isInstance (h : t.Every (cat.Fits keys)) (hinstance : t.isInstance = true)
    {x : TypeParam} (hx : x ∈ t.params) : x ∈ t.free := by
  cases t with
  | object kind decl elements =>
      cases h.1.2.1
      cases hx
  | ref target args =>
      simp only [Ty.params, Ty.paramsList_eq, List.mem_flatMap] at hx
      obtain ⟨a, ha, hx⟩ := hx
      exact mem_free_of_mem_args h ha hx
  | _ => cases hinstance

theorem Sits.whole_instance (h : cat.Sits keys env t) (hinstance : t.isInstance = true) :
    cat.Whole keys (t.substitute env) :=
  h.whole_substitute fun _ hx => mem_free_of_isInstance h.fits hinstance hx

theorem Sits.knot_eq (h : cat.Sits keys env t) (hknot : t.isKnot = true) :
    t.knot env = t.substitute env :=
  Ty.knot_eq_substitute hknot (bare_of_fits h.fits.1) env

theorem Sits.whole_knot (h : cat.Sits keys env t) (hknot : t.isKnot = true) :
    cat.Whole keys (t.knot env) := by
  rw [h.knot_eq hknot]
  exact h.whole_instance (Ty.isInstance_of_isKnot hknot)

theorem Layer.isIndirect (h : cat.Layer keys g env env' t t') : t.isIndirect = t'.isIndirect := by
  cases h <;> rfl

theorem Layer.isKnot (h : cat.Layer keys g env env' t t') : t.isKnot = t'.isKnot := by
  cases h with
  | ref htarget =>
      rw [Ty.isKnot_ref _ _ []]
      refine (Ty.isKnot_congr (g := g) ?_).trans (Ty.isKnot_ref _ [] _)
      rw [Ty.mapLiterals, Ty.mapLiterals, htarget]
  | _ => rfl

theorem Layer.isInstance (h : cat.Layer keys g env env' t t') : t.isInstance = t'.isInstance := by
  cases h <;> rfl

namespace Alike

theorem substitute_eq (h : cat.Alike keys g env t env' t') (hinstance : t.isInstance = true) :
    (t.substitute env).mapLiterals g = (t'.substitute env').mapLiterals g := by
  rw [h.left.substitute_eq, h.right.substitute_eq]
  refine Ty.mapLiterals_subst_congr h.same fun x hx => ?_
  have hfree := mem_free_of_isInstance h.left.fits_settle
    (Ty.isInstance_subst hinstance _) hx
  obtain ⟨_, key, hbound⟩ := h.left.bound_of_mem_settle hfree
  have hbound' := (h.agree x hfree).symm.trans hbound
  rw [Ty.chase_of_lookup hbound fun y hy => absurd hy List.not_mem_nil,
    Ty.chase_of_lookup hbound' fun y hy => absurd hy List.not_mem_nil]

/-- What is grounded by bindings that are the same is alike inside of them, whatever is around. -/
theorem enter {bindings bindings' : Bindings} (hbindings : cat.Scoped keys bindings)
    (hbindings' : cat.Scoped keys bindings')
    (hsame : bindings.mapLiterals g = bindings'.mapLiterals g)
    (ht : cat.Grounded keys bindings t) (ht' : cat.Grounded keys bindings' t')
    (htypes : t.mapLiterals g = t'.mapLiterals g) :
    cat.Alike keys g (bindings ++ env) t (bindings' ++ env') t' := by
  refine ⟨ht.sits hbindings env, ht'.sits hbindings' env', ?_, fun x hx => ?_⟩
  · rw [ht.settle_append, ht'.settle_append]
    refine Ty.mapLiterals_subst_congr htypes fun x _ => ?_
    split
    · rfl
    · rw [Ty.mapLiterals_chase, Ty.mapLiterals_chase, hsame]
  · rw [ht.settle_append, ht.free_settle] at hx
    cases hx

theorem substitute (hcat : cat.WellScoped keys) {bindings : Bindings}
    (hbindings : cat.Scoped keys bindings) (hmarked : ∀ x, keys x = true → bindings.lookup x = none)
    (ht : cat.Grounded keys bindings t) :
    cat.Alike keys g (bindings ++ env) t [] (t.substitute bindings) := by
  have hsettle : t.settle keys bindings = t.substitute bindings :=
    Ty.settle_eq_substitute fun x _ => hmarked x
  have hopen : (t.substitute bindings).free = [] := hsettle ▸ ht.free_settle
  have hsits := ht.sits hbindings env
  have hfits : (t.substitute bindings).Every (cat.Fits keys) := by
    rw [← hsettle, ← ht.settle_append env]
    exact hsits.fits_settle
  have hwhole : cat.Whole keys (t.substitute bindings) := ⟨hfits, hopen, hsettle ▸ ht.sealed⟩
  refine ⟨hsits, hwhole.sits hcat [], ?_, fun x hx => ?_⟩
  · rw [ht.settle_append, hsettle, Ty.settle_eq_substitute fun _ _ _ => rfl, Ty.substitute_nil]
  · rw [ht.settle_append, ht.free_settle] at hx
    cases hx

theorem instantiate (hcat : cat.WellScoped keys) {bindings : Bindings} (hwhole : cat.Whole keys t)
    (hbindings : cat.bindings t = .ok bindings) (hu : cat.Grounded keys bindings u) :
    cat.Alike keys g (bindings ++ env) u [] (u.substitute bindings) :=
  .substitute hcat (hcat.scoped_bindings hwhole hbindings)
    (fun _ => hcat.unmarked_bindings hwhole hbindings) hu

theorem layer (h : cat.Alike keys g env t env' t') (ht : ∀ x, t = .param x → keys x = true) :
    ∃ u, Reaches cat env' t' u ∧ cat.Alike keys g env t env' u ∧ cat.Layer keys g env env' t u := by
  obtain ⟨u, hu, halike, hmarked⟩ := h.unwind
  exact ⟨u, hu, halike, halike.layer_of_marked ht hmarked⟩

theorem follow (hcat : cat.WellScoped keys) (h : cat.Alike keys g env t env' t')
    (hfollow : Follows cat env t u) :
    ∃ u', Reaches cat env' t' u' ∧ cat.Alike keys g env u env' u' := by
  cases hfollow with
  | name hresolve =>
      obtain ⟨w, hw, halike, hlayer⟩ := h.layer nofun
      cases hlayer
      obtain ⟨u', hresolve', hu'⟩ := halike.name hcat hresolve
      exact ⟨u', hw.tail (.name hresolve'), hu'⟩
  | @param x _ hbound =>
      by_cases hx : keys x = true
      · obtain ⟨w, hw, halike, hlayer⟩ := h.layer fun y hy => by cases hy; exact hx
        cases hlayer
        have hfree : x ∈ ((Ty.param x).settle keys env).free := by
          rw [Ty.settle_param_marked hx]
          exact List.mem_singleton.2 rfl
        obtain ⟨_, key, hkey⟩ := h.left.bound_of_mem_settle hfree
        cases hbound.symm.trans hkey
        exact ⟨_, hw.tail (.param ((h.agree x hfree).symm.trans hbound)), .literal env env' _⟩
      · exact ⟨t', .refl, h.param_left (Bool.eq_false_iff.2 hx) hbound⟩

end Alike

end Catalog

end TypeGuard
