import TypeGuard.Proofs.Alike

/-! What is alike is classified and guarded alike. -/

namespace TypeGuard

namespace Catalog

variable {cat : Catalog} {g : Value → Value} {t u : Ty}

theorem objectHead?_congr (h : t.mapLiterals g = u.mapLiterals g) (hbare : t.Bare) :
    objectHead? t = objectHead? u := by
  have hhead : t.head.mapLiterals g = u.head.mapLiterals g := by
    rw [← Ty.head_mapLiterals, h, Ty.head_mapLiterals]
  cases ht : t.head with
  | object kind decl elements =>
      cases hbare _ _ _ ht
      rw [ht] at hhead
      rw [objectHead?_of_head ht, objectHead?_of_head (Ty.mapLiterals_eq_object.1 hhead.symm)]
  | _ =>
      rw [ht] at hhead
      cases hu : u.head with
      | object kind decl elements =>
          rw [hu] at hhead
          cases hhead
      | _ => simp only [objectHead?, ht, hu]

theorem properties_congr (h : t.mapLiterals g = u.mapLiterals g) (hbare : t.Bare)
    (ht : t.isName = false) (hu : u.isName = false) : cat.properties t = cat.properties u := by
  simp only [properties, followNames_of_isName ht, followNames_of_isName hu, bind, Except.bind,
    objectHead?_congr h hbare]

theorem propertyType_congr {key : String} {w : Ty} (h : cat.properties t = cat.properties u)
    (hw : cat.propertyType t key = .ok w) : cat.propertyType u key = .ok w := by
  unfold propertyType property? at hw ⊢
  rw [← h]
  cases hproperties : cat.properties t with
  | error fault =>
      rw [hproperties] at hw
      cases hw
  | ok properties =>
      rw [hproperties] at hw
      simp only [bind, Except.bind, pure, Except.pure] at hw ⊢
      split at hw
      · cases hw
      · exact hw

theorem isName_substitute {env : Bindings} (h : t.isIndirect = false) :
    (t.substitute env).isName = false := by
  cases t with
  | name _ _ | param _ => cases h
  | _ => rfl

theorem isInstance_substitute {env : Bindings} (h : t.isIndirect = false) :
    (t.substitute env).isInstance = t.isInstance := by
  cases t with
  | name _ _ | param _ => cases h
  | _ => rfl

theorem isInstance_of_property {key : String} {w : Ty} (hname : t.isName = false)
    (hw : cat.propertyType t key = .ok w) : t.isInstance = true := by
  obtain ⟨properties, p, hproperties, hp, _⟩ := propertyType_eq_ok hw
  obtain ⟨u, hu, hcases⟩ := properties_eq_ok hproperties
  cases (followNames_of_isName hname _ _).symm.trans hu
  rcases hcases with ⟨_, rfl⟩ | ⟨head, _, hhead, _⟩
  · cases hp
  · obtain ⟨_, hobject, _⟩ := exists_head_of_objectHead? hhead
    exact Ty.isInstance_of_head hobject

end Catalog

variable {cat : Catalog} {keys : TypeParam → Bool} {g : Value → Value} {env env' : Bindings}
  {t t' o : Ty}

theorem Exposes.of_reaches {u : Ty} (h : Reaches cat env t u) (hu : Exposes cat env u o) :
    Exposes cat env t o := by
  induction h using Relation.ReflTransGen.head_induction_on with
  | refl => exact hu
  | head hstep _ ih => exact .follow hstep ih

theorem Exposes.transfer (hcat : cat.WellScoped keys) (h : Exposes cat env t o)
    (halike : cat.Alike keys g env t env' t') :
    ∃ u u', cat.Alike keys g env u env' u' ∧ cat.Layer keys g env env' u u' ∧
      u.isIndirect = false ∧ o = u.substitute env ∧ Exposes cat env' t' (u'.substitute env') := by
  induction h generalizing t' with
  | @here t hdirect =>
      obtain ⟨u', hreaches, hu', hlayer⟩ := halike.layer fun x hx => by
        rw [hx] at hdirect; cases hdirect
      exact ⟨t, u', hu', hlayer, hdirect, rfl,
        .of_reaches hreaches (.here (hlayer.isIndirect.symm.trans hdirect))⟩
  | follow hfollow _ ih =>
      obtain ⟨u', hreaches, hu'⟩ := halike.follow hcat hfollow
      obtain ⟨w, w', hw, hlayer, hdirect, ho, hexposes⟩ := ih hu'
      exact ⟨w, w', hw, hlayer, hdirect, ho, .of_reaches hreaches hexposes⟩

theorem Exposes.index (hcat : cat.WellScoped keys) (h : Exposes cat env t o)
    {k k' : Ty} (halike : cat.Alike keys g env (.index t k) env' (.index t' k'))
    {names : List String} {types : List Ty} {bindings : Bindings}
    (htypes : names.mapM (cat.propertyType o) = .ok types)
    (hbindings : cat.bindings o = .ok bindings) :
    ∃ o' bindings', Exposes cat env' t' o' ∧ names.mapM (cat.propertyType o') = .ok types ∧
      cat.bindings o' = .ok bindings' ∧
      ∀ u ∈ types, cat.Alike keys g (bindings ++ env) u (bindings' ++ env') u := by
  have hobject : cat.Alike keys g env t env' t' := by
    cases halike.layer_of_marked nofun nofun with
    | index hobject _ => exact hobject
  obtain ⟨u, u', hu, hlayer, hdirect, rfl, hexposes⟩ := h.transfer hcat hobject
  have hdirect' : u'.isIndirect = false := hlayer.isIndirect.symm.trans hdirect
  have hname : (u.substitute env).isName = false := Catalog.isName_substitute hdirect
  have hname' : (u'.substitute env').isName = false := Catalog.isName_substitute hdirect'
  by_cases hinstance : u.isInstance = true
  · have hinstance' : u'.isInstance = true := hlayer.isInstance.symm.trans hinstance
    have hsame := hu.substitute_eq hinstance
    have hwhole := hu.left.whole_instance hinstance
    have hwhole' := hu.right.whole_instance hinstance'
    have hbare := Catalog.bare_of_fits hwhole.fits.1
    have hproperties : cat.properties _ = cat.properties _ :=
      Catalog.properties_congr hsame hbare hname hname'
    obtain ⟨bindings', hbindings', hsameBindings⟩ := Catalog.bindings_congr hsame hbare hbindings
    refine ⟨_, bindings', hexposes, ?_, hbindings', fun w hw => ?_⟩
    · exact mapM_eq_ok.2
        ((mapM_eq_ok.1 htypes).imp fun _ _ => Catalog.propertyType_congr hproperties)
    · obtain ⟨name, _, hw⟩ := exists_of_forall₂_right (mapM_eq_ok.1 htypes) hw
      obtain ⟨properties, p, hps, hp, htype⟩ := Catalog.propertyType_eq_ok hw
      exact .enter (hcat.scoped_bindings hwhole hbindings)
        (hcat.scoped_bindings hwhole' hbindings') hsameBindings
        (hcat.grounded_property hwhole (halike.left.not_leaks hcat h) hname hbindings hps hp htype)
        (hcat.grounded_property hwhole' (halike.right.not_leaks hcat hexposes) hname' hbindings'
          (hproperties ▸ hps) hp htype) rfl
  · -- What is no instance has no properties, so nothing is read from it.
    have hnames : names = [] := by
      refine List.eq_nil_iff_forall_not_mem.2 fun name hmem => hinstance ?_
      obtain ⟨w, _, hw⟩ := exists_of_forall₂_right (mapM_eq_ok.1 htypes).flip hmem
      rw [← Catalog.isInstance_substitute hdirect]
      exact Catalog.isInstance_of_property hname hw
    subst hnames
    cases htypes
    refine ⟨_, _, hexposes, rfl, Catalog.bindings_of_not_interface fun decl _ hhead => hinstance ?_,
      fun w hw => absurd hw List.not_mem_nil⟩
    rw [hlayer.isInstance, ← Catalog.isInstance_substitute hdirect']
    exact Ty.isInstance_of_head hhead

theorem Exposes.instantiate (hcat : cat.WellScoped keys) (h : Exposes cat env t o)
    {k : Ty} (hsits : cat.Sits keys env (.index t k)) {names : List String} {types : List Ty}
    {bindings : Bindings} (htypes : names.mapM (cat.propertyType o) = .ok types)
    (hbindings : cat.bindings o = .ok bindings)
    {w : Ty} (hw : w ∈ types) :
      cat.Alike keys g (bindings ++ env) w [] (w.substitute bindings) := by
  obtain ⟨u, _, hu, _, hdirect, rfl, _⟩ := h.transfer (g := g) hcat (.refl hsits.index_left)
  have hname : (u.substitute env).isName = false := Catalog.isName_substitute hdirect
  obtain ⟨name, _, hw⟩ := exists_of_forall₂_right (mapM_eq_ok.1 htypes) hw
  have hinstance := Catalog.isInstance_of_property hname hw
  rw [Catalog.isInstance_substitute hdirect] at hinstance
  have hwhole := hu.left.whole_instance hinstance
  obtain ⟨properties, p, hproperties, hp, htype⟩ := Catalog.propertyType_eq_ok hw
  exact .instantiate hcat hwhole hbindings
    (hcat.grounded_property hwhole (hsits.not_leaks hcat h) hname hbindings hproperties hp htype)

theorem Catalog.Alike.enter_mapped (hcat : cat.WellScoped keys) {target target' : Ty}
    {args args' : List Ty} {bindings : Bindings}
    (h : cat.Alike keys g env (.ref target args) env' (.ref target' args'))
    (hmapped : target.isMapped = true) (htarget : target.mapLiterals g = target'.mapLiterals g)
    (hbindings : cat.bindings ((Ty.ref target args).substitute env) = .ok bindings) :
    ∃ bindings', cat.bindings ((Ty.ref target' args').substitute env') = .ok bindings' ∧
      cat.Alike keys g (bindings ++ env) target (bindings' ++ env') target' := by
  have hwhole := h.left.whole_instance rfl
  have hwhole' := h.right.whole_instance rfl
  obtain ⟨bindings', hbindings', hsame⟩ :=
    bindings_congr (h.substitute_eq rfl) (bare_of_fits hwhole.fits.1) hbindings
  refine ⟨bindings', hbindings', .enter (hcat.scoped_bindings hwhole hbindings)
    (hcat.scoped_bindings hwhole' hbindings') hsame ?_ ?_ htarget⟩
  · exact hcat.grounded_target hwhole hmapped hbindings
  · rw [Ty.isMapped_congr htarget] at hmapped
    exact hcat.grounded_target hwhole' hmapped hbindings'

/-! Classification. -/

theorem Value.scalar_of_literalKey {a : Scalar} {v : Value}
    (h : (Value.scalar a).literalKey = v.literalKey) :
    ∃ b, v = .scalar b ∧ a.unsignedZero = b.unsignedZero := by
  cases v with
  | scalar b => exact ⟨b, rfl, Value.scalar.inj h⟩
  | _ => cases h

theorem Shape.ofLiteral_congr {v v' : Value} {shape : Shape} (h : v.literalKey = v'.literalKey)
    (hshape : ofLiteral v = .ok shape) : ofLiteral v' = .ok shape := by
  unfold ofLiteral at hshape
  split at hshape
  · obtain ⟨b, rfl, hb⟩ := Value.scalar_of_literalKey h
    cases b with
    | str s => cases hb; exact hshape
    | _ => cases hb
  · obtain ⟨b, rfl, hb⟩ := Value.scalar_of_literalKey h
    cases b with
    | int n => exact hshape
    | _ => cases hb
  · obtain ⟨b, rfl, hb⟩ := Value.scalar_of_literalKey h
    cases b with
    | float x => exact hshape
    | _ => cases hb
  · cases hshape

/-- A path of types that are guarded by their parts. -/
def Catalog.Treads (cat : Catalog) (path : List Ty) : Prop :=
  ∀ t ∈ path, t.isKnot = true ∧ ∃ bindings, cat.bindings t = .ok bindings

namespace Query

theorem leaf_layer {q : Query} {shape : Shape} (h : cat.Layer keys Value.literalKey env env' t t')
    (hleaf : q.leaf cat t = .ok shape) : q.leaf cat t' = .ok shape := by
  cases h with
  | primitive _ | boolean _ | object _ _ => exact hleaf
  | sequence _ _ _ | mapped _ _ => cases q <;> exact hleaf
  | literal h =>
      cases q with
      | strings => exact Shape.ofLiteral_congr h hleaf
      | names => cases hleaf
  | union _ | inter _ | ref _ | param _ | keyOf _ | index _ _ | name => cases q <;> cases hleaf

theorem leaf_congr {q : Query} {target target' : Ty} (haims : cat.Aims keys target)
    (h : target.mapLiterals g = target'.mapLiterals g) :
      q.leaf cat target = q.leaf cat target' := by
  cases target with
  | object kind decl elements =>
      cases haims.1
      rw [Ty.mapLiterals_eq_object.1 h.symm]
  | sequence _ _ =>
      cases target' with
      | sequence _ _ =>
          obtain ⟨rfl, _⟩ := Ty.sequence.inj h
          cases q <;> rfl
      | _ => cases h
  | mapped _ _ _ _ =>
      cases target' with
      | mapped _ _ _ _ => cases q <;> rfl
      | _ => cases h
  | _ => exact haims.elim

theorem leaf_strings_of_isKnot {target : Ty} {args : List Ty}
    (h : (Ty.ref target args).isKnot = true) :
    strings.leaf cat target = .ok .never := by
  cases target with
  | object kind decl elements =>
      cases kind with
      | interface => rfl
      | nominal => cases h
  | mapped _ _ _ _ => rfl
  | _ => cases h

theorem leaf_strings_eq_never {target : Ty} {shape : Shape} (haims : cat.Aims keys target)
    (h : strings.leaf cat target = .ok shape) : shape = .never := by
  cases target with
  | object kind decl elements =>
      cases kind with
      | interface => exact (Except.ok.inj h).symm
      | nominal => cases h
  | sequence _ _ | mapped _ _ _ _ => exact (Except.ok.inj h).symm
  | _ => exact haims.elim

end Query

namespace Classifies

variable {q : Query} {path path' : List Ty} {shape : Shape}

theorem of_reaches {u : Ty} (h : Reaches cat env t u) (hu : Classifies cat q env path u shape) :
    Classifies cat q env path t shape := by
  induction h using Relation.ReflTransGen.head_induction_on with
  | refl => exact hu
  | head hstep _ ih => exact .follow hstep ih

/-- Nothing but a mapped type is taken apart as the target of a reference. -/
theorem leaf_of_aims {target : Ty} (haims : cat.Aims keys target)
    (hq : q = .strings ∨ target.isMapped = false) (h : Classifies cat q env path target shape) :
    q.leaf cat target = .ok shape := by
  cases h with
  | leaf hleaf => exact hleaf
  | follow hfollow _ => cases hfollow <;> exact haims.elim
  | mapped _ => rcases hq with hq | hq <;> cases hq
  | _ => exact haims.elim

/-- A reference is no string, on the path or off it. -/
theorem strings_ref {target : Ty} {args : List Ty} (haims : cat.Aims keys target)
    (hpath : cat.Treads path) (h : Classifies cat .strings env path (.ref target args) shape) :
    shape = .never ∧ Query.strings.leaf cat target = .ok .never ∧
      ∃ bindings, cat.bindings ((Ty.ref target args).substitute env) = .ok bindings := by
  cases h with
  | leaf hleaf => cases hleaf
  | follow hfollow _ => cases hfollow
  | again hon =>
      obtain ⟨r, hr, hkey⟩ := Ty.isOn_iff.1 hon
      obtain ⟨hknot, bindings, hbindings⟩ := hpath r hr
      rw [← Ty.mapLiterals_literalKey, ← Ty.mapLiterals_literalKey] at hkey
      have hbare := (Catalog.bare_of_aims haims _).congr hkey.symm
      obtain ⟨bindings', hbindings', _⟩ := Catalog.bindings_congr hkey hbare hbindings
      rw [Ty.isKnot_congr hkey] at hknot
      exact ⟨rfl, Query.leaf_strings_of_isKnot hknot, bindings', hbindings'⟩
  | ref _ hbindings hshape =>
      have hleaf := hshape.leaf_of_aims haims (.inl rfl)
      cases Query.leaf_strings_eq_never haims hleaf
      exact ⟨rfl, hleaf, _, hbindings⟩

theorem ref_never {target : Ty} {args : List Ty} {bindings : Bindings}
    (hleaf : Query.strings.leaf cat target = .ok .never)
    (hbindings : cat.bindings ((Ty.ref target args).substitute env) = .ok bindings) :
    Classifies cat .strings env path (.ref target args) .never := by
  by_cases hon : ((Ty.ref target args).substitute env).IsOn path
  · exact .again hon
  · exact .ref hon hbindings (.leaf hleaf)

theorem transfer_ref {target : Ty} {args : List Ty}
    (h : Classifies cat .strings env path (.ref target args) shape)
    (halike : cat.Alike keys g env (.ref target args) env' t') (hpath : cat.Treads path) :
    Classifies cat .strings env' path' t' shape := by
  have haims : cat.Aims keys target := halike.left.fits.1.2.2
  obtain ⟨rfl, hleaf, bindings, hbindings⟩ := h.strings_ref haims hpath
  obtain ⟨u, hreaches, hu, hlayer⟩ := halike.layer nofun
  cases hlayer with
  | ref htarget =>
      obtain ⟨bindings', hbindings', _⟩ :=
        Catalog.bindings_congr (hu.substitute_eq rfl) (Catalog.bare_of_aims haims _) hbindings
      rw [Query.leaf_congr haims htarget] at hleaf
      exact .of_reaches hreaches (.ref_never hleaf hbindings')

/-- Types that are alike stand for the same strings, and have properties of the same names, on any
paths. -/
theorem transfer (hcat : cat.WellScoped keys) (h : Classifies cat q env path t shape)
    (halike : cat.Alike keys Value.literalKey env t env' t') (hpath : cat.Treads path)
    (hpath' : cat.Treads path') : Classifies cat q env' path' t' shape := by
  induction h generalizing env' t' path' with
  | @leaf q _ _ t shape hleaf =>
      have hparam : ∀ x, t = .param x → keys x = true := by
        rintro x rfl
        cases q <;> cases hleaf
      obtain ⟨u, hreaches, _, hlayer⟩ := halike.layer hparam
      exact .of_reaches hreaches (.leaf (Query.leaf_layer hlayer hleaf))
  | follow hfollow _ ih =>
      obtain ⟨u, hreaches, hu⟩ := halike.follow hcat hfollow
      exact .of_reaches hreaches (ih hu hpath hpath')
  | union hlength _ hunion ih =>
      obtain ⟨u, hreaches, _, hlayer⟩ := halike.layer nofun
      cases hlayer with
      | union hmembers =>
          refine .of_reaches hreaches (.union (hmembers.length_eq.symm.trans hlength) ?_ hunion)
          intro m s hmem
          obtain ⟨m₀, hmem₀, hm⟩ := exists_left_of_mem_zip hmembers hmem
          exact ih m₀ s hmem₀ hm hpath hpath'
  | inter hlength _ hinter ih =>
      obtain ⟨u, hreaches, _, hlayer⟩ := halike.layer nofun
      cases hlayer with
      | inter hmembers =>
          refine .of_reaches hreaches (.inter (hmembers.length_eq.symm.trans hlength) ?_ hinter)
          intro m s hmem
          obtain ⟨m₀, hmem₀, hm⟩ := exists_left_of_mem_zip hmembers hmem
          exact ih m₀ s hmem₀ hm hpath hpath'
  | again hon => exact transfer_ref (.again hon) halike hpath
  | ref hoff hbindings hshape _ => exact transfer_ref (.ref hoff hbindings hshape) halike hpath
  | refMapped hmapped hbindings _ ih =>
      obtain ⟨u, hreaches, hu, hlayer⟩ := halike.layer nofun
      cases hlayer with
      | ref htarget =>
          obtain ⟨bindings', hbindings', hinside⟩ := hu.enter_mapped hcat hmapped htarget hbindings
          refine .of_reaches hreaches (.refMapped ?_ hbindings' (ih hinside hpath hpath'))
          rwa [← Ty.isMapped_congr htarget]
  | refTarget hmapped hshape _ =>
      have haims := halike.left.fits.1.2.2
      have hleaf := hshape.leaf_of_aims haims (.inr hmapped)
      obtain ⟨u, hreaches, _, hlayer⟩ := halike.layer nofun
      cases hlayer with
      | ref htarget =>
          rw [Query.leaf_congr haims htarget] at hleaf
          refine .of_reaches hreaches (.refTarget ?_ (.leaf hleaf))
          rwa [← Ty.isMapped_congr htarget]
  | mapped _ ih =>
      obtain ⟨u, hreaches, _, hlayer⟩ := halike.layer nofun
      cases hlayer with
      | mapped hc _ => exact .of_reaches hreaches (.mapped (ih hc hpath hpath'))
  | keyOf _ ih =>
      obtain ⟨u, hreaches, _, hlayer⟩ := halike.layer nofun
      cases hlayer with
      | keyOf hoperand => exact .of_reaches hreaches (.keyOf (ih hoperand hpath hpath'))
  | index hobject _ htypes hbindings hlength _ hunion ihkeys ihshapes =>
      obtain ⟨u, hreaches, hu, hlayer⟩ := halike.layer nofun
      cases hlayer with
      | index _ hkey' =>
          obtain ⟨o', bindings', hexposes, htypes', hbindings', hall⟩ :=
            hobject.index hcat hu htypes hbindings
          refine .of_reaches hreaches
            (.index hexposes (ihkeys hkey' hpath hpath') htypes' hbindings'
            hlength (fun w s hmem => ?_) hunion)
          exact ihshapes w s hmem (hall w (List.of_mem_zip hmem).1) hpath hpath'

end Classifies

/-! Guards. -/

theorem exists_forall₂ {α β γ : Type} {R : α → β → Prop} {S : α → γ → Prop} {T : β → γ → Prop}
    {xs : List α} {ys : List β} (h : List.Forall₂ R xs ys)
    (hstep : ∀ x ∈ xs, ∀ y, R x y → ∃ z, S x z ∧ T y z) :
    ∃ zs, List.Forall₂ S xs zs ∧ List.Forall₂ T ys zs := by
  induction h with
  | nil => exact ⟨[], .nil, .nil⟩
  | cons hhead _ ih =>
      obtain ⟨z, hS, hT⟩ := hstep _ List.mem_cons_self _ hhead
      obtain ⟨zs, hSs, hTs⟩ := ih fun x hx => hstep x (List.mem_cons_of_mem _ hx)
      exact ⟨z :: zs, .cons hS hSs, .cons hT hTs⟩

theorem forall₂_same_map {α β γ : Type} {R : β → γ → Prop} {f : α → β} {f' : α → γ} {xs : List α}
    (h : ∀ x ∈ xs, R (f x) (f' x)) : List.Forall₂ R (xs.map f) (xs.map f') := by
  induction xs with
  | nil => exact .nil
  | cons x xs ih =>
      exact .cons (h x List.mem_cons_self) (ih fun x hx => h x (List.mem_cons_of_mem _ hx))

/-- Tasks that check types that come to the same where the same is read. -/
def Task.Like (cat : Catalog) (keys : TypeParam → Bool) (task task' : Task) : Prop :=
  task.declared = false ∧ task'.declared = false ∧ task.accessor = task'.accessor ∧
    cat.Alike keys id task.env task.type task'.env task'.type

def Part.Like (cat : Catalog) (keys : TypeParam → Bool) (part part' : Part) : Prop :=
  part.declared = false ∧ part'.declared = false ∧ part.index? = part'.index? ∧
    cat.Alike keys id part.env part.type part'.env part'.type

theorem eq_singleton_of_like {task : Task} {tasks' : List Task}
    (h : List.Forall₂ (Task.Like cat keys) [task] tasks') :
    ∃ task', task.Like cat keys task' ∧ tasks' = [task'] := by
  cases h with
  | cons hhead htail =>
      cases htail
      exact ⟨_, hhead, rfl⟩

theorem like_members {ms ms' : List Ty}
    (h : List.Forall₂ (fun m m' => cat.Alike keys id env m env' m') ms ms') (accessor : Expr) :
    List.Forall₂ (Task.Like cat keys) (ms.map (⟨false, env, ·, accessor⟩))
      (ms'.map (⟨false, env', ·, accessor⟩)) := by
  rw [List.forall₂_map_left_iff, List.forall₂_map_right_iff]
  exact h.imp fun m m' hm => ⟨rfl, rfl, rfl, hm⟩

theorem Part.Like.task {part part' : Part} (h : part.Like cat keys part') (whole : Expr) :
    (part.task whole).Like cat keys (part'.task whole) := by
  obtain ⟨hdeclared, hdeclared', hindex, halike⟩ := h
  exact ⟨hdeclared, hdeclared', by simp only [Part.task, Part.accessor, hindex], halike⟩

theorem like_parts {parts parts' : List Part}
    (h : List.Forall₂ (Part.Like cat keys) parts parts') (whole : Expr) :
    List.Forall₂ (Task.Like cat keys) (parts.map (Part.task whole))
      (parts'.map (Part.task whole)) := by
  rw [List.forall₂_map_left_iff, List.forall₂_map_right_iff]
  exact h.imp fun part part' hpart => hpart.task whole

theorem Part.like_ofKeys {x : TypeParam} {template template' : Ty}
    (h : ∀ key : String, cat.Alike keys id ((x, .literal (.str key)) :: env) template
      ((x, .literal (.str key)) :: env') template') (names : List String) :
    List.Forall₂ (Part.Like cat keys) (Part.ofKeys env x template names)
      (Part.ofKeys env' x template' names) :=
  forall₂_same_map fun key _ => ⟨rfl, rfl, rfl, h key⟩

theorem Catalog.Alike.weaken (h : cat.Alike keys id env t env' t') :
    cat.Alike keys g env t env' t' := by
  have hsame := h.same
  rw [Ty.mapLiterals_id, Ty.mapLiterals_id] at hsame
  exact ⟨h.left, h.right, by rw [hsame], h.agree⟩

theorem Parts.treads {path : List Ty} {parts : List Part} (h : Parts cat env path false t parts)
    (hknot : t.isKnot = true) (hpath : cat.Treads path) : cat.Treads (t :: path) := by
  intro r hr
  rcases List.mem_cons.1 hr with rfl | hr
  · cases h with
    | properties _ hbindings _ _ => exact ⟨hknot, _, hbindings⟩
    | keys hbindings _ _ => exact ⟨hknot, _, hbindings⟩
  · exact hpath r hr

theorem Catalog.Layer.head (h : cat.Layer keys g env env' t t') (hknot : t.isKnot = true) :
    t.head.mapLiterals g = t'.head.mapLiterals g := by
  cases h with
  | object _ _ => rfl
  | ref htarget => exact htarget
  | _ => cases hknot

theorem Catalog.Alike.knot (h : cat.Alike keys g env t env' t') (hknot : t.isKnot = true) :
    ∃ u, Reaches cat env' t' u ∧ cat.Alike keys g env t env' u ∧ u.isKnot = true ∧
      t.head.mapLiterals g = u.head.mapLiterals g ∧
      (t.knot env).mapLiterals g = (u.knot env').mapLiterals g := by
  have hparam : ∀ x, t = .param x → keys x = true := by
    rintro x rfl
    cases hknot
  obtain ⟨u, hreaches, hu, hlayer⟩ := h.layer hparam
  have hknot' := hlayer.isKnot.symm.trans hknot
  refine ⟨u, hreaches, hu, hknot', hlayer.head hknot, ?_⟩
  rw [hu.left.knot_eq hknot, hu.right.knot_eq hknot']
  exact hu.substitute_eq (Ty.isInstance_of_isKnot hknot)

theorem Parts.transfer (hcat : cat.WellScoped keys) {path : List Ty} {parts : List Part}
    (h : Parts cat env path false t parts) (ht : cat.Whole keys t) (hknot : t.isKnot = true)
    (hpath : cat.Treads path) (env' : Bindings) :
    ∃ parts', Parts cat env' path false t parts' ∧
      List.Forall₂ (Part.Like cat keys) parts parts' := by
  cases h with
  | @properties _ bindings properties _ hmapped hbindings hproperties hparts =>
      have hscoped := hcat.scoped_bindings ht hbindings
      have hname : t.isName = false := by
        cases t with
        | name _ _ => cases hknot
        | _ => rfl
      obtain ⟨parts', hparts', hlike⟩ := exists_forall₂ hparts
        (S := Part.OfProperty (bindings ++ env')) (T := Part.Like cat keys) (by
          rintro p hp _ ⟨u, index, htype, hindex, rfl⟩
          have hgrounded := hcat.grounded_property ht (Catalog.not_leaks_of_isKnot hknot) hname
            hbindings hproperties hp htype
          exact ⟨_, ⟨u, index, htype, hindex, rfl⟩, rfl, rfl, rfl,
            .enter hscoped hscoped rfl hgrounded hgrounded rfl⟩)
      exact ⟨parts', .properties hmapped hbindings hproperties hparts', hlike⟩
  | @keys _ bindings x c template xs names hbindings hhead hkeys =>
      have hscoped := hcat.scoped_bindings ht hbindings
      obtain ⟨args, rfl⟩ : ∃ args, t = .ref (.mapped x c template xs) args := by
        cases t with
        | ref target args => exact ⟨args, by rw [← hhead]; rfl⟩
        | mapped _ _ _ _ => cases hknot
        | _ => cases hhead
      have hgrounded := hcat.grounded_target ht rfl hbindings
      have htarget : cat.Alike keys id (bindings ++ env) _ (bindings ++ env') _ :=
        .enter hscoped hscoped rfl hgrounded hgrounded rfl
      have htread := Parts.treads (.keys hbindings hhead hkeys) hknot hpath
      cases htarget.layer_of_marked nofun nofun with
      | mapped hc htemplate =>
          exact ⟨_, .keys hbindings hhead (hkeys.transfer hcat hc.weaken htread htread),
            Part.like_ofKeys htemplate _⟩

theorem Test.ofType?_layer {test : Test} (h : cat.Layer keys id env env' t t')
    (htest : ofType? t = some test) : ofType? t' = some test := by
  cases h with
  | primitive _ | boolean _ => exact htest
  | literal h =>
      cases h
      exact htest
  | _ => cases htest

namespace Compiles

variable {path : List Ty} {p p' : Progress} {e accessor : Expr}

theorem of_reaches {u : Ty} (h : Reaches cat env t u)
    (hu : Compiles cat path [⟨false, env, u, accessor⟩] p [e] p') :
    Compiles cat path [⟨false, env, t, accessor⟩] p [e] p' := by
  induction h using Relation.ReflTransGen.head_induction_on with
  | refl => exact hu
  | head hstep _ ih => exact .follow hstep ih

/-- Tasks that are alike are guarded by the same checks. -/
theorem transfer (hcat : cat.WellScoped keys) {tasks tasks' : List Task} {es : List Expr}
    (h : Compiles cat path tasks p es p') (hlike : List.Forall₂ (Task.Like cat keys) tasks tasks')
    (hpath : cat.Treads path) : Compiles cat path tasks' p es p' := by
  induction h generalizing tasks' with
  | nil => cases hlike with | nil => exact .nil
  | cons _ _ ihfirst ihrest =>
      cases hlike with
      | cons hhead htail => exact .cons (ihfirst (.cons hhead .nil) hpath) (ihrest htail hpath)
  | @test path env t accessor test p htest =>
      obtain ⟨⟨_, env', t', accessor'⟩, ⟨_, rfl, rfl, halike⟩, rfl⟩ := eq_singleton_of_like hlike
      have hparam : ∀ x, t = .param x → keys x = true := by
        rintro x rfl
        cases htest
      obtain ⟨u, hreaches, _, hlayer⟩ := halike.layer hparam
      exact .of_reaches hreaches (.test (Test.ofType?_layer hlayer htest))
  | follow hfollow _ ih =>
      obtain ⟨⟨_, env', t', accessor'⟩, ⟨_, rfl, rfl, halike⟩, rfl⟩ := eq_singleton_of_like hlike
      obtain ⟨u, hreaches, hu⟩ := halike.follow hcat hfollow
      exact .of_reaches hreaches (ih (.cons ⟨rfl, rfl, rfl, hu⟩ .nil) hpath)
  | target hodd _ _ =>
      obtain ⟨⟨_, env', t', accessor'⟩, ⟨_, rfl, rfl, halike⟩, rfl⟩ := eq_singleton_of_like hlike
      rw [Catalog.isApplicable_of_aims halike.left.fits.1.2.2] at hodd
      cases hodd
  | union _ ih =>
      obtain ⟨⟨_, env', t', accessor'⟩, ⟨_, rfl, rfl, halike⟩, rfl⟩ := eq_singleton_of_like hlike
      obtain ⟨u, hreaches, _, hlayer⟩ := halike.layer nofun
      cases hlayer with
      | union hmembers =>
          exact .of_reaches hreaches (.union (ih (like_members hmembers _) hpath))
  | inter _ ih =>
      obtain ⟨⟨_, env', t', accessor'⟩, ⟨_, rfl, rfl, halike⟩, rfl⟩ := eq_singleton_of_like hlike
      obtain ⟨u, hreaches, _, hlayer⟩ := halike.layer nofun
      cases hlayer with
      | inter hmembers =>
          exact .of_reaches hreaches (.inter (ih (like_members hmembers _) hpath))
  | again hknot hon =>
      obtain ⟨⟨_, env', t', accessor'⟩, ⟨_, rfl, rfl, halike⟩, rfl⟩ := eq_singleton_of_like hlike
      obtain ⟨u, hreaches, _, hknot', _, hinstance⟩ := halike.knot hknot
      rw [Ty.mapLiterals_id, Ty.mapLiterals_id] at hinstance
      rw [hinstance] at hon ⊢
      exact .of_reaches hreaches (.again hknot' hon)
  | knot hknots hoff hparts _ htie ih =>
      obtain ⟨⟨_, env', t', accessor'⟩, ⟨hdeclared, rfl, haccessor, halike⟩, rfl⟩ :=
        eq_singleton_of_like hlike
      cases hknots with
      | declared _ => cases hdeclared
      | flat hknot =>
          cases haccessor
          obtain ⟨u, hreaches, hu, hknot', _, hinstance⟩ := halike.knot hknot
          rw [Ty.mapLiterals_id, Ty.mapLiterals_id] at hinstance
          have htread := hparts.treads (Ty.isKnot_knot hknot) hpath
          obtain ⟨parts', hparts', hlikes⟩ := hparts.transfer hcat (hu.left.whole_knot hknot)
            (Ty.isKnot_knot hknot) hpath env'
          -- It is the same instance on both sides, so the number and the path are the same too.
          have hknots' : Knots ⟨false, env', u, accessor'⟩ _ := .flat hknot'
          rw [← hinstance] at hknots'
          refine .of_reaches hreaches (.knot hknots' hoff hparts' (ih ?_ htread) htie)
          exact like_parts hlikes _
  | mapped hkeys _ ih =>
      obtain ⟨⟨_, env', t', accessor'⟩, ⟨_, rfl, rfl, halike⟩, rfl⟩ := eq_singleton_of_like hlike
      obtain ⟨u, hreaches, _, hlayer⟩ := halike.layer nofun
      cases hlayer with
      | mapped hc htemplate =>
          refine .of_reaches hreaches
            (.mapped (hkeys.transfer hcat hc.weaken hpath hpath) (ih ?_ hpath))
          exact like_parts (Part.like_ofKeys htemplate _) _
  | index hobject hkeys htypes hbindings _ ih =>
      obtain ⟨⟨_, env', t', accessor'⟩, ⟨_, rfl, rfl, halike⟩, rfl⟩ := eq_singleton_of_like hlike
      obtain ⟨u, hreaches, hu, hlayer⟩ := halike.layer nofun
      cases hlayer with
      | index _ hkey' =>
          obtain ⟨o', bindings', hexposes, htypes', hbindings', hall⟩ :=
            hobject.index hcat hu htypes hbindings
          refine .of_reaches hreaches
            (.index hexposes (hkeys.transfer hcat hkey'.weaken hpath hpath)
            htypes' hbindings' (ih ?_ hpath))
          exact forall₂_same_map fun w hw => ⟨rfl, rfl, rfl, hall w hw⟩
  | keyOf hkeys =>
      obtain ⟨⟨_, env', t', accessor'⟩, ⟨_, rfl, rfl, halike⟩, rfl⟩ := eq_singleton_of_like hlike
      obtain ⟨u, hreaches, hu, hlayer⟩ := halike.layer nofun
      cases hlayer with
      | keyOf _ => exact .of_reaches hreaches (.keyOf (hkeys.transfer hcat hu.weaken hpath hpath))

end Compiles

end TypeGuard
