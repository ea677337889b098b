import TypeGuard.Proofs.Numbering
import TypeGuard.Proofs.Resolve
import TypeGuard.Shape.OfType

/-! Nothing that is done to a type depends on which parameters it has, as long as different ones
stay different and the names that are shown stay. So all that a catalog tells about its types goes
along with a change of parameters. -/

namespace TypeGuard

/-- Other parameters in the place of those there are. -/
structure Renaming where
  map : TypeParam → TypeParam
  injective : ∀ {x y : TypeParam}, map x = map y → x = y
  name : ∀ x : TypeParam, (map x).name = x.name

namespace Renaming

variable (ρ : Renaming)

theorem map_eq_iff {x y : TypeParam} : ρ.map x = ρ.map y ↔ x = y :=
  ⟨ρ.injective, fun h => by rw [h]⟩

theorem map_list_eq_iff {xs ys : List TypeParam} : xs.map ρ.map = ys.map ρ.map ↔ xs = ys :=
  List.map_inj_right fun _ _ h => ρ.injective h

end Renaming

namespace Ty

mutual
def rename (ρ : Renaming) : Ty → Ty
  | primitive s => primitive s
  | literal v => literal v
  | boolean b => boolean b
  | union members => union (renames ρ members)
  | inter members => inter (renames ρ members)
  | object kind decl elements => object kind decl (renames ρ elements)
  | sequence kind elements => sequence kind (renames ρ elements)
  | ref target args => ref (target.rename ρ) (renames ρ args)
  | param p => param (ρ.map p)
  | keyOf t => keyOf (t.rename ρ)
  | index t k => index (t.rename ρ) (k.rename ρ)
  | mapped p constraint template params =>
      mapped (ρ.map p) (constraint.rename ρ) (template.rename ρ) (params.map ρ.map)
  | name s args => name s (renames ρ args)

def renames (ρ : Renaming) : List Ty → List Ty
  | [] => []
  | t :: rest => t.rename ρ :: renames ρ rest
end

variable {ρ : Renaming}

@[simp] theorem renames_eq (ts : List Ty) : renames ρ ts = ts.map (rename ρ) := by
  induction ts with
  | nil => rfl
  | cons t rest ih => simp only [renames, List.map_cons, ih]

theorem head_rename (t : Ty) : (t.rename ρ).head = t.head.rename ρ := by
  cases t with
  | object kind decl elements => simp only [rename, head]
  | _ => rfl

theorem args_rename (t : Ty) : (t.rename ρ).args = t.args.map (rename ρ) := by
  cases t with
  | ref target args => exact renames_eq args
  | _ => rfl

theorem key_rename (t : Ty) : (t.rename ρ).key = t.key.rename ρ := by
  induction t with
  | primitive _ | literal _ | boolean _ | param _ => rfl
  | union ts ih | inter ts ih | object _ _ ts ih | sequence _ ts ih | name _ ts ih =>
      simp only [rename, renames_eq, key, keys_eq, List.map_map, Function.comp_def,
        List.map_congr_left ih]
  | ref target ts ihtarget ih =>
      simp only [rename, renames_eq, key, keys_eq, List.map_map, Function.comp_def, ihtarget,
        List.map_congr_left ih]
  | keyOf t ih => simp only [rename, key, ih]
  | index t k iht ihk | mapped _ t k _ iht ihk => simp only [rename, key, iht, ihk]

theorem map_rename_inj {ts us : List Ty} (ih : ∀ t ∈ ts, ∀ {u}, t.rename ρ = u.rename ρ → t = u)
    (h : ts.map (rename ρ) = us.map (rename ρ)) : ts = us := by
  induction ts generalizing us with
  | nil =>
      cases us with
      | nil => rfl
      | cons u others => cases h
  | cons t rest ihrest =>
      cases us with
      | nil => cases h
      | cons u others =>
          rw [List.forall_mem_cons] at ih
          simp only [List.map_cons, List.cons.injEq] at h
          rw [ih.1 h.1, ihrest ih.2 h.2]

theorem rename_inj {t u : Ty} (h : t.rename ρ = u.rename ρ) : t = u := by
  induction t generalizing u with
  | primitive _ | literal _ | boolean _ =>
      cases u <;> cases h
      rfl
  | param x =>
      cases u <;> simp only [rename, reduceCtorEq, param.injEq] at h
      rw [ρ.injective h]
  | union ts ih | inter ts ih =>
      cases u <;> simp only [rename, renames_eq, reduceCtorEq, union.injEq, inter.injEq] at h
      rw [map_rename_inj ih h]
  | object kind decl ts ih =>
      cases u <;> simp only [rename, renames_eq, reduceCtorEq, object.injEq] at h
      rw [h.1, h.2.1, map_rename_inj ih h.2.2]
  | sequence kind ts ih =>
      cases u <;> simp only [rename, renames_eq, reduceCtorEq, sequence.injEq] at h
      rw [h.1, map_rename_inj ih h.2]
  | name s ts ih =>
      cases u <;> simp only [rename, renames_eq, reduceCtorEq, name.injEq] at h
      rw [h.1, map_rename_inj ih h.2]
  | ref target ts ihtarget ih =>
      cases u <;> simp only [rename, renames_eq, reduceCtorEq, ref.injEq] at h
      rw [ihtarget h.1, map_rename_inj ih h.2]
  | keyOf t ih =>
      cases u <;> simp only [rename, reduceCtorEq, keyOf.injEq] at h
      rw [ih h]
  | index t k iht ihk =>
      cases u <;> simp only [rename, reduceCtorEq, index.injEq] at h
      rw [iht h.1, ihk h.2]
  | mapped x c t xs ihc iht =>
      cases u <;> simp only [rename, reduceCtorEq, mapped.injEq] at h
      rw [ρ.injective h.1, ihc h.2.1, iht h.2.2.1, ρ.map_list_eq_iff.1 h.2.2.2]

theorem rename_eq_iff {t u : Ty} : t.rename ρ = u.rename ρ ↔ t = u :=
  ⟨rename_inj, fun h => by rw [h]⟩

theorem key_rename_eq_iff {t u : Ty} : (t.rename ρ).key = (u.rename ρ).key ↔ t.key = u.key := by
  rw [key_rename, key_rename, rename_eq_iff]

theorem same_rename (t u : Ty) : (t.rename ρ).same (u.rename ρ) = t.same u := by
  rw [same, same, decide_eq_decide]
  exact key_rename_eq_iff

theorem renders_rename {ts : List Ty} (ih : ∀ t ∈ ts, (t.rename ρ).render = t.render) :
    renders (ts.map (rename ρ)) = renders ts := by
  induction ts with
  | nil => rfl
  | cons t rest ihrest =>
      rw [List.forall_mem_cons] at ih
      simp only [List.map_cons, renders, ih.1, ihrest ih.2]

theorem render_rename (t : Ty) : (t.rename ρ).render = t.render := by
  induction t with
  | primitive _ | literal _ | boolean _ | object _ _ _ _ => rfl
  | param x => exact congrArg pure (ρ.name x)
  | union ts ih | inter ts ih | name _ ts ih =>
      simp only [rename, renames_eq, render, renders_rename ih]
  | sequence kind ts ih =>
      cases kind with
      | array =>
          cases ts with
          | nil => rfl
          | cons t rest => simp only [rename, renames, render, ih t List.mem_cons_self]
      | tuple => simp only [rename, renames_eq, render, renders_rename ih]
  | ref target ts ihtarget ih =>
      simp only [rename, renames_eq, render, ihtarget, renders_rename ih]
  | keyOf t ih => simp only [rename, render, ih]
  | index t k iht ihk => simp only [rename, render, iht, ihk]
  | mapped x c t xs ihc iht => simp only [rename, render, ihc, iht, ρ.name x]

theorem rename_subst {σ τ : TypeParam → Ty} (hσ : ∀ x, (σ x).rename ρ = τ (ρ.map x)) (t : Ty) :
    (t.subst σ).rename ρ = (t.rename ρ).subst τ := by
  induction t with
  | primitive _ | literal _ | boolean _ => rfl
  | param x => exact hσ x
  | union ts ih | inter ts ih | object _ _ ts ih | sequence _ ts ih | ref _ ts _ ih
  | name _ ts ih =>
      simp only [subst, substList_eq, rename, renames_eq, List.map_map, Function.comp_def,
        List.map_congr_left ih]
  | keyOf t ih => simp only [subst, rename, ih]
  | index t k iht ihk | mapped _ t k _ iht ihk => simp only [subst, rename, iht, ihk]

theorem rename_eq_param {t : Ty} {x : TypeParam} : t.rename ρ = param (ρ.map x) ↔ t = param x :=
  ⟨fun h => rename_inj (u := param x) h, fun h => by rw [h]; rfl⟩

end Ty

namespace Bindings

def rename (ρ : Renaming) (γ : Bindings) : Bindings :=
  γ.map fun binding => (ρ.map binding.1, binding.2.rename ρ)

variable {ρ : Renaming}

theorem lookup_rename (γ : Bindings) (x : TypeParam) :
    (γ.rename ρ).lookup (ρ.map x) = (γ.lookup x).map (Ty.rename ρ) := by
  induction γ with
  | nil => rfl
  | cons binding rest ih =>
      rw [rename] at ih
      rw [rename, List.map_cons, List.lookup_cons, List.lookup_cons, ih]
      by_cases hx : x = binding.1
      · rw [hx, beq_self_eq_true, beq_self_eq_true]
        rfl
      · rw [beq_false_of_ne hx, beq_false_of_ne fun h => hx (ρ.injective h)]

theorem hide_rename (γ : Bindings) (x : TypeParam) :
    (γ.rename ρ).hide (ρ.map x) = (γ.hide x).rename ρ := by
  rw [hide, hide, rename, rename, List.filter_map]
  congr 2
  funext binding
  simp only [Function.comp_apply, ne_eq, ρ.map_eq_iff]

theorem bind_rename (γ : Bindings) (x : TypeParam) (t : Ty) :
    (γ.bind x t).rename ρ = (γ.rename ρ).bind (ρ.map x) (t.rename ρ) := by
  induction γ with
  | nil => rfl
  | cons binding rest ih =>
      simp only [rename, bind, List.map_cons, ρ.map_eq_iff] at ih ⊢
      split
      · rfl
      · rw [List.map_cons, ih]

theorem ofPairs_rename (pairs : List (TypeParam × Ty)) :
    (ofPairs pairs).rename ρ = ofPairs (rename ρ pairs) := by
  suffices hfold : ∀ γ : Bindings,
      (pairs.foldl (fun bindings pair => bindings.bind pair.1 pair.2) γ).rename ρ =
        (rename ρ pairs).foldl (fun bindings pair => bindings.bind pair.1 pair.2) (γ.rename ρ) from
    hfold []
  induction pairs with
  | nil => exact fun γ => rfl
  | cons pair rest ih =>
      intro γ
      rw [List.foldl_cons, ih, bind_rename]
      rfl

theorem bindNew_rename (γ : Bindings) (x : TypeParam) (t : Ty) :
    (γ.bindNew x t).rename ρ = (γ.rename ρ).bindNew (ρ.map x) (t.rename ρ) := by
  rw [bindNew, bindNew, lookup_rename, Option.isSome_map]
  split
  · rfl
  · exact List.map_append

theorem foldl_bindNew_rename (pairs : List (TypeParam × Ty)) (γ : Bindings) :
    (pairs.foldl (fun bindings pair => bindings.bindNew pair.1 pair.2) γ).rename ρ =
      (rename ρ pairs).foldl (fun bindings pair => bindings.bindNew pair.1 pair.2)
        (γ.rename ρ) := by
  induction pairs generalizing γ with
  | nil => rfl
  | cons pair rest ih =>
      rw [List.foldl_cons, ih, bindNew_rename]
      rfl

theorem zip_rename (xs : List TypeParam) (ts : List Ty) :
    rename ρ (xs.zip ts) = (xs.map ρ.map).zip (ts.map (Ty.rename ρ)) := by
  rw [rename, List.zip_map]
  rfl

end Bindings

namespace Ty

variable {ρ : Renaming}

theorem rename_chase (γ : Bindings) (x : TypeParam) :
    (chase γ x).rename ρ = chase (γ.rename ρ) (ρ.map x) := by
  cases hx : γ.lookup x with
  | none =>
      have hx' : (γ.rename ρ).lookup (ρ.map x) = none := by rw [Bindings.lookup_rename, hx]; rfl
      rw [chase_of_none hx, chase_of_none hx']
      rfl
  | some t =>
      have hx' : (γ.rename ρ).lookup (ρ.map x) = some (t.rename ρ) := by
        rw [Bindings.lookup_rename, hx]
        rfl
      by_cases hself : t = param x
      · subst hself
        rw [chase_of_self hx, chase_of_self hx']
        rfl
      · have hself' : t.rename ρ ≠ param (ρ.map x) := fun h => hself (rename_eq_param.1 h)
        rw [chase_of_some hx hself, chase_of_some hx' hself', Bindings.hide_rename]
        exact rename_subst (fun y => rename_chase (γ.hide x) y) t
termination_by γ.length
decreasing_by exact Bindings.length_hide_lt hx

theorem rename_substitute (γ : Bindings) (t : Ty) :
    (t.substitute γ).rename ρ = (t.rename ρ).substitute (γ.rename ρ) :=
  rename_subst (rename_chase γ) t

end Ty

/-! Declarations and catalogs. -/

namespace Property

def rename (ρ : Renaming) (p : Property) : Property :=
  { p with type? := p.type?.map (Ty.rename ρ) }

end Property

namespace Heritage

def rename (ρ : Renaming) (h : Heritage) : Heritage :=
  { h with args := h.args.map (Ty.rename ρ) }

theorem annotation_rename (ρ : Renaming) (h : Heritage) :
    Heritage.annotation (h.rename ρ) = h.annotation.rename ρ := by
  simp only [rename, annotation, Ty.rename, Ty.renames_eq]

end Heritage

namespace Declaration

def Body.rename (ρ : Renaming) : Body → Body
  | .interface heritage members =>
      .interface (heritage.map (Heritage.rename ρ)) (members.map (Property.rename ρ))
  | .nominal heritage members =>
      .nominal (heritage.map (Heritage.rename ρ)) (members.map (Property.rename ρ))
  | .alias type? => .alias (type?.map (Ty.rename ρ))
  | .bare => .bare
  | .property p => .property (p.rename ρ)

def rename (ρ : Renaming) (d : Declaration) : Declaration :=
  { d with params := d.params.map ρ.map, body := d.body.rename ρ }

variable {ρ : Renaming}

theorem kind?_rename (d : Declaration) : (d.rename ρ).kind? = d.kind? := by
  obtain ⟨_, _, _, _, _, body⟩ := d
  cases body <;> rfl

theorem members_rename (d : Declaration) :
    (d.rename ρ).members = d.members.map (Property.rename ρ) := by
  obtain ⟨_, _, _, _, _, body⟩ := d
  cases body <;> rfl

theorem heritage_rename (d : Declaration) :
    (d.rename ρ).heritage = d.heritage.map (Heritage.rename ρ) := by
  obtain ⟨_, _, _, _, _, body⟩ := d
  cases body <;> rfl

theorem arity_rename (d : Declaration) : (d.rename ρ).arity = d.arity :=
  List.length_map _

end Declaration

/-! What is found goes along with the renaming, and so does what is made of it. -/

theorem bind_eq_map {α α' β β' : Type} {x : Except Fault α} {x' : Except Fault α'}
    {f : α → Except Fault β} {f' : α' → Except Fault β'} {r : α → α'} {r' : β → β'}
    (hx : x' = x.map r) (hf : ∀ a, x = .ok a → f' (r a) = (f a).map r') :
    (x' >>= f') = (x >>= f).map r' := by
  subst hx
  cases x with
  | error fault => rfl
  | ok a => exact hf a rfl

theorem mapM_eq_map {α α' β β' : Type} {f : α → Except Fault β} {f' : α' → Except Fault β'}
    {g : α → α'} {r : β → β'} (xs : List α) (h : ∀ x ∈ xs, f' (g x) = (f x).map r) :
    (xs.map g).mapM f' = (xs.mapM f).map (List.map r) := by
  induction xs with
  | nil => rfl
  | cons x rest ih =>
      rw [List.forall_mem_cons] at h
      rw [List.map_cons, List.mapM_cons, List.mapM_cons]
      refine bind_eq_map h.1 fun y _ => ?_
      exact bind_eq_map (ih h.2) fun ys _ => rfl

theorem foldlM_eq_map {α α' β β' : Type} {f : β → α → Except Fault β}
    {f' : β' → α' → Except Fault β'} {g : α → α'} {r : β → β'} (xs : List α) (init : β)
    (h : ∀ b, ∀ x ∈ xs, f' (r b) (g x) = (f b x).map r) :
    (xs.map g).foldlM f' (r init) = (xs.foldlM f init).map r := by
  induction xs generalizing init with
  | nil => rfl
  | cons x rest ih =>
      rw [List.map_cons, List.foldlM_cons, List.foldlM_cons]
      refine bind_eq_map (h init x List.mem_cons_self) fun b _ => ?_
      exact ih b fun b x hx => h b x (List.mem_cons_of_mem _ hx)

namespace Catalog

def rename (ρ : Renaming) (cat : Catalog) : Catalog where
  entries := cat.entries.map fun entry => (entry.1, entry.2.rename ρ)
  files := cat.files

variable {cat : Catalog} {ρ : Renaming}

theorem declared?_rename (decl : DeclId) :
    (cat.rename ρ).declared? decl = (cat.declared? decl).map (Declaration.rename ρ) := by
  simp only [declared?, rename]
  induction cat.entries with
  | nil => rfl
  | cons entry rest ih =>
      rw [List.map_cons, List.lookup_cons, List.lookup_cons, ih]
      cases decl == entry.1 <;> rfl

theorem get_rename (s : String) :
    (cat.rename ρ).get s = (cat.get s).map (Declaration.rename ρ) := by
  rw [get, get, find?, find?, declared?_rename]
  cases cat.declared? (.listed s) <;> rfl

theorem siteOf_rename (decl : DeclId) : (cat.rename ρ).siteOf decl = cat.siteOf decl := by
  rw [siteOf, siteOf, declared?_rename]
  cases cat.declared? decl <;> rfl

theorem shortName_rename (decl : DeclId) : (cat.rename ρ).shortName decl = cat.shortName decl := by
  rw [shortName, shortName, declared?_rename]
  cases cat.declared? decl <;> rfl

theorem paramsOf_rename (t : Ty) :
    (cat.rename ρ).paramsOf (t.rename ρ) = (cat.paramsOf t).map ρ.map := by
  cases t with
  | object kind decl elements =>
      simp only [Ty.rename, paramsOf, declared?_rename]
      cases cat.declared? decl <;> rfl
  | _ => rfl

theorem isApplicable_rename (t : Ty) : isApplicable (t.rename ρ) = isApplicable t := by
  cases t <;> rfl

theorem reference_rename (target : Ty) (args : List Ty) :
    (cat.rename ρ).reference (target.rename ρ) (args.map (Ty.rename ρ)) =
      (cat.reference target args).map (Ty.rename ρ) := by
  rw [reference, reference, isApplicable_rename, paramsOf_rename, List.length_map, List.length_map]
  split
  · rfl
  · split
    · rfl
    · simp only [pure, Except.pure, Except.map, Ty.rename, Ty.renames_eq]

theorem instanceOf_rename (s : String) (d : Declaration) (args : List Ty) :
    (cat.rename ρ).instanceOf s (d.rename ρ) (args.map (Ty.rename ρ)) =
      (cat.instanceOf s d args).map (Ty.rename ρ) := by
  have hempty : (d.rename ρ).params.isEmpty = d.params.isEmpty := List.isEmpty_map
  have hrenamed : (d.rename ρ).body = d.body.rename ρ := rfl
  have hobject : ∀ kind, d.kind? = some kind → (cat.rename ρ).instanceOf s (d.rename ρ)
      (args.map (Ty.rename ρ)) = (cat.instanceOf s d args).map (Ty.rename ρ) := by
    intro kind hkind
    have hkind' : (d.rename ρ).kind? = some kind := d.kind?_rename.trans hkind
    rw [instanceOf_object hkind, instanceOf_object hkind', hempty]
    split
    · rfl
    · exact reference_rename (.object kind d.id []) args
  cases hbody : d.body with
  | interface heritage members => exact hobject .interface (by rw [Declaration.kind?, hbody])
  | nominal heritage members => exact hobject .nominal (by rw [Declaration.kind?, hbody])
  | bare | property _ =>
      rw [hbody] at hrenamed
      simp only [instanceOf, hbody, hrenamed, Declaration.Body.rename]
      rfl
  | «alias» type? =>
      rw [hbody] at hrenamed
      cases type? with
      | none =>
          simp only [instanceOf, hbody, hrenamed, Declaration.Body.rename]
          rfl
      | some t =>
          have hmapped : (t.rename ρ).isMapped = t.isMapped := by cases t <;> rfl
          rw [instanceOf_alias hbody, instanceOf_alias hrenamed, hempty, hmapped]
          split
          · rfl
          · split
            · exact reference_rename t args
            · simp only [Except.map, Ty.rename_substitute, Bindings.ofPairs_rename,
                Bindings.zip_rename, Declaration.rename]

theorem resolve_rename (t : Ty) :
    (cat.rename ρ).resolve (t.rename ρ) = (cat.resolve t).map (Ty.rename ρ) := by
  cases t with
  | name s args =>
      simp only [Ty.rename, Ty.renames_eq, resolve]
      refine bind_eq_map (get_rename s) fun d _ => ?_
      rw [List.length_map, Declaration.arity_rename]
      split
      · rfl
      · exact instanceOf_rename s d args
  | _ => rfl

theorem basesOf_rename (d : Declaration) :
    (cat.rename ρ).basesOf (d.rename ρ) = (cat.basesOf d).map (List.map (Ty.rename ρ)) := by
  rw [basesOf, basesOf, Declaration.heritage_rename]
  refine mapM_eq_map d.heritage fun h _ => ?_
  rw [Heritage.annotation_rename]
  exact resolve_rename h.annotation

theorem bases_rename (t : Ty) :
    (cat.rename ρ).bases (t.rename ρ) = (cat.bases t).map (List.map (Ty.rename ρ)) := by
  rw [Catalog.bases, Catalog.bases, Ty.head_rename]
  cases t.head with
  | object kind decl elements =>
      simp only [Ty.rename, declared?_rename]
      cases cat.declared? decl with
      | none => rfl
      | some d => exact basesOf_rename d
  | _ => rfl

theorem ancestorsFrom_rename (limit : Nat) (queue seen : List Ty) :
    (cat.rename ρ).ancestorsFrom limit (queue.map (Ty.rename ρ)) (seen.map (Ty.rename ρ)) =
      (cat.ancestorsFrom limit queue seen).map (List.map (Ty.rename ρ)) := by
  induction limit generalizing queue seen with
  | zero => cases queue <;> rfl
  | succ limit ih =>
      cases queue with
      | nil => rfl
      | cons base queue =>
          have hseen : (base.rename ρ).head.key ∈ seen.map (Ty.rename ρ) ↔
              base.head.key ∈ seen := by
            rw [Ty.head_rename, Ty.key_rename]
            exact List.mem_map_of_injective fun _ _ => Ty.rename_inj
          simp only [List.map_cons, ancestorsFrom, hseen]
          split
          · exact ih queue seen
          · rw [Ty.head_rename]
            refine bind_eq_map (bases_rename base.head) fun more _ => ?_
            rw [← List.map_append, Ty.key_rename, ← List.map_cons]
            exact bind_eq_map (ih _ _) fun rest _ => rfl

theorem length_clauses_rename : (cat.rename ρ).clauses.length = cat.clauses.length := by
  simp only [clauses, rename, List.flatMap_map, Declaration.heritage_rename, List.length_flatMap,
    List.length_map]

theorem ancestors_rename (t : Ty) :
    (cat.rename ρ).ancestors (t.rename ρ) = (cat.ancestors t).map (List.map (Ty.rename ρ)) := by
  refine bind_eq_map (bases_rename t) fun bases _ => ?_
  rw [length_clauses_rename, Ty.key_rename]
  exact ancestorsFrom_rename _ bases [t.key]

theorem ownBindings_rename (t : Ty) :
    (cat.rename ρ).ownBindings (t.rename ρ) = (cat.ownBindings t).rename ρ := by
  rw [ownBindings, ownBindings, Bindings.ofPairs_rename, Bindings.zip_rename, Ty.head_rename,
    paramsOf_rename, Ty.args_rename]

theorem inherited_rename (found : List Ty) :
    (found.map (Ty.rename ρ)).flatMap (fun base =>
        ((cat.rename ρ).paramsOf base.head).zip base.args) =
      Bindings.rename ρ (found.flatMap fun base => (cat.paramsOf base.head).zip base.args) := by
  rw [Bindings.rename, List.map_flatMap, List.flatMap_map]
  refine List.flatMap_congr fun base _ => ?_
  rw [Ty.head_rename, paramsOf_rename, Ty.args_rename]
  exact (Bindings.zip_rename _ _).symm

theorem bindings_rename (t : Ty) :
    (cat.rename ρ).bindings (t.rename ρ) = (cat.bindings t).map (Bindings.rename ρ) := by
  have hown : (cat.rename ρ).ownBindings (t.rename ρ) = (cat.ownBindings t).rename ρ :=
    ownBindings_rename t
  unfold Catalog.bindings
  rw [Ty.head_rename]
  cases t.head with
  | object kind decl elements =>
      cases kind with
      | interface =>
          refine bind_eq_map (ancestors_rename (.object .interface decl elements)) fun found _ => ?_
          simp only [inherited_rename, pure, Except.pure, Except.map, hown,
            Bindings.foldl_bindNew_rename]
      | nominal => simp only [Ty.rename, pure, Except.pure, Except.map, hown]
  | _ => simp only [Ty.rename, pure, Except.pure, Except.map, hown]

theorem followNames_rename (limit : Nat) (seen : List String) (t : Ty) :
    (cat.rename ρ).followNames limit seen (t.rename ρ) =
      (cat.followNames limit seen t).map (Ty.rename ρ) := by
  induction limit generalizing seen t with
  | zero => cases t <;> rfl
  | succ limit ih =>
      cases t with
      | name s args =>
          simp only [Ty.rename, followNames]
          split
          · rfl
          · exact bind_eq_map (resolve_rename (.name s args)) fun t _ => ih _ t
      | _ => rfl

def ObjectHead.rename (ρ : Renaming) (head : ObjectHead) : ObjectHead :=
  { head with elements := Ty.renames ρ head.elements }

theorem ObjectHead.rename_inj {head other : ObjectHead} (h : head.rename ρ = other.rename ρ) :
    head = other := by
  obtain ⟨kind, decl, elements⟩ := head
  simp only [rename, mk.injEq, Ty.renames_eq] at h
  obtain ⟨rfl, rfl, helements⟩ := h
  rw [Ty.map_rename_inj (fun _ _ _ => Ty.rename_inj) helements]

def Lineage.rename (ρ : Renaming) (line : Lineage) : Lineage where
  order := line.order.map (ObjectHead.rename ρ)
  seen := line.seen.map (ObjectHead.rename ρ)

theorem objectHead?_rename (t : Ty) :
    objectHead? (t.rename ρ) = (objectHead? t).map (ObjectHead.rename ρ) := by
  rw [objectHead?, objectHead?, Ty.head_rename]
  cases t.head with
  | object kind decl elements =>
      simp only [Ty.rename, Option.map, ObjectHead.rename, Ty.keys_eq, Ty.renames_eq, List.map_map,
        Function.comp_def, Ty.key_rename]
  | _ => rfl

theorem hasMembers_rename (head : ObjectHead) :
    (cat.rename ρ).hasMembers (head.rename ρ) = cat.hasMembers head := by
  simp only [hasMembers, ObjectHead.rename, declared?_rename]
  cases cat.declared? head.decl with
  | none => rfl
  | some d => exact congrArg Option.isSome d.kind?_rename

theorem lineage_rename (limit : Nat) (head : ObjectHead) (line : Lineage) :
    (cat.rename ρ).lineage limit (head.rename ρ) (line.rename ρ) =
      (cat.lineage limit head line).map (Lineage.rename ρ) := by
  induction limit generalizing head line with
  | zero => rfl
  | succ limit ih =>
      have hseen : head.rename ρ ∈ (line.rename ρ).seen ↔ head ∈ line.seen :=
        List.mem_map_of_injective fun _ _ => ObjectHead.rename_inj
      have hheads (bases : List Ty) : (bases.map (Ty.rename ρ)).filterMap objectHead? =
          (bases.filterMap objectHead?).map (ObjectHead.rename ρ) := by
        simp only [List.filterMap_map, List.map_filterMap, Function.comp_def, objectHead?_rename]
      simp only [lineage, hseen]
      split
      · rfl
      · refine bind_eq_map (bases_rename (.object head.kind head.decl head.elements))
          fun bases _ => ?_
        rw [hheads, hasMembers_rename]
        let start : Lineage := ⟨line.order, head :: line.seen⟩
        have hfold : ((bases.filterMap objectHead?).map (ObjectHead.rename ρ)).foldlM
            (fun line base => (cat.rename ρ).lineage limit base line) (start.rename ρ) =
            ((bases.filterMap objectHead?).foldlM (fun line base => cat.lineage limit base line)
              start).map (Lineage.rename ρ) :=
          foldlM_eq_map _ start fun line base _ => ih base line
        refine bind_eq_map hfold fun line _ => ?_
        split
        · simp only [Lineage.rename, pure, Except.pure, Except.map, List.map_append, List.map_cons,
            List.map_nil]
        · rfl

theorem membersOf_rename (head : ObjectHead) :
    (cat.rename ρ).membersOf (head.rename ρ) = (cat.membersOf head).map (Property.rename ρ) := by
  simp only [membersOf, ObjectHead.rename, declared?_rename]
  cases cat.declared? head.decl with
  | none => rfl
  | some d => exact d.members_rename

theorem foldl_overlay_rename (members found : List Property) :
    (members.map (Property.rename ρ)).foldl overlay (found.map (Property.rename ρ)) =
      (members.foldl overlay found).map (Property.rename ρ) := by
  induction members generalizing found with
  | nil => rfl
  | cons member rest ih =>
      have hstep : overlay (found.map (Property.rename ρ)) (member.rename ρ) =
          (overlay found member).map (Property.rename ρ) := by
        rw [overlay, overlay, List.map_append, List.filter_map]
        rfl
      rw [List.map_cons, List.foldl_cons, List.foldl_cons, hstep, ih]

theorem properties_rename (t : Ty) :
    (cat.rename ρ).properties (t.rename ρ) =
      (cat.properties t).map (List.map (Property.rename ρ)) := by
  unfold Catalog.properties
  have hlength : (cat.rename ρ).entries.length = cat.entries.length := List.length_map _
  rw [hlength, length_clauses_rename]
  refine bind_eq_map (followNames_rename _ _ t) fun u _ => ?_
  rw [objectHead?_rename]
  cases objectHead? u with
  | none => rfl
  | some head =>
      refine bind_eq_map (lineage_rename _ head {}) fun line _ => ?_
      have hmembers : (line.rename ρ).order.flatMap (cat.rename ρ).membersOf =
          (line.order.flatMap cat.membersOf).map (Property.rename ρ) := by
        simp only [Lineage.rename, List.flatMap_map, List.map_flatMap, membersOf_rename]
      rw [hmembers]
      exact congrArg Except.ok (foldl_overlay_rename _ [])

theorem property?_rename (t : Ty) (key : String) :
    (cat.rename ρ).property? (t.rename ρ) key =
      (cat.property? t key).map (Option.map (Property.rename ρ)) := by
  refine bind_eq_map (properties_rename t) fun properties _ => ?_
  rw [List.find?_map]
  rfl

theorem propertyType_rename (t : Ty) (key : String) :
    (cat.rename ρ).propertyType (t.rename ρ) key = (cat.propertyType t key).map (Ty.rename ρ) := by
  refine bind_eq_map (property?_rename t key) fun found _ => ?_
  cases found with
  | none =>
      simp only [Option.map, Ty.render_rename]
      rfl
  | some p =>
      obtain ⟨_, type?, _, _, _⟩ := p
      cases type? <;> rfl

theorem propertyTypes_rename (object index : Ty) (keys : Shape) :
    (cat.rename ρ).propertyTypes (object.rename ρ) (index.rename ρ) keys =
      (cat.propertyTypes object index keys).map (List.map (Ty.rename ρ)) := by
  cases keys with
  | exact keys =>
      have hkeys := mapM_eq_map (f := cat.propertyType object) (g := id) keys.toList
        fun key _ => propertyType_rename (ρ := ρ) object key
      rwa [List.map_id] at hkeys
  | always | never =>
      have hrender : (Ty.index (object.rename ρ) (index.rename ρ)).render =
          (Ty.index object index).render := Ty.render_rename (.index object index)
      simp only [propertyTypes, hrender]
      rfl

end Catalog

end TypeGuard
