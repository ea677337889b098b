import TypeGuard.Proofs.Heritage
import TypeGuard.Proofs.Numbering

/-! Nothing that is done to a type depends on the values of the literals inside of it. So types
that are the same up to such values, as types with equal keys are, stay so. -/

namespace TypeGuard

namespace Ty

mutual
/-- Changes the values of all literals. -/
def mapLiterals (g : Value → Value) : Ty → Ty
  | primitive s => primitive s
  | literal v => literal (g v)
  | boolean b => boolean b
  | union members => union (mapLiteralsList g members)
  | inter members => inter (mapLiteralsList g members)
  | object kind decl elements => object kind decl (mapLiteralsList g elements)
  | sequence kind elements => sequence kind (mapLiteralsList g elements)
  | ref target args => ref (target.mapLiterals g) (mapLiteralsList g args)
  | param p => param p
  | keyOf t => keyOf (t.mapLiterals g)
  | index t k => index (t.mapLiterals g) (k.mapLiterals g)
  | mapped p constraint template params =>
      mapped p (constraint.mapLiterals g) (template.mapLiterals g) params
  | name s args => name s (mapLiteralsList g args)

def mapLiteralsList (g : Value → Value) : List Ty → List Ty
  | [] => []
  | t :: rest => t.mapLiterals g :: mapLiteralsList g rest
end

attribute [grind =] mapLiterals mapLiteralsList

@[simp] theorem mapLiteralsList_eq (g : Value → Value) (ts : List Ty) :
    mapLiteralsList g ts = ts.map (mapLiterals g) := by
  induction ts with
  | nil => rfl
  | cons t rest ih => simp only [mapLiteralsList, List.map_cons, ih]

theorem mapLiterals_id (t : Ty) : t.mapLiterals id = t := by
  induction t with
  | primitive _ | literal _ | boolean _ | param _ => rfl
  | union members ih | inter members ih | object _ _ members ih | sequence _ members ih
  | name _ members ih =>
      simp only [mapLiterals, mapLiteralsList_eq, List.map_congr_left ih, List.map_id']
  | ref target args ihtarget ih =>
      simp only [mapLiterals, mapLiteralsList_eq, ihtarget, List.map_congr_left ih, List.map_id']
  | keyOf t ih => simp only [mapLiterals, ih]
  | index t k iht ihk | mapped _ t k _ iht ihk => simp only [mapLiterals, iht, ihk]

theorem mapLiterals_literalKey (t : Ty) : t.mapLiterals Value.literalKey = t.key := by
  induction t with
  | primitive _ | literal _ | boolean _ | param _ => rfl
  | union members ih | inter members ih | object _ _ members ih | sequence _ members ih
  | name _ members ih =>
      simp only [mapLiterals, mapLiteralsList_eq, key, keys_eq, List.map_congr_left ih]
  | ref target args ihtarget ih =>
      simp only [mapLiterals, mapLiteralsList_eq, key, keys_eq, ihtarget, List.map_congr_left ih]
  | keyOf t ih => simp only [mapLiterals, key, ih]
  | index t k iht ihk | mapped _ t k _ iht ihk => simp only [mapLiterals, key, iht, ihk]

variable {g : Value → Value}

@[simp] theorem params_mapLiterals (t : Ty) : (t.mapLiterals g).params = t.params := by
  induction t with
  | primitive _ | literal _ | boolean _ | param _ => rfl
  | union members ih | inter members ih | object _ _ members ih | sequence _ members ih
  | ref _ members _ ih | name _ members ih =>
      simp only [mapLiterals, mapLiteralsList_eq, params, paramsList_eq, List.flatMap_map]
      exact List.flatMap_congr ih
  | keyOf t ih => exact ih
  | index t k iht ihk | mapped _ t k _ iht ihk => simp only [mapLiterals, params, iht, ihk]

@[simp] theorem free_mapLiterals (t : Ty) : (t.mapLiterals g).free = t.free := by
  induction t with
  | primitive _ | literal _ | boolean _ | param _ => rfl
  | union members ih | inter members ih | object _ _ members ih | sequence _ members ih
  | ref _ members _ ih | name _ members ih =>
      simp only [mapLiterals, mapLiteralsList_eq, free, freeList_eq, List.flatMap_map]
      exact List.flatMap_congr ih
  | keyOf t ih => exact ih
  | index t k iht ihk | mapped _ t k _ iht ihk => simp only [mapLiterals, free, iht, ihk]

theorem mapLiterals_subst (σ : TypeParam → Ty) (t : Ty) :
    (t.subst σ).mapLiterals g = (t.mapLiterals g).subst fun p => (σ p).mapLiterals g := by
  induction t with
  | primitive _ | literal _ | boolean _ | param _ => rfl
  | union members ih | inter members ih | object _ _ members ih | sequence _ members ih
  | ref _ members _ ih | name _ members ih =>
      simp only [subst, substList_eq, mapLiterals, mapLiteralsList_eq, List.map_map,
        Function.comp_def]
      rw [List.map_congr_left ih]
  | keyOf t ih => simp only [subst, mapLiterals, ih]
  | index t k iht ihk | mapped _ t k _ iht ihk => simp only [subst, mapLiterals, iht, ihk]

theorem mapLiterals_eq_param {t : Ty} {p : TypeParam} :
    t.mapLiterals g = param p ↔ t = param p := by
  cases t <;> simp [mapLiterals]

theorem mapLiterals_eq_object {t : Ty} {kind : ObjectKind} {decl : DeclId} :
    t.mapLiterals g = object kind decl [] ↔ t = object kind decl [] := by
  cases t <;> simp [mapLiterals]

theorem mapLiterals_subst_congr {σ τ : TypeParam → Ty} {t u : Ty}
    (h : t.mapLiterals g = u.mapLiterals g)
    (hσ : ∀ p ∈ t.params, (σ p).mapLiterals g = (τ p).mapLiterals g) :
    (t.subst σ).mapLiterals g = (u.subst τ).mapLiterals g := by
  rw [mapLiterals_subst, mapLiterals_subst, ← h]
  apply subst_congr
  intro p hp
  rw [params_mapLiterals] at hp
  exact hσ p hp

theorem isMapped_congr {t u : Ty} (h : t.mapLiterals g = u.mapLiterals g) :
    t.isMapped = u.isMapped := by
  have hsame : ∀ t : Ty, (t.mapLiterals g).isMapped = t.isMapped := fun t => by cases t <;> rfl
  rw [← hsame t, h, hsame]

theorem head_mapLiterals (t : Ty) : (t.mapLiterals g).head = t.head.mapLiterals g := by
  cases t <;> rfl

theorem args_mapLiterals (t : Ty) : (t.mapLiterals g).args = t.args.map (mapLiterals g) := by
  cases t with
  | ref target args => exact mapLiteralsList_eq g args
  | _ => rfl

theorem Bare.congr {t u : Ty} (h : t.mapLiterals g = u.mapLiterals g) (ht : t.Bare) : u.Bare := by
  intro kind decl elements hu
  have hhead := head_mapLiterals (g := g) t
  rw [h, head_mapLiterals, hu] at hhead
  cases htop : t.head with
  | object kind' decl' elements' =>
      cases ht _ _ _ htop
      rw [htop] at hhead
      exact List.map_eq_nil_iff.1
        ((mapLiteralsList_eq g elements).symm.trans (Ty.object.inj hhead).2.2)
  | _ =>
      rw [htop] at hhead
      cases hhead

end Ty

namespace Bindings

/-- Changes the values of all literals that are bound. -/
def mapLiterals (g : Value → Value) (γ : Bindings) : Bindings :=
  γ.map fun binding => (binding.1, binding.2.mapLiterals g)

variable {g : Value → Value}

theorem lookup_mapLiterals (γ : Bindings) (p : TypeParam) :
    (γ.mapLiterals g).lookup p = (γ.lookup p).map (Ty.mapLiterals g) := by
  induction γ with
  | nil => rfl
  | cons binding rest ih =>
      rw [mapLiterals] at ih
      rw [mapLiterals, List.map_cons, List.lookup_cons, List.lookup_cons, ih]
      cases p == binding.1 <;> rfl

theorem hide_mapLiterals (γ : Bindings) (p : TypeParam) :
    (γ.mapLiterals g).hide p = (γ.hide p).mapLiterals g :=
  List.filter_map

theorem bind_mapLiterals (γ : Bindings) (p : TypeParam) (t : Ty) :
    (γ.bind p t).mapLiterals g = (γ.mapLiterals g).bind p (t.mapLiterals g) := by
  induction γ with
  | nil => rfl
  | cons binding rest ih =>
      simp only [mapLiterals, bind, List.map_cons] at ih ⊢
      split
      · rfl
      · rw [List.map_cons, ih]

theorem ofPairs_mapLiterals (pairs : List (TypeParam × Ty)) :
    (ofPairs pairs).mapLiterals g = ofPairs (mapLiterals g pairs) := by
  suffices hfold : ∀ γ : Bindings,
      (pairs.foldl (fun bindings pair => bindings.bind pair.1 pair.2) γ).mapLiterals g =
        (mapLiterals g pairs).foldl (fun bindings pair => bindings.bind pair.1 pair.2)
          (γ.mapLiterals g) from hfold []
  induction pairs with
  | nil => exact fun γ => rfl
  | cons pair rest ih =>
      intro γ
      rw [List.foldl_cons, ih, bind_mapLiterals]
      rfl

theorem bindNew_mapLiterals (γ : Bindings) (p : TypeParam) (t : Ty) :
    (γ.bindNew p t).mapLiterals g = (γ.mapLiterals g).bindNew p (t.mapLiterals g) := by
  rw [bindNew, bindNew, lookup_mapLiterals, Option.isSome_map]
  split
  · rfl
  · exact List.map_append

theorem foldl_bindNew_mapLiterals (pairs : List (TypeParam × Ty)) (γ : Bindings) :
    (pairs.foldl (fun bindings pair => bindings.bindNew pair.1 pair.2) γ).mapLiterals g =
      (mapLiterals g pairs).foldl (fun bindings pair => bindings.bindNew pair.1 pair.2)
        (γ.mapLiterals g) := by
  induction pairs generalizing γ with
  | nil => rfl
  | cons pair rest ih =>
      rw [List.foldl_cons, ih, bindNew_mapLiterals]
      rfl

theorem zip_mapLiterals (xs : List TypeParam) (ts : List Ty) :
    mapLiterals g (xs.zip ts) = xs.zip (ts.map (Ty.mapLiterals g)) := by
  rw [mapLiterals, List.zip_map_right]
  rfl

end Bindings

namespace Ty

variable {g : Value → Value}

theorem mapLiterals_chase (γ : Bindings) (p : TypeParam) :
    (chase γ p).mapLiterals g = chase (γ.mapLiterals g) p := by
  cases hp : γ.lookup p with
  | none =>
      have hp' : (γ.mapLiterals g).lookup p = none := by rw [Bindings.lookup_mapLiterals, hp]; rfl
      rw [chase_of_none hp, chase_of_none hp']
      rfl
  | some t =>
      have hp' : (γ.mapLiterals g).lookup p = some (t.mapLiterals g) := by
        rw [Bindings.lookup_mapLiterals, hp]
        rfl
      by_cases hself : t = param p
      · subst hself
        rw [chase_of_self hp, chase_of_self hp']
        rfl
      · have hself' : t.mapLiterals g ≠ param p := fun h => hself (mapLiterals_eq_param.1 h)
        rw [chase_of_some hp hself, chase_of_some hp' hself', mapLiterals_subst,
          Bindings.hide_mapLiterals]
        apply subst_congr
        intro q _
        exact mapLiterals_chase (γ.hide p) q
termination_by γ.length
decreasing_by exact Bindings.length_hide_lt hp

theorem mapLiterals_substitute (γ : Bindings) (t : Ty) :
    (t.substitute γ).mapLiterals g = (t.mapLiterals g).substitute (γ.mapLiterals g) := by
  rw [substitute, substitute, mapLiterals_subst]
  exact subst_congr fun p _ => mapLiterals_chase γ p

end Ty

namespace Catalog

variable {cat : Catalog} {g : Value → Value}

theorem resolve_congr {s : String} {args args' : List Ty} {t : Ty}
    (hargs : args.map (Ty.mapLiterals g) = args'.map (Ty.mapLiterals g))
    (h : cat.resolve (.name s args) = .ok t) :
    ∃ t', cat.resolve (.name s args') = .ok t' ∧ t.mapLiterals g = t'.mapLiterals g := by
  have hlength : args'.length = args.length := by
    rw [← List.length_map (Ty.mapLiterals g), ← hargs, List.length_map]
  simp only [resolve_eq_ok] at h ⊢
  cases h with
  | object hfind hkind hparams hnil =>
      rw [hnil] at hlength
      exact ⟨_, .object hfind hkind hparams (List.eq_nil_of_length_eq_zero hlength), rfl⟩
  | objectRef hfind hkind hparams harity htarget =>
      refine ⟨_, .objectRef hfind hkind hparams (hlength.trans harity) (hlength.trans htarget), ?_⟩
      simp only [Ty.mapLiterals, Ty.mapLiteralsList_eq, hargs]
  | body hfind hbody hparams hnil =>
      rw [hnil] at hlength
      exact ⟨_, .body hfind hbody hparams (List.eq_nil_of_length_eq_zero hlength), rfl⟩
  | mapped hfind hbody hparams harity htarget =>
      refine ⟨_, .mapped hfind hbody hparams (hlength.trans harity) (hlength.trans htarget), ?_⟩
      simp only [Ty.mapLiterals, Ty.mapLiteralsList_eq, hargs]
  | rewrite hfind hbody hmapped hparams harity =>
      refine ⟨_, .rewrite hfind hbody hmapped hparams (hlength.trans harity), ?_⟩
      simp only [Ty.mapLiterals_substitute, Bindings.ofPairs_mapLiterals, Bindings.zip_mapLiterals,
        hargs]

theorem paramsOf_mapLiterals (t : Ty) : cat.paramsOf (t.mapLiterals g) = cat.paramsOf t := by
  cases t <;> rfl

theorem ownBindings_mapLiterals (t : Ty) :
    (cat.ownBindings t).mapLiterals g = cat.ownBindings (t.mapLiterals g) := by
  rw [ownBindings, ownBindings, Bindings.ofPairs_mapLiterals, Bindings.zip_mapLiterals,
    Ty.head_mapLiterals, paramsOf_mapLiterals, Ty.args_mapLiterals]

theorem bindings_congr {t u : Ty} {bindings : Bindings} (h : t.mapLiterals g = u.mapLiterals g)
    (hbare : t.Bare) (hbindings : cat.bindings t = .ok bindings) :
    ∃ bindings', cat.bindings u = .ok bindings' ∧
      bindings.mapLiterals g = bindings'.mapLiterals g := by
  have hown : (cat.ownBindings t).mapLiterals g = (cat.ownBindings u).mapLiterals g := by
    rw [ownBindings_mapLiterals, ownBindings_mapLiterals, h]
  have hhead : t.head.mapLiterals g = u.head.mapLiterals g := by
    rw [← Ty.head_mapLiterals, h, Ty.head_mapLiterals]
  by_cases hinterface : ∃ decl, t.head = .object .interface decl []
  · obtain ⟨decl, ht⟩ := hinterface
    have hu : u.head = .object .interface decl [] := by
      rw [ht] at hhead
      exact Ty.mapLiterals_eq_object.1 hhead.symm
    obtain ⟨found, hancestors, rfl⟩ := (bindings_of_interface ht).1 hbindings
    refine ⟨_, (bindings_of_interface hu).2 ⟨found, hancestors, rfl⟩, ?_⟩
    rw [Bindings.foldl_bindNew_mapLiterals, Bindings.foldl_bindNew_mapLiterals, hown]
  · have ht : ∀ decl elements, t.head ≠ .object .interface decl elements := by
      intro decl elements ht
      cases hbare _ _ _ ht
      exact hinterface ⟨decl, ht⟩
    have hu : ∀ decl elements, u.head ≠ .object .interface decl elements := by
      intro decl elements hu
      rw [hu] at hhead
      cases htop : t.head with
      | object kind' decl' elements' =>
          rw [htop] at hhead
          obtain ⟨rfl, rfl, _⟩ := Ty.object.inj hhead
          exact ht decl' elements' htop
      | _ =>
          rw [htop] at hhead
          cases hhead
    cases (bindings_of_not_interface ht).symm.trans hbindings
    exact ⟨_, bindings_of_not_interface hu, hown⟩

end Catalog

end TypeGuard
