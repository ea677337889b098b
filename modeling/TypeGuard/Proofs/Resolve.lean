import TypeGuard.Catalog.Properties
import TypeGuard.Proofs.Substitution
import Mathlib.Data.List.Forall2

/-! What a name can stand for, and properties of all types inside a type that a catalog upholds. -/

namespace TypeGuard

theorem exists_of_forall₂_right {α β : Type} {R : α → β → Prop} {xs : List α} {ys : List β}
    (h : List.Forall₂ R xs ys) {y : β} (hy : y ∈ ys) : ∃ x ∈ xs, R x y := by
  induction h with
  | nil => cases hy
  | cons hxy _ ih =>
      rcases List.mem_cons.1 hy with rfl | hy
      · exact ⟨_, List.mem_cons_self, hxy⟩
      · obtain ⟨x, hx, hR⟩ := ih hy
        exact ⟨x, List.mem_cons_of_mem _ hx, hR⟩

theorem bind_eq_ok {α β : Type} {x : Except Fault α} {f : α → Except Fault β} {b : β} :
    x >>= f = .ok b ↔ ∃ a, x = .ok a ∧ f a = .ok b := by
  cases x with
  | error fault => simp [bind, Except.bind]
  | ok a => simp [bind, Except.bind]

theorem mapM_eq_ok {α β : Type} {f : α → Except Fault β} {xs : List α} {ys : List β} :
    xs.mapM f = .ok ys ↔ List.Forall₂ (fun x y => f x = .ok y) xs ys := by
  induction xs generalizing ys with
  | nil => simp [pure, Except.pure, eq_comm]
  | cons x rest ih =>
      rw [List.mapM_cons, List.forall₂_cons_left_iff]
      simp only [← ih]
      cases hx : f x with
      | error fault => simp [bind, Except.bind]
      | ok y =>
          cases hrest : rest.mapM f with
          | error fault => simp [bind, Except.bind]
          | ok ys' => simp [bind, Except.bind, pure, Except.pure, eq_comm]

theorem exists_mapM_eq_ok {α β : Type} {f : α → Except Fault β} {xs : List α}
    (h : ∀ x ∈ xs, ∃ y, f x = .ok y) : ∃ ys, xs.mapM f = .ok ys := by
  simp only [mapM_eq_ok]
  induction xs with
  | nil => exact ⟨[], .nil⟩
  | cons x rest ih =>
      rw [List.forall_mem_cons] at h
      obtain ⟨y, hy⟩ := h.1
      obtain ⟨ys, hys⟩ := ih h.2
      exact ⟨y :: ys, .cons hy hys⟩

namespace Ty

def isMapped : Ty → Bool
  | mapped _ _ _ _ => true
  | _ => false

/-- A declared object has no element types beside its declaration. -/
def Bare (t : Ty) : Prop :=
  ∀ kind decl elements, t.head = object kind decl elements → elements = []

theorem eq_mapped_of_isMapped {t : Ty} (h : t.isMapped = true) :
    ∃ x c u xs, t = mapped x c u xs := by
  cases t with
  | mapped x c u xs => exact ⟨x, c, u, xs, rfl⟩
  | _ => cases h

end Ty

namespace Declaration

/-- The types that a declaration is written with. -/
inductive Lists (d : Declaration) : Ty → Prop
  | body {t : Ty} (hbody : d.body = .alias (some t)) : Lists d t
  | argument {heritage : Heritage} {t : Ty} (hheritage : heritage ∈ d.heritage)
      (harg : t ∈ heritage.args) : Lists d t
  | member {p : Property} {t : Ty} (hmember : p ∈ d.members) (htype : p.type? = some t) : Lists d t

/-- The types that a declaration is written with, in a list. -/
def types (d : Declaration) : List Ty :=
  (match d.body with
    | .alias (some t) => [t]
    | _ => []) ++ d.heritage.flatMap Heritage.args ++ d.members.filterMap Property.type?

theorem Lists.mem_types {d : Declaration} {t : Ty} (h : d.Lists t) : t ∈ d.types := by
  rw [types, List.mem_append, List.mem_append]
  cases h with
  | body hbody =>
      rw [hbody]
      exact .inl (.inl List.mem_cons_self)
  | argument hheritage harg => exact .inl (.inr (List.mem_flatMap.2 ⟨_, hheritage, harg⟩))
  | member hmember htype => exact .inr (List.mem_filterMap.2 ⟨_, hmember, htype⟩)

end Declaration

namespace Catalog

variable {cat : Catalog}

/-- The types that a name with arguments can stand for. -/
inductive Resolves (cat : Catalog) (s : String) (args : List Ty) : Ty → Prop
  | object {d : Declaration} {kind : ObjectKind} (hfind : cat.find? s = some d)
      (hkind : d.kind? = some kind) (hparams : d.params = []) (hargs : args = []) :
      Resolves cat s args (.object kind d.id [])
  | objectRef {d : Declaration} {kind : ObjectKind} (hfind : cat.find? s = some d)
      (hkind : d.kind? = some kind) (hparams : d.params ≠ [])
      (harity : args.length = d.params.length)
      (htarget : args.length = (cat.paramsOf (.object kind d.id [])).length) :
      Resolves cat s args (.ref (.object kind d.id []) args)
  | body {d : Declaration} {t : Ty} (hfind : cat.find? s = some d)
      (hbody : d.body = .alias (some t)) (hparams : d.params = []) (hargs : args = []) :
      Resolves cat s args t
  | mapped {d : Declaration} {x : TypeParam} {c t : Ty} {xs : List TypeParam}
      (hfind : cat.find? s = some d) (hbody : d.body = .alias (some (.mapped x c t xs)))
      (hparams : d.params ≠ []) (harity : args.length = d.params.length)
      (htarget : args.length = xs.length) : Resolves cat s args (.ref (.mapped x c t xs) args)
  /-- A generic alias is rewritten. -/
  | rewrite {d : Declaration} {t : Ty} (hfind : cat.find? s = some d)
      (hbody : d.body = .alias (some t)) (hmapped : t.isMapped = false)
      (hparams : d.params ≠ []) (harity : args.length = d.params.length) :
      Resolves cat s args (t.substitute (.ofPairs (d.params.zip args)))

theorem reference_eq_ok {target t : Ty} {args : List Ty} (h : cat.reference target args = .ok t) :
    isApplicable target = true ∧ args.length = (cat.paramsOf target).length ∧
      t = .ref target args := by
  unfold reference at h
  split at h
  · cases h
  · next happlicable =>
      split at h
      · cases h
      · next hlength =>
          cases h
          exact ⟨by simpa using happlicable, Decidable.not_not.1 hlength, rfl⟩

theorem reference_ok {target : Ty} {args : List Ty} (happlicable : isApplicable target = true)
    (hlength : args.length = (cat.paramsOf target).length) :
    cat.reference target args = .ok (.ref target args) := by
  unfold reference
  rw [happlicable]
  simp [hlength, pure, Except.pure]

theorem instanceOf_object {s : String} {d : Declaration} {kind : ObjectKind} {args : List Ty}
    (hkind : d.kind? = some kind) :
    cat.instanceOf s d args = if d.params.isEmpty then .ok (.object kind d.id [])
      else cat.reference (.object kind d.id []) args := by
  unfold Declaration.kind? at hkind
  unfold instanceOf
  split at hkind
  · next heritage members hbody =>
      cases hkind
      simp only [hbody]
      rfl
  · next heritage members hbody =>
      cases hkind
      simp only [hbody]
      rfl
  · cases hkind

theorem instanceOf_alias {s : String} {d : Declaration} {t : Ty} {args : List Ty}
    (hbody : d.body = .alias (some t)) :
    cat.instanceOf s d args = if d.params.isEmpty then .ok t
      else if t.isMapped then cat.reference t args
      else .ok (t.substitute (.ofPairs (d.params.zip args))) := by
  unfold instanceOf
  simp only [hbody]
  cases t <;> rfl

theorem resolve_name {s : String} {args : List Ty} {d : Declaration} (hfind : cat.find? s = some d)
    (harity : args.length = d.params.length) :
    cat.resolve (.name s args) = cat.instanceOf s d args := by
  simp [resolve, get, hfind, Declaration.arity, harity, pure, Except.pure, bind, Except.bind]

theorem find?_of_resolve {s : String} {args : List Ty} {t : Ty}
    (h : cat.resolve (.name s args) = .ok t) :
    ∃ d, cat.find? s = some d ∧ args.length = d.params.length ∧
      cat.instanceOf s d args = .ok t := by
  cases hfind : cat.find? s with
  | none => simp [resolve, get, hfind, throw, throwThe, MonadExceptOf.throw, bind, Except.bind] at h
  | some d =>
      by_cases harity : args.length = d.params.length
      · rw [resolve_name hfind harity] at h
        exact ⟨d, rfl, harity, h⟩
      · simp [resolve, get, hfind, Declaration.arity, harity, pure, Except.pure, bind, Except.bind,
          throw, throwThe, MonadExceptOf.throw] at h

theorem resolve_eq_ok {s : String} {args : List Ty} {t : Ty} :
    cat.resolve (.name s args) = .ok t ↔ cat.Resolves s args t := by
  constructor
  · intro h
    obtain ⟨d, hfind, harity, hinstance⟩ := find?_of_resolve h
    cases hkind : d.kind? with
    | some kind =>
        rw [instanceOf_object hkind] at hinstance
        split at hinstance
        · next hempty =>
            cases hinstance
            rw [List.isEmpty_iff] at hempty
            rw [hempty] at harity
            exact .object hfind hkind hempty (List.length_eq_zero_iff.1 harity)
        · next hne =>
            obtain ⟨_, hlength, rfl⟩ := reference_eq_ok hinstance
            exact .objectRef hfind hkind (by simpa using hne) harity hlength
    | none =>
        cases hbody : d.body with
        | interface heritage members => simp [Declaration.kind?, hbody] at hkind
        | nominal heritage members => simp [Declaration.kind?, hbody] at hkind
        | bare => simp [instanceOf, hbody, throw, throwThe, MonadExceptOf.throw] at hinstance
        | property p => simp [instanceOf, hbody, throw, throwThe, MonadExceptOf.throw] at hinstance
        | «alias» type? =>
            cases type? with
            | none => simp [instanceOf, hbody, throw, throwThe, MonadExceptOf.throw] at hinstance
            | some body =>
                rw [instanceOf_alias hbody] at hinstance
                split at hinstance
                · next hempty =>
                    cases hinstance
                    rw [List.isEmpty_iff] at hempty
                    rw [hempty] at harity
                    exact .body hfind hbody hempty (List.length_eq_zero_iff.1 harity)
                · next hne =>
                    have hparams : d.params ≠ [] := by simpa using hne
                    split at hinstance
                    · next hmapped =>
                        obtain ⟨x, c, u, xs, rfl⟩ := Ty.eq_mapped_of_isMapped hmapped
                        obtain ⟨_, hlength, rfl⟩ := reference_eq_ok hinstance
                        exact .mapped hfind hbody hparams harity hlength
                    · next hmapped =>
                        cases hinstance
                        exact .rewrite hfind hbody (Bool.eq_false_iff.2 hmapped) hparams harity
  · intro h
    cases h with
    | object hfind hkind hparams hargs =>
        rw [resolve_name hfind (by simp [hargs, hparams]), instanceOf_object hkind, hparams]
        rfl
    | objectRef hfind hkind hparams harity htarget =>
        rw [resolve_name hfind harity, instanceOf_object hkind, if_neg (by simpa using hparams)]
        exact reference_ok rfl htarget
    | body hfind hbody hparams hargs =>
        rw [resolve_name hfind (by simp [hargs, hparams]), instanceOf_alias hbody, hparams]
        rfl
    | mapped hfind hbody hparams harity htarget =>
        rw [resolve_name hfind harity, instanceOf_alias hbody, if_neg (by simpa using hparams)]
        exact (if_pos rfl).trans (reference_ok rfl htarget)
    | rewrite hfind hbody hmapped hparams harity =>
        rw [resolve_name hfind harity, instanceOf_alias hbody, if_neg (by simpa using hparams),
          if_neg (Bool.eq_false_iff.1 hmapped)]

end Catalog

namespace Ty

mutual
/-- The property holds of every type inside a type. The target of a reference does not count as one,
but what is inside of it does. -/
def Inside (P : Ty → Prop) : Ty → Prop
  | primitive _ => True
  | literal _ => True
  | boolean _ => True
  | union members => InsideList P members
  | inter members => InsideList P members
  | object _ _ elements => InsideList P elements
  | sequence _ elements => InsideList P elements
  | ref target args => target.Inside P ∧ InsideList P args
  | param _ => True
  | keyOf t => P t ∧ t.Inside P
  | index t k => (P t ∧ t.Inside P) ∧ P k ∧ k.Inside P
  | mapped _ constraint template _ =>
      (P constraint ∧ constraint.Inside P) ∧ P template ∧ template.Inside P
  | name _ args => InsideList P args

def InsideList (P : Ty → Prop) : List Ty → Prop
  | [] => True
  | t :: rest => (P t ∧ t.Inside P) ∧ InsideList P rest
end

/-- The property holds of a type and of every type inside of it. -/
def Every (P : Ty → Prop) (t : Ty) : Prop :=
  P t ∧ t.Inside P

@[simp] theorem insideList_iff {P : Ty → Prop} {ts : List Ty} :
    InsideList P ts ↔ ∀ t ∈ ts, t.Every P := by
  induction ts with
  | nil => simp [InsideList]
  | cons t rest ih => simp only [InsideList, ih, List.forall_mem_cons, Every]

theorem Every.mono {P Q : Ty → Prop} {t : Ty} (h : t.Every P) (himp : ∀ u, P u → Q u) :
    t.Every Q := by
  suffices hinside : ∀ t : Ty, t.Inside P → t.Inside Q from ⟨himp t h.1, hinside t h.2⟩
  clear h t
  intro t h
  induction t with
  | primitive _ | literal _ | boolean _ | param _ => trivial
  | union members ih | inter members ih | object _ _ members ih | sequence _ members ih
  | name _ members ih =>
      simp only [Inside, insideList_iff] at h ⊢
      exact fun t ht => ⟨himp t (h t ht).1, ih t ht (h t ht).2⟩
  | ref target args ihtarget ih =>
      simp only [Inside, insideList_iff] at h ⊢
      exact ⟨ihtarget h.1, fun t ht => ⟨himp t (h.2 t ht).1, ih t ht (h.2 t ht).2⟩⟩
  | keyOf t ih => exact ⟨himp t h.1, ih h.2⟩
  | index t k iht ihk | mapped _ t k _ iht ihk =>
      exact ⟨⟨himp t h.1.1, iht h.1.2⟩, himp k h.2.1, ihk h.2.2⟩

theorem every_of_forall {P : Ty → Prop} (h : ∀ t, P t) (t : Ty) : t.Every P := by
  induction t with
  | primitive _ | literal _ | boolean _ | param _ => exact ⟨h _, trivial⟩
  | union _ ih | inter _ ih | object _ _ _ ih | sequence _ _ ih | name _ _ ih =>
      exact ⟨h _, insideList_iff.2 ih⟩
  | ref _ _ ihtarget ih => exact ⟨h _, ihtarget.2, insideList_iff.2 ih⟩
  | keyOf _ ih => exact ⟨h _, ih⟩
  | index _ _ iht ihk | mapped _ _ _ _ iht ihk => exact ⟨h _, iht, ihk⟩

theorem Every.and {P Q : Ty → Prop} {t : Ty} (h : t.Every P) (h' : t.Every Q) :
    t.Every fun u => P u ∧ Q u := by
  suffices hinside : ∀ t : Ty, t.Inside P → t.Inside Q → t.Inside fun u => P u ∧ Q u from
    ⟨⟨h.1, h'.1⟩, hinside t h.2 h'.2⟩
  clear h h' t
  intro t h h'
  induction t with
  | primitive _ | literal _ | boolean _ | param _ => trivial
  | union members ih | inter members ih | object _ _ members ih | sequence _ members ih
  | name _ members ih =>
      simp only [Inside, insideList_iff] at h h' ⊢
      exact fun t ht => ⟨⟨(h t ht).1, (h' t ht).1⟩, ih t ht (h t ht).2 (h' t ht).2⟩
  | ref target args ihtarget ih =>
      simp only [Inside, insideList_iff] at h h' ⊢
      exact ⟨ihtarget h.1 h'.1, fun t ht =>
        ⟨⟨(h.2 t ht).1, (h'.2 t ht).1⟩, ih t ht (h.2 t ht).2 (h'.2 t ht).2⟩⟩
  | keyOf t ih => exact ⟨⟨h.1, h'.1⟩, ih h.2 h'.2⟩
  | index t k iht ihk | mapped _ t k _ iht ihk =>
      exact ⟨⟨⟨h.1.1, h'.1.1⟩, iht h.1.2 h'.1.2⟩, ⟨h.2.1, h'.2.1⟩, ihk h.2.2 h'.2.2⟩

/-- A property that a substitution keeps layer by layer is kept as a whole. -/
theorem Every.subst {P : Ty → Prop} {S : TypeParam → Prop} {σ : TypeParam → Ty} {t : Ty}
    (hS : ∀ x, S x → (σ x).Every P)
    (hP : ∀ u : Ty, u.Every P → (∀ x ∈ u.params, S x) → (∀ x, u ≠ param x) → P (u.subst σ))
    (hσ : ∀ x ∈ t.params, S x) (h : t.Every P) : (t.subst σ).Every P := by
  have hlist : ∀ ts : List Ty, (∀ t ∈ ts, (∀ x ∈ t.params, S x) → t.Every P →
      (t.subst σ).Every P) → (∀ x ∈ ts.flatMap params, S x) → InsideList P ts →
      InsideList P (ts.map (Ty.subst σ)) := by
    intro ts ih hts hinside
    rw [insideList_iff] at hinside ⊢
    intro u hu
    obtain ⟨t, ht, rfl⟩ := List.mem_map.1 hu
    exact ih t ht (fun x hx => hts x (List.mem_flatMap.2 ⟨t, ht, hx⟩)) (hinside t ht)
  induction t with
  | param x => exact hS x (hσ x (List.mem_singleton.2 rfl))
  | primitive _ | literal _ | boolean _ =>
      exact ⟨hP _ h hσ (fun x hx => by cases hx), trivial⟩
  | union members ih | inter members ih | object _ _ members ih | sequence _ members ih
  | name _ members ih =>
      refine ⟨hP _ h hσ (fun x hx => by cases hx), ?_⟩
      simp only [params, paramsList_eq] at hσ
      simp only [Ty.subst, Inside, substList_eq]
      exact hlist members ih hσ h.2
  | ref target args _ ih =>
      refine ⟨hP _ h hσ (fun x hx => by cases hx), h.2.1, ?_⟩
      simp only [params, paramsList_eq] at hσ
      rw [substList_eq]
      exact hlist args ih hσ h.2.2
  | keyOf t ih =>
      exact ⟨hP _ h hσ (fun x hx => by cases hx), ih hσ h.2⟩
  | index t k iht ihk =>
      have hσt : ∀ x ∈ t.params, S x := fun x hx => hσ x (List.mem_append_left _ hx)
      have hσk : ∀ x ∈ k.params, S x := fun x hx => hσ x (List.mem_append_right _ hx)
      exact ⟨hP _ h hσ (fun x hx => by cases hx), iht hσt h.2.1, ihk hσk h.2.2⟩
  | mapped x c t xs ihc iht =>
      have hσc : ∀ x ∈ c.params, S x := fun x hx => hσ x (List.mem_append_left _ hx)
      have hσt : ∀ x ∈ t.params, S x := fun x hx => hσ x (List.mem_append_right _ hx)
      exact ⟨hP _ h hσ (fun x hx => by cases hx), ihc hσc h.2.1, iht hσt h.2.2⟩

/-- A mapped type binds a parameter with the property. -/
def MapsOver (P : TypeParam → Prop) : Ty → Prop
  | mapped x _ _ _ => P x
  | _ => True

theorem MapsOver.mono {P Q : TypeParam → Prop} {t : Ty} (h : t.MapsOver P)
    (himp : ∀ x, P x → Q x) : t.MapsOver Q := by
  cases t with
  | mapped x c t xs => exact himp x h
  | _ => trivial

/-- A parameter that no mapped type binds is open wherever it is mentioned. -/
theorem mem_free_of_mem_params {P : TypeParam → Prop} {t : Ty} {x : TypeParam}
    (h : t.Every (MapsOver P)) (hx : x ∈ t.params) (hP : ¬P x) : x ∈ t.free := by
  induction t with
  | primitive _ | literal _ | boolean _ | param _ => exact hx
  | union members ih | inter members ih | object _ _ members ih | sequence _ members ih
  | name _ members ih =>
      simp only [params, paramsList_eq, List.mem_flatMap] at hx
      obtain ⟨t, ht, hx⟩ := hx
      simp only [free, freeList_eq, List.mem_flatMap]
      exact ⟨t, ht, ih t ht (insideList_iff.1 h.2 t ht) hx⟩
  | ref target args _ ih =>
      simp only [params, paramsList_eq, List.mem_flatMap] at hx
      obtain ⟨t, ht, hx⟩ := hx
      simp only [free, freeList_eq, List.mem_flatMap]
      exact ⟨t, ht, ih t ht (insideList_iff.1 h.2.2 t ht) hx⟩
  | keyOf t ih => exact ih h.2 hx
  | index t k iht ihk =>
      simp only [params, free, List.mem_append] at hx ⊢
      exact hx.imp (iht h.2.1) (ihk h.2.2)
  | mapped y c t ys ihc iht =>
      simp only [params, free, List.mem_append, List.mem_filter] at hx ⊢
      refine hx.imp (ihc h.2.1) fun hx => ⟨iht h.2.2 hx, decide_eq_true ?_⟩
      rintro rfl
      exact hP h.1

/-- Where the parameters that mapped types bind stay, nothing is open after a substitution but what
it puts in the place of open parameters. -/
theorem mem_free_subst {σ : TypeParam → Ty} {t : Ty} {x : TypeParam}
    (h : t.Every (MapsOver fun y => σ y = param y)) (hx : x ∈ (t.subst σ).free) :
    ∃ y ∈ t.free, x ∈ (σ y).free := by
  induction t with
  | primitive _ | literal _ | boolean _ => cases hx
  | param y => exact ⟨y, List.mem_singleton.2 rfl, hx⟩
  | union members ih | inter members ih | object _ _ members ih | sequence _ members ih
  | name _ members ih =>
      simp only [Ty.subst, substList_eq, free, freeList_eq, List.mem_flatMap, List.mem_map] at hx
      obtain ⟨_, ⟨t, ht, rfl⟩, hx⟩ := hx
      obtain ⟨y, hy, hx⟩ := ih t ht (insideList_iff.1 h.2 t ht) hx
      simp only [free, freeList_eq, List.mem_flatMap]
      exact ⟨y, ⟨t, ht, hy⟩, hx⟩
  | ref target args _ ih =>
      simp only [Ty.subst, substList_eq, free, freeList_eq, List.mem_flatMap, List.mem_map] at hx
      obtain ⟨_, ⟨t, ht, rfl⟩, hx⟩ := hx
      obtain ⟨y, hy, hx⟩ := ih t ht (insideList_iff.1 h.2.2 t ht) hx
      simp only [free, freeList_eq, List.mem_flatMap]
      exact ⟨y, ⟨t, ht, hy⟩, hx⟩
  | keyOf t ih => exact ih h.2 hx
  | index t k iht ihk =>
      simp only [Ty.subst, free, List.mem_append] at hx ⊢
      rcases hx with hx | hx
      · obtain ⟨y, hy, hx⟩ := iht h.2.1 hx
        exact ⟨y, .inl hy, hx⟩
      · obtain ⟨y, hy, hx⟩ := ihk h.2.2 hx
        exact ⟨y, .inr hy, hx⟩
  | mapped z c t zs ihc iht =>
      simp only [Ty.subst, free, List.mem_append, List.mem_filter] at hx ⊢
      rcases hx with hx | ⟨hx, hne⟩
      · obtain ⟨y, hy, hx⟩ := ihc h.2.1 hx
        exact ⟨y, .inl hy, hx⟩
      · obtain ⟨y, hy, hx⟩ := iht h.2.2 hx
        refine ⟨y, .inr ⟨hy, decide_eq_true ?_⟩, hx⟩
        rintro rfl
        rw [h.1, free, List.mem_singleton] at hx
        exact of_decide_eq_true hne hx

end Ty

namespace Catalog

variable {cat : Catalog}

theorem bases_of_declared {t : Ty} {kind : ObjectKind} {decl : DeclId} {elements : List Ty}
    {d : Declaration} (hhead : t.head = .object kind decl elements)
    (hfind : cat.declared? decl = some d) : cat.bases t = cat.basesOf d := by
  simp only [bases, hhead, hfind]

theorem mem_bases {t base : Ty} {bases : List Ty} (h : cat.bases t = .ok bases)
    (hmem : base ∈ bases) : ∃ kind decl elements d heritage, t.head = .object kind decl elements ∧
      cat.declared? decl = some d ∧ heritage ∈ d.heritage ∧
      cat.resolve heritage.annotation = .ok base := by
  unfold Catalog.bases at h
  split at h
  · next kind decl elements hhead =>
      split at h
      · next d hfind =>
          obtain ⟨heritage, hheritage, hresolve⟩ :=
            exists_of_forall₂_right (mapM_eq_ok.1 h) hmem
          exact ⟨kind, decl, elements, d, heritage, hhead, hfind, hheritage, hresolve⟩
      · cases h
        cases hmem
  · cases h
    cases hmem

/-- The property holds of every type that the catalog is made of. -/
def Upholds (cat : Catalog) (P : Ty → Prop) : Prop :=
  ∀ i d t, cat.declared? i = some d → d.Lists t → t.Every P

theorem mem_entries_of_declared? {i : DeclId} {d : Declaration} (h : cat.declared? i = some d) :
    (i, d) ∈ cat.entries := by
  obtain ⟨_, _, heq, _⟩ := List.lookup_eq_some_iff.1 h
  simp [heq]

theorem forall_of_entries {P : DeclId → Declaration → Prop}
    (h : ∀ entry ∈ cat.entries, P entry.1 entry.2) (i : DeclId) (d : Declaration)
    (hfind : cat.declared? i = some d) : P i d :=
  h (i, d) (mem_entries_of_declared? hfind)

/-- Every declaration is kept under its own identity. -/
def Named (cat : Catalog) : Prop :=
  ∀ i d, cat.declared? i = some d → d.id = i

/-- An object type comes with the declaration of an interface or of a class. -/
def Declares (cat : Catalog) : Ty → Prop
  | .object _ decl _ => ∀ d, cat.declared? decl = some d → d.kind? ≠ none
  | .ref target _ => cat.Declares target
  | _ => True

theorem declares_subst (cat : Catalog) {σ : TypeParam → Ty} {t : Ty} (h : cat.Declares t)
    (hparam : ∀ x, t ≠ .param x) : cat.Declares (t.subst σ) := by
  cases t with
  | param x => exact absurd rfl (hparam x)
  | object kind decl elements => exact h
  | ref target args => exact h
  | _ => trivial

end Catalog

/-- A property of layers that substitution keeps. -/
structure Ty.Stable (P : Ty → Prop) : Prop where
  param : ∀ x, P (.param x)
  subst : ∀ (σ : TypeParam → Ty) (t : Ty), (∀ x, t ≠ .param x) → P t → P (t.subst σ)

theorem Ty.Stable.substitute {P : Ty → Prop} (hP : Ty.Stable P) {γ : Bindings} {t : Ty}
    (hbound : ∀ binding ∈ γ, binding.2.Every P) (h : t.Every P) : (t.substitute γ).Every P := by
  have hsubst : ∀ (t : Ty) (σ : TypeParam → Ty), t.Every P → (∀ x ∈ t.params, (σ x).Every P) →
      (t.subst σ).Every P :=
    fun t σ ht hσ => ht.subst (fun _ h => h) (fun u hu _ hparam => hP.subst σ u hparam hu.1) hσ
  refine hsubst t _ h fun x _ => ?_
  exact Ty.chase_induction (fun y => ⟨hP.param y, trivial⟩) hsubst
    fun y u _ hy => hbound (y, u) (Bindings.mem_of_lookup hy)

theorem Ty.Every.args {P : Ty → Prop} {t u : Ty} (h : t.Every P) (hu : u ∈ t.args) : u.Every P := by
  cases t with
  | ref target args => exact insideList_iff.1 h.2.2 u hu
  | _ => cases hu

namespace Catalog

variable {cat : Catalog}

theorem every_append {P : Ty → Prop} {bindings env : Bindings}
    (hbindings : ∀ binding ∈ bindings, binding.2.Every P)
    (henv : ∀ binding ∈ env, binding.2.Every P) :
    ∀ binding ∈ bindings ++ env, binding.2.Every P := fun binding hmem =>
  (List.mem_append.1 hmem).elim (hbindings binding) (henv binding)

theorem stable_declares (cat : Catalog) : Ty.Stable cat.Declares :=
  ⟨fun _ => trivial, fun _ _ hparam h => cat.declares_subst h hparam⟩

/-- Whatever the catalog makes of types with the property has the property. -/
structure Persists (cat : Catalog) (P : Ty → Prop) : Prop where
  stable : Ty.Stable P
  upholds : cat.Upholds P
  object : ∀ i d kind, cat.declared? i = some d → d.kind? = some kind → P (.object kind d.id [])
  objectRef : ∀ i d kind args, cat.declared? i = some d → d.kind? = some kind →
    P (.ref (.object kind d.id []) args)
  mappedRef : ∀ x c t xs args, P (.ref (.mapped x c t xs) args)

theorem persists_of_forall {P : Ty → Prop} (h : ∀ t, P t) : cat.Persists P where
  stable := ⟨fun _ => h _, fun _ _ _ _ => h _⟩
  upholds _ _ t _ _ := t.every_of_forall h
  object _ _ _ _ _ := h _
  objectRef _ _ _ _ _ _ := h _
  mappedRef _ _ _ _ _ := h _

theorem persists_declares (hnamed : cat.Named) (hup : cat.Upholds cat.Declares) :
    cat.Persists cat.Declares := by
  have hobject : ∀ i d kind, cat.declared? i = some d → d.kind? = some kind →
      cat.Declares (.object kind d.id []) := by
    intro i d kind hfind hkind e he
    rw [hnamed i d hfind, hfind] at he
    cases he
    simp [hkind]
  exact ⟨cat.stable_declares, hup, hobject, fun i d kind _ => hobject i d kind,
    fun _ _ _ _ _ => trivial⟩

namespace Persists

variable {P : Ty → Prop} (hP : cat.Persists P)

include hP

theorem resolve {s : String} {args : List Ty} {t : Ty} (hargs : ∀ u ∈ args, u.Every P)
    (h : cat.resolve (.name s args) = .ok t) : t.Every P := by
  cases resolve_eq_ok.1 h with
  | object hfind hkind _ _ => exact ⟨hP.object _ _ _ hfind hkind, trivial⟩
  | objectRef hfind hkind _ _ _ =>
      exact ⟨hP.objectRef _ _ _ _ hfind hkind, trivial, Ty.insideList_iff.2 hargs⟩
  | body hfind hbody _ _ => exact hP.upholds _ _ _ hfind (.body hbody)
  | mapped hfind hbody _ _ _ =>
      exact ⟨hP.mappedRef _ _ _ _ _, (hP.upholds _ _ _ hfind (.body hbody)).2,
        Ty.insideList_iff.2 hargs⟩
  | rewrite hfind hbody _ _ _ =>
      refine hP.stable.substitute (fun binding hmem => ?_) (hP.upholds _ _ _ hfind (.body hbody))
      exact hargs _ (List.of_mem_zip (Bindings.mem_of_mem_ofPairs hmem)).2

theorem bases {t base : Ty} {bases : List Ty} (h : cat.bases t = .ok bases) (hmem : base ∈ bases) :
    base.Every P := by
  obtain ⟨_, _, _, d, heritage, _, hfind, hheritage, hresolve⟩ := mem_bases h hmem
  exact hP.resolve (fun u hu => hP.upholds _ _ _ hfind (.argument hheritage hu)) hresolve

theorem followNames {limit : Nat} {seen : List String} {t u : Ty} (ht : t.Every P)
    (h : cat.followNames limit seen t = .ok u) : u.Every P := by
  induction limit generalizing seen t with
  | zero =>
      cases h
      exact ht
  | succ limit ih =>
      cases t with
      | name s args =>
          rw [Catalog.followNames] at h
          split at h
          · cases h
            exact ht
          · obtain ⟨t, hresolve, hrest⟩ := bind_eq_ok.1 h
            exact ih (hP.resolve (Ty.insideList_iff.1 ht.2) hresolve) hrest
      | _ =>
          cases h
          exact ht

end Persists

end Catalog

end TypeGuard
