import TypeGuard.Proofs.Rules
import Mathlib.Order.Filter.AtTopBot.Basic
import Mathlib.Order.Filter.Finite

/-! Classification follows the rules: whatever a walk finds is derivable, and whatever is derivable
is found by every walk with a high enough limit. Neither makes any progress. -/

namespace TypeGuard

namespace Walk

variable {α β : Type} {fails : Prop} {env : Bindings} {path : List Ty} {p : Progress}

namespace Meets

theorem of_tidy {w : Walk α} {Q : α → Progress → Prop}
    (h : p.Tidy path → Meets fails w env path p Q) : Meets fails w env path p Q :=
  fun s hs => h hs.tidy s hs

theorem mapM {f : α → Walk β} {R : α → β → Prop} {xs : List α}
    (h : ∀ a ∈ xs, Meets fails (f a) env path p fun b p' => p' = p ∧ R a b) :
    Meets fails (xs.mapM f) env path p fun bs p' => p' = p ∧ List.Forall₂ R xs bs := by
  induction xs with
  | nil => exact Meets.pure ⟨rfl, .nil⟩
  | cons x rest ih =>
      rw [List.mapM_cons]
      refine Meets.bind ((h x List.mem_cons_self).mono ?_)
      rintro b _ ⟨rfl, hb⟩
      refine Meets.bind ((ih fun a ha => h a (List.mem_cons_of_mem _ ha)).mono ?_)
      rintro bs _ ⟨rfl, hbs⟩
      exact Meets.pure ⟨rfl, .cons hb hbs⟩

end Meets

theorem expose_sound (cat : Catalog) (limit : Nat) (t : Ty) :
    Meets True (expose cat limit t) env path p fun u p' => p' = p ∧ Exposes cat env t u := by
  induction limit generalizing t with
  | zero => exact Meets.throw trivial
  | succ limit ih =>
      cases t with
      | name s args =>
          refine Meets.bind (Meets.ofExcept (fun t ht => ?_) fun _ _ => trivial)
          exact (ih t).mono fun u p' h => ⟨h.1, .follow (.name ht) h.2⟩
      | param x =>
          refine Meets.bind (Meets.bound (fun t ht => ?_) fun _ => trivial)
          exact (ih t).mono fun u p' h => ⟨h.1, .follow (.param ht) h.2⟩
      | _ => exact Meets.instantiate ⟨rfl, .here rfl⟩

end Walk

namespace Query

/-- The walk that answers a query. -/
def walk (cat : Catalog) (limit : Nat) : Query → Ty → Walk Shape
  | strings => Shape.ofType cat limit
  | names => Shape.ofKeys cat limit

/-- The shape is right for the type, and finding it took no progress. -/
def Right (cat : Catalog) (q : Query) (env : Bindings) (path : List Ty) (p : Progress) (t : Ty)
    (shape : Shape) (p' : Progress) : Prop :=
  p' = p ∧ Classifies cat q env path t shape

variable {cat : Catalog} {env : Bindings} {path : List Ty} {p : Progress}

theorem meets_leaf {q : Query} {t : Ty} {shape : Shape} (h : q.leaf cat t = .ok shape) :
    Walk.Meets True (pure shape) env path p (q.Right cat env path p t) :=
  Walk.Meets.pure ⟨rfl, .leaf h⟩

theorem meets_members {q : Query} {f : Ty → Walk Shape} {members : List Ty}
    (ih : ∀ t, Walk.Meets True (f t) env path p (q.Right cat env path p t)) :
    Walk.Meets True (members.mapM f) env path p fun shapes p' =>
      p' = p ∧ members.length = shapes.length ∧
        ∀ t s, (t, s) ∈ members.zip shapes → Classifies cat q env path t s := by
  refine (Walk.Meets.mapM fun t _ => ih t).mono ?_
  rintro shapes _ ⟨rfl, hshapes⟩
  obtain ⟨hlength, hzip⟩ := List.forall₂_iff_zip.1 hshapes
  exact ⟨rfl, hlength, fun t s h => hzip h⟩

theorem meets_union {q : Query} {f : Ty → Walk Shape} {members : List Ty}
    (ih : ∀ t, Walk.Meets True (f t) env path p (q.Right cat env path p t)) :
    Walk.Meets True (do let shapes ← members.mapM f; Walk.ofExcept (q.union shapes))
      env path p (q.Right cat env path p (.union members)) := by
  refine Walk.Meets.bind ((meets_members ih).mono ?_)
  rintro shapes _ ⟨rfl, hlength, hmembers⟩
  exact Walk.Meets.ofExcept (fun shape h => ⟨rfl, .union hlength hmembers h⟩) fun _ _ => trivial

theorem meets_inter {q : Query} {f : Ty → Walk Shape} {members : List Ty}
    (ih : ∀ t, Walk.Meets True (f t) env path p (q.Right cat env path p t)) :
    Walk.Meets True (do let shapes ← members.mapM f; Walk.ofExcept (q.inter shapes))
      env path p (q.Right cat env path p (.inter members)) := by
  refine Walk.Meets.bind ((meets_members ih).mono ?_)
  rintro shapes _ ⟨rfl, hlength, hmembers⟩
  exact Walk.Meets.ofExcept (fun shape h => ⟨rfl, .inter hlength hmembers h⟩) fun _ _ => trivial

theorem meets_name {q : Query} {f : Ty → Walk Shape} {s : String} {args : List Ty}
    (ih : ∀ t, Walk.Meets True (f t) env path p (q.Right cat env path p t)) :
    Walk.Meets True (do let t ← Walk.ofExcept (cat.resolve (.name s args)); f t)
      env path p (q.Right cat env path p (.name s args)) := by
  refine Walk.Meets.bind (Walk.Meets.ofExcept (fun t ht => ?_) fun _ _ => trivial)
  exact (ih t).mono fun shape p' h => ⟨h.1, .follow (.name ht) h.2⟩

theorem meets_param {q : Query} {f : Ty → Walk Shape} {x : TypeParam} {hint : String}
    (ih : ∀ t, Walk.Meets True (f t) env path p (q.Right cat env path p t)) :
    Walk.Meets True (do let t ← Walk.bound x hint; f t)
      env path p (q.Right cat env path p (.param x)) := by
  refine Walk.Meets.bind (Walk.Meets.bound (fun t ht => ?_) fun _ => trivial)
  exact (ih t).mono fun shape p' h => ⟨h.1, .follow (.param ht) h.2⟩

end Query

theorem Catalog.propertyTypes_eq_ok {cat : Catalog} {object index : Ty} {shape : Shape}
    {types : List Ty} (h : cat.propertyTypes object index shape = .ok types) :
    ∃ keys : StringSet, shape = .exact keys ∧
      keys.toList.mapM (cat.propertyType object) = .ok types := by
  cases shape with
  | exact keys => exact ⟨keys, rfl, h⟩
  | always => cases h
  | never => cases h

namespace Query

variable {cat : Catalog}

theorem meets_ref {f : Ty → Walk Shape} {env : Bindings} {path : List Ty} {p : Progress}
    {target : Ty} {args : List Ty}
    (ih : ∀ env path p t, Walk.Meets True (f t) env path p (strings.Right cat env path p t)) :
    Walk.Meets True (do
        let r ← Walk.instantiate (.ref target args)
        if ← Walk.isActive r then pure Shape.never
        else Walk.entering r do
          let bindings ← Walk.ofExcept (cat.bindings r)
          Walk.withFrame bindings (f r.head))
      env path p (strings.Right cat env path p (.ref target args)) := by
  refine Walk.Meets.of_tidy fun htidy => ?_
  refine Walk.Meets.bind (Walk.Meets.instantiate ?_)
  refine Walk.Meets.bind (Walk.Meets.isActive ?_)
  by_cases hon : ((Ty.ref target args).substitute env).IsOn path
  · rw [if_pos hon]
    exact Walk.Meets.pure ⟨rfl, .again hon⟩
  · rw [if_neg hon]
    refine Walk.Meets.entering hon (Walk.Meets.bind ?_)
    refine Walk.Meets.ofExcept (fun bindings hbindings => ?_) fun _ _ => trivial
    refine Walk.Meets.withFrame ((ih _ _ _ target).mono ?_)
    rintro shape _ ⟨rfl, hshape⟩
    exact ⟨htidy.leave_eq hon, .ref hon hbindings hshape⟩

theorem meets_refNames {f : Ty → Walk Shape} {env : Bindings} {path : List Ty} {p : Progress}
    {target : Ty} {args : List Ty}
    (ih : ∀ env path p t, Walk.Meets True (f t) env path p (names.Right cat env path p t)) :
    Walk.Meets True (do
        let r ← Walk.instantiate (.ref target args)
        match r.head with
        | .mapped x constraint template params => do
            let bindings ← Walk.ofExcept (cat.bindings r)
            Walk.withFrame bindings (f (.mapped x constraint template params))
        | target => f target)
      env path p (names.Right cat env path p (.ref target args)) := by
  refine Walk.Meets.bind (Walk.Meets.instantiate ?_)
  show Walk.Meets True (match target with
    | .mapped x constraint template params => _
    | target => f target) env path p _
  split
  · refine Walk.Meets.bind (Walk.Meets.ofExcept (fun bindings hbindings => ?_) fun _ _ => trivial)
    refine Walk.Meets.withFrame ((ih _ _ _ _).mono ?_)
    rintro shape _ ⟨rfl, hshape⟩
    exact ⟨rfl, .refMapped rfl hbindings hshape⟩
  · next hmapped =>
      refine (ih _ _ _ _).mono ?_
      rintro shape _ ⟨rfl, hshape⟩
      refine ⟨rfl, .refTarget ?_ hshape⟩
      cases target with
      | mapped x constraint template params =>
          exact absurd rfl (hmapped x constraint template params)
      | _ => rfl

theorem meets_index {f : Ty → Walk Shape} {limit : Nat} {env : Bindings} {path : List Ty}
    {p : Progress} {object key : Ty}
    (ih : ∀ env path p t, Walk.Meets True (f t) env path p (strings.Right cat env path p t)) :
    Walk.Meets True (do
        let object ← Walk.expose cat limit object
        let keys ← f key
        let types ← Walk.ofExcept (cat.propertyTypes object key keys)
        let bindings ← Walk.ofExcept (cat.bindings object)
        Walk.withFrame bindings do
          let shapes ← types.mapM f
          Walk.ofExcept (Shape.union shapes))
      env path p (strings.Right cat env path p (.index object key)) := by
  refine Walk.Meets.bind ((Walk.expose_sound cat limit object).mono ?_)
  rintro o _ ⟨rfl, hobject⟩
  refine Walk.Meets.bind ((ih _ _ _ key).mono ?_)
  rintro shape _ ⟨rfl, hkey⟩
  refine Walk.Meets.bind (Walk.Meets.ofExcept (fun types htypes => ?_) fun _ _ => trivial)
  obtain ⟨keys, rfl, htypes⟩ := Catalog.propertyTypes_eq_ok htypes
  refine Walk.Meets.bind (Walk.Meets.ofExcept (fun bindings hbindings => ?_) fun _ _ => trivial)
  refine Walk.Meets.withFrame (Walk.Meets.bind ((meets_members fun t => ih _ _ _ t).mono ?_))
  rintro shapes _ ⟨rfl, hlength, hshapes⟩
  refine Walk.Meets.ofExcept (fun shape hunion => ⟨rfl, ?_⟩) fun _ _ => trivial
  exact .index hobject hkey htypes hbindings hlength hshapes hunion

/-- Whatever a walk answers is derivable. -/
theorem walk_sound (limit : Nat) (q : Query) (env : Bindings) (path : List Ty) (p : Progress)
    (t : Ty) : Walk.Meets True (q.walk cat limit t) env path p (q.Right cat env path p t) := by
  induction limit generalizing q env path p t with
  | zero => cases q <;> exact Walk.Meets.throw trivial
  | succ limit ih =>
      have hstrings := ih strings
      have hnames := ih names
      cases q with
      | strings =>
          cases t with
          | primitive s => exact Walk.Meets.ofExcept (fun _ h => ⟨rfl, .leaf h⟩) fun _ _ => trivial
          | literal v => exact Walk.Meets.ofExcept (fun _ h => ⟨rfl, .leaf h⟩) fun _ _ => trivial
          | boolean b => exact meets_leaf rfl
          | union members => exact meets_union (hstrings env path p)
          | inter members => exact meets_inter (hstrings env path p)
          | object kind decl elements =>
              cases kind with
              | interface => exact meets_leaf rfl
              | nominal => exact Walk.Meets.throw trivial
          | sequence kind elements => exact meets_leaf rfl
          | ref target args => exact meets_ref hstrings
          | param x => exact meets_param (hstrings env path p)
          | keyOf t => exact (hnames env path p t).mono fun _ _ h => ⟨h.1, .keyOf h.2⟩
          | index object key => exact meets_index hstrings
          | mapped x c t xs => exact meets_leaf rfl
          | name s args => exact meets_name (hstrings env path p)
      | names =>
          cases t with
          | primitive s =>
              by_cases hany : s = "any"
              · subst hany
                exact meets_leaf rfl
              by_cases hnever : s = "never"
              · subst hnever
                exact meets_leaf rfl
              · simp only [walk, Shape.ofKeys]
                exact Walk.Meets.throw trivial
          | union members => exact meets_union (hnames env path p)
          | inter members => exact meets_inter (hnames env path p)
          | object kind decl elements =>
              cases kind with
              | interface =>
                  refine Walk.Meets.bind
                    (Walk.Meets.ofExcept (fun properties h => ?_) fun _ _ => trivial)
                  refine Walk.Meets.ofExcept (fun shape hshape => ⟨rfl, .leaf ?_⟩)
                    fun _ _ => trivial
                  simp only [leaf, h]
                  exact hshape
              | nominal => exact Walk.Meets.throw trivial
          | sequence kind elements => exact meets_leaf rfl
          | ref target args => exact meets_refNames hnames
          | param x => exact meets_param (hnames env path p)
          | mapped x c t xs => exact (hstrings env path p c).mono fun _ _ h => ⟨h.1, .mapped h.2⟩
          | name s args => exact meets_name (hnames env path p)
          | literal v => exact Walk.Meets.throw trivial
          | boolean b => exact Walk.Meets.throw trivial
          | keyOf t => exact Walk.Meets.throw trivial
          | index object key => exact Walk.Meets.throw trivial

end Query

/-! The other direction, for high enough limits. -/

open Filter

/-- What holds one step up from high enough limits holds for high enough limits. -/
theorem eventually_of_succ {P Q : Nat → Prop} (h : ∀ᶠ limit in atTop, P limit)
    (hstep : ∀ limit, P limit → Q (limit + 1)) : ∀ᶠ limit in atTop, Q limit := by
  obtain ⟨n, hn⟩ := eventually_atTop.1 h
  refine eventually_atTop.2 ⟨n + 1, fun limit hlimit => ?_⟩
  obtain ⟨k, rfl⟩ := Nat.exists_eq_add_of_le' hlimit
  exact hstep (k + n) (hn _ (Nat.le_add_left n k))

theorem eventually_forall_mem {α : Type} {P : α → Nat → Prop} {xs : List α}
    (h : ∀ x ∈ xs, ∀ᶠ limit in atTop, P x limit) : ∀ᶠ limit in atTop, ∀ x ∈ xs, P x limit :=
  (eventually_all_finite (List.finite_toSet xs)).2 h

namespace Walk

variable {α β : Type} {env : Bindings} {path : List Ty}

/-- The walk ends with that result, and without progress. -/
def Gives (w : Walk α) (env : Bindings) (path : List Ty) (a : α) : Prop :=
  ∀ p, Meets False w env path p fun b p' => p' = p ∧ b = a

namespace Gives

theorem pure (a : α) : Gives (Pure.pure a) env path a :=
  fun _ => Meets.pure ⟨rfl, rfl⟩

theorem bind {w : Walk α} {f : α → Walk β} {a : α} {b : β} (hw : Gives w env path a)
    (hf : Gives (f a) env path b) : Gives (w >>= f) env path b := by
  intro p
  refine Meets.bind ((hw p).mono ?_)
  rintro _ _ ⟨rfl, rfl⟩
  exact hf _

theorem ofExcept {x : Except Fault α} {a : α} (h : x = .ok a) :
    Gives (Walk.ofExcept x) env path a := by
  subst h
  exact Gives.pure a

theorem instantiate (t : Ty) : Gives (Walk.instantiate t) env path (t.substitute env) :=
  fun _ => Meets.instantiate ⟨rfl, rfl⟩

theorem isActive (t : Ty) : Gives (Walk.isActive t) env path (path.any (·.same t)) :=
  fun _ => Meets.isActive ⟨rfl, rfl⟩

theorem bound {x : TypeParam} {t : Ty} {hint : String} (h : env.lookup x = some t) :
    Gives (Walk.bound x hint) env path t := by
  intro p
  refine Meets.bound (fun u hu => ?_) fun hnone => ?_
  · rw [h] at hu
    exact ⟨rfl, (Option.some.inj hu).symm⟩
  · rw [h] at hnone
    cases hnone

theorem withFrame {w : Walk α} {bindings : Bindings} {a : α}
    (h : Gives w (bindings ++ env) path a) : Gives (Walk.withFrame bindings w) env path a :=
  fun p => Meets.withFrame (h p)

theorem entering {w : Walk α} {t : Ty} {a : α} (hoff : ¬t.IsOn path)
    (h : Gives w env (t :: path) a) : Gives (Walk.entering t w) env path a := by
  intro p
  refine Meets.of_tidy fun htidy => Meets.entering hoff ((h p).mono ?_)
  rintro b _ ⟨rfl, rfl⟩
  exact ⟨htidy.leave_eq hoff, rfl⟩

theorem mapM {f : α → Walk β} {xs : List α} {ys : List β} (hlength : xs.length = ys.length)
    (h : ∀ x y, (x, y) ∈ xs.zip ys → Gives (f x) env path y) : Gives (xs.mapM f) env path ys := by
  induction xs generalizing ys with
  | nil =>
      cases ys with
      | nil => exact Gives.pure []
      | cons y ys => cases hlength
  | cons x xs ih =>
      cases ys with
      | nil => cases hlength
      | cons y ys =>
          rw [List.mapM_cons]
          refine Gives.bind (h x y List.mem_cons_self) ?_
          refine Gives.bind (ih (Nat.succ.inj hlength) fun a b hab => ?_) (Gives.pure _)
          exact h a b (List.mem_cons_of_mem _ hab)

end Gives

theorem expose_complete {cat : Catalog} {t u : Ty} (h : Exposes cat env t u) :
    ∀ᶠ limit in atTop, ∀ path, Gives (expose cat limit t) env path u := by
  induction h with
  | @here t hdirect =>
      refine eventually_of_succ (Eventually.of_forall fun _ => trivial) fun limit _ path => ?_
      cases t with
      | name s args => cases hdirect
      | param x => cases hdirect
      | _ => exact Gives.instantiate _
  | follow hfollow _ ih =>
      refine eventually_of_succ ih fun limit hlimit path => ?_
      cases hfollow with
      | name h => exact (Gives.ofExcept h).bind (hlimit path)
      | param h => exact (Gives.bound h).bind (hlimit path)

end Walk

namespace Query

variable {cat : Catalog} {env : Bindings} {path : List Ty}

theorem gives_leaf {q : Query} {t : Ty} {shape : Shape} (h : q.leaf cat t = .ok shape)
    (limit : Nat) : Walk.Gives (q.walk cat (limit + 1) t) env path shape := by
  cases q with
  | strings =>
      cases t with
      | primitive s => exact Walk.Gives.ofExcept h
      | literal v => exact Walk.Gives.ofExcept h
      | object kind decl elements =>
          cases kind with
          | interface => cases h; exact Walk.Gives.pure _
          | nominal => cases h
      | boolean _ | sequence _ _ | mapped _ _ _ _ => cases h; exact Walk.Gives.pure _
      | _ => cases h
  | names =>
      cases t with
      | primitive s =>
          by_cases hs : s = "any" ∨ s = "never"
          · rw [leaf, if_pos hs] at h
            cases h
            rcases hs with rfl | rfl <;> exact Walk.Gives.pure _
          · rw [leaf, if_neg hs] at h
            cases h
      | object kind decl elements =>
          cases kind with
          | interface =>
              simp only [leaf] at h
              cases hproperties : cat.properties (.object .interface decl elements) with
              | error fault => rw [hproperties] at h; cases h
              | ok properties =>
                  rw [hproperties] at h
                  exact (Walk.Gives.ofExcept hproperties).bind (Walk.Gives.ofExcept h)
          | nominal => cases h
      | sequence _ _ => cases h; exact Walk.Gives.pure _
      | _ => cases h

theorem eventually_members {q : Query} {types : List Ty} {shapes : List Shape}
    (ih : ∀ t s, (t, s) ∈ types.zip shapes →
      ∀ᶠ limit in atTop, Walk.Gives (q.walk cat limit t) env path s) :
    ∀ᶠ limit in atTop, ∀ t s, (t, s) ∈ types.zip shapes →
      Walk.Gives (q.walk cat limit t) env path s := by
  have hall : ∀ᶠ limit in atTop, ∀ pair ∈ types.zip shapes,
      Walk.Gives (q.walk cat limit pair.1) env path pair.2 :=
    eventually_forall_mem fun pair hpair => ih pair.1 pair.2 hpair
  exact hall.mono fun limit hlimit t s hts => hlimit (t, s) hts

/-- Whatever is derivable is answered by every walk with a high enough limit. -/
theorem walk_complete {q : Query} {t : Ty} {shape : Shape}
    (h : Classifies cat q env path t shape) :
    ∀ᶠ limit in atTop, Walk.Gives (q.walk cat limit t) env path shape := by
  induction h with
  | leaf hleaf =>
      refine eventually_of_succ (Eventually.of_forall fun _ => trivial) fun limit _ => ?_
      exact gives_leaf hleaf limit
  | @follow q _ _ _ _ _ hfollow _ ih =>
      refine eventually_of_succ ih fun limit hlimit => ?_
      cases hfollow with
      | name h => cases q <;> exact (Walk.Gives.ofExcept h).bind hlimit
      | param h => cases q <;> exact (Walk.Gives.bound h).bind hlimit
  | @union q _ _ _ _ _ hlength _ hunion ih =>
      refine eventually_of_succ (eventually_members ih) fun limit hlimit => ?_
      have hmembers := Walk.Gives.mapM hlength hlimit
      cases q <;> exact hmembers.bind (Walk.Gives.ofExcept hunion)
  | @inter q _ _ _ _ _ hlength _ hinter ih =>
      refine eventually_of_succ (eventually_members ih) fun limit hlimit => ?_
      have hmembers := Walk.Gives.mapM hlength hlimit
      cases q <;> exact hmembers.bind (Walk.Gives.ofExcept hinter)
  | again hon =>
      refine eventually_of_succ (Eventually.of_forall fun _ => trivial) fun limit _ => ?_
      refine (Walk.Gives.instantiate _).bind ((Walk.Gives.isActive _).bind ?_)
      rw [if_pos hon]
      exact Walk.Gives.pure _
  | ref hoff hbindings _ ih =>
      refine eventually_of_succ ih fun limit hlimit => ?_
      refine (Walk.Gives.instantiate _).bind ((Walk.Gives.isActive _).bind ?_)
      rw [if_neg hoff]
      exact Walk.Gives.entering hoff
        ((Walk.Gives.ofExcept hbindings).bind (Walk.Gives.withFrame hlimit))
  | @refMapped _ _ _ target _ _ hmapped hbindings _ ih =>
      refine eventually_of_succ ih fun limit hlimit => ?_
      refine (Walk.Gives.instantiate _).bind ?_
      cases target with
      | mapped x constraint template params =>
          exact (Walk.Gives.ofExcept hbindings).bind (Walk.Gives.withFrame hlimit)
      | _ => cases hmapped
  | @refTarget _ _ target _ _ hmapped _ ih =>
      refine eventually_of_succ ih fun limit hlimit => ?_
      refine (Walk.Gives.instantiate _).bind ?_
      cases target with
      | mapped x constraint template params => cases hmapped
      | _ => exact hlimit
  | mapped _ ih => exact eventually_of_succ ih fun limit hlimit => hlimit
  | keyOf _ ih => exact eventually_of_succ ih fun limit hlimit => hlimit
  | index hobject _ htypes hbindings hlength _ hunion ihkeys ihshapes =>
      have hall := (Walk.expose_complete hobject).and (ihkeys.and (eventually_members ihshapes))
      refine eventually_of_succ hall fun limit hlimit => ?_
      obtain ⟨hexpose, hkeys, hshapes⟩ := hlimit
      refine (hexpose _).bind (hkeys.bind ((Walk.Gives.ofExcept htypes).bind ?_))
      refine (Walk.Gives.ofExcept hbindings).bind (Walk.Gives.withFrame ?_)
      exact (Walk.Gives.mapM hlength hshapes).bind (Walk.Gives.ofExcept hunion)

end Query

end TypeGuard
