import TypeGuard.Proofs.Safety

/-! Classification and compilation agree: an exact set is all that the guard of a type lets
through. -/

namespace TypeGuard

namespace Ty

/-- Only objects, arrays, tuples and mapped types are applied to arguments. -/
def isProper : Ty → Bool
  | ref target _ => Catalog.isApplicable target
  | _ => true

theorem stable_isProper : Stable fun t => t.isProper = true := by
  refine ⟨fun _ => rfl, fun σ t hparam h => ?_⟩
  cases t with
  | param x => exact absurd rfl (hparam x)
  | ref target args => exact h
  | _ => rfl

/-- No layer of it is an intersection. -/
def isInter : Ty → Bool
  | inter _ => true
  | _ => false

theorem stable_not_isInter : Stable fun t => t.isInter = false := by
  refine ⟨fun _ => rfl, fun σ t hparam h => ?_⟩
  cases t with
  | param x => exact absurd rfl (hparam x)
  | inter members => cases h
  | _ => rfl

end Ty

variable {cat : Catalog} {env : Bindings}

theorem forall₂_of_zip {α β γ : Type} {R : β → γ → Prop} {xs : List α} {as : List β} {bs : List γ}
    (has : xs.length = as.length) (hbs : xs.length = bs.length)
    (h : ∀ x a b, (x, a) ∈ xs.zip as → (x, b) ∈ xs.zip bs → R a b) : List.Forall₂ R as bs := by
  induction xs generalizing as bs with
  | nil =>
      cases List.length_eq_zero_iff.1 has.symm
      cases List.length_eq_zero_iff.1 hbs.symm
      exact .nil
  | cons x xs ih =>
      cases as with
      | nil => cases has
      | cons a as =>
          cases bs with
          | nil => cases hbs
          | cons b bs =>
              refine .cons (h x a b List.mem_cons_self List.mem_cons_self) ?_
              exact ih (Nat.succ.inj has) (Nat.succ.inj hbs) fun x a b ha hb =>
                h x a b (List.mem_cons_of_mem _ ha) (List.mem_cons_of_mem _ hb)

theorem eq_of_zip {α β : Type} {xs : List α} {as bs : List β} (ha : xs.length = as.length)
    (hb : xs.length = bs.length) (h : ∀ x a b, (x, a) ∈ xs.zip as → (x, b) ∈ xs.zip bs → a = b) :
    as = bs := by
  have heq := forall₂_of_zip ha hb h
  rwa [List.forall₂_eq_eq_eq] at heq

namespace Catalog

theorem persists_isProper (h : cat.Upholds fun t => t.isProper = true) :
    cat.Persists fun t => t.isProper = true :=
  ⟨Ty.stable_isProper, h, fun _ _ _ _ _ => rfl, fun _ _ _ _ _ _ => rfl, fun _ _ _ _ _ => rfl⟩

theorem persists_not_isInter (h : cat.Upholds fun t => t.isInter = false) :
    cat.Persists fun t => t.isInter = false :=
  ⟨Ty.stable_not_isInter, h, fun _ _ _ _ _ => rfl, fun _ _ _ _ _ _ => rfl, fun _ _ _ _ _ => rfl⟩

theorem Persists.and {P Q : Ty → Prop} (hP : cat.Persists P) (hQ : cat.Persists Q) :
    cat.Persists fun t => P t ∧ Q t where
  stable.param x := ⟨hP.stable.param x, hQ.stable.param x⟩
  stable.subst σ t hparam h := ⟨hP.stable.subst σ t hparam h.1, hQ.stable.subst σ t hparam h.2⟩
  upholds s d t hfind hlists := (hP.upholds s d t hfind hlists).and (hQ.upholds s d t hfind hlists)
  object s d kind hfind hkind := ⟨hP.object s d kind hfind hkind, hQ.object s d kind hfind hkind⟩
  objectRef s d kind args hfind hkind :=
    ⟨hP.objectRef s d kind args hfind hkind, hQ.objectRef s d kind args hfind hkind⟩
  mappedRef x c t xs args := ⟨hP.mappedRef x c t xs args, hQ.mappedRef x c t xs args⟩

end Catalog

theorem Ty.every_target {target : Ty} {args : List Ty}
    (h : (Ty.ref target args).Every fun t => t.isProper = true) :
    target.Every fun t => t.isProper = true := by
  refine ⟨?_, h.2.1⟩
  have happlicable : Catalog.isApplicable target = true := h.1
  cases target with
  | ref _ _ => cases happlicable
  | _ => rfl

namespace Classifies

open Ty

variable {path path' : List Ty} {t : Ty} {shape shape' : Shape} {q : Query}

theorem eq_never_of_isApplicable (ht : Catalog.isApplicable t = true)
    (h : Classifies cat .strings env path t shape) : shape = .never := by
  cases t with
  | object kind decl elements =>
      cases h with
      | leaf hleaf =>
          cases kind with
          | interface =>
              cases hleaf
              rfl
          | nominal => cases hleaf
      | follow hfollow => cases hfollow
  | sequence _ _ | mapped _ _ _ _ =>
      cases h with
      | leaf hleaf =>
          cases hleaf
          rfl
      | follow hfollow => cases hfollow
  | _ => cases ht

theorem eq_never_of_ref {target : Ty} {args : List Ty} (ht : (Ty.ref target args).isProper = true)
    (h : Classifies cat .strings env path (.ref target args) shape) : shape = .never := by
  cases h with
  | leaf hleaf => cases hleaf
  | follow hfollow => cases hfollow
  | again => rfl
  | ref _ _ hshape => exact hshape.eq_never_of_isApplicable ht

theorem eq_never_of_isKnot (ht : t.isKnot = true) (h : Classifies cat .strings env path t shape) :
    shape = .never := by
  unfold isKnot at ht
  split at ht
  · exact h.eq_never_of_isApplicable rfl
  · exact h.eq_never_of_ref rfl
  · exact h.eq_never_of_ref rfl
  · cases ht

theorem leaf_of_test {test : Test} (ht : Test.ofType? t = some test)
    (h : Classifies cat .strings env path t shape) : Query.strings.leaf cat t = .ok shape := by
  cases h with
  | leaf hleaf => exact hleaf
  | follow hfollow => cases hfollow <;> cases ht
  | _ => cases ht

theorem of_follows {u : Ty} (hfollow : Follows cat env t u)
    (h : Classifies cat q env path t shape) :
    Classifies cat q env path u shape := by
  have hnext : ∀ w, Follows cat env t w → Classifies cat q env path w shape →
      Classifies cat q env path u shape := by
    intro w hfollow' hw
    cases hfollow.unique hfollow'
    exact hw
  cases hfollow with
  | name =>
      cases h with
      | leaf hleaf => cases q <;> cases hleaf
      | follow hfollow' hshape => exact hnext _ hfollow' hshape
  | param =>
      cases h with
      | leaf hleaf => cases q <;> cases hleaf
      | follow hfollow' hshape => exact hnext _ hfollow' hshape

/-- The path does not matter to what a type is classified as. -/
theorem unique (hcat : cat.Persists fun t => t.isProper = true)
    (henv : ∀ binding ∈ env, binding.2.Every fun t => t.isProper = true)
    (ht : t.Every fun t => t.isProper = true) (h : Classifies cat q env path t shape)
    (h' : Classifies cat q env path' t shape') : shape = shape' := by
  induction h generalizing path' shape' with
  | @leaf q _ _ t _ hleaf =>
      cases h' with
      | leaf hleaf' => exact Except.ok.inj (hleaf.symm.trans hleaf')
      | follow hfollow => cases q <;> cases hfollow <;> cases hleaf
      | union | inter => cases q <;> cases hleaf
      | again | ref | refMapped | refTarget | mapped | keyOf | index => cases hleaf
  | follow hfollow _ ih => exact ih henv (hcat.follows henv ht hfollow) (h'.of_follows hfollow)
  | @union q _ _ members _ _ hlength hmembers hunion ih =>
      cases h' with
      | leaf hleaf => cases q <;> cases hleaf
      | follow hfollow => cases hfollow
      | union hlength' hmembers' hunion' =>
          cases eq_of_zip hlength hlength' fun u a b ha hb =>
            ih u a ha henv (Ty.insideList_iff.1 ht.2 u (List.of_mem_zip ha).1) (hmembers' u b hb)
          exact Except.ok.inj (hunion.symm.trans hunion')
  | @inter q _ _ members _ _ hlength hmembers hinter ih =>
      cases h' with
      | leaf hleaf => cases q <;> cases hleaf
      | follow hfollow => cases hfollow
      | inter hlength' hmembers' hinter' =>
          cases eq_of_zip hlength hlength' fun u a b ha hb =>
            ih u a ha henv (Ty.insideList_iff.1 ht.2 u (List.of_mem_zip ha).1) (hmembers' u b hb)
          exact Except.ok.inj (hinter.symm.trans hinter')
  | again => exact (h'.eq_never_of_ref ht.1).symm
  | ref hoff hbindings hshape _ =>
      rw [hshape.eq_never_of_isApplicable ht.1, h'.eq_never_of_ref ht.1]
  | refMapped hmapped hbindings hshape ih =>
      cases h' with
      | leaf hleaf => cases hleaf
      | follow hfollow => cases hfollow
      | refMapped _ hbindings' hshape' =>
          cases hbindings.symm.trans hbindings'
          refine ih ?_ (every_target ht) hshape'
          exact Catalog.every_append (hcat.bindings (hcat.stable.substitute henv ht) hbindings) henv
      | refTarget hmapped' =>
          rw [hmapped] at hmapped'
          cases hmapped'
  | refTarget hmapped hshape ih =>
      cases h' with
      | leaf hleaf => cases hleaf
      | follow hfollow => cases hfollow
      | refMapped hmapped' =>
          rw [hmapped] at hmapped'
          cases hmapped'
      | refTarget _ hshape' => exact ih henv (every_target ht) hshape'
  | mapped hshape ih =>
      cases h' with
      | leaf hleaf => cases hleaf
      | follow hfollow => cases hfollow
      | mapped hshape' => exact ih henv ht.2.1 hshape'
  | keyOf hshape ih =>
      cases h' with
      | leaf hleaf => cases hleaf
      | follow hfollow => cases hfollow
      | keyOf hshape' => exact ih henv ht.2 hshape'
  | index hobject hkeys htypes hbindings hlength hshapes hunion ihkeys ih =>
      cases h' with
      | leaf hleaf => cases hleaf
      | follow hfollow => cases hfollow
      | index hobject' hkeys' htypes' hbindings' hlength' hshapes' hunion' =>
          cases hobject.unique hobject'
          cases ihkeys henv ht.2.2 hkeys'
          cases htypes.symm.trans htypes'
          cases hbindings.symm.trans hbindings'
          have ho := hcat.exposes henv ht.2.1 hobject
          have henv' := Catalog.every_append (hcat.bindings ho hbindings) henv
          cases eq_of_zip hlength hlength' fun u a b ha hb =>
            ih u a ha henv' (hcat.propertyTypes htypes (List.of_mem_zip ha).1) (hshapes' u b hb)
          exact Except.ok.inj (hunion.symm.trans hunion')

end Classifies

/-! What chains of conditions come to. -/

namespace Expr

variable {d : Nat} {σ : Scope}

theorem holds_eq_ok {e : Expr} {b : Bool} :
    e.holds d σ = .ok b ↔ ∃ v, e.eval d σ = .ok v ∧ v.truthy = b := by
  cases h : e.eval d σ with
  | ok v => simp [holds, h, bind, Except.bind, pure, Except.pure]
  | error error => simp [holds, h, bind, Except.bind]

theorem holds_or {a b : Expr} {c : Bool} (h : (or a b).holds d σ = .ok c) :
    (c = true ∧ a.holds d σ = .ok true) ∨ (a.holds d σ = .ok false ∧ b.holds d σ = .ok c) := by
  obtain ⟨v, hv, rfl⟩ := holds_eq_ok.1 h
  rw [eval_or] at hv
  cases ha : a.eval d σ with
  | error error =>
      rw [ha] at hv
      cases hv
  | ok w =>
      rw [ha] at hv
      cases hw : w.truthy with
      | true =>
          simp only [Except.bind, hw] at hv
          cases hv
          exact .inl ⟨hw, holds_eq_ok.2 ⟨v, ha, hw⟩⟩
      | false =>
          simp only [Except.bind, hw] at hv
          exact .inr ⟨holds_eq_ok.2 ⟨w, ha, hw⟩, holds_eq_ok.2 ⟨v, hv, rfl⟩⟩

theorem holds_and {a b : Expr} {c : Bool} (h : (and a b).holds d σ = .ok c) :
    (c = false ∧ a.holds d σ = .ok false) ∨ (a.holds d σ = .ok true ∧ b.holds d σ = .ok c) := by
  obtain ⟨v, hv, rfl⟩ := holds_eq_ok.1 h
  rw [eval_and] at hv
  cases ha : a.eval d σ with
  | error error =>
      rw [ha] at hv
      cases hv
  | ok w =>
      rw [ha] at hv
      cases hw : w.truthy with
      | true =>
          simp only [Except.bind, hw] at hv
          exact .inr ⟨holds_eq_ok.2 ⟨w, ha, hw⟩, holds_eq_ok.2 ⟨v, hv, rfl⟩⟩
      | false =>
          simp only [Except.bind, hw] at hv
          cases hv
          exact .inl ⟨hw, holds_eq_ok.2 ⟨v, ha, hw⟩⟩

theorem holds_foldl_or {es : List Expr} {first : Expr} {c : Bool}
    (h : (es.foldl or first).holds d σ = .ok c) :
    (c = true ∧ ∃ e ∈ first :: es, e.holds d σ = .ok true) ∨
      (c = false ∧ ∀ e ∈ first :: es, e.holds d σ = .ok false) := by
  induction es generalizing first with
  | nil =>
      cases c with
      | true => exact .inl ⟨rfl, first, List.mem_cons_self, h⟩
      | false => exact .inr ⟨rfl, List.forall_mem_singleton.2 h⟩
  | cons e es ih =>
      rcases ih h with ⟨hc, e', he', htrue⟩ | ⟨hc, hall⟩
      · refine .inl ⟨hc, ?_⟩
        rcases List.mem_cons.1 he' with rfl | he'
        · rcases holds_or htrue with ⟨_, hfirst⟩ | ⟨_, he⟩
          · exact ⟨first, List.mem_cons_self, hfirst⟩
          · exact ⟨e, List.mem_cons_of_mem _ List.mem_cons_self, he⟩
        · exact ⟨e', List.mem_cons_of_mem _ (List.mem_cons_of_mem _ he'), htrue⟩
      · rw [List.forall_mem_cons] at hall
        rcases holds_or hall.1 with ⟨hfalse, _⟩ | ⟨hfirst, he⟩
        · cases hfalse
        · exact .inr ⟨hc, List.forall_mem_cons.2 ⟨hfirst, List.forall_mem_cons.2 ⟨he, hall.2⟩⟩⟩

theorem holds_foldl_and {es : List Expr} {first : Expr} {c : Bool}
    (h : (es.foldl and first).holds d σ = .ok c) :
    (c = true ∧ first.holds d σ = .ok true ∧ ∀ e ∈ es, e.holds d σ = .ok true) ∨
      (c = false ∧ (first.holds d σ = .ok false ∨
        (first.holds d σ = .ok true ∧ ∃ e ∈ es, e.holds d σ = .ok false))) := by
  induction es generalizing first with
  | nil =>
      cases c with
      | true => exact .inl ⟨rfl, h, fun _ hmem => absurd hmem List.not_mem_nil⟩
      | false => exact .inr ⟨rfl, .inl h⟩
  | cons e es ih =>
      rcases ih h with ⟨hc, hand, hall⟩ | ⟨hc, hand | ⟨hand, e', he', hfalse⟩⟩
      · rcases holds_and hand with ⟨htrue, _⟩ | ⟨hfirst, he⟩
        · cases htrue
        · exact .inl ⟨hc, hfirst, List.forall_mem_cons.2 ⟨he, hall⟩⟩
      · rcases holds_and hand with ⟨_, hfirst⟩ | ⟨hfirst, he⟩
        · exact .inr ⟨hc, .inl hfirst⟩
        · exact .inr ⟨hc, .inr ⟨hfirst, e, List.mem_cons_self, he⟩⟩
      · rcases holds_and hand with ⟨htrue, _⟩ | ⟨hfirst, _⟩
        · cases htrue
        · exact .inr ⟨hc, .inr ⟨hfirst, e', List.mem_cons_of_mem _ he', hfalse⟩⟩

theorem holds_anyOf {es : List Expr} {c : Bool} (h : (anyOf es).holds d σ = .ok c) :
    (c = true ∧ ∃ e ∈ es, e.holds d σ = .ok true) ∨
      (c = false ∧ ∀ e ∈ es, e.holds d σ = .ok false) := by
  cases es with
  | nil =>
      obtain ⟨v, hv, htruthy⟩ := holds_eq_ok.1 h
      rw [anyOf, never, eval_const] at hv
      cases hv
      exact .inr ⟨htruthy.symm, fun _ hmem => absurd hmem List.not_mem_nil⟩
  | cons first rest => exact holds_foldl_or h

theorem holds_allOf {es : List Expr} {c : Bool} (h : (allOf es).holds d σ = .ok c) :
    (c = true ∧ ∀ e ∈ es, e.holds d σ = .ok true) ∨
      (c = false ∧ ∃ e ∈ es, e.holds d σ = .ok false) := by
  cases es with
  | nil =>
      obtain ⟨v, hv, htruthy⟩ := holds_eq_ok.1 h
      rw [allOf, always, eval_const] at hv
      cases hv
      exact .inl ⟨htruthy.symm, fun _ hmem => absurd hmem List.not_mem_nil⟩
  | cons first rest =>
      rcases holds_foldl_and h with ⟨hc, hfirst, hall⟩ | ⟨hc, hfirst | ⟨_, e, he, hfalse⟩⟩
      · exact .inl ⟨hc, List.forall_mem_cons.2 ⟨hfirst, hall⟩⟩
      · exact .inr ⟨hc, first, List.mem_cons_self, hfirst⟩
      · exact .inr ⟨hc, e, List.mem_cons_of_mem _ he, hfalse⟩

theorem exists_of_holds_anyOf {es : List Expr} (h : (anyOf es).holds d σ = .ok true) :
    ∃ e ∈ es, e.holds d σ = .ok true := by
  rcases holds_anyOf h with ⟨_, hexists⟩ | ⟨hfalse, _⟩
  · exact hexists
  · cases hfalse

theorem forall_of_holds_allOf {es : List Expr} (h : (allOf es).holds d σ = .ok true) :
    ∀ e ∈ es, e.holds d σ = .ok true := by
  rcases holds_allOf h with ⟨_, hall⟩ | ⟨htrue, _⟩
  · exact hall
  · cases htrue

theorem eval_anyOf {bs : List Bool} {es : List Expr}
    (h : List.Forall₂ (fun b (e : Expr) => e.eval d σ = .ok (.bool b)) bs es) :
    (anyOf es).eval d σ = .ok (.bool (bs.any id)) := by
  have hfold : ∀ {bs es}, List.Forall₂ (fun b (e : Expr) => e.eval d σ = .ok (.bool b)) bs es →
      ∀ {b first}, first.eval d σ = .ok (.bool b) →
        (es.foldl or first).eval d σ = .ok (.bool (b || bs.any id)) := by
    intro bs es h
    induction h with
    | nil =>
        intro b first hfirst
        rw [List.foldl_nil, hfirst, List.any_nil, Bool.or_false]
    | @cons b' e _ _ he _ ih =>
        intro b first hfirst
        have hor : (or first e).eval d σ = .ok (.bool (b || b')) := by
          rw [eval_or, hfirst]
          cases b with
          | true => rfl
          | false => exact he
        rw [List.foldl_cons, ih hor, List.any_cons, Bool.or_assoc, id]
  cases h with
  | nil => exact eval_const _
  | cons hfirst hrest => exact hfold hrest hfirst

end Expr

namespace Shape

/-- Whether a string is one of those that a shape stands for. -/
def admits (k : String) : Shape → Bool
  | always => true
  | never => false
  | exact strings => strings.toList.contains k

theorem ofStrings_eq_ok {items : List String} {shape : Shape} (h : ofStrings items = .ok shape) :
    shape = .exact (.ofList items) := by
  cases items with
  | nil => cases h
  | cons s rest =>
      cases h
      rfl

/-- A union that is no `never` has no such case, and either an open-ended case or all the
literals. -/
theorem union_eq_ok {shapes : List Shape} {shape : Shape} (h : union shapes = .ok shape)
    (hshape : shape ≠ .never) : (∀ s ∈ shapes, s ≠ .never) ∧
      ((.always ∈ shapes ∧ shape = .always) ∨
        (.always ∉ shapes ∧ shape = .exact (.ofList (shapes.flatMap literals)))) := by
  unfold union at h
  split at h
  · cases h
    exact absurd rfl hshape
  · next hnever =>
      have hsound : ∀ s ∈ shapes, s ≠ .never := by
        rintro s hs rfl
        exact hnever (Bool.or_eq_true_iff.2 (.inr (List.any_eq_true.2 ⟨_, hs, rfl⟩)))
      refine ⟨hsound, ?_⟩
      split at h
      · next halways =>
          cases h
          obtain ⟨s, hs, hisAlways⟩ := List.any_eq_true.1 halways
          cases s with
          | always => exact .inl ⟨hs, rfl⟩
          | never | exact _ => cases hisAlways
      · next halways =>
          exact .inr ⟨fun hmem => halways (List.any_eq_true.2 ⟨_, hmem, rfl⟩), ofStrings_eq_ok h⟩

theorem union_eq_exact {shapes : List Shape} {strings : StringSet}
    (h : union shapes = .ok (.exact strings)) {shape : Shape} (hshape : shape ∈ shapes) :
    ∃ strings', shape = .exact strings' ∧ ∀ k ∈ strings'.toList, k ∈ strings.toList := by
  obtain ⟨hnever, ⟨_, heq⟩ | ⟨halways, heq⟩⟩ := union_eq_ok h (fun h => by cases h)
  · cases heq
  cases heq
  cases shape with
  | never => exact absurd rfl (hnever _ hshape)
  | always => exact absurd hshape halways
  | exact strings' =>
      refine ⟨strings', rfl, fun k hk => StringSet.mem_ofList.2 ?_⟩
      exact List.mem_flatMap.2 ⟨_, hshape, hk⟩

theorem admits_union {shapes : List Shape} {shape : Shape} (h : union shapes = .ok shape)
    (hshape : shape ≠ .never) (k : String) : shape.admits k = shapes.any (admits k) := by
  rw [Bool.eq_iff_iff, List.any_eq_true]
  obtain ⟨hnever, ⟨hmem, rfl⟩ | ⟨halways, rfl⟩⟩ := union_eq_ok h hshape
  · exact ⟨fun _ => ⟨_, hmem, rfl⟩, fun _ => rfl⟩
  · simp only [admits, List.contains_iff_mem, StringSet.mem_ofList, List.mem_flatMap]
    refine exists_congr fun s => and_congr_right fun hs => ?_
    cases s with
    | never => exact absurd rfl (hnever _ hs)
    | always => exact absurd hs halways
    | exact strings => simp only [literals, List.contains_iff_mem]

theorem inter_eq_exact {shapes : List Shape} {strings : StringSet}
    (h : inter shapes = .ok (.exact strings)) : ∃ strings', .exact strings' ∈ shapes ∧
      ∀ k ∈ strings'.toList, k ∈ strings.toList := by
  unfold inter at h
  split at h
  · next s hset =>
      cases ofStrings_eq_ok h
      have hall : ∀ k, k ∈ shapes.flatMap literals ↔ k = s := fun k => by
        rw [← StringSet.mem_ofList, hset, List.mem_singleton]
      obtain ⟨shape, hshape, hs⟩ := List.mem_flatMap.1 ((hall s).2 rfl)
      cases shape with
      | exact strings' =>
          refine ⟨strings', hshape, fun k hk => StringSet.mem_ofList.2 (List.mem_singleton.2 ?_)⟩
          exact (hall k).1 (List.mem_flatMap.2 ⟨_, hshape, hk⟩)
      | always | never => cases hs
  · cases h
  · split at h <;> cases h

end Shape

namespace Value

theorem eq_str_of_strictEqual {v : Value} {s : String} (h : v.strictEqual (.str s) = true) :
    v = .str s := by
  have htype : v.typeOf = "string" := by
    rw [strictEqual, Bool.and_eq_true, decide_eq_true_eq] at h
    exact h.1
  cases v with
  | scalar value =>
      cases value with
      | str t =>
          rw [Answers.strictEqual_str, decide_eq_true_eq] at h
          rw [h]
      | _ => simp [typeOf] at htype
  | _ => simp [typeOf] at htype

end Value

theorem Query.leaf_eq_exact {t : Ty} {strings : StringSet}
    (h : Query.strings.leaf cat t = .ok (.exact strings)) :
    ∃ k, t = .literal (.str k) ∧ strings = .ofList [k] := by
  cases t with
  | primitive s =>
      simp only [Query.leaf, Shape.ofPrimitive] at h
      split at h <;> cases h
  | literal v =>
      simp only [Query.leaf, Shape.ofLiteral] at h
      split at h
      · cases h
        exact ⟨_, rfl, rfl⟩
      all_goals cases h
  | object kind decl => cases kind <;> cases h
  | _ => cases h

theorem Query.leaf_eq_always {t : Ty} (h : Query.strings.leaf cat t = .ok .always) :
    t = .primitive "any" ∨ t = .primitive "string" := by
  cases t with
  | primitive s =>
      simp only [Query.leaf, Shape.ofPrimitive] at h
      split at h
      · exact .inl rfl
      · exact .inr rfl
      all_goals cases h
  | literal v =>
      simp only [Query.leaf, Shape.ofLiteral] at h
      split at h <;> cases h
  | object kind decl => cases kind <;> cases h
  | _ => cases h

/-- What holds between the shapes and the conditions of types, layer by layer, holds between the
shape and the condition of a type. -/
theorem Compiles.relates {P : Ty → Prop} {R : Shape → Expr → Prop} {a : Expr}
    (hcat : cat.Persists P) (hproper : ∀ t, P t → t.isProper = true)
    (hnever : ∀ e, R .never e)
    (htest : ∀ t test shape, Test.ofType? t = some test → Query.strings.leaf cat t = .ok shape →
      R shape (test.expr a))
    (hunion : ∀ shapes es shape, Shape.union shapes = .ok shape → List.Forall₂ R shapes es →
      R shape (.anyOf es))
    (hinter : ∀ members, P (.inter members) → ∀ shapes es shape, Shape.inter shapes = .ok shape →
      List.Forall₂ R shapes es → R shape (.allOf es))
    (hkeys : ∀ keys : StringSet, R (.exact keys)
      (.anyOf (keys.toList.map fun key => .equalTo a (.str key))))
    {path : List Ty} {tasks : List Task} {p p' : Progress} {es : List Expr}
    (h : Compiles cat path tasks p es p') {task : Task} {e : Expr} (hmem : (task, e) ∈ tasks.zip es)
    (hflat : task.declared = false) (haccessor : task.accessor = a)
    (henv : ∀ binding ∈ task.env, binding.2.Every P) (ht : task.type.Every P) {path' : List Ty}
    {shape : Shape} (hshape : Classifies cat .strings task.env path' task.type shape) :
      R shape e := by
  have hup : cat.Upholds fun t => t.isProper = true := fun s d t hfind hlists =>
    (hcat.upholds s d t hfind hlists).mono hproper
  have henv' : ∀ {env : Bindings}, (∀ binding ∈ env, binding.2.Every P) →
      ∀ binding ∈ env, binding.2.Every fun t => t.isProper = true :=
    fun henv binding hmem => (henv binding hmem).mono hproper
  induction h generalizing task e path' shape with
  | nil => cases hmem
  | cons _ _ ihfirst ihrest =>
      rcases List.mem_cons.1 hmem with heq | hrest
      · exact ihfirst (List.mem_singleton.2 heq) hflat haccessor henv ht hshape
      · exact ihrest hrest hflat haccessor henv ht hshape
  | test h =>
      cases List.mem_singleton.1 hmem
      subst haccessor
      exact htest _ _ _ h (hshape.leaf_of_test h)
  | follow hfollow _ ih =>
      cases List.mem_singleton.1 hmem
      exact ih List.mem_cons_self rfl haccessor henv (hcat.follows henv ht hfollow)
        (hshape.of_follows hfollow)
  | target hodd _ ih =>
      cases List.mem_singleton.1 hmem
      have happlicable := hproper _ ht.1
      rw [Ty.isProper, hodd] at happlicable
      cases happlicable
  | union hchecks ih =>
      cases List.mem_singleton.1 hmem
      cases hshape with
      | leaf hleaf => cases hleaf
      | follow hfollow => cases hfollow
      | union hlength hmembers hunion' =>
          have hlength' := hchecks.length
          rw [List.length_map] at hlength'
          refine hunion _ _ _ hunion' (forall₂_of_zip hlength hlength' fun u s e hs he => ?_)
          exact ih (mem_zip_map_left he) rfl haccessor henv
            (Ty.insideList_iff.1 ht.2 u (List.of_mem_zip hs).1) (hmembers u s hs)
  | inter hchecks ih =>
      cases List.mem_singleton.1 hmem
      cases hshape with
      | leaf hleaf => cases hleaf
      | follow hfollow => cases hfollow
      | inter hlength hmembers hinter' =>
          have hlength' := hchecks.length
          rw [List.length_map] at hlength'
          refine hinter _ ht.1 _ _ _ hinter' (forall₂_of_zip hlength hlength' fun u s e hs he => ?_)
          exact ih (mem_zip_map_left he) rfl haccessor henv
            (Ty.insideList_iff.1 ht.2 u (List.of_mem_zip hs).1) (hmembers u s hs)
  | again hknot _ =>
      cases List.mem_singleton.1 hmem
      rw [hshape.eq_never_of_isKnot hknot]
      exact hnever _
  | knot hknot _ _ _ _ _ =>
      cases List.mem_singleton.1 hmem
      cases hknot with
      | declared => cases hflat
      | flat hknot =>
          rw [hshape.eq_never_of_isKnot hknot]
          exact hnever _
  | mapped _ _ _ =>
      cases List.mem_singleton.1 hmem
      rw [hshape.eq_never_of_isApplicable rfl]
      exact hnever _
  | index hobject hkeys' htypes hbindings hchecks ih =>
      cases List.mem_singleton.1 hmem
      cases hshape with
      | leaf hleaf => cases hleaf
      | follow hfollow => cases hfollow
      | index hobject' hkeys'' htypes' hbindings' hlength hshapes hunion' =>
          cases hobject.unique hobject'
          cases hkeys'.unique (Catalog.persists_isProper hup) (henv' henv)
            (Ty.Every.mono ht.2.2 hproper) hkeys''
          cases htypes.symm.trans htypes'
          cases hbindings.symm.trans hbindings'
          have ho := hcat.exposes henv ht.2.1 hobject
          have hlength' := hchecks.length
          rw [List.length_map] at hlength'
          refine hunion _ _ _ hunion' (forall₂_of_zip hlength hlength' fun u s e hs he => ?_)
          exact ih (mem_zip_map_left he) rfl haccessor
            (Catalog.every_append (hcat.bindings ho hbindings) henv)
            (hcat.propertyTypes htypes (List.of_mem_zip hs).1) (hshapes u s hs)
  | keyOf hkeys' =>
      cases List.mem_singleton.1 hmem
      cases hshape.unique (Catalog.persists_isProper hup) (henv' henv) (ht.mono hproper) hkeys'
      subst haccessor
      exact hkeys _

namespace Compiles

variable {d : Nat} {x : Ident} {path path' : List Ty} {t : Ty} {p p' : Progress} {e : Expr}
  {shape : Shape}

/-- What passes the guard of a type with an exact set is one of its strings. -/
theorem mem_of_holds (hcat : cat.Persists fun t => t.isProper = true)
    (henv : ∀ binding ∈ env, binding.2.Every fun t => t.isProper = true)
    (ht : t.Every fun t => t.isProper = true)
    (h : Compiles cat path [⟨false, env, t, .ident x⟩] p [e] p') {strings : StringSet}
    (hshape : Classifies cat .strings env path' t (.exact strings)) {v : Value}
    (htrue : e.holds d [(x, v)] = .ok true) : ∃ k ∈ strings.toList, v = .str k := by
  have hread : (Expr.ident x).eval d [(x, v)] = .ok v := Expr.eval_ident (by simp)
  have hequal : ∀ {k}, (Expr.equalTo (.ident x) (.str k)).holds d [(x, v)] = .ok true →
      v = .str k := by
    intro k hk
    obtain ⟨w, hw, htruthy⟩ := Expr.holds_eq_ok.1 hk
    rw [Answers.eval_equalTo _ hread] at hw
    cases hw
    exact Value.eq_str_of_strictEqual htruthy
  refine h.relates (P := fun t => t.isProper = true) (R := fun shape e => ∀ strings,
    shape = .exact strings → e.holds d [(x, v)] = .ok true → ∃ k ∈ strings.toList, v = .str k)
    hcat (fun _ h => h) ?_ ?_ ?_ ?_ ?_ List.mem_cons_self rfl rfl henv ht hshape strings rfl htrue
  · intro e strings heq
    cases heq
  · rintro t test shape htest hleaf strings rfl htrue
    obtain ⟨k, rfl, rfl⟩ := Query.leaf_eq_exact hleaf
    cases htest
    exact ⟨k, StringSet.mem_ofList.2 List.mem_cons_self, hequal htrue⟩
  · rintro shapes es shape hunion hall strings rfl htrue
    obtain ⟨e, he, htrue⟩ := Expr.exists_of_holds_anyOf htrue
    obtain ⟨shape, hmem, hrelated⟩ := exists_of_forall₂_right hall he
    obtain ⟨strings', rfl, hsubset⟩ := Shape.union_eq_exact hunion hmem
    obtain ⟨k, hk, heq⟩ := hrelated strings' rfl htrue
    exact ⟨k, hsubset k hk, heq⟩
  · rintro members _ shapes es shape hinter hall strings rfl htrue
    obtain ⟨strings', hmem, hsubset⟩ := Shape.inter_eq_exact hinter
    obtain ⟨e, he, hrelated⟩ := exists_of_forall₂_right hall.flip hmem
    obtain ⟨k, hk, heq⟩ := hrelated strings' rfl (Expr.forall_of_holds_allOf htrue e he)
    exact ⟨k, hsubset k hk, heq⟩
  · rintro keys strings heq htrue
    cases heq
    obtain ⟨e, he, htrue⟩ := Expr.exists_of_holds_anyOf htrue
    obtain ⟨k, hk, rfl⟩ := List.mem_map.1 he
    exact ⟨k, hk, hequal htrue⟩

/-- The guard of a type without intersections tells strings apart as the shape of the type does. -/
theorem eval_eq_admits
    (hcat : cat.Persists fun t => t.isProper = true ∧ t.isInter = false)
    (henv : ∀ binding ∈ env, binding.2.Every fun t => t.isProper = true ∧ t.isInter = false)
    (ht : t.Every fun t => t.isProper = true ∧ t.isInter = false)
    (h : Compiles cat path [⟨false, env, t, .ident x⟩] p [e] p')
    (hshape : Classifies cat .strings env path' t shape) (hnever : shape ≠ .never) (k : String) :
    e.eval d [(x, .str k)] = .ok (.bool (shape.admits k)) := by
  have hread : (Expr.ident x).eval d [(x, .str k)] = .ok (.str k) := Expr.eval_ident (by simp)
  have hequal : ∀ s, (Expr.equalTo (.ident x) (.str s)).eval d [(x, .str k)] =
      .ok (.bool (decide (k = s))) := fun s => by
    rw [Answers.eval_equalTo _ hread, ← Answers.strictEqual_str]
  refine h.relates (P := fun t => t.isProper = true ∧ t.isInter = false)
    (R := fun shape e => shape ≠ .never → e.eval d [(x, .str k)] = .ok (.bool (shape.admits k)))
    hcat (fun _ h => h.1) ?_ ?_ ?_ ?_ ?_ List.mem_cons_self rfl rfl henv ht hshape hnever
  · exact fun e hnever => absurd rfl hnever
  · intro t test shape htest hleaf hnever
    cases shape with
    | never => exact absurd rfl hnever
    | exact strings =>
        obtain ⟨s, rfl, rfl⟩ := Query.leaf_eq_exact hleaf
        cases htest
        rw [Test.expr, hequal]
        simp [Shape.admits, StringSet.ofList, StringSet.insert, StringSet.insertItem,
          StringSet.empty]
    | always =>
        rcases Query.leaf_eq_always hleaf with rfl | rfl
        · cases htest
          exact Expr.eval_const _
        · cases htest
          exact Answers.eval_hasTypeOf "string" hread
  · intro shapes es shape hunion hall hnever
    have hsound := (Shape.union_eq_ok hunion hnever).1
    have hchain : List.Forall₂ (fun b (e : Expr) => e.eval d [(x, .str k)] = .ok (.bool b))
        (shapes.map (Shape.admits k)) es := by
      rw [List.forall₂_map_left_iff, List.forall₂_iff_zip]
      refine ⟨hall.length_eq, fun hmem => ?_⟩
      exact (List.forall₂_iff_zip.1 hall).2 hmem (hsound _ (List.of_mem_zip hmem).1)
    rw [Shape.admits_union hunion hnever, Expr.eval_anyOf hchain, List.any_map]
    rfl
  · exact fun members hP => by cases hP.2
  · intro keys _
    have hchain : List.Forall₂ (fun b (e : Expr) => e.eval d [(x, .str k)] = .ok (.bool b))
        (keys.toList.map fun s => decide (k = s))
        (keys.toList.map fun s => Expr.equalTo (.ident x) (.str s)) := by
      rw [List.forall₂_map_left_iff, List.forall₂_map_right_iff, List.forall₂_same]
      exact fun s _ => hequal s
    rw [Expr.eval_anyOf hchain, List.any_map, Shape.admits, List.contains_eq_any_beq]
    rfl

end Compiles

/-- Where a type is both classified and compiled, an exact set has all the values that pass the
guard. Without intersections these are just its strings, and an open-ended shape lets every string
through. -/
theorem Shape.agrees_with_guard {t : Ty} {limit limit' : Nat} {numbering numbering' : Numbering}
    {x : String} {shape : Shape} {e : Expr} {s s' : Session}
    (hcat : cat.Upholds fun t => t.isProper = true) (ht : t.Every fun t => t.isProper = true)
    (hshape : Shape.ofType cat limit t { numbering := numbering } = .ok shape s)
    (hguard : Guard.ofType cat limit' t (.named x) { numbering := numbering' } = .ok e s')
    (depth : Nat) :
    (∀ strings, shape = .exact strings → ∀ v, e.holds depth [(.named x, v)] = .ok true →
      ∃ k ∈ strings.toList, v = .str k) ∧
    ((cat.Upholds fun t => t.isInter = false) → (t.Every fun t => t.isInter = false) →
      (∀ strings, shape = .exact strings → ∀ v, e.holds depth [(.named x, v)] = .ok true ↔
        ∃ k ∈ strings.toList, v = .str k) ∧
      (shape = .always → ∀ k, e.holds depth [(.named x, .str k)] = .ok true)) := by
  obtain ⟨_, _, hclassifies⟩ :=
    (Query.walk_sound limit .strings [] [] _ t).of_ok (Session.at_start numbering) hshape
  obtain ⟨_, hcompiles⟩ :=
    (Guard.ofType_sound cat limit' [] [] t (.named x) _).of_ok (Session.at_start numbering') hguard
  have hnil : ∀ {P : Ty → Prop}, ∀ binding ∈ ([] : Bindings), binding.2.Every P :=
    fun _ hmem => absurd hmem List.not_mem_nil
  have hsound : ∀ strings, shape = .exact strings → ∀ v,
      e.holds depth [(.named x, v)] = .ok true → ∃ k ∈ strings.toList, v = .str k := by
    rintro strings rfl v htrue
    exact hcompiles.mem_of_holds (Catalog.persists_isProper hcat) hnil ht hclassifies htrue
  refine ⟨hsound, fun hinter hinter' => ?_⟩
  have hboth := (Catalog.persists_isProper hcat).and (Catalog.persists_not_isInter hinter)
  have hdecides : shape ≠ .never → ∀ k,
      e.holds depth [(.named x, .str k)] = .ok (shape.admits k) := by
    intro hnever k
    refine Expr.holds_eq_ok.2 ⟨.bool (shape.admits k), ?_, rfl⟩
    exact hcompiles.eval_eq_admits hboth hnil (ht.and hinter') hclassifies hnever k
  refine ⟨fun strings heq v => ⟨hsound strings heq v, ?_⟩, fun heq k => ?_⟩
  · rintro ⟨k, hk, rfl⟩
    rw [hdecides (by rw [heq]; exact fun h => by cases h), heq, admits, List.contains_iff_mem.2 hk]
  · rw [hdecides (by rw [heq]; exact fun h => by cases h), heq, admits]

/-- The types that a box has under its keys. -/
theorem Shape.agrees_with_guard_box :
    let held : Ty := .union [.literal (.str "x"), .literal (.str "y")]
    let t : Ty := .index (.name "Box" []) (.keyOf (.name "Box" []))
    ∃ e s, Guard.ofType (.ofBox "held" held) 5 t (.named "v") {} = .ok e s ∧
      ∀ v, e.holds 0 [(.named "v", v)] = .ok true ↔ ∃ k ∈ ["x", "y"], v = .str k := by
  intro held t
  have hshape : Shape.ofType (.ofBox "held" held) 5 t {} = .ok (.exact (.ofList ["x", "y"])) _ :=
    rfl
  have hguard : Guard.ofType (.ofBox "held" held) 5 t (.named "v") {} = .ok (.anyOf
    [.anyOf [.equalTo (.named "v") (.str "x"), .equalTo (.named "v") (.str "y")]]) _ := rfl
  have hheld : ∀ {P : Ty → Prop}, P held → (∀ k, P (.literal (.str k))) → held.Every P :=
    fun hunion hliteral => ⟨hunion, ⟨hliteral _, trivial⟩, ⟨hliteral _, trivial⟩, trivial⟩
  have hagrees := Shape.agrees_with_guard (Catalog.upholds_ofBox (hheld rfl fun _ => rfl))
    (by simp [t, Ty.Every, Ty.Inside, Ty.isProper]) hshape hguard 0
  have hboth := hagrees.2 (Catalog.upholds_ofBox (hheld rfl fun _ => rfl))
    (by simp [t, Ty.Every, Ty.Inside, Ty.isInter])
  exact ⟨_, _, hguard, hboth.1 _ rfl⟩

end TypeGuard
