import TypeGuard.Proofs.Names
import TypeGuard.Proofs.Numbering
import TypeGuard.Proofs.Rules

/-! What a guard looks like, with all numbers taken from one table and with the accessors in the
places where they are read: no slot is left but those that a recursive condition binds. -/

namespace TypeGuard

/-- The part has a plain name, or is the value itself, checked as declared. -/
def Part.Plain (part : Part) : Prop :=
  (part.declared = true ∧ part.index? = none) ∨
    (part.declared = false ∧ ∃ s : String, part.index? = some (.const (.str s)))

/-- The expression is a check for the task. The conditions of the live types can be called; those on
the path are being expanded, live or not. -/
inductive Guards (cat : Catalog) (table : Numbering) :
    List Ty → List Ty → Task → Expr → Prop
  | test {live path : List Ty} {env : Bindings} {t : Ty} {accessor : Expr} {test : Test}
      (htest : Test.ofType? t = some test) :
      Guards cat table live path ⟨false, env, t, accessor⟩ (test.expr accessor)
  | follow {live path : List Ty} {env : Bindings} {t t' : Ty} {accessor e : Expr}
      (hfollow : Follows cat env t t')
      (hcheck : Guards cat table live path ⟨false, env, t', accessor⟩ e) :
      Guards cat table live path ⟨false, env, t, accessor⟩ e
  | target {live path : List Ty} {env : Bindings} {target : Ty} {args : List Ty} {accessor e : Expr}
      (hodd : Catalog.isApplicable target = false)
      (hcheck : Guards cat table live path ⟨false, env, target, accessor⟩ e) :
      Guards cat table live path ⟨false, env, .ref target args, accessor⟩ e
  | union {live path : List Ty} {env : Bindings} {members : List Ty} {accessor : Expr}
      {es : List Expr} (hlength : members.length = es.length)
      (hmembers : ∀ t e, (t, e) ∈ members.zip es →
        Guards cat table live path ⟨false, env, t, accessor⟩ e) :
      Guards cat table live path ⟨false, env, .union members, accessor⟩ (.anyOf es)
  | inter {live path : List Ty} {env : Bindings} {members : List Ty} {accessor : Expr}
      {es : List Expr} (hlength : members.length = es.length)
      (hmembers : ∀ t e, (t, e) ∈ members.zip es →
        Guards cat table live path ⟨false, env, t, accessor⟩ e) :
      Guards cat table live path ⟨false, env, .inter members, accessor⟩ (.allOf es)
  /-- A live type is checked by a call. -/
  | again {live path : List Ty} {env : Bindings} {t : Ty} {accessor : Expr} {n : Nat}
      (hknot : t.isKnot = true) (hlive : (t.knot env).IsOn live)
      (hnumber : table.number? (t.knot env) = some n) :
      Guards cat table live path ⟨false, env, t, accessor⟩
        (.recur (Guard.label (t.knot env) n) accessor)
  /-- A recursive condition is live in its body. -/
  | fix {live path : List Ty} {task : Task} {t : Ty} {n : Nat} {parts : List Part} {es : List Expr}
      (hknot : Knots task t) (hoff : ¬t.IsOn live) (hnumber : table.number? t = some n)
      (hparts : Parts cat task.env path task.declared t parts)
      (hplain : ∀ part ∈ parts, part.Plain) (hlength : parts.length = es.length)
      (hchecks : ∀ part e, (part, e) ∈ parts.zip es →
        Guards cat table (t :: live) (t :: path) (part.task (.ident (.slot n))) e) :
      Guards cat table live path task
        (.fix (Guard.label t n) (.slot n) (Guard.whole (.ident (.slot n)) es) task.accessor)
  /-- A condition that is not called stands where it is used. -/
  | inline {live path : List Ty} {task : Task} {t : Ty} {parts : List Part} {es : List Expr}
      (hknot : Knots task t) (hparts : Parts cat task.env path task.declared t parts)
      (hplain : ∀ part ∈ parts, part.Plain) (hlength : parts.length = es.length)
      (hchecks : ∀ part e, (part, e) ∈ parts.zip es →
        Guards cat table live (t :: path) (part.task task.accessor) e) :
      Guards cat table live path task (Guard.whole task.accessor es)
  | mapped {live path : List Ty} {env : Bindings} {x : TypeParam} {constraint template : Ty}
      {params : List TypeParam} {accessor : Expr} {keys : StringSet} {es : List Expr}
      (hkeys : Classifies cat .strings env path constraint (.exact keys))
      (hlength : keys.toList.length = es.length)
      (hchecks : ∀ part e, (part, e) ∈ (Part.ofKeys env x template keys.toList).zip es →
        Guards cat table live path (part.task accessor) e) :
      Guards cat table live path ⟨false, env, .mapped x constraint template params, accessor⟩
        (Guard.whole accessor es)
  | index {live path : List Ty} {env bindings : Bindings} {object key o : Ty} {accessor : Expr}
      {keys : StringSet} {types : List Ty} {es : List Expr}
      (hobject : Exposes cat env object o)
      (hkeys : Classifies cat .strings env path key (.exact keys))
      (htypes : keys.toList.mapM (cat.propertyType o) = .ok types)
      (hbindings : cat.bindings o = .ok bindings) (hlength : types.length = es.length)
      (hchecks : ∀ t e, (t, e) ∈ types.zip es → Guards cat table live path
        ⟨false, bindings ++ env, t, accessor⟩ e) :
      Guards cat table live path ⟨false, env, .index object key, accessor⟩ (.anyOf es)
  | keyOf {live path : List Ty} {env : Bindings} {t : Ty} {accessor : Expr} {keys : StringSet}
      (hkeys : Classifies cat .strings env path (.keyOf t) (.exact keys)) :
      Guards cat table live path ⟨false, env, .keyOf t, accessor⟩
        (.anyOf (keys.toList.map fun key => .equalTo accessor (.str key)))

namespace Part

theorem isPath_accessor {part : Part} {whole : Expr} (hplain : part.Plain)
    (h : whole.isPath = true) : (part.accessor whole).isPath = true := by
  obtain ⟨declared, env, t, index?⟩ := part
  rcases hplain with ⟨_, hnone⟩ | ⟨_, s, hsome⟩
  · cases hnone
    exact h
  · cases hsome
    exact h

theorem reads_accessor {part : Part} {whole : Expr} {x : Ident} (hplain : part.Plain) :
    (part.accessor whole).Reads x ↔ whole.Reads x := by
  obtain ⟨declared, env, t, index?⟩ := part
  rcases hplain with ⟨_, hnone⟩ | ⟨_, s, hsome⟩
  · cases hnone
    exact Iff.rfl
  · cases hsome
    exact or_iff_left id

theorem put_accessor {part : Part} {whole : Expr} {x : Ident} {r : Expr} (hplain : part.Plain) :
    (part.accessor whole).put x r = part.accessor (whole.put x r) := by
  obtain ⟨declared, env, t, index?⟩ := part
  rcases hplain with ⟨_, hnone⟩ | ⟨_, s, hsome⟩
  · cases hnone
    rfl
  · cases hsome
    rfl

@[simp] theorem length_ofKeys (env : Bindings) (x : TypeParam) (template : Ty)
    (keys : List String) : (ofKeys env x template keys).length = keys.length :=
  List.length_map ..

theorem plain_ofKeys {env : Bindings} {x : TypeParam} {template : Ty} {keys : List String}
    {part : Part} (h : part ∈ ofKeys env x template keys) : part.Plain := by
  obtain ⟨key, _, rfl⟩ := List.mem_map.1 h
  exact .inr ⟨rfl, key, rfl⟩

end Part

namespace Guard

theorem reads_whole {accessor : Expr} {es : List Expr} {x : Ident} :
    (whole accessor es).Reads x ↔ accessor.Reads x ∨ ∃ e ∈ es, e.Reads x := by
  simp [whole, Expr.objectTests, Expr.hasTypeOf, Expr.nonNull, Expr.Reads]

theorem calls_whole {accessor : Expr} {es : List Expr} {l : Ident} :
    (whole accessor es).Calls l ↔ accessor.Calls l ∨ ∃ e ∈ es, e.Calls l := by
  simp [whole, Expr.objectTests, Expr.hasTypeOf, Expr.nonNull, Expr.Calls]

theorem fresh_whole {accessor : Expr} {es : List Expr} {x : Ident} :
    (whole accessor es).Fresh x ↔ accessor.Fresh x ∧ ∀ e ∈ es, e.Fresh x := by
  simp [whole, Expr.objectTests, Expr.hasTypeOf, Expr.nonNull, Expr.Fresh]

theorem put_whole (accessor : Expr) (es : List Expr) (x : Ident) (r : Expr) :
    (whole accessor es).put x r = whole (accessor.put x r) (es.map (·.put x r)) := by
  rw [whole, Expr.put_allOf, List.map_append]
  rfl

end Guard

namespace Test

theorem reads_expr {test : Test} {accessor : Expr} {x : Ident} (h : (test.expr accessor).Reads x) :
    accessor.Reads x := by
  cases test with
  | always => cases h
  | never => cases h
  | object =>
      simp only [expr, Expr.objectTests, Expr.hasTypeOf, Expr.nonNull, Expr.reads_allOf] at h
      simpa [Expr.Reads] using h
  | typeOf name => exact h.resolve_right id
  | equals value => exact h.resolve_right id

theorem not_calls_expr {test : Test} {accessor : Expr} {l : Ident} (h : ¬accessor.Calls l) :
    ¬(test.expr accessor).Calls l := by
  cases test with
  | always => exact id
  | never => exact id
  | object =>
      simp [expr, Expr.objectTests, Expr.hasTypeOf, Expr.nonNull, Expr.calls_allOf, Expr.Calls, h]
  | typeOf name => exact fun hcalls => h (hcalls.resolve_right id)
  | equals value => exact fun hcalls => h (hcalls.resolve_right id)

theorem put_expr (test : Test) (accessor : Expr) (x : Ident) (r : Expr) :
    (test.expr accessor).put x r = test.expr (accessor.put x r) := by
  cases test <;> rfl

end Test

theorem exists_mem_zip {α β : Type} {xs : List α} {ys : List β} (hlength : xs.length = ys.length)
    {y : β} (hy : y ∈ ys) : ∃ x, (x, y) ∈ xs.zip ys := by
  induction xs generalizing ys with
  | nil =>
      rw [List.length_eq_zero_iff.1 hlength.symm] at hy
      cases hy
  | cons x xs ih =>
      cases ys with
      | nil => cases hy
      | cons z ys =>
          rcases List.mem_cons.1 hy with rfl | hy
          · exact ⟨x, List.mem_cons_self⟩
          · obtain ⟨a, ha⟩ := ih (Nat.succ.inj hlength) hy
            exact ⟨a, List.mem_cons_of_mem _ ha⟩

theorem mem_zip_map_right {α β γ : Type} {xs : List α} {ys : List β} {f : β → γ} {x : α} {z : γ}
    (h : (x, z) ∈ xs.zip (ys.map f)) : ∃ y, (x, y) ∈ xs.zip ys ∧ f y = z := by
  rw [List.zip_map_right] at h
  obtain ⟨⟨x', y⟩, hmem, heq⟩ := List.mem_map.1 h
  cases heq
  exact ⟨y, hmem, rfl⟩

theorem mem_zip_map_left {α β γ : Type} {xs : List α} {ys : List β} {f : α → γ} {x : α} {y : β}
    (h : (x, y) ∈ xs.zip ys) : (f x, y) ∈ (xs.map f).zip ys := by
  rw [List.zip_map_left]
  exact List.mem_map.2 ⟨(x, y), h, rfl⟩

namespace Guards

variable {cat : Catalog} {table : Numbering} {live path : List Ty} {task : Task}
  {e : Expr}

theorem reads {x : Ident} (h : Guards cat table live path task e) (hx : e.Reads x) :
    task.accessor.Reads x := by
  induction h with
  | test htest => exact Test.reads_expr hx
  | follow _ _ ih => exact ih hx
  | target _ _ ih => exact ih hx
  | union hlength _ ih =>
      obtain ⟨e, he, hx⟩ := Expr.reads_anyOf.1 hx
      obtain ⟨t, hmem⟩ := exists_mem_zip hlength he
      exact ih t e hmem hx
  | inter hlength _ ih =>
      obtain ⟨e, he, hx⟩ := Expr.reads_allOf.1 hx
      obtain ⟨t, hmem⟩ := exists_mem_zip hlength he
      exact ih t e hmem hx
  | again => exact hx
  | @fix _ _ _ _ n _ _ _ _ _ _ hplain hlength _ ih =>
      rcases hx with ⟨hne, hx⟩ | hx
      · rcases Guard.reads_whole.1 hx with hslot | ⟨e, he, hx⟩
        · exact absurd hslot hne
        · obtain ⟨part, hmem⟩ := exists_mem_zip hlength he
          have hpart := hplain part (List.of_mem_zip hmem).1
          exact absurd ((Part.reads_accessor hpart).1 (ih part e hmem hx)) hne
      · exact hx
  | inline _ _ hplain hlength _ ih =>
      rcases Guard.reads_whole.1 hx with hx | ⟨e, he, hx⟩
      · exact hx
      · obtain ⟨part, hmem⟩ := exists_mem_zip hlength he
        have hpart := hplain part (List.of_mem_zip hmem).1
        exact (Part.reads_accessor hpart).1 (ih part e hmem hx)
  | mapped _ hlength _ ih =>
      rcases Guard.reads_whole.1 hx with hx | ⟨e, he, hx⟩
      · exact hx
      · obtain ⟨part, hmem⟩ := exists_mem_zip ((Part.length_ofKeys ..).trans hlength) he
        have hpart := Part.plain_ofKeys (List.of_mem_zip hmem).1
        exact (Part.reads_accessor hpart).1 (ih part e hmem hx)
  | index _ _ _ _ hlength _ ih =>
      obtain ⟨e, he, hx⟩ := Expr.reads_anyOf.1 hx
      obtain ⟨t, hmem⟩ := exists_mem_zip hlength he
      exact ih t e hmem hx
  | keyOf =>
      obtain ⟨e, he, hx⟩ := Expr.reads_anyOf.1 hx
      obtain ⟨key, _, rfl⟩ := List.mem_map.1 he
      exact hx.resolve_right id

theorem knots_put {t : Ty} (h : Knots task t) (a : Expr) :
    Knots ⟨task.declared, task.env, task.type, a⟩ t := by
  cases h with
  | flat hknot => exact .flat hknot
  | declared hhead => exact .declared hhead

/-- A guard is uniform in its accessor: it can be moved to another value. -/
theorem put {x : Ident} (r : Expr) (h : Guards cat table live path task e) (hfresh : e.Fresh x) :
    Guards cat table live path ⟨task.declared, task.env, task.type, task.accessor.put x r⟩
      (e.put x r) := by
  induction h with
  | test htest =>
      rw [Test.put_expr]
      exact .test htest
  | follow hfollow _ ih => exact .follow hfollow (ih hfresh)
  | target hodd _ ih => exact .target hodd (ih hfresh)
  | union hlength _ ih =>
      rw [Expr.put_anyOf]
      rw [Expr.fresh_anyOf] at hfresh
      refine .union (by rw [hlength, List.length_map]) fun t e' hmem => ?_
      obtain ⟨e, hzip, rfl⟩ := mem_zip_map_right hmem
      exact ih t e hzip (hfresh e (List.of_mem_zip hzip).2)
  | inter hlength _ ih =>
      rw [Expr.put_allOf]
      rw [Expr.fresh_allOf] at hfresh
      refine .inter (by rw [hlength, List.length_map]) fun t e' hmem => ?_
      obtain ⟨e, hzip, rfl⟩ := mem_zip_map_right hmem
      exact ih t e hzip (hfresh e (List.of_mem_zip hzip).2)
  | again hknot hlive hnumber => exact .again hknot hlive hnumber
  | @fix _ _ task _ n _ es hknot hoff hnumber hparts hplain hlength hchecks _ =>
      -- The body reads its own slot only, so the name stands in the argument alone.
      have hbody : ¬(Guard.whole (.ident (.slot n)) es).Reads x := by
        intro hx
        rcases Guard.reads_whole.1 hx with hslot | ⟨e, he, hx⟩
        · exact hfresh.1 hslot
        · obtain ⟨part, hmem⟩ := exists_mem_zip hlength he
          have hpart := hplain part (List.of_mem_zip hmem).1
          exact hfresh.1 ((Part.reads_accessor hpart).1 ((hchecks part e hmem).reads hx))
      simp only [Expr.put, Expr.put_eq_self r hfresh.2.1 hbody]
      have hknot := knots_put hknot (task.accessor.put x r)
      exact Guards.fix hknot hoff hnumber hparts hplain hlength hchecks
  | @inline _ _ task _ _ _ hknot hparts hplain hlength _ ih =>
      rw [Guard.put_whole]
      rw [Guard.fresh_whole] at hfresh
      have hknot := knots_put hknot (task.accessor.put x r)
      refine Guards.inline hknot hparts hplain (by rw [hlength, List.length_map])
        fun part e' hmem => ?_
      obtain ⟨e, hzip, rfl⟩ := mem_zip_map_right hmem
      have hpart := ih part e hzip (hfresh.2 e (List.of_mem_zip hzip).2)
      rw [Part.task, Part.put_accessor (hplain part (List.of_mem_zip hzip).1)] at hpart
      exact hpart
  | mapped hkeys hlength _ ih =>
      rw [Guard.put_whole]
      rw [Guard.fresh_whole] at hfresh
      refine .mapped hkeys (by rw [hlength, List.length_map]) fun part e' hmem => ?_
      obtain ⟨e, hzip, rfl⟩ := mem_zip_map_right hmem
      have hpart := ih part e hzip (hfresh.2 e (List.of_mem_zip hzip).2)
      rw [Part.task, Part.put_accessor (Part.plain_ofKeys (List.of_mem_zip hzip).1)] at hpart
      exact hpart
  | index hobject hkeys htypes hbindings hlength _ ih =>
      rw [Expr.put_anyOf]
      rw [Expr.fresh_anyOf] at hfresh
      refine .index hobject hkeys htypes hbindings (by rw [hlength, List.length_map])
        fun t e' hmem => ?_
      obtain ⟨e, hzip, rfl⟩ := mem_zip_map_right hmem
      exact ih t e hzip (hfresh e (List.of_mem_zip hzip).2)
  | keyOf hkeys =>
      rw [Expr.put_anyOf, List.map_map]
      exact .keyOf hkeys

end Guards

end TypeGuard
