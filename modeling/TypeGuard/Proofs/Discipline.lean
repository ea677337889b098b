import TypeGuard.Proofs.Names

/-! How recursive conditions are nested and called. A call goes to one of the conditions around it,
each condition around it has a label and a parameter of its own, and all that is read is read from
the innermost one. -/

namespace TypeGuard

/-- What a recursive condition binds in its body. -/
structure Binder where
  label : Ident
  parameter : Ident

namespace Expr

/-- No recursive condition is in the expression, and none is called. -/
def isFlat : Expr → Bool
  | ident _ => true
  | prop target _ => target.isFlat
  | elem target index => target.isFlat && index.isFlat
  | const _ => true
  | typeOf operand => operand.isFlat
  | eq left right => left.isFlat && right.isFlat
  | ne left right => left.isFlat && right.isFlat
  | and left right => left.isFlat && right.isFlat
  | or left right => left.isFlat && right.isFlat
  | recur _ _ => false
  | fix _ _ _ _ => false

/-- Reads a name and then so many parts, each by a key that is a string. -/
inductive Descends (x : Ident) : Nat → Expr → Prop
  | here : Descends x 0 (ident x)
  | part {n : Nat} {a : Expr} (h : Descends x n a) (key : String) :
      Descends x (n + 1) (elem a (const (.str key)))

/-- Reads at least so many parts of what the innermost condition is about. Outside of all
conditions, anything flat will do. -/
def Accesses (least : Nat) : List Binder → Expr → Prop
  | [], a => a.isFlat = true
  | binder :: _, a => ∃ n, least ≤ n ∧ a.Descends binder.parameter n

/-- The discipline inside of these conditions, the innermost first. Calls are made on parts of the
value that are at least so deep. -/
def Disciplined (least : Nat) : List Binder → Expr → Prop
  | scope, ident x => ∀ binder ∈ scope.head?, x = binder.parameter
  | scope, prop target _ => target.Disciplined least scope
  | scope, elem target index => target.Disciplined least scope ∧ index.Disciplined least scope
  | _, const _ => True
  | scope, typeOf operand => operand.Disciplined least scope
  | scope, eq left right => left.Disciplined least scope ∧ right.Disciplined least scope
  | scope, ne left right => left.Disciplined least scope ∧ right.Disciplined least scope
  | scope, and left right => left.Disciplined least scope ∧ right.Disciplined least scope
  | scope, or left right => left.Disciplined least scope ∧ right.Disciplined least scope
  | scope, recur label argument =>
      (scope.map Binder.label).count label = 1 ∧ argument.Accesses least scope
  | scope, fix label parameter body argument =>
      body.Calls label ∧
      (∀ binder ∈ scope, binder.label ≠ label ∧ binder.parameter ≠ parameter) ∧
      body.Disciplined least (⟨label, parameter⟩ :: scope) ∧ argument.Accesses 0 scope

attribute [grind =] isFlat Accesses Disciplined

/-! Flat expressions. -/

theorem not_calls_of_isFlat {e : Expr} (h : e.isFlat = true) (l : Ident) : ¬e.Calls l := by
  induction e with
  | ident _ | const _ => exact id
  | prop target _ ih | typeOf target ih => exact ih h
  | elem left right ihl ihr | eq left right ihl ihr | ne left right ihl ihr
  | and left right ihl ihr | or left right ihl ihr =>
      simp only [isFlat, Bool.and_eq_true] at h
      exact not_or.2 ⟨ihl h.1, ihr h.2⟩
  | recur _ _ _ | fix _ _ _ _ _ _ => cases h

theorem fresh_of_isFlat {e : Expr} (h : e.isFlat = true) (x : Ident) : e.Fresh x := by
  induction e with
  | ident _ | const _ => trivial
  | prop target _ ih | typeOf target ih => exact ih h
  | elem left right ihl ihr | eq left right ihl ihr | ne left right ihl ihr
  | and left right ihl ihr | or left right ihl ihr =>
      simp only [isFlat, Bool.and_eq_true] at h
      exact ⟨ihl h.1, ihr h.2⟩
  | recur _ _ _ | fix _ _ _ _ _ _ => cases h

theorem disciplined_of_isFlat {e : Expr} (h : e.isFlat = true) (least : Nat) :
    e.Disciplined least [] := by
  induction e with
  | ident _ =>
      intro binder hbinder
      cases hbinder
  | const _ => trivial
  | prop target _ ih | typeOf target ih => exact ih h
  | elem left right ihl ihr | eq left right ihl ihr | ne left right ihl ihr
  | and left right ihl ihr | or left right ihl ihr =>
      simp only [isFlat, Bool.and_eq_true] at h
      exact ⟨ihl h.1, ihr h.2⟩
  | recur _ _ _ | fix _ _ _ _ _ _ => cases h

theorem isFlat_put {e a : Expr} {x : Ident} (ha : a.isFlat = true) :
    (e.put x a).isFlat = e.isFlat := by
  induction e with
  | ident y =>
      simp only [put]
      split
      · exact ha
      · rfl
  | const _ | recur _ _ _ | fix _ _ _ _ _ _ => rfl
  | prop target _ ih | typeOf target ih => exact ih
  | elem left right ihl ihr | eq left right ihl ihr | ne left right ihl ihr
  | and left right ihl ihr | or left right ihl ihr => simp only [put, isFlat, ihl, ihr]

theorem isFlat_allOf {es : List Expr} : (allOf es).isFlat = true ↔ ∀ e ∈ es, e.isFlat = true := by
  cases es with
  | nil => simp [allOf, always, isFlat]
  | cons first rest =>
      exact foldl_iff_forall (P := fun e => e.isFlat = true)
        (fun _ _ => by simp [isFlat]) first rest

theorem isFlat_anyOf {es : List Expr} : (anyOf es).isFlat = true ↔ ∀ e ∈ es, e.isFlat = true := by
  cases es with
  | nil => simp [anyOf, never, isFlat]
  | cons first rest =>
      exact foldl_iff_forall (P := fun e => e.isFlat = true)
        (fun _ _ => by simp [isFlat]) first rest

namespace Descends

variable {x : Ident} {n : Nat} {a : Expr}

theorem isFlat (h : a.Descends x n) : a.isFlat = true := by
  induction h with
  | here => rfl
  | part _ key ih => simp only [Expr.isFlat, ih, Bool.and_self]

theorem disciplined (h : a.Descends x n) (least : Nat) {scope : List Binder}
    (hx : ∀ binder ∈ scope.head?, x = binder.parameter) : a.Disciplined least scope := by
  induction h with
  | here => exact hx
  | part _ key ih => exact ⟨ih, trivial⟩

theorem put_self {y : Ident} {m : Nat} {r : Expr} (h : a.Descends x n) (hr : r.Descends y m) :
    (a.put x r).Descends y (m + n) := by
  induction h with
  | here =>
      rw [put, if_pos rfl]
      exact hr
  | part _ key ih => exact ih.part key

theorem put_of_ne {y : Ident} (h : a.Descends x n) (hne : x ≠ y) (r : Expr) : a.put y r = a := by
  induction h with
  | here => exact if_neg hne
  | part _ key ih => rw [put, ih, put]

end Descends

namespace Accesses

variable {least : Nat} {scope : List Binder} {a : Expr}

theorem isFlat (h : a.Accesses least scope) : a.isFlat = true := by
  cases scope with
  | nil => exact h
  | cons binder rest =>
      obtain ⟨n, _, hdescends⟩ := h
      exact hdescends.isFlat

theorem disciplined (h : a.Accesses least scope) (least' : Nat) : a.Disciplined least' scope := by
  cases scope with
  | nil => exact disciplined_of_isFlat h least'
  | cons binder rest =>
      obtain ⟨n, _, hdescends⟩ := h
      apply hdescends.disciplined
      intro binder' hbinder
      cases hbinder
      rfl

theorem mono {least' : Nat} (h : a.Accesses least scope) (hle : least' ≤ least) :
    a.Accesses least' scope := by
  cases scope with
  | nil => exact h
  | cons binder rest =>
      obtain ⟨n, hn, hdescends⟩ := h
      exact ⟨n, Nat.le_trans hle hn, hdescends⟩

theorem part (h : a.Accesses least scope) (key : String) :
    (elem a (const (.str key))).Accesses (least + 1) scope := by
  cases scope with
  | nil =>
      have hflat : a.isFlat = true := h
      simp only [Accesses, Expr.isFlat, hflat, Bool.and_self]
  | cons binder rest =>
      obtain ⟨n, hn, hdescends⟩ := h
      exact ⟨n + 1, Nat.succ_le_succ hn, hdescends.part key⟩

theorem slot (binder : Binder) (scope : List Binder) :
    (ident binder.parameter).Accesses 0 (binder :: scope) :=
  ⟨0, Nat.le_refl 0, .here⟩

/-- What was read from a condition can be read from the place where it is put. -/
theorem put {inner : List Binder} {binder : Binder} {r : Expr}
    (h : a.Accesses least (inner ++ binder :: scope)) (hr : r.Accesses 0 scope)
    (hinner : ∀ other ∈ inner, other.parameter ≠ binder.parameter) :
    (a.put binder.parameter r).Accesses least (inner ++ scope) := by
  cases inner with
  | nil =>
      obtain ⟨n, hn, hdescends⟩ := h
      cases scope with
      | nil =>
          exact (isFlat_put hr).trans hdescends.isFlat
      | cons outer rest =>
          obtain ⟨m, _, hr⟩ := hr
          exact ⟨m + n, Nat.le_trans hn (Nat.le_add_left n m), hdescends.put_self hr⟩
  | cons other rest =>
      obtain ⟨n, hn, hdescends⟩ := h
      refine ⟨n, hn, ?_⟩
      rw [hdescends.put_of_ne (hinner other List.mem_cons_self)]
      exact hdescends

end Accesses

section Tests

variable {least : Nat} {scope : List Binder}

theorem disciplined_allOf {es : List Expr} :
    (allOf es).Disciplined least scope ↔ ∀ e ∈ es, e.Disciplined least scope := by
  cases es with
  | nil => simp [allOf, always, Disciplined]
  | cons first rest =>
      exact foldl_iff_forall (P := Disciplined least scope) (fun _ _ => Iff.rfl) first rest

theorem disciplined_anyOf {es : List Expr} :
    (anyOf es).Disciplined least scope ↔ ∀ e ∈ es, e.Disciplined least scope := by
  cases es with
  | nil => simp [anyOf, never, Disciplined]
  | cons first rest =>
      exact foldl_iff_forall (P := Disciplined least scope) (fun _ _ => Iff.rfl) first rest

end Tests

namespace Disciplined

variable {least : Nat} {scope : List Binder} {e : Expr}

theorem fresh {binder : Binder} (h : e.Disciplined least scope) (hbinder : binder ∈ scope) :
    e.Fresh binder.parameter := by
  induction e generalizing scope with
  | ident _ | const _ => trivial
  | prop target _ ih | typeOf target ih => exact ih h hbinder
  | elem left right ihl ihr | eq left right ihl ihr | ne left right ihl ihr
  | and left right ihl ihr | or left right ihl ihr => exact ⟨ihl h.1 hbinder, ihr h.2 hbinder⟩
  | recur _ argument _ => exact fresh_of_isFlat h.2.isFlat _
  | fix label parameter body argument ihbody _ =>
      obtain ⟨_, hother, hbody, hargument⟩ := h
      exact ⟨(hother binder hbinder).2.symm, ihbody hbody (List.mem_cons_of_mem _ hbinder),
        fresh_of_isFlat hargument.isFlat _⟩

theorem count_append_cons {inner : List Binder} {binder : Binder} {l : Ident}
    (hne : l ≠ binder.label) :
    ((inner ++ binder :: scope).map Binder.label).count l =
      ((inner ++ scope).map Binder.label).count l := by
  simp only [List.map_append, List.map_cons, List.count_append, List.count_cons_of_ne hne.symm]

/-- A body that does not call its condition keeps the discipline where it is put. -/
theorem put {inner : List Binder} {binder : Binder} {r : Expr}
    (h : e.Disciplined least (inner ++ binder :: scope)) (hcalls : ¬e.Calls binder.label)
    (hr : r.Accesses 0 scope) (hinner : ∀ other ∈ inner, other.parameter ≠ binder.parameter) :
    (e.put binder.parameter r).Disciplined least (inner ++ scope) := by
  induction e generalizing inner with
  | ident x =>
      simp only [Expr.put]
      cases inner with
      | nil =>
          rw [if_pos (h binder rfl)]
          exact hr.disciplined least
      | cons other rest =>
          have hx : x = other.parameter := h other rfl
          rw [hx, if_neg (hinner other List.mem_cons_self)]
          intro binder' hbinder'
          cases hbinder'
          rfl
  | const _ => trivial
  | prop target _ ih | typeOf target ih => exact ih h hcalls hinner
  | elem left right ihl ihr | eq left right ihl ihr | ne left right ihl ihr
  | and left right ihl ihr | or left right ihl ihr =>
      obtain ⟨hleft, hright⟩ := not_or.1 hcalls
      exact ⟨ihl h.1 hleft hinner, ihr h.2 hright hinner⟩
  | recur label argument _ =>
      obtain ⟨hcount, hargument⟩ := h
      obtain ⟨hlabel, _⟩ := not_or.1 hcalls
      rw [count_append_cons hlabel] at hcount
      exact ⟨hcount, hargument.put hr hinner⟩
  | fix label parameter body argument ihbody _ =>
      obtain ⟨hself, hother, hbody, hargument⟩ := h
      obtain ⟨hcalls, _⟩ := not_or.1 hcalls
      have hparameter : parameter ≠ binder.parameter :=
        (hother binder (List.mem_append_right inner List.mem_cons_self)).2.symm
      refine ⟨calls_put_of_calls r hself, fun other hmem => hother other ?_, ?_,
        hargument.put hr hinner⟩
      · exact (List.mem_append.1 hmem).elim (List.mem_append_left _)
          fun hmem => List.mem_append_right _ (List.mem_cons_of_mem _ hmem)
      · have hbody : body.Disciplined least ((⟨label, parameter⟩ :: inner) ++ binder :: scope) :=
          hbody
        exact ihbody hbody hcalls (List.forall_mem_cons.2 ⟨hparameter, hinner⟩)

end Disciplined

end Expr

end TypeGuard
