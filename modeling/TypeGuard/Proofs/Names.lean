import TypeGuard.Expr.Build
import TypeGuard.Expr.Replace

/-! The names in an expression: which are read, which recursive conditions are called, and what
replacing a name does to both. -/

namespace TypeGuard.Expr

/-- The name is read from around the expression. -/
def Reads (x : Ident) : Expr → Prop
  | ident y => y = x
  | prop target _ => target.Reads x
  | elem target index => target.Reads x ∨ index.Reads x
  | const _ => False
  | typeOf operand => operand.Reads x
  | eq left right => left.Reads x ∨ right.Reads x
  | ne left right => left.Reads x ∨ right.Reads x
  | and left right => left.Reads x ∨ right.Reads x
  | or left right => left.Reads x ∨ right.Reads x
  | recur _ argument => argument.Reads x
  | fix _ y body argument => (y ≠ x ∧ body.Reads x) ∨ argument.Reads x

/-- The recursive condition of that label is called. -/
def Calls (l : Ident) : Expr → Prop
  | ident _ => False
  | prop target _ => target.Calls l
  | elem target index => target.Calls l ∨ index.Calls l
  | const _ => False
  | typeOf operand => operand.Calls l
  | eq left right => left.Calls l ∨ right.Calls l
  | ne left right => left.Calls l ∨ right.Calls l
  | and left right => left.Calls l ∨ right.Calls l
  | or left right => left.Calls l ∨ right.Calls l
  | recur k argument => k = l ∨ argument.Calls l
  | fix _ _ body argument => body.Calls l ∨ argument.Calls l

/-- No recursive condition inside has the name for its parameter. -/
def Fresh (x : Ident) : Expr → Prop
  | ident _ => True
  | prop target _ => target.Fresh x
  | elem target index => target.Fresh x ∧ index.Fresh x
  | const _ => True
  | typeOf operand => operand.Fresh x
  | eq left right => left.Fresh x ∧ right.Fresh x
  | ne left right => left.Fresh x ∧ right.Fresh x
  | and left right => left.Fresh x ∧ right.Fresh x
  | or left right => left.Fresh x ∧ right.Fresh x
  | recur _ argument => argument.Fresh x
  | fix _ y body argument => y ≠ x ∧ body.Fresh x ∧ argument.Fresh x

/-- The expression with another in the place of a name, whether the name is fresh or not. -/
def put (e : Expr) (x : Ident) (r : Expr) : Expr :=
  match e with
  | ident y => if y = x then r else ident y
  | prop target name => prop (target.put x r) name
  | elem target index => elem (target.put x r) (index.put x r)
  | const value => const value
  | typeOf operand => typeOf (operand.put x r)
  | eq left right => eq (left.put x r) (right.put x r)
  | ne left right => ne (left.put x r) (right.put x r)
  | and left right => and (left.put x r) (right.put x r)
  | or left right => or (left.put x r) (right.put x r)
  | recur label argument => recur label (argument.put x r)
  | fix label y body argument => fix label y (body.put x r) (argument.put x r)

-- Their equations are made here, once, and not by the first of the proofs below that needs them.
attribute [grind =] Reads Calls Fresh put

theorem replace_eq_ok {e e' : Expr} {x : Ident} {r : Expr} :
    e.replace x r = .ok e' ↔ e.Fresh x ∧ e.put x r = e' := by
  induction e generalizing e' with
  | ident y => simp [replace, put, Fresh, pure, Except.pure]
  | const value => simp [replace, put, Fresh, pure, Except.pure]
  | prop target name ih | typeOf target ih | recur label target ih =>
      simp only [replace, put, Fresh]
      cases h : target.replace x r with
      | error fault =>
          have hfresh : ¬target.Fresh x := fun hf => by
            rw [ih.2 ⟨hf, rfl⟩] at h
            cases h
          simp [bind, Except.bind, hfresh]
      | ok target' =>
          obtain ⟨hfresh, rfl⟩ := ih.1 h
          simp [bind, Except.bind, pure, Except.pure, hfresh]
  | elem left right ihl ihr | eq left right ihl ihr | ne left right ihl ihr
  | and left right ihl ihr | or left right ihl ihr =>
      simp only [replace, put, Fresh]
      cases hl : left.replace x r with
      | error fault =>
          have hfresh : ¬left.Fresh x := fun hf => by
            rw [ihl.2 ⟨hf, rfl⟩] at hl
            cases hl
          simp [bind, Except.bind, hfresh]
      | ok left' =>
          obtain ⟨hfreshl, rfl⟩ := ihl.1 hl
          cases hr : right.replace x r with
          | error fault =>
              have hfresh : ¬right.Fresh x := fun hf => by
                rw [ihr.2 ⟨hf, rfl⟩] at hr
                cases hr
              simp [bind, Except.bind, hfresh]
          | ok right' =>
              obtain ⟨hfreshr, rfl⟩ := ihr.1 hr
              simp [bind, Except.bind, pure, Except.pure, hfreshl, hfreshr]
  | fix label y body argument ihb iha =>
      simp only [replace, put, Fresh]
      by_cases hy : y = x
      · simp [hy, throw, throwThe, MonadExceptOf.throw]
      cases hb : body.replace x r with
      | error fault =>
          have hfresh : ¬body.Fresh x := fun hf => by
            rw [ihb.2 ⟨hf, rfl⟩] at hb
            cases hb
          simp [bind, Except.bind, hy, hfresh]
      | ok body' =>
          obtain ⟨hfreshb, rfl⟩ := ihb.1 hb
          cases ha : argument.replace x r with
          | error fault =>
              have hfresh : ¬argument.Fresh x := fun hf => by
                rw [iha.2 ⟨hf, rfl⟩] at ha
                cases ha
              simp [bind, Except.bind, hy, hfresh]
          | ok argument' =>
              obtain ⟨hfresha, rfl⟩ := iha.1 ha
              simp [bind, Except.bind, pure, Except.pure, hy, hfreshb, hfresha]

theorem put_eq_self {e : Expr} {x : Ident} (r : Expr) (hfresh : e.Fresh x) (h : ¬e.Reads x) :
    e.put x r = e := by
  induction e with
  | ident y => exact if_neg h
  | const value => rfl
  | prop target name ih | typeOf target ih | recur label target ih =>
      simp only [put, ih hfresh h]
  | elem left right ihl ihr | eq left right ihl ihr | ne left right ihl ihr
  | and left right ihl ihr | or left right ihl ihr =>
      simp only [Reads, not_or] at h
      simp only [put, ihl hfresh.1 h.1, ihr hfresh.2 h.2]
  | fix label y body argument ihb iha =>
      simp only [Reads, not_or, not_and] at h
      simp only [put, ihb hfresh.2.1 (h.1 hfresh.1), iha hfresh.2.2 h.2]

theorem calls_put_of_calls {e : Expr} {l x : Ident} (r : Expr) (h : e.Calls l) :
    (e.put x r).Calls l := by
  induction e with
  | ident y => cases h
  | const value => cases h
  | prop target name ih | typeOf target ih => exact ih h
  | recur label target ih => exact h.imp_right ih
  | elem left right ihl ihr | eq left right ihl ihr | ne left right ihl ihr
  | and left right ihl ihr | or left right ihl ihr | fix label y left right ihl ihr =>
      exact h.imp ihl ihr

theorem calls_of_calls_put {e r : Expr} {l x : Ident} (hr : ¬r.Calls l) (h : (e.put x r).Calls l) :
    e.Calls l := by
  induction e with
  | ident y =>
      simp only [put] at h
      split at h
      · exact absurd h hr
      · exact h
  | const value => cases h
  | prop target name ih | typeOf target ih => exact ih h
  | recur label target ih => exact h.imp_right ih
  | elem left right ihl ihr | eq left right ihl ihr | ne left right ihl ihr
  | and left right ihl ihr | or left right ihl ihr | fix label y left right ihl ihr =>
      exact h.imp ihl ihr

/-! Conditions put together from others. -/

theorem foldl_iff_exists {P : Expr → Prop} {op : Expr → Expr → Expr}
    (hop : ∀ a b, P (op a b) ↔ P a ∨ P b) (first : Expr) (rest : List Expr) :
    P (rest.foldl op first) ↔ ∃ e ∈ first :: rest, P e := by
  induction rest generalizing first with
  | nil => simp
  | cons e rest ih => simp [ih, hop, or_assoc]

theorem foldl_iff_forall {P : Expr → Prop} {op : Expr → Expr → Expr}
    (hop : ∀ a b, P (op a b) ↔ P a ∧ P b) (first : Expr) (rest : List Expr) :
    P (rest.foldl op first) ↔ ∀ e ∈ first :: rest, P e := by
  induction rest generalizing first with
  | nil => simp
  | cons e rest ih => simp [ih, hop, and_assoc]

@[simp] theorem reads_allOf {x : Ident} {es : List Expr} :
    (allOf es).Reads x ↔ ∃ e ∈ es, e.Reads x := by
  cases es with
  | nil => simp [allOf, always, Reads]
  | cons first rest => exact foldl_iff_exists (fun _ _ => Iff.rfl) first rest

@[simp] theorem calls_allOf {l : Ident} {es : List Expr} :
    (allOf es).Calls l ↔ ∃ e ∈ es, e.Calls l := by
  cases es with
  | nil => simp [allOf, always, Calls]
  | cons first rest => exact foldl_iff_exists (fun _ _ => Iff.rfl) first rest

@[simp] theorem reads_anyOf {x : Ident} {es : List Expr} :
    (anyOf es).Reads x ↔ ∃ e ∈ es, e.Reads x := by
  cases es with
  | nil => simp [anyOf, never, Reads]
  | cons first rest => exact foldl_iff_exists (fun _ _ => Iff.rfl) first rest

@[simp] theorem calls_anyOf {l : Ident} {es : List Expr} :
    (anyOf es).Calls l ↔ ∃ e ∈ es, e.Calls l := by
  cases es with
  | nil => simp [anyOf, never, Calls]
  | cons first rest => exact foldl_iff_exists (fun _ _ => Iff.rfl) first rest

theorem put_foldl {op : Expr → Expr → Expr} {x : Ident} {r : Expr}
    (hop : ∀ a b, (op a b).put x r = op (a.put x r) (b.put x r)) (first : Expr) (rest : List Expr) :
    (rest.foldl op first).put x r = (rest.map (·.put x r)).foldl op (first.put x r) := by
  induction rest generalizing first with
  | nil => rfl
  | cons e rest ih => simp only [List.foldl_cons, List.map_cons, ih, hop]

theorem put_allOf (x : Ident) (r : Expr) (es : List Expr) :
    (allOf es).put x r = allOf (es.map (·.put x r)) := by
  cases es with
  | nil => rfl
  | cons first rest => exact put_foldl (fun _ _ => rfl) first rest

theorem put_anyOf (x : Ident) (r : Expr) (es : List Expr) :
    (anyOf es).put x r = anyOf (es.map (·.put x r)) := by
  cases es with
  | nil => rfl
  | cons first rest => exact put_foldl (fun _ _ => rfl) first rest

@[simp] theorem fresh_allOf {x : Ident} {es : List Expr} :
    (allOf es).Fresh x ↔ ∀ e ∈ es, e.Fresh x := by
  cases es with
  | nil => simp [allOf, always, Fresh]
  | cons first rest => exact foldl_iff_forall (fun _ _ => Iff.rfl) first rest

@[simp] theorem fresh_anyOf {x : Ident} {es : List Expr} :
    (anyOf es).Fresh x ↔ ∀ e ∈ es, e.Fresh x := by
  cases es with
  | nil => simp [anyOf, never, Fresh]
  | cons first rest => exact foldl_iff_forall (fun _ _ => Iff.rfl) first rest

/-- An accessor that reads a name and then part after part of it. -/
def isPath : Expr → Bool
  | ident _ => true
  | elem target (const _) => target.isPath
  | _ => false

theorem not_calls_of_isPath {a : Expr} {l : Ident} (h : a.isPath = true) : ¬a.Calls l := by
  induction a with
  | ident y => exact id
  | elem target index ih _ =>
      cases index with
      | const value => exact fun hcalls => hcalls.elim (ih h) id
      | _ => cases h
  | _ => cases h

end TypeGuard.Expr
