import TypeGuard.Proofs.Evaluation

/-! What a condition answers in every scope in which the conditions it calls are bound. There is one
rule for each way in which guards are put together. -/

namespace TypeGuard

/-- A recursive condition that can be called, and what it comes to. -/
structure Check where
  subject : Ty
  number : Nat
  body : Expr
  accepts : Value → Bool → Prop

namespace Check

def label (c : Check) : Ident :=
  Guard.label c.subject c.number

def slot (c : Check) : Ident :=
  .slot c.number

end Check

/-- The labels of the checks stand for them. -/
def Binds (σ : Scope) (cs : List Check) : Prop :=
  ∀ c ∈ cs, ∃ a, σ.lookup c.label = some (.code (.fix c.label c.slot c.body a))

theorem Binds.slot {σ : Scope} {cs : List Check} (h : Binds σ cs) (n : Nat) (v : Value) :
    Binds ((.slot n, v) :: σ) cs := by
  intro c hc
  obtain ⟨a, ha⟩ := h c hc
  refine ⟨a, ?_⟩
  rw [List.lookup_cons]
  exact ha

theorem Binds.fix {σ : Scope} {cs : List Check} {c : Check} (h : Binds σ cs)
    (hfresh : ∀ c' ∈ cs, c'.label ≠ c.label) (a : Expr) :
    Binds ((c.label, .code (.fix c.label c.slot c.body a)) :: σ) (c :: cs) := by
  intro c' hc'
  rw [List.lookup_cons]
  rcases List.mem_cons.1 hc' with rfl | hmem
  · exact ⟨a, by rw [beq_self_eq_true]⟩
  · obtain ⟨b, hb⟩ := h c' hmem
    exact ⟨b, by rw [beq_false_of_ne (hfresh c' hmem)]; exact hb⟩

/-- The check is right about all values below a height. -/
def Check.Runs (c : Check) (cs : List Check) (z : Nat) : Prop :=
  ∀ v d σ, v.height < z → v.height ≤ d → Binds σ (c :: cs) → σ.lookup c.slot = some v →
    Accepts (c.accepts v) (c.body.eval d σ)

/-- Each check is right about all values below a height, given those around it. -/
def Serves : List Check → Nat → Prop
  | [], _ => True
  | c :: cs, z => c.Runs cs z ∧ Serves cs z

theorem Serves.mono {cs : List Check} {z z' : Nat} (h : Serves cs z) (hle : z' ≤ z) :
    Serves cs z' := by
  induction cs with
  | nil => trivial
  | cons c cs ih =>
      exact ⟨fun v d σ hv => h.1 v d σ (Nat.lt_of_lt_of_le hv hle), ih h.2⟩

theorem Serves.call {cs : List Check} {z d : Nat} {σ : Scope} {c : Check} {v : Value}
    (h : Serves cs z) (hc : c ∈ cs) (hbinds : Binds σ cs) (hv : v.height < z) (hd : v.height ≤ d) :
    Accepts (c.accepts v) (c.body.eval d ((c.slot, v) :: σ)) := by
  induction cs with
  | nil => cases hc
  | cons c' cs ih =>
      rcases List.mem_cons.1 hc with rfl | hc
      · exact h.1 v d _ hv hd (hbinds.slot _ v) (by rw [List.lookup_cons, beq_self_eq_true])
      · exact ih h.2 hc fun c'' hc'' => hbinds c'' (List.mem_cons_of_mem _ hc'')

/-- The accessor came to a value below a height, or stumbled over a numeral. -/
def Below (z : Nat) (r : Reading) : Prop :=
  r = .error .badNumeral ∨ ∃ v, r = .ok v ∧ v.height < z

theorem Below.mono {z z' : Nat} {r : Reading} (h : Below z r) (hle : z ≤ z') : Below z' r :=
  h.imp_right fun ⟨v, hv, hlt⟩ => ⟨v, hv, Nat.lt_of_lt_of_le hlt hle⟩

/-- Where the accessor comes to a value below the height that calls are served for, give or take the
slack, the condition comes to a truth value with that property of what was read. -/
def Answers (slack : Nat) (cs : List Check) (a e : Expr) (Φ : Reading → Bool → Prop) : Prop :=
  ∀ z d σ, Serves cs z → Binds σ cs → z ≤ d → Below (z + slack) (a.eval d σ) →
    Accepts (Φ (a.eval d σ)) (e.eval d σ)

namespace Part

/-- What the part of a value is. -/
def reading (part : Part) (v : Value) : Reading :=
  match part.index? with
  | some (.const (.str s)) => v.read (.str s)
  | _ => .ok v

/-- A check of the value itself may be called on it, a check of a part on less. -/
def slack (part : Part) : Nat :=
  if part.declared then 1 else 0

theorem eval_accessor {part : Part} {a : Expr} {v : Value} {d : Nat} {σ : Scope}
    (hplain : part.Plain) (ha : a.eval d σ = .ok v) :
    (part.accessor a).eval d σ = part.reading v := by
  obtain ⟨declared, env, t, index?⟩ := part
  rcases hplain with ⟨_, hnone⟩ | ⟨_, s, hsome⟩
  · cases hnone
    exact ha
  · cases hsome
    simp only [accessor, reading, Expr.eval_elem_const, ha]
    rfl

theorem below_reading {part : Part} {v : Value} {z : Nat} (hplain : part.Plain)
    (hobject : v.isObject = true) (hv : v.height < z + 1) :
    Below (z + part.slack) (part.reading v) := by
  obtain ⟨declared, env, t, index?⟩ := part
  rcases hplain with ⟨hdeclared, hnone⟩ | ⟨hdeclared, s, hsome⟩
  · cases hnone
    cases hdeclared
    exact .inr ⟨v, rfl, hv⟩
  · cases hsome
    cases hdeclared
    refine (Value.read_cases hobject s).imp_right fun ⟨w, hw, hlt⟩ => ⟨w, hw, ?_⟩
    simp only [slack]
    omega

end Part

namespace Test

/-- What a test says about a reading, if it says something. -/
def Decides (test : Test) (r : Reading) (b : Bool) : Prop :=
  match test with
  | always => b = true
  | never => b = false
  | object => ∃ v, r = .ok v ∧ b = v.isObject
  | typeOf name => ∃ v, r = .ok v ∧ b = decide (v.typeOf = name)
  | equals value => ∃ v, r = .ok v ∧ b = v.strictEqual (.scalar value)

end Test

namespace Answers

variable {slack : Nat} {cs : List Check} {a e : Expr} {Φ : Reading → Bool → Prop}

theorem mono {Ψ : Reading → Bool → Prop} (h : Answers slack cs a e Φ)
    (himp : ∀ r b, Φ r b → Ψ r b) :
    Answers slack cs a e Ψ :=
  fun z d σ hserves hbinds hd hbelow => (h z d σ hserves hbinds hd hbelow).mono fun b => himp _ b

theorem tighten (h : Answers slack cs a e Φ) : Answers 0 cs a e Φ :=
  fun z d σ hserves hbinds hd hbelow =>
    h z d σ hserves hbinds hd (hbelow.mono (Nat.le_add_right z slack))

theorem strictEqual_str (s t : String) : (Value.str s).strictEqual (.str t) = decide (s = t) := by
  simp [Value.strictEqual, Value.typeOf, Value.equal, Scalar.valueKey]

theorem eval_hasTypeOf {d : Nat} {σ : Scope} {v : Value} (name : String) (h : a.eval d σ = .ok v) :
    (Expr.hasTypeOf a name).eval d σ = .ok (.bool (decide (v.typeOf = name))) := by
  simp only [Expr.hasTypeOf, Expr.eval_eq, Expr.eval_typeOf, Expr.eval_const, h]
  rw [← strictEqual_str]
  rfl

theorem eval_equalTo {d : Nat} {σ : Scope} {v : Value} (value : Scalar) (h : a.eval d σ = .ok v) :
    (Expr.equalTo a value).eval d σ = .ok (.bool (v.strictEqual (.scalar value))) := by
  simp only [Expr.equalTo, Expr.eval_eq, Expr.eval_const, h]
  rfl

theorem eval_nonNull {d : Nat} {σ : Scope} {v : Value} (h : a.eval d σ = .ok v) :
    (Expr.nonNull a).eval d σ = .ok (.bool (!v.strictEqual .null)) := by
  simp only [Expr.nonNull, Expr.eval_ne, Expr.eval_const, h]
  rfl

theorem eval_objectTests {d : Nat} {σ : Scope} {v : Value} (h : a.eval d σ = .ok v) :
    (Expr.and (.hasTypeOf a "object") (.nonNull a)).eval d σ = .ok (.bool v.isObject) := by
  rw [Expr.eval_and, eval_hasTypeOf "object" h, eval_nonNull h, Value.isObject]
  cases decide (v.typeOf = "object") <;> rfl

theorem eval_hasTypeOf_error {d : Nat} {σ : Scope} {error : EvalError} (name : String)
    (h : a.eval d σ = .error error) : (Expr.hasTypeOf a name).eval d σ = .error error := by
  simp only [Expr.hasTypeOf, Expr.eval_eq, Expr.eval_typeOf, h]
  rfl

theorem test (test : Test) : Answers slack cs a (test.expr a) test.Decides := by
  intro z d σ _ _ _ hbelow
  cases test with
  | always => exact .inr ⟨true, Expr.eval_const _, rfl⟩
  | never => exact .inr ⟨false, Expr.eval_const _, rfl⟩
  | object =>
      rcases hbelow with hbad | ⟨v, hv, _⟩
      · refine .inl ?_
        show (Expr.and (.hasTypeOf a "object") (.nonNull a)).eval d σ = _
        rw [Expr.eval_and, eval_hasTypeOf_error "object" hbad]
        rfl
      · exact .inr ⟨_, eval_objectTests hv, v, hv, rfl⟩
  | typeOf name =>
      rcases hbelow with hbad | ⟨v, hv, _⟩
      · exact .inl (eval_hasTypeOf_error name hbad)
      · exact .inr ⟨_, eval_hasTypeOf name hv, v, hv, rfl⟩
  | equals value =>
      rcases hbelow with hbad | ⟨v, hv, _⟩
      · refine .inl ?_
        simp only [Test.expr, Expr.equalTo, Expr.eval_eq, hbad]
        rfl
      · exact .inr ⟨_, eval_equalTo value hv, v, hv, rfl⟩

theorem allOf {α : Type} {xs : List α} {es : List Expr} {Ψ : α → Reading → Bool → Prop}
    (hlength : xs.length = es.length)
    (h : ∀ x e, (x, e) ∈ xs.zip es → Answers slack cs a e (Ψ x)) :
    Answers slack cs a (.allOf es) fun r b =>
      (b = true → ∀ x ∈ xs, Ψ x r true) ∧ (b = false → ∃ x ∈ xs, Ψ x r false) :=
  fun z d σ hserves hbinds hd hbelow => Expr.accepts_allOf hlength
    fun x e hmem => h x e hmem z d σ hserves hbinds hd hbelow

theorem anyOf {α : Type} {xs : List α} {es : List Expr} {Ψ : α → Reading → Bool → Prop}
    (hlength : xs.length = es.length)
    (h : ∀ x e, (x, e) ∈ xs.zip es → Answers slack cs a e (Ψ x)) :
    Answers slack cs a (.anyOf es) fun r b =>
      (b = true → ∃ x ∈ xs, Ψ x r true) ∧ (b = false → ∀ x ∈ xs, Ψ x r false) :=
  fun z d σ hserves hbinds hd hbelow => Expr.accepts_anyOf hlength
    fun x e hmem => h x e hmem z d σ hserves hbinds hd hbelow

/-- The parts of an object are read only after it is found to be one. -/
theorem whole {parts : List Part} {es : List Expr} {Ψ : Part → Reading → Bool → Prop}
    (hplain : ∀ part ∈ parts, part.Plain) (hlength : parts.length = es.length)
    (h : ∀ part e, (part, e) ∈ parts.zip es →
      Answers part.slack cs (part.accessor a) e (Ψ part)) :
    Answers 1 cs a (Guard.whole a es) fun r b => ∃ v, r = .ok v ∧
      (b = true → v.isObject = true ∧ ∀ part ∈ parts, Ψ part (part.reading v) true) ∧
      (b = false → v.isObject = false ∨ ∃ part ∈ parts, Ψ part (part.reading v) false) := by
  intro z d σ hserves hbinds hd hbelow
  show Accepts _ ((es.foldl Expr.and (.and (.hasTypeOf a "object") (.nonNull a))).eval d σ)
  rcases hbelow with hbad | ⟨v, hv, hlt⟩
  · have hfirst :
        Accepts (fun _ => False) ((Expr.and (.hasTypeOf a "object") (.nonNull a)).eval d σ) := by
      rw [Expr.eval_and, eval_hasTypeOf_error "object" hbad]
      exact .inl rfl
    refine (Expr.accepts_foldl_and (Ψ := fun _ _ => False) hlength hfirst
      fun hfalse => hfalse.elim).mono fun b hb => ?_
    cases b with
    | true => exact (hb.1 rfl).1.elim
    | false => exact ((hb.2 rfl).elim id fun hfalse => hfalse.1).elim
  · have hfirst : Accepts (fun b => b = v.isObject)
        ((Expr.and (.hasTypeOf a "object") (.nonNull a)).eval d σ) := by
      rw [eval_objectTests hv]
      exact Accepts.of_ok rfl
    have hfold := Expr.accepts_foldl_and hlength hfirst fun hobject part e hmem => by
      have hpart := hplain part (List.of_mem_zip hmem).1
      have hreading := Part.eval_accessor hpart hv
      have hanswer := h part e hmem z d σ hserves hbinds hd (by
        rw [hreading]
        exact Part.below_reading hpart hobject.symm hlt)
      rw [hreading] at hanswer
      exact hanswer
    refine hfold.mono fun b hb => ⟨v, hv, fun htrue => ?_, fun hfalse => ?_⟩
    · exact ⟨(hb.1 htrue).1.symm, (hb.1 htrue).2⟩
    · exact (hb.2 hfalse).imp Eq.symm And.right

theorem recur {c : Check} (hc : c ∈ cs) :
    Answers 0 cs a (.recur c.label a) fun r b => ∃ v, r = .ok v ∧ c.accepts v b := by
  intro z d σ hserves hbinds hd hbelow
  obtain ⟨b, hb⟩ := hbinds c hc
  rcases hbelow with hbad | ⟨v, hv, hlt⟩
  · exact .inl (Expr.eval_recur_error hb hbad)
  · obtain ⟨k, rfl⟩ : ∃ k, d = k + 1 := ⟨d - 1, by omega⟩
    rw [Expr.eval_recur hb, hv]
    exact (hserves.call hc hbinds hlt (by omega)).mono fun c hc => ⟨v, rfl, hc⟩

/-- A check is right about all values if it is right about those that its calls leave to it. -/
theorem runs {c : Check}
    (hbody : Answers 1 (c :: cs) (.ident c.slot) c.body fun r b => ∀ v, r = .ok v → c.accepts v b)
    {z : Nat} (hserves : Serves cs z) : c.Runs cs z := by
  induction z using Nat.strongRecOn with
  | ind z ih =>
      intro v d σ hv hd hbinds hslot
      have hself : Serves (c :: cs) v.height :=
        ⟨ih v.height hv (hserves.mono (Nat.le_of_lt hv)), hserves.mono (Nat.le_of_lt hv)⟩
      have hread := Expr.eval_ident (d := d) hslot
      have hanswer := hbody v.height d σ hself hbinds hd (by
        rw [hread]
        exact .inr ⟨v, rfl, Nat.lt_succ_self _⟩)
      rw [hread] at hanswer
      exact hanswer.mono fun b hb => hb v rfl

theorem fix {c : Check} (hfresh : ∀ c' ∈ cs, c'.label ≠ c.label)
    (hbody : Answers 1 (c :: cs) (.ident c.slot) c.body fun r b => ∀ v, r = .ok v → c.accepts v b) :
    Answers 1 cs a (.fix c.label c.slot c.body a) fun r b => ∃ v, r = .ok v ∧ c.accepts v b := by
  intro z d σ hserves hbinds hd hbelow
  rw [Expr.eval_fix]
  rcases hbelow with hbad | ⟨v, hv, hlt⟩
  · rw [hbad]
    exact .inl rfl
  · have hle : v.height ≤ z := Nat.le_of_lt_succ hlt
    have hself : Serves (c :: cs) v.height :=
      ⟨runs hbody (hserves.mono hle), hserves.mono hle⟩
    have hscope := (hbinds.fix hfresh a).slot c.number v
    have hread := Expr.eval_ident (d := d) (σ := (c.slot, v) ::
      (c.label, .code (.fix c.label c.slot c.body a)) :: σ) (x := c.slot) (v := v)
      (by rw [List.lookup_cons, beq_self_eq_true])
    have hanswer := hbody v.height d _ hself hscope (Nat.le_trans hle hd) (by
      rw [Check.slot] at hread
      rw [Check.slot, hread]
      exact .inr ⟨v, rfl, Nat.lt_succ_self _⟩)
    rw [hv]
    rw [Check.slot] at hread
    rw [Check.slot, hread] at hanswer
    exact hanswer.mono fun b hb => ⟨v, rfl, hb v rfl⟩

end Answers

end TypeGuard
