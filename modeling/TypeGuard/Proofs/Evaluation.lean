import TypeGuard.Eval
import TypeGuard.Proofs.Guards

/-! What conditions come to. Recursive conditions are called on parts of the value they were entered
with, so the height of that value bounds how deep calls nest. -/

namespace TypeGuard

namespace Value

mutual
/-- How deep a value can be read into. -/
def height : Value → Nat
  | scalar _ => 0
  | undefined => 0
  | list items => 1 + heights items
  | tuple items => 1 + heights items
  | dict entries => 1 + entryHeights entries
  | handle _ => 1
  | func _ => 0
  | code _ => 1

def heights : List Value → Nat
  | [] => 0
  | v :: rest => max v.height (heights rest)

def entryHeights : List (Value × Value) → Nat
  | [] => 0
  | (_, v) :: rest => max v.height (entryHeights rest)
end

theorem height_le_of_mem {v : Value} {items : List Value} (h : v ∈ items) :
    v.height ≤ heights items := by
  induction items with
  | nil => cases h
  | cons w rest ih =>
      rw [heights]
      rcases List.mem_cons.1 h with rfl | h
      · exact Nat.le_max_left _ _
      · exact Nat.le_trans (ih h) (Nat.le_max_right _ _)

theorem height_le_of_entry {k v : Value} {entries : List (Value × Value)} (h : (k, v) ∈ entries) :
    v.height ≤ entryHeights entries := by
  induction entries with
  | nil => cases h
  | cons entry rest ih =>
      rw [entryHeights]
      rcases List.mem_cons.1 h with heq | h
      · subst heq
        exact Nat.le_max_left _ _
      · exact Nat.le_trans (ih h) (Nat.le_max_right _ _)

/-- What the tests before every structural check ask for. -/
def isObject (v : Value) : Bool :=
  v.typeOf = "object" && !v.strictEqual .null

theorem height_lookup {entries : List (Value × Value)} {key v : Value}
    (h : lookup? entries key = some v) : v.height ≤ entryHeights entries := by
  unfold lookup? at h
  obtain ⟨entry, hfind, rfl⟩ := Option.map_eq_some_iff.1 h
  exact height_le_of_entry (k := entry.1) (List.mem_of_find?_eq_some hfind)

theorem entry_str (entries : List (Value × Value)) (s : String) :
    entry entries (str s) = .ok ((lookup? entries (str s)).getD undefined) := by
  unfold entry
  cases lookup? entries (str s) <;> rfl

theorem height_entry (entries : List (Value × Value)) (key : Value) :
    ((lookup? entries key).getD undefined).height ≤ entryHeights entries := by
  cases hlookup : lookup? entries key with
  | none => exact Nat.zero_le _
  | some v => exact height_lookup hlookup

theorem height_getElem? (items : List Value) (n : Nat) :
    (items[n]?.getD undefined).height ≤ heights items := by
  cases hitem : items[n]? with
  | none => exact Nat.zero_le _
  | some v => exact height_le_of_mem (List.mem_of_getElem? hitem)

theorem item_cases (items : List Value) (s : String) :
    item items (str s) = .error .badNumeral ∨
      ∃ v, item items (str s) = .ok v ∧ v.height ≤ heights items := by
  unfold item
  simp only
  split
  · split
    · exact .inr ⟨_, rfl, height_getElem? items _⟩
    · exact .inl rfl
  · split
    · exact .inr ⟨_, rfl, Nat.zero_le _⟩
    · exact .inr ⟨_, rfl, Nat.zero_le _⟩

/-- Reading a part of an object gives a lesser value, or stumbles over a numeral. -/
theorem read_cases {v : Value} (h : v.isObject = true) (s : String) :
    v.read (str s) = .error .badNumeral ∨
      ∃ w, v.read (str s) = .ok w ∧ w.height < v.height := by
  cases v with
  | scalar a =>
      cases a with
      | null => simp [isObject, typeOf, strictEqual, equal] at h
      | _ => simp [isObject, typeOf] at h
  | undefined => simp [isObject, typeOf] at h
  | func name => simp [isObject, typeOf] at h
  | handle name => exact .inr ⟨undefined, rfl, Nat.zero_lt_one⟩
  | code e => exact .inr ⟨undefined, rfl, Nat.zero_lt_one⟩
  | dict entries =>
      refine .inr ⟨_, entry_str entries s, ?_⟩
      have hle := height_entry entries (str s)
      simp only [height]
      omega
  | list items =>
      rcases item_cases items s with hbad | ⟨w, hw, hle⟩
      · exact .inl hbad
      · refine .inr ⟨w, hw, ?_⟩
        simp only [height]
        omega
  | tuple items =>
      rcases item_cases items s with hbad | ⟨w, hw, hle⟩
      · exact .inl hbad
      · refine .inr ⟨w, hw, ?_⟩
        simp only [height]
        omega

end Value

theorem eq_ok_of_toOption {ε α : Type} {r : Except ε α} {a : α} (h : r.toOption = some a) :
    r = .ok a := by
  cases r with
  | error fault => cases h
  | ok b =>
      cases h
      rfl

/-- What an accessor comes to. -/
abbrev Reading := Except EvalError Value

/-- A condition comes to a truth value with that property, or stumbles over a numeral. -/
def Accepts (Φ : Bool → Prop) (r : Reading) : Prop :=
  r = .error .badNumeral ∨ ∃ b, r = .ok (.bool b) ∧ Φ b

namespace Accepts

variable {Φ Ψ : Bool → Prop} {r : Reading}

theorem mono (h : Accepts Φ r) (himp : ∀ b, Φ b → Ψ b) : Accepts Ψ r :=
  h.imp_right fun ⟨b, hb, hΦ⟩ => ⟨b, hb, himp b hΦ⟩

theorem of_ok {b : Bool} (h : Φ b) : Accepts Φ (.ok (.bool b)) :=
  .inr ⟨b, rfl, h⟩

end Accepts

namespace Expr

variable {d : Nat} {σ : Scope}

theorem eval_const (value : Scalar) : (const value).eval d σ = .ok (.scalar value) := by
  cases d <;> rfl

theorem eval_ident {x : Ident} {v : Value} (h : σ.lookup x = some v) :
    (ident x).eval d σ = .ok v := by
  cases d <;> simp only [eval, evalWith, h] <;> rfl

theorem eval_elem_const {a : Expr} {s : String} : (elem a (const (.str s))).eval d σ =
    (a.eval d σ).bind fun v => v.read (.str s) := by
  cases d <;> rfl

theorem eval_typeOf {a : Expr} :
    (typeOf a).eval d σ = (a.eval d σ).map fun v => .str v.typeOf := by
  cases d <;> rfl

theorem eval_eq {a b : Expr} : (eq a b).eval d σ =
    (a.eval d σ).bind fun v => (b.eval d σ).map fun w => .bool (v.strictEqual w) := by
  cases d <;> rfl

theorem eval_ne {a b : Expr} : (ne a b).eval d σ =
    (a.eval d σ).bind fun v => (b.eval d σ).map fun w => .bool (!v.strictEqual w) := by
  cases d <;> rfl

theorem eval_and {a b : Expr} : (and a b).eval d σ =
    (a.eval d σ).bind fun v => if v.truthy then b.eval d σ else .ok v := by
  cases d <;> rfl

theorem eval_or {a b : Expr} : (or a b).eval d σ =
    (a.eval d σ).bind fun v => if v.truthy then .ok v else b.eval d σ := by
  cases d <;> rfl

theorem eval_fix {label x : Ident} {body a : Expr} : (fix label x body a).eval d σ =
    (a.eval d σ).bind fun v =>
      body.eval d ((x, v) :: (label, .code (fix label x body a)) :: σ) := by
  cases d <;> rfl

theorem eval_recur {label k x : Ident} {body a b : Expr}
    (h : σ.lookup label = some (.code (fix k x body b))) : (recur label a).eval (d + 1) σ =
    (a.eval (d + 1) σ).bind fun v => body.eval d ((x, v) :: σ) := by
  simp only [eval, evalWith, h]
  rfl

theorem eval_recur_error {label k x : Ident} {body a b : Expr} {error : EvalError}
    (h : σ.lookup label = some (.code (fix k x body b))) (ha : a.eval d σ = .error error) :
    (recur label a).eval d σ = .error error := by
  cases d <;> simp only [eval, evalWith, h] at ha ⊢ <;> rw [ha] <;> rfl

theorem accepts_and {a b : Expr} {Φ Ψ : Bool → Prop} (ha : Accepts Φ (a.eval d σ))
    (hb : Φ true → Accepts Ψ (b.eval d σ)) :
    Accepts (fun c => (c = true → Φ true ∧ Ψ true) ∧
      (c = false → Φ false ∨ (Φ true ∧ Ψ false))) ((and a b).eval d σ) := by
  rw [eval_and]
  rcases ha with hbad | ⟨c, hc, hΦ⟩
  · rw [hbad]
    exact .inl rfl
  · rw [hc]
    cases c with
    | false => exact Accepts.of_ok ⟨nofun, fun _ => .inl hΦ⟩
    | true =>
        rcases hb hΦ with hbad | ⟨c, hc, hΨ⟩
        · exact .inl hbad
        · refine .inr ⟨c, hc, ?_, ?_⟩
          · rintro rfl
            exact ⟨hΦ, hΨ⟩
          · rintro rfl
            exact .inr ⟨hΦ, hΨ⟩

theorem accepts_or {a b : Expr} {Φ Ψ : Bool → Prop} (ha : Accepts Φ (a.eval d σ))
    (hb : Accepts Ψ (b.eval d σ)) :
    Accepts (fun c => (c = true → Φ true ∨ Ψ true) ∧ (c = false → Φ false ∧ Ψ false))
      ((or a b).eval d σ) := by
  rw [eval_or]
  rcases ha with hbad | ⟨c, hc, hΦ⟩
  · rw [hbad]
    exact .inl rfl
  · rw [hc]
    cases c with
    | true => exact Accepts.of_ok ⟨fun _ => .inl hΦ, nofun⟩
    | false =>
        rcases hb with hbad | ⟨c, hc, hΨ⟩
        · exact .inl hbad
        · refine .inr ⟨c, hc, ?_, ?_⟩
          · rintro rfl
            exact .inr hΨ
          · rintro rfl
            exact ⟨hΦ, hΨ⟩

theorem accepts_foldl_and {α : Type} {xs : List α} {es : List Expr} {Φ : Bool → Prop}
    {Ψ : α → Bool → Prop} {first : Expr} (hlength : xs.length = es.length)
    (hfirst : Accepts Φ (first.eval d σ))
    (hrest : Φ true → ∀ x e, (x, e) ∈ xs.zip es → Accepts (Ψ x) (e.eval d σ)) :
    Accepts (fun c => (c = true → Φ true ∧ ∀ x ∈ xs, Ψ x true) ∧
      (c = false → Φ false ∨ (Φ true ∧ ∃ x ∈ xs, Ψ x false))) ((es.foldl and first).eval d σ) := by
  induction xs generalizing es first Φ with
  | nil =>
      rw [List.length_eq_zero_iff.1 hlength.symm]
      refine hfirst.mono fun c hc => ⟨?_, ?_⟩
      · rintro rfl
        exact ⟨hc, nofun⟩
      · rintro rfl
        exact .inl hc
  | cons x xs ih =>
      cases es with
      | nil => cases hlength
      | cons e es =>
          have hand := accepts_and hfirst fun hΦ => hrest hΦ x e List.mem_cons_self
          have hall := ih (Nat.succ.inj hlength) hand fun hΦ y e' hmem =>
            hrest (hΦ.1 rfl).1 y e' (List.mem_cons_of_mem _ hmem)
          refine hall.mono fun c hc => ⟨fun htrue => ?_, fun hfalse => ?_⟩
          · obtain ⟨hfirst, hothers⟩ := hc.1 htrue
            obtain ⟨hΦ, hx⟩ := hfirst.1 rfl
            exact ⟨hΦ, List.forall_mem_cons.2 ⟨hx, hothers⟩⟩
          · rcases hc.2 hfalse with hfirst | ⟨hfirst, y, hy, hΨ⟩
            · exact (hfirst.2 rfl).imp_right fun ⟨hΦ, hx⟩ => ⟨hΦ, x, List.mem_cons_self, hx⟩
            · exact .inr ⟨(hfirst.1 rfl).1, y, List.mem_cons_of_mem _ hy, hΨ⟩

theorem accepts_foldl_or {α : Type} {xs : List α} {es : List Expr} {Φ : Bool → Prop}
    {Ψ : α → Bool → Prop} {first : Expr} (hlength : xs.length = es.length)
    (hfirst : Accepts Φ (first.eval d σ))
    (hrest : ∀ x e, (x, e) ∈ xs.zip es → Accepts (Ψ x) (e.eval d σ)) :
    Accepts (fun c => (c = true → Φ true ∨ ∃ x ∈ xs, Ψ x true) ∧
      (c = false → Φ false ∧ ∀ x ∈ xs, Ψ x false)) ((es.foldl or first).eval d σ) := by
  induction xs generalizing es first Φ with
  | nil =>
      rw [List.length_eq_zero_iff.1 hlength.symm]
      refine hfirst.mono fun c hc => ⟨?_, ?_⟩
      · rintro rfl
        exact .inl hc
      · rintro rfl
        exact ⟨hc, nofun⟩
  | cons x xs ih =>
      cases es with
      | nil => cases hlength
      | cons e es =>
          have hor := accepts_or hfirst (hrest x e List.mem_cons_self)
          have hall := ih (Nat.succ.inj hlength) hor fun y e' hmem =>
            hrest y e' (List.mem_cons_of_mem _ hmem)
          refine hall.mono fun c hc => ⟨fun htrue => ?_, fun hfalse => ?_⟩
          · rcases hc.1 htrue with hfirst | ⟨y, hy, hΨ⟩
            · exact (hfirst.1 rfl).imp_right fun hx => ⟨x, List.mem_cons_self, hx⟩
            · exact .inr ⟨y, List.mem_cons_of_mem _ hy, hΨ⟩
          · obtain ⟨hfirst, hothers⟩ := hc.2 hfalse
            obtain ⟨hΦ, hx⟩ := hfirst.2 rfl
            exact ⟨hΦ, List.forall_mem_cons.2 ⟨hx, hothers⟩⟩

theorem accepts_allOf {α : Type} {xs : List α} {es : List Expr} {Ψ : α → Bool → Prop}
    (hlength : xs.length = es.length)
    (h : ∀ x e, (x, e) ∈ xs.zip es → Accepts (Ψ x) (e.eval d σ)) :
    Accepts (fun c => (c = true → ∀ x ∈ xs, Ψ x true) ∧ (c = false → ∃ x ∈ xs, Ψ x false))
      ((allOf es).eval d σ) := by
  cases es with
  | nil =>
      rw [List.length_eq_zero_iff.1 hlength]
      exact .inr ⟨true, eval_const _, fun _ => nofun, nofun⟩
  | cons e es =>
      cases xs with
      | nil => cases hlength
      | cons x xs =>
          have hfold := accepts_foldl_and (Nat.succ.inj hlength) (h x e List.mem_cons_self)
            fun _ y e' hmem => h y e' (List.mem_cons_of_mem _ hmem)
          refine hfold.mono fun c hc => ⟨fun htrue => ?_, fun hfalse => ?_⟩
          · exact List.forall_mem_cons.2 (hc.1 htrue)
          · rcases hc.2 hfalse with hx | ⟨_, y, hy, hΨ⟩
            · exact ⟨x, List.mem_cons_self, hx⟩
            · exact ⟨y, List.mem_cons_of_mem _ hy, hΨ⟩

theorem accepts_anyOf {α : Type} {xs : List α} {es : List Expr} {Ψ : α → Bool → Prop}
    (hlength : xs.length = es.length)
    (h : ∀ x e, (x, e) ∈ xs.zip es → Accepts (Ψ x) (e.eval d σ)) :
    Accepts (fun c => (c = true → ∃ x ∈ xs, Ψ x true) ∧ (c = false → ∀ x ∈ xs, Ψ x false))
      ((anyOf es).eval d σ) := by
  cases es with
  | nil =>
      rw [List.length_eq_zero_iff.1 hlength]
      exact .inr ⟨false, eval_const _, nofun, fun _ => nofun⟩
  | cons e es =>
      cases xs with
      | nil => cases hlength
      | cons x xs =>
          have hfold := accepts_foldl_or (Nat.succ.inj hlength) (h x e List.mem_cons_self)
            fun y e' hmem => h y e' (List.mem_cons_of_mem _ hmem)
          refine hfold.mono fun c hc => ⟨fun htrue => ?_, fun hfalse => ?_⟩
          · rcases hc.1 htrue with hx | ⟨y, hy, hΨ⟩
            · exact ⟨x, List.mem_cons_self, hx⟩
            · exact ⟨y, List.mem_cons_of_mem _ hy, hΨ⟩
          · exact List.forall_mem_cons.2 (hc.2 hfalse)

end Expr

end TypeGuard
