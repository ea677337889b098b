import TypeGuard.Eval
import TypeGuard.Proofs.Guards

/-! Where evaluation can stumble over a numeral: only where a list or a tuple inside the value
under test is read by a key that the condition is written with, and the key is a run of digits that
stands for no number. -/

namespace TypeGuard

namespace Text

theorem readNumeral?_eq_none {s : List Char} :
    readNumeral? s = none ↔ (∃ c ∈ s, decimalValue? c = none) ∨ numeralLimit < s.length := by
  have hmapM : s.mapM decimalValue? = none ↔ ∃ c ∈ s, decimalValue? c = none := by
    induction s with
    | nil => simp
    | cons c rest ih =>
        rw [List.mapM_cons]
        cases hc : decimalValue? c with
        | none => simp [hc]
        | some n =>
            cases hrest : rest.mapM decimalValue? with
            | none => simpa [hc, hrest] using ih
            | some ns => simpa [hc, hrest] using ih
  unfold readNumeral?
  split
  · next hlong => exact ⟨fun _ => .inr hlong, fun _ => rfl⟩
  · next hshort => rw [Option.map_eq_none_iff, hmapM, or_iff_left hshort]

end Text

namespace Value

/-- What can be read out of a value, part by part. -/
inductive Holds (v : Value) : Value → Prop
  | self : Holds v v
  | part {w u key : Value} (hholds : Holds v w) (hread : w.read key = .ok u) : Holds v u

def isSequence : Value → Bool
  | list _ => true
  | tuple _ => true
  | _ => false

/-- There are no parts to be read out of the value. -/
def isAtom : Value → Bool
  | list _ => false
  | tuple _ => false
  | dict _ => false
  | code _ => false
  | _ => true

/-- The value holds a list or a tuple, and a key stands for none of its places although it is a run
of digits. -/
def Stumbles (v : Value) (K : String → Prop) : Prop :=
  ∃ w s, v.Holds w ∧ w.isSequence = true ∧ K s ∧ Text.isDigits s.toList = true ∧
    ((∃ c ∈ s.toList, Text.decimalValue? c = none) ∨ Text.numeralLimit < s.toList.length)

theorem item_eq_badNumeral {items : List Value} {s : String}
    (h : item items (str s) = .error .badNumeral) :
    Text.isDigits s.toList = true ∧
      ((∃ c ∈ s.toList, Text.decimalValue? c = none) ∨ Text.numeralLimit < s.toList.length) := by
  unfold item at h
  simp only at h
  split at h
  · next hdigits =>
      split at h
      · cases h
      · next hnone => exact ⟨hdigits, Text.readNumeral?_eq_none.1 hnone⟩
  · split at h <;> cases h

end Value

def Ident.isGuard : Ident → Bool
  | guard _ _ => true
  | _ => false

namespace Expr

/-- Parts are read by keys of these only, each written out, and what is called goes by a label. -/
def Keyed (K : String → Prop) : Expr → Prop
  | ident _ => True
  | prop target name => target.Keyed K ∧ K name
  | elem target index => target.Keyed K ∧ ∃ s, index = const (.str s) ∧ K s
  | const _ => True
  | typeOf operand => operand.Keyed K
  | eq left right => left.Keyed K ∧ right.Keyed K
  | ne left right => left.Keyed K ∧ right.Keyed K
  | and left right => left.Keyed K ∧ right.Keyed K
  | or left right => left.Keyed K ∧ right.Keyed K
  | recur label argument => label.isGuard = true ∧ argument.Keyed K
  | fix label x body argument =>
      (label.isGuard = true ∧ x.isGuard = false) ∧ body.Keyed K ∧ argument.Keyed K

/-- The key stands somewhere in the expression. -/
def HasKey (s : String) : Expr → Prop
  | ident _ => False
  | prop target name => target.HasKey s ∨ name = s
  | elem target index => target.HasKey s ∨ index = const (.str s)
  | const _ => False
  | typeOf operand => operand.HasKey s
  | eq left right => left.HasKey s ∨ right.HasKey s
  | ne left right => left.HasKey s ∨ right.HasKey s
  | and left right => left.HasKey s ∨ right.HasKey s
  | or left right => left.HasKey s ∨ right.HasKey s
  | recur _ argument => argument.HasKey s
  | fix _ _ body argument => body.HasKey s ∨ argument.HasKey s

theorem Keyed.of_hasKey {K : String → Prop} {e : Expr} (h : e.Keyed fun _ => True)
    (hK : ∀ s, e.HasKey s → K s) : e.Keyed K := by
  induction e with
  | ident _ | const _ => trivial
  | prop target name ih => exact ⟨ih h.1 fun s hs => hK s (.inl hs), hK name (.inr rfl)⟩
  | elem target index ih _ =>
      obtain ⟨htarget, s, hindex, _⟩ := h
      exact ⟨ih htarget fun s hs => hK s (.inl hs), s, hindex, hK s (.inr hindex)⟩
  | typeOf operand ih => exact ih h hK
  | recur label argument ih => exact ⟨h.1, ih h.2 hK⟩
  | eq left right ihl ihr | ne left right ihl ihr | and left right ihl ihr
  | or left right ihl ihr =>
      exact ⟨ihl h.1 fun s hs => hK s (.inl hs), ihr h.2 fun s hs => hK s (.inr hs)⟩
  | fix label x body argument ihb iha =>
      exact ⟨h.1, ihb h.2.1 fun s hs => hK s (.inl hs), iha h.2.2 fun s hs => hK s (.inr hs)⟩

@[simp] theorem keyed_allOf {K : String → Prop} {es : List Expr} :
    (allOf es).Keyed K ↔ ∀ e ∈ es, e.Keyed K := by
  cases es with
  | nil => simp [allOf, always, Keyed]
  | cons first rest => exact foldl_iff_forall (fun _ _ => Iff.rfl) first rest

@[simp] theorem keyed_anyOf {K : String → Prop} {es : List Expr} :
    (anyOf es).Keyed K ↔ ∀ e ∈ es, e.Keyed K := by
  cases es with
  | nil => simp [anyOf, never, Keyed]
  | cons first rest => exact foldl_iff_forall (fun _ _ => Iff.rfl) first rest

end Expr

/-- What the evaluation of a keyed condition works with: parts of the value under test, values
without parts, and keyed conditions. -/
def Value.Known (v : Value) (K : String → Prop) (w : Value) : Prop :=
  v.Holds w ∨ w.isAtom = true ∨ ∃ e : Expr, w = .code e ∧ e.Keyed K

/-- The result is known, or it is no stumble, or the stumble is explained. -/
def Explains (v : Value) (K : String → Prop) (r : Except EvalError Value) : Prop :=
  match r with
  | .ok w => v.Known K w
  | .error error => error = .badNumeral → v.Stumbles K

namespace Explains

variable {v : Value} {K : String → Prop}

theorem bind {r : Except EvalError Value} {f : Value → Except EvalError Value}
    (h : Explains v K r) (hf : ∀ w, v.Known K w → Explains v K (f w)) :
    Explains v K (r.bind f) := by
  cases r with
  | error error => exact h
  | ok w => exact hf w h

theorem atom {w : Value} (h : w.isAtom = true) : Explains v K (.ok w) :=
  .inr (.inl h)

theorem read {w : Value} {s : String} (hw : v.Known K w) (hs : K s) :
    Explains v K (w.read (.str s)) := by
  rcases hw with hholds | hatom | ⟨e, rfl, _⟩
  · cases hread : w.read (.str s) with
    | ok u => exact .inl (hholds.part hread)
    | error error =>
        rintro rfl
        cases w with
        | list items =>
            obtain ⟨hdigits, hbad⟩ := Value.item_eq_badNumeral hread
            exact ⟨_, s, hholds, rfl, hs, hdigits, hbad⟩
        | tuple items =>
            obtain ⟨hdigits, hbad⟩ := Value.item_eq_badNumeral hread
            exact ⟨_, s, hholds, rfl, hs, hdigits, hbad⟩
        | scalar a => cases a <;> cases hread
        | dict entries =>
            simp only [Value.read, Value.isKey, if_true] at hread
            unfold Value.entry at hread
            split at hread <;> cases hread
        | _ => cases hread
  · cases w with
    | scalar a =>
        cases a with
        | null =>
            intro h
            cases h
        | _ => exact .inr (.inl rfl)
    | undefined =>
        intro h
        cases h
    | func name => exact .inr (.inl rfl)
    | handle name => exact .inr (.inl rfl)
    | _ => cases hatom
  · exact .inr (.inl rfl)

end Explains

namespace Expr

variable {v : Value} {K : String → Prop}

/-- Names stand for what is known, and labels for keyed conditions. -/
def Explained (v : Value) (K : String → Prop) (σ : Scope) : Prop :=
  ∀ x w, σ.lookup x = some w →
    v.Known K w ∧ (x.isGuard = true → ∃ e : Expr, w = .code e ∧ e.Keyed K)

theorem Explained.cons {σ : Scope} {x : Ident} {w : Value} (h : Explained v K σ)
    (hw : v.Known K w) (hx : x.isGuard = true → ∃ e : Expr, w = .code e ∧ e.Keyed K) :
    Explained v K ((x, w) :: σ) := by
  intro y u hu
  rw [List.lookup_cons] at hu
  by_cases heq : y = x
  · subst heq
    rw [beq_self_eq_true] at hu
    cases hu
    exact ⟨hw, hx⟩
  · rw [beq_false_of_ne heq] at hu
    exact h y u hu

theorem evalWith_explains {call : Expr → Scope → Except EvalError Value} {e : Expr} {σ : Scope}
    (hcall : ∀ e σ, e.Keyed K → Explained v K σ → Explains v K (call e σ))
    (he : e.Keyed K) (hσ : Explained v K σ) : Explains v K (e.evalWith call σ) := by
  induction e generalizing σ with
  | ident x =>
      simp only [evalWith]
      split
      · next hw => exact (hσ x _ hw).1
      · nofun
  | prop target name ih => exact (ih he.1 hσ).bind fun w hw => .read hw he.2
  | elem target index ih _ =>
      obtain ⟨htarget, s, rfl, hs⟩ := he
      exact (ih htarget hσ).bind fun w hw => .read hw hs
  | const value => exact .atom rfl
  | typeOf operand ih => exact (ih he hσ).bind fun _ _ => .atom rfl
  | eq left right ihl ihr | ne left right ihl ihr =>
      exact (ihl he.1 hσ).bind fun _ _ => (ihr he.2 hσ).bind fun _ _ => .atom rfl
  | and left right ihl ihr =>
      refine (ihl he.1 hσ).bind fun w hw => ?_
      split
      · exact ihr he.2 hσ
      · exact hw
  | or left right ihl ihr =>
      refine (ihl he.1 hσ).bind fun w hw => ?_
      split
      · exact hw
      · exact ihr he.2 hσ
  | recur label argument ih =>
      simp only [evalWith]
      split
      · nofun
      · next f hf =>
          refine (ih he.2 hσ).bind fun w hw => ?_
          obtain ⟨e, rfl, hkeyed⟩ := (hσ label f hf).2 he.1
          cases e with
          | fix k x body a =>
              refine hcall body _ hkeyed.2.1 (hσ.cons hw fun hx => ?_)
              rw [hkeyed.1.2] at hx
              cases hx
          | _ => nofun
  | fix label x body argument ihbody iharg =>
      refine (iharg he.2.2 hσ).bind fun w hw => ihbody he.2.1 ?_
      have hcode : ∃ e : Expr, Value.code (fix label x body argument) = .code e ∧ e.Keyed K :=
        ⟨_, rfl, he⟩
      refine (hσ.cons (.inr (.inr hcode)) fun _ => hcode).cons hw fun hx => ?_
      rw [he.1.2] at hx
      cases hx

theorem eval_explains {e : Expr} {σ : Scope} {depth : Nat} (he : e.Keyed K)
    (hσ : Explained v K σ) : Explains v K (e.eval depth σ) := by
  induction depth generalizing e σ with
  | zero => exact evalWith_explains (fun _ _ _ _ => nofun) he hσ
  | succ depth ih => exact evalWith_explains (fun _ _ he hσ => ih he hσ) he hσ

end Expr

namespace Guards

variable {cat : Catalog} {table : Numbering} {live path : List Ty} {task : Task}
  {e : Expr} {K : String → Prop}

theorem keyed_accessor {part : Part} {whole : Expr} (hplain : part.Plain)
    (h : whole.Keyed fun _ => True) : (part.accessor whole).Keyed fun _ => True := by
  obtain ⟨declared, env, t, index?⟩ := part
  rcases hplain with ⟨_, hnone⟩ | ⟨_, s, hsome⟩
  · cases hnone
    exact h
  · cases hsome
    exact ⟨h, s, rfl, trivial⟩

theorem keyed_whole {accessor : Expr} {es : List Expr} (ha : accessor.Keyed fun _ => True)
    (hes : ∀ e ∈ es, e.Keyed fun _ => True) : (Guard.whole accessor es).Keyed fun _ => True := by
  simp only [Guard.whole, Expr.keyed_allOf, List.mem_append]
  rintro e (htest | he)
  · simp only [Expr.objectTests, List.mem_cons, List.not_mem_nil, or_false] at htest
    rcases htest with rfl | rfl
    · exact ⟨ha, trivial⟩
    · exact ⟨ha, trivial⟩
  · exact hes e he

theorem keyed (h : Guards cat table live path task e)
    (haccessor : task.accessor.Keyed fun _ => True) : e.Keyed fun _ => True := by
  induction h with
  | @test _ _ _ _ _ test _ =>
      cases test with
      | always => trivial
      | never => trivial
      | object =>
          have hnone : ∀ e ∈ ([] : List Expr), e.Keyed fun _ => True := nofun
          exact keyed_whole haccessor hnone
      | typeOf name => exact ⟨haccessor, trivial⟩
      | equals value => exact ⟨haccessor, trivial⟩
  | follow _ _ ih => exact ih haccessor
  | target _ _ ih => exact ih haccessor
  | union hlength _ ih =>
      refine Expr.keyed_anyOf.2 fun e he => ?_
      obtain ⟨t, hmem⟩ := exists_mem_zip hlength he
      exact ih t e hmem haccessor
  | inter hlength _ ih =>
      refine Expr.keyed_allOf.2 fun e he => ?_
      obtain ⟨t, hmem⟩ := exists_mem_zip hlength he
      exact ih t e hmem haccessor
  | again => exact ⟨rfl, haccessor⟩
  | fix _ _ _ _ hplain hlength _ ih =>
      refine ⟨⟨rfl, rfl⟩, keyed_whole trivial fun e he => ?_, haccessor⟩
      obtain ⟨part, hmem⟩ := exists_mem_zip hlength he
      exact ih part e hmem (keyed_accessor (hplain part (List.of_mem_zip hmem).1) trivial)
  | inline _ _ hplain hlength _ ih =>
      refine keyed_whole haccessor fun e he => ?_
      obtain ⟨part, hmem⟩ := exists_mem_zip hlength he
      exact ih part e hmem (keyed_accessor (hplain part (List.of_mem_zip hmem).1) haccessor)
  | mapped _ hlength _ ih =>
      refine keyed_whole haccessor fun e he => ?_
      obtain ⟨part, hmem⟩ := exists_mem_zip ((Part.length_ofKeys ..).trans hlength) he
      exact ih part e hmem
        (keyed_accessor (Part.plain_ofKeys (List.of_mem_zip hmem).1) haccessor)
  | index _ _ _ _ hlength _ ih =>
      refine Expr.keyed_anyOf.2 fun e he => ?_
      obtain ⟨t, hmem⟩ := exists_mem_zip hlength he
      exact ih t e hmem haccessor
  | keyOf =>
      refine Expr.keyed_anyOf.2 fun e he => ?_
      obtain ⟨key, _, rfl⟩ := List.mem_map.1 he
      exact ⟨haccessor, trivial⟩

/-- A guard that reads one name stumbles only over what the value of the name holds. -/
theorem stumbles {x : Ident} {v : Value} {depth : Nat} (h : Guards cat table live path task e)
    (haccessor : task.accessor = .ident x) (hx : x.isGuard = false)
    (heval : e.eval depth [(x, v)] = .error .badNumeral) : v.Stumbles fun s => e.HasKey s := by
  have hkeyed : e.Keyed fun s => e.HasKey s :=
    (h.keyed (by rw [haccessor]; trivial)).of_hasKey fun s hs => hs
  have hscope : Expr.Explained v (fun s => e.HasKey s) [(x, v)] := by
    refine Expr.Explained.cons (fun y w hw => by cases hw) (.inl .self) fun hguard => ?_
    rw [hx] at hguard
    cases hguard
  have hexplains : Explains v (fun s => e.HasKey s) (e.eval depth [(x, v)]) :=
    Expr.eval_explains hkeyed hscope
  rw [heval] at hexplains
  exact hexplains rfl

end Guards

end TypeGuard
