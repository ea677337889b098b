import TypeGuard.Proofs.Conditions

/-! No two conditions of different standard form have the same text. A condition is read from the
left: what it starts with tells what kind of condition it is, and what comes after it tells where
it ends. -/

namespace TypeGuard

namespace Text

/-- What can come after a condition that is part of another. -/
def Trails (s : List Char) : Prop :=
  ∀ c ∈ s.head?, c = ' ' ∨ c = ')' ∨ c = ';'

/-- What can come after a condition that is not part of a chain. -/
def Closes (s : List Char) : Prop :=
  ∀ c ∈ s.head?, c = ')' ∨ c = ';'

/-- What can come after an item: the rest of the chain, or what comes after the chain. -/
def After (sep : List Char) (Last : List Char → Prop) (s : List Char) : Prop :=
  Last s ∨ sep <+: s

variable {s t : List Char}

theorem Closes.trails (h : Closes s) : Trails s :=
  fun c hc => .inr (h c hc)

theorem intercalate_append {sep : List Char} {xs ys : List (List Char)} (hxs : xs ≠ [])
    (hys : ys ≠ []) :
    sep.intercalate (xs ++ ys) = sep.intercalate xs ++ (sep ++ sep.intercalate ys) := by
  induction xs with
  | nil => exact absurd rfl hxs
  | cons x xs ih =>
      by_cases hnil : xs = []
      · rw [hnil, List.singleton_append, List.intercalate_cons_of_ne_nil hys,
          List.intercalate_singleton, List.append_assoc]
      · rw [List.cons_append, List.intercalate_cons_of_ne_nil (by simp [hys]), ih hnil,
          List.intercalate_cons_of_ne_nil hnil]
        simp only [List.append_assoc]

/-- Chains are the same if their items can be told one by one, and what comes after a chain does not
look like more of it. -/
theorem intercalate_cancel {α β : Type} {text : α → List Char} {key : α → β} {sep : List Char}
    {Last : List Char → Prop} {xs ys : List α}
    (hcancel : ∀ x ∈ xs, ∀ y ∈ ys, ∀ s t, After sep Last s → After sep Last t →
      text x ++ s = text y ++ t → key x = key y ∧ s = t)
    (hlast : ∀ s, Last s → ¬sep <+: s) (hxs : xs ≠ []) (hys : ys ≠ []) (hs : Last s) (ht : Last t)
    (h : sep.intercalate (xs.map text) ++ s = sep.intercalate (ys.map text) ++ t) :
    xs.map key = ys.map key ∧ s = t := by
  induction xs generalizing ys with
  | nil => exact absurd rfl hxs
  | cons x xs ih =>
      cases ys with
      | nil => exact absurd rfl hys
      | cons y ys =>
          have hfirst := hcancel x List.mem_cons_self y List.mem_cons_self
          cases xs with
          | nil =>
              cases ys with
              | nil =>
                  simp only [List.map_singleton, List.intercalate_singleton] at h
                  obtain ⟨hkey, hrest⟩ := hfirst s t (.inl hs) (.inl ht) h
                  exact ⟨by rw [List.map_singleton, List.map_singleton, hkey], hrest⟩
              | cons y' ys =>
                  simp only [List.map_cons, List.map_nil, List.intercalate_singleton,
                    List.intercalate_cons_cons, List.append_assoc] at h
                  obtain ⟨_, hrest⟩ := hfirst s _ (.inl hs) (.inr (List.prefix_append _ _)) h
                  exact absurd (hrest ▸ List.prefix_append _ _) (hlast s hs)
          | cons x' xs =>
              cases ys with
              | nil =>
                  simp only [List.map_cons, List.map_nil, List.intercalate_singleton,
                    List.intercalate_cons_cons, List.append_assoc] at h
                  obtain ⟨_, hrest⟩ := hfirst _ t (.inr (List.prefix_append _ _)) (.inl ht) h
                  exact absurd (hrest ▸ List.prefix_append _ _) (hlast t ht)
              | cons y' ys =>
                  simp only [List.map_cons, List.intercalate_cons_cons, List.append_assoc] at h
                  obtain ⟨hkey, hrest⟩ := hfirst _ _ (.inr (List.prefix_append _ _))
                    (.inr (List.prefix_append _ _)) h
                  obtain ⟨hkeys, hst⟩ := ih
                    (fun x hx y hy =>
                      hcancel x (List.mem_cons_of_mem _ hx) y (List.mem_cons_of_mem _ hy))
                    (List.cons_ne_nil _ _) (List.cons_ne_nil _ _) (List.append_cancel_left hrest)
                  exact ⟨by rw [List.map_cons, hkey, hkeys, ← List.map_cons], hst⟩

end Text

namespace Expr

def chars (e : Expr) : List Char :=
  e.render.toList

/-- The text of a condition inside of a conjunction. -/
def operand (e : Expr) : List Char :=
  if e.isOr then '(' :: (e.chars ++ [')']) else e.chars

theorem toList_operand (e : Expr) :
    (if e.isOr then "(" ++ e.render ++ ")" else e.render).toList = e.operand := by
  unfold operand
  split
  · simp only [chars, String.toList_append, List.append_assoc]
    rfl
  · rfl

theorem operand_eq_chars {e : Expr} (h : Joint.or.isJoined e = false) : e.operand = e.chars := by
  have hor : e.isOr = false := by
    rw [← h]
    cases e <;> rfl
  rw [operand, hor, if_neg Bool.false_ne_true]

end Expr

namespace Joint

def sep : Joint → List Char
  | and => [' ', '&', '&', ' ']
  | or => [' ', '|', '|', ' ']

/-- The text of an item. -/
def text : Joint → Expr → List Char
  | and => Expr.operand
  | or => Expr.chars

theorem text_join (j : Joint) (a b : Expr) :
    j.text (j.join a b) = j.text a ++ (j.sep ++ j.text b) := by
  cases j with
  | and =>
      have hchars : (Expr.and a b).operand = (Expr.and a b).chars := Expr.operand_eq_chars rfl
      have hrender : (Expr.and a b).render =
          (if a.isOr then "(" ++ a.render ++ ")" else a.render) ++ " && " ++
            (if b.isOr then "(" ++ b.render ++ ")" else b.render) := rfl
      rw [text, join, hchars, Expr.chars, hrender, String.toList_append, String.toList_append,
        Expr.toList_operand, Expr.toList_operand, List.append_assoc]
      rfl
  | or =>
      have hrender : (Expr.or a b).render = a.render ++ " || " ++ b.render := rfl
      rw [text, join, Expr.chars, hrender, String.toList_append, String.toList_append,
        List.append_assoc]
      rfl

theorem text_eq_intercalate (j : Joint) (e : Expr) :
    j.text e = j.sep.intercalate ((j.items e).map j.text) := by
  induction e using j.induction with
  | hitem e h => rw [items_eq_singleton h, List.map_singleton, List.intercalate_singleton]
  | hjoin a b iha ihb =>
      rw [text_join, items_join, List.map_append, iha, ihb]
      refine (Text.intercalate_append ?_ ?_).symm
      · simp [j.items_ne_nil]
      · simp [j.items_ne_nil]

/-- What comes after a chain. -/
def Last : Joint → List Char → Prop
  | and => Text.After or.sep Text.Closes
  | or => Text.Closes

theorem head_of_sep (j : Joint) {s : List Char} (h : j.sep <+: s) : s.head? = some ' ' := by
  obtain ⟨u, rfl⟩ := h
  cases j with
  | and => rfl
  | or => rfl

theorem not_sep_of_closes (j : Joint) {s : List Char} (h : Text.Closes s) :
    ¬j.sep <+: s := fun hsep =>
  absurd (h ' ' (j.head_of_sep hsep)) (by decide)

theorem not_sep_of_last (j : Joint) {s : List Char} (h : j.Last s) : ¬j.sep <+: s := by
  cases j with
  | or => exact or.not_sep_of_closes h
  | and =>
      rcases h with hcloses | ⟨u, rfl⟩
      · exact and.not_sep_of_closes hcloses
      · rintro ⟨v, heq⟩
        exact absurd (List.cons.inj (List.cons.inj heq).2).1 (by decide)

/-- A chain can be told from the text, up to its standard form, if its items can. -/
theorem cancel (j : Joint) {e f : Expr} {s t : List Char}
    (hitems : ∀ c ∈ j.items e, ∀ d ∈ j.items f, ∀ s t, Text.After j.sep j.Last s →
      Text.After j.sep j.Last t → j.text c ++ s = j.text d ++ t → c.standard = d.standard ∧ s = t)
    (hs : j.Last s) (ht : j.Last t) (h : j.text e ++ s = j.text f ++ t) :
    e.standard = f.standard ∧ s = t := by
  rw [text_eq_intercalate, text_eq_intercalate] at h
  obtain ⟨hkeys, hst⟩ :=
    Text.intercalate_cancel hitems (fun _ => j.not_sep_of_last) (j.items_ne_nil e)
    (j.items_ne_nil f) hs ht h
  exact ⟨by rw [Expr.standard_eq_chain j e, Expr.standard_eq_chain j f, hkeys], hst⟩

end Joint

namespace Expr

/-- What the first word of a condition tells. -/
inductive Lead where
  | group
  | fix
  | truth (b : Bool)
  | kind
  | call
  | test

def Lead.ofWord (w rest : List Char) : Lead :=
  if w = "true".toList then truth true
  else if w = "false".toList then truth false
  else if w = "typeof".toList then kind
  else if rest.head? = some '(' then call
  else test

def Lead.ofText : List Char → Lead
  | '(' :: u => if u.takeWhile Text.isWord = "function".toList then fix else group
  | u => ofWord (u.takeWhile Text.isWord) (u.dropWhile Text.isWord)

section

variable {r r' : Ident} {keys keys' : List String} {v w : Scalar} {s t : List Char}

end

namespace Condition

variable {r r' : Ident} {e f : Expr} {s t : List Char}

theorem items (h : Condition r e) (j : Joint) : ∀ c ∈ j.items e, Condition r c := by
  induction e using j.induction with
  | hitem e hitem =>
      rw [Joint.items_eq_singleton hitem]
      exact List.forall_mem_singleton.2 h
  | hjoin a b iha ihb =>
      rw [Joint.items_join]
      intro c hc
      exact (List.mem_append.1 hc).elim (iha h.of_join.1 c) (ihb h.of_join.2 c)

end Condition

end Expr

end TypeGuard
