import TypeGuard.Proofs.Lexemes
import TypeGuard.Proofs.Names

/-! The conditions that guards are made of, and what their text tells. The parts that are joined
can be told from the text, but not how they are grouped, and neither can the kind of a whole
number. -/

namespace TypeGuard

namespace Expr

/-- Reads a name, and then part after part, each by its key. -/
def pathOf (r : Ident) (keys : List String) : Expr :=
  keys.foldl (fun path key => elem path (const (.str key))) (ident r)

theorem pathOf_concat (r : Ident) (keys : List String) (key : String) :
    pathOf r (keys ++ [key]) = elem (pathOf r keys) (const (.str key)) :=
  List.foldl_append

/-- Conditions on the value that goes by a name. -/
inductive Condition : Ident → Expr → Prop
  | truth (r : Ident) (b : Bool) : Condition r (const (.bool b))
  | kind (r : Ident) (keys : List String) (name : String) :
      Condition r (eq (typeOf (pathOf r keys)) (const (.str name)))
  | equal (r : Ident) (keys : List String) {v : Scalar} (hv : v.IsFinite) :
      Condition r (eq (pathOf r keys) (const v))
  | present (r : Ident) (keys : List String) : Condition r (ne (pathOf r keys) (const .null))
  | and {r : Ident} {a b : Expr} (ha : Condition r a) (hb : Condition r b) : Condition r (and a b)
  | or {r : Ident} {a b : Expr} (ha : Condition r a) (hb : Condition r b) : Condition r (or a b)
  | call (r : Ident) (keys : List String) {l : Ident} (hl : l.IsLabel) :
      Condition r (recur l (pathOf r keys))
  | fix (r : Ident) (keys : List String) {l : Ident} {n : Nat} {body : Expr} (hl : l.IsLabel)
      (hbody : Condition (.slot n) body) : Condition r (fix l (.slot n) body (pathOf r keys))

/-- The same tree, but for how its chains are grouped and for which kind its whole numbers are
of. -/
inductive Regrouped : Expr → Expr → Prop
  | refl (e : Expr) : Regrouped e e
  | symm {e f : Expr} (h : Regrouped e f) : Regrouped f e
  | trans {e f g : Expr} (h : Regrouped e f) (h' : Regrouped f g) : Regrouped e g
  | and_assoc (a b c : Expr) : Regrouped (and (and a b) c) (and a (and b c))
  | or_assoc (a b c : Expr) : Regrouped (or (or a b) c) (or a (or b c))
  | whole {x : Binary64} {n : Int} (h : x.toInt? = some n) :
      Regrouped (const (.float x)) (const (.int n))
  | eq (a : Expr) {b b' : Expr} (h : Regrouped b b') : Regrouped (eq a b) (eq a b')
  | and {a a' b b' : Expr} (ha : Regrouped a a') (hb : Regrouped b b') :
      Regrouped (and a b) (and a' b')
  | or {a a' b b' : Expr} (ha : Regrouped a a') (hb : Regrouped b b') :
      Regrouped (or a b) (or a' b')
  | fix (l x : Ident) {body body' : Expr} (a : Expr) (h : Regrouped body body') :
      Regrouped (fix l x body a) (fix l x body' a)

end Expr

/-- The two ways to join conditions. -/
inductive Joint where
  | and
  | or

namespace Joint

def join : Joint → Expr → Expr → Expr
  | and => .and
  | or => .or

def isJoined (j : Joint) : Expr → Bool
  | .and _ _ => match j with
      | and => true
      | or => false
  | .or _ _ => match j with
      | and => false
      | or => true
  | _ => false

/-- The parts of a chain from left to right. -/
def items (j : Joint) : Expr → List Expr
  | .and a b => match j with
      | and => j.items a ++ j.items b
      | or => [.and a b]
  | .or a b => match j with
      | and => [.or a b]
      | or => j.items a ++ j.items b
  | e => [e]

/-- Puts a chain after another, with all that is joined grouped from the left. -/
def extend (j : Joint) (a : Expr) : Expr → Expr
  | .and b c => match j with
      | and => .and (j.extend a b) c
      | or => .or a (.and b c)
  | .or b c => match j with
      | and => .and a (.or b c)
      | or => .or (j.extend a b) c
  | b => j.join a b

def chain : Joint → List Expr → Expr
  | and => Expr.allOf
  | or => Expr.anyOf

variable (j : Joint) {a b e : Expr}

theorem items_join (a b : Expr) : j.items (j.join a b) = j.items a ++ j.items b := by
  cases j with
  | and => rfl
  | or => rfl

theorem extend_join (a b c : Expr) : j.extend a (j.join b c) = j.join (j.extend a b) c := by
  cases j with
  | and => rfl
  | or => rfl

variable {j} in
theorem items_eq_singleton (h : j.isJoined e = false) : j.items e = [e] := by
  cases j with
  | and =>
      cases e with
      | and => cases h
      | _ => rfl
  | or =>
      cases e with
      | or => cases h
      | _ => rfl

variable {j} in
theorem extend_eq_join (h : j.isJoined b = false) : j.extend a b = j.join a b := by
  cases j with
  | and =>
      cases b with
      | and => cases h
      | _ => rfl
  | or =>
      cases b with
      | or => cases h
      | _ => rfl

/-- An expression is either joined from two others or an item by itself. -/
theorem induction {P : Expr → Prop} (hitem : ∀ e, j.isJoined e = false → P e)
    (hjoin : ∀ a b, P a → P b → P (j.join a b)) (e : Expr) : P e := by
  induction e with
  | and a b iha ihb =>
      cases j with
      | and => exact hjoin a b iha ihb
      | or => exact hitem _ rfl
  | or a b iha ihb =>
      cases j with
      | and => exact hitem _ rfl
      | or => exact hjoin a b iha ihb
  | _ =>
      cases j with
      | and => exact hitem _ rfl
      | or => exact hitem _ rfl

theorem items_ne_nil (e : Expr) : j.items e ≠ [] := by
  induction e using j.induction with
  | hitem e h => simp [items_eq_singleton h]
  | hjoin a b iha _ => simp [items_join, iha]

theorem isJoined_of_mem_items (e : Expr) : ∀ c ∈ j.items e, j.isJoined c = false := by
  induction e using j.induction with
  | hitem e h =>
      rw [items_eq_singleton h]
      exact List.forall_mem_singleton.2 h
  | hjoin a b iha ihb =>
      rw [items_join]
      exact fun c hc => (List.mem_append.1 hc).elim (iha c) (ihb c)

theorem isJoined_extend (k : Joint) (a b : Expr) :
    k.isJoined (j.extend a b) = k.isJoined (j.join a b) := by
  cases j with
  | and => cases b <;> rfl
  | or => cases b <;> rfl

theorem extend_foldl (a b : Expr) (rest : List Expr) :
    j.extend a (rest.foldl j.join b) = rest.foldl j.join (j.extend a b) := by
  induction rest generalizing b with
  | nil => rfl
  | cons c rest ih => rw [List.foldl_cons, List.foldl_cons, ih, extend_join]

theorem chain_cons (first : Expr) (rest : List Expr) :
    j.chain (first :: rest) = rest.foldl j.join first := by
  cases j with
  | and => rfl
  | or => rfl

theorem extend_chain {xs ys : List Expr} (hxs : xs ≠ []) (hys : ys ≠ [])
    (hitems : ∀ y ∈ ys, j.isJoined y = false) :
    j.extend (j.chain xs) (j.chain ys) = j.chain (xs ++ ys) := by
  cases xs with
  | nil => exact absurd rfl hxs
  | cons x xs =>
      cases ys with
      | nil => exact absurd rfl hys
      | cons y ys =>
          rw [List.cons_append, chain_cons, chain_cons, chain_cons, extend_foldl,
            extend_eq_join (hitems y List.mem_cons_self), List.foldl_append, List.foldl_cons]

end Joint

theorem Expr.Condition.of_join {j : Joint} {r : Ident} {a b : Expr} (h : Condition r (j.join a b)) :
    Condition r a ∧ Condition r b := by
  cases j with
  | and =>
      cases h with
      | and ha hb => exact ⟨ha, hb⟩
  | or =>
      cases h with
      | or ha hb => exact ⟨ha, hb⟩

namespace Expr

/-- Chains are grouped from the left, and whole numbers are plain ones. -/
def standard : Expr → Expr
  | const v => const v.whole
  | eq a b => eq a b.standard
  | and a b => Joint.and.extend a.standard b.standard
  | or a b => Joint.or.extend a.standard b.standard
  | fix l x body a => fix l x body.standard a
  | e => e

theorem standard_join (j : Joint) (a b : Expr) :
    (j.join a b).standard = j.extend a.standard b.standard := by
  cases j with
  | and => rfl
  | or => rfl

theorem isJoined_standard (j : Joint) (e : Expr) : j.isJoined e.standard = j.isJoined e := by
  cases e with
  | and a b => exact Joint.and.isJoined_extend j _ _
  | or a b => exact Joint.or.isJoined_extend j _ _
  | _ => rfl

theorem standard_eq_chain (j : Joint) (e : Expr) :
    e.standard = j.chain ((j.items e).map standard) := by
  induction e using j.induction with
  | hitem e h =>
      rw [Joint.items_eq_singleton h, List.map_singleton, Joint.chain_cons, List.foldl_nil]
  | hjoin a b iha ihb =>
      rw [standard_join, iha, ihb, j.items_join, List.map_append]
      refine j.extend_chain ?_ ?_ fun y hy => ?_
      · simp [j.items_ne_nil]
      · simp [j.items_ne_nil]
      · obtain ⟨c, hc, rfl⟩ := List.mem_map.1 hy
        rw [isJoined_standard]
        exact j.isJoined_of_mem_items b c hc

namespace Regrouped

theorem join (j : Joint) {a a' b b' : Expr} (ha : Regrouped a a') (hb : Regrouped b b') :
    Regrouped (j.join a b) (j.join a' b') := by
  cases j with
  | and => exact .and ha hb
  | or => exact .or ha hb

theorem assoc (j : Joint) (a b c : Expr) :
    Regrouped (j.join (j.join a b) c) (j.join a (j.join b c)) := by
  cases j with
  | and => exact .and_assoc a b c
  | or => exact .or_assoc a b c

theorem extend (j : Joint) (a b : Expr) : Regrouped (j.join a b) (j.extend a b) := by
  induction b using j.induction with
  | hitem b h =>
      rw [Joint.extend_eq_join h]
      exact .refl _
  | hjoin b c ihb _ =>
      rw [Joint.extend_join]
      exact .trans (.symm (assoc j a b c)) (join j ihb (.refl c))

end Regrouped

end Expr

end TypeGuard
