import TypeGuard.Expr.Render

/-! The dynamic values that guards are tried on. -/

namespace TypeGuard

/-- Handles and functions are told apart by name. A recursive condition is itself a value while its
body is evaluated: its label names it. -/
inductive Value where
  | scalar (s : Scalar)
  | undefined
  | list (items : List Value)
  | tuple (items : List Value)
  | dict (entries : List (Value × Value))
  | handle (name : String)
  | func (name : String)
  | code (e : Expr)

namespace Value

mutual
def beq : Value → Value → Bool
  | scalar a, scalar b => a = b
  | undefined, undefined => true
  | list as, list bs => beqItems as bs
  | tuple as, tuple bs => beqItems as bs
  | dict as, dict bs => beqEntries as bs
  | handle a, handle b => a = b
  | func a, func b => a = b
  | code a, code b => a = b
  | _, _ => false

def beqItems : List Value → List Value → Bool
  | [], [] => true
  | a :: as, b :: bs => beq a b && beqItems as bs
  | _, _ => false

def beqEntries : List (Value × Value) → List (Value × Value) → Bool
  | [], [] => true
  | (k, v) :: as, (k', v') :: bs => beq k k' && beq v v' && beqEntries as bs
  | _, _ => false
end

mutual
theorem beq_iff : ∀ a b : Value, beq a b ↔ a = b
  | scalar _, b => by cases b <;> simp [beq]
  | undefined, b => by cases b <;> simp [beq]
  | list as, b => by cases b <;> simp [beq, beqItems_iff as]
  | tuple as, b => by cases b <;> simp [beq, beqItems_iff as]
  | dict as, b => by cases b <;> simp [beq, beqEntries_iff as]
  | handle _, b => by cases b <;> simp [beq]
  | func _, b => by cases b <;> simp [beq]
  | code _, b => by cases b <;> simp [beq]

theorem beqItems_iff : ∀ as bs : List Value, beqItems as bs ↔ as = bs
  | [], bs => by cases bs <;> simp [beqItems]
  | a :: as, bs => by cases bs <;> simp [beqItems, beq_iff a, beqItems_iff as]

theorem beqEntries_iff : ∀ as bs : List (Value × Value), beqEntries as bs ↔ as = bs
  | [], bs => by cases bs <;> simp [beqEntries]
  | (k, v) :: as, bs => by
      cases bs <;> simp [beqEntries, beq_iff k, beq_iff v, beqEntries_iff as, Prod.ext_iff]
end

instance : DecidableEq Value := fun a b => decidable_of_iff _ (beq_iff a b)

abbrev null : Value := scalar .null

abbrev bool (b : Bool) : Value := scalar (.bool b)

abbrev int (n : Int) : Value := scalar (.int n)

abbrev str (s : String) : Value := scalar (.str s)

def toScalar? : Value → Option Scalar
  | scalar s => some s
  | _ => none

def toString? : Value → Option String
  | scalar (.str s) => some s
  | _ => none

def truthy : Value → Bool
  | scalar s => s.truthy
  | undefined => false
  | list items => !items.isEmpty
  | tuple items => !items.isEmpty
  | dict entries => !entries.isEmpty
  | handle _ => true
  | func _ => true
  | code _ => true

def typeOf : Value → String
  | undefined => "undefined"
  | scalar .null => "object"
  | scalar (.bool _) => "boolean"
  | scalar (.int _) => "number"
  | scalar (.float _) => "number"
  | scalar (.str _) => "string"
  | func _ => "function"
  | list _ => "object"
  | tuple _ => "object"
  | dict _ => "object"
  | handle _ => "object"
  | code _ => "object"

mutual
/-- Lists and dictionaries, and tuples that hold one, are no keys. -/
def isKey : Value → Bool
  | list _ => false
  | dict _ => false
  | tuple items => areKeys items
  | _ => true

def areKeys : List Value → Bool
  | [] => true
  | v :: rest => v.isKey && areKeys rest
end

mutual
/-- Handles and functions have no text of their own, and neither has what holds one. What is shown
for them is for the eye only. -/
def hasText : Value → Bool
  | handle _ => false
  | func _ => false
  | list items => haveText items
  | tuple items => haveText items
  | dict entries => entriesHaveText entries
  | _ => true

def haveText : List Value → Bool
  | [] => true
  | v :: rest => v.hasText && haveText rest

def entriesHaveText : List (Value × Value) → Bool
  | [] => true
  | (k, v) :: rest => k.hasText && v.hasText && entriesHaveText rest
end

mutual
def repr : Value → String
  | scalar s => s.repr
  | undefined => "undefined"
  | list items => "[" ++ ", ".intercalate (reprs items) ++ "]"
  | tuple [v] => "(" ++ v.repr ++ ",)"
  | tuple items => "(" ++ ", ".intercalate (reprs items) ++ ")"
  | dict entries => "\x7b" ++ ", ".intercalate (reprEntries entries) ++ "\x7d"
  | handle name => "<object " ++ name ++ ">"
  | func name => "<function " ++ name ++ ">"
  | code e => e.render

def reprs : List Value → List String
  | [] => []
  | v :: rest => v.repr :: reprs rest

def reprEntries : List (Value × Value) → List String
  | [] => []
  | (k, v) :: rest => (k.repr ++ ": " ++ v.repr) :: reprEntries rest
end

mutual
/-- Whether every number in a value can be written. -/
def isWritable : Value → Bool
  | scalar s => s.isWritable
  | list items => areWritable items
  | tuple items => areWritable items
  | dict entries => entriesWritable entries
  | code e => e.isWritable
  | _ => true

def areWritable : List Value → Bool
  | [] => true
  | v :: rest => v.isWritable && areWritable rest

def entriesWritable : List (Value × Value) → Bool
  | [] => true
  | (k, v) :: rest => k.isWritable && v.isWritable && entriesWritable rest
end

/-- The text of a value, a string as it is. -/
def text : Value → String
  | scalar (.str s) => s
  | v => v.repr

def text? (v : Value) : Option String :=
  if v.hasText then some v.text else none

end Value

end TypeGuard
