import TypeGuard.Scalar

/-! Guard expressions: ways to read a part of the value under test, and conditions on what is
read. -/

namespace TypeGuard

/-- The names in an expression, by their form. A name is nothing but its text: one that someone
wrote in the form of a slot is that slot. -/
inductive Ident where
  | named (text : String)
  /-- Holds the value under test while the type of that number is expanded. -/
  | slot (number : Nat)
  /-- The recursive condition for the type of that number. -/
  | guard (subject : String) (number : Nat)
deriving DecidableEq

namespace Ident

def text : Ident → String
  | named s => s
  | slot n => "$" ++ n.repr
  | guard subject n => "is_" ++ subject ++ "_" ++ n.repr

/-- The number that a text has at its end, and what stands before it. -/
def splitNumber (s : List Char) : List Char × Nat :=
  let digits := s.reverse.takeWhile Char.isDigit
  ((s.reverse.drop digits.length).reverse,
    digits.foldr (fun c n => 10 * n + (c.toNat - '0'.toNat)) 0)

/-- The name of a text. -/
def ofText (s : String) : Ident :=
  let (before, n) := splitNumber s.toList
  let subject := String.ofList (before.drop 3).dropLast
  if (slot n).text = s then slot n
  else if (guard subject n).text = s then guard subject n
  else named s

end Ident

inductive Expr where
  | ident (name : Ident)
  | prop (target : Expr) (name : String)
  | elem (target index : Expr)
  | const (value : Scalar)
  | typeOf (operand : Expr)
  | eq (left right : Expr)
  | ne (left right : Expr)
  | and (left right : Expr)
  | or (left right : Expr)
  /-- Checks the argument against the enclosing `fix` of the same label. -/
  | recur (label : Ident) (argument : Expr)
  /-- Checks the argument against a body in which the parameter stands for it. -/
  | fix (label parameter : Ident) (body argument : Expr)
deriving DecidableEq

namespace Expr

/-- Two expressions are the same if they differ at most in the sign of a zero. -/
def key : Expr → Expr
  | ident name => ident name
  | prop target name => prop target.key name
  | elem target index => elem target.key index.key
  | const value => const value.unsignedZero
  | typeOf operand => typeOf operand.key
  | eq left right => eq left.key right.key
  | ne left right => ne left.key right.key
  | and left right => and left.key right.key
  | or left right => or left.key right.key
  | recur label argument => recur label argument.key
  | fix label parameter body argument => fix label parameter body.key argument.key

def same (a b : Expr) : Bool :=
  a.key = b.key

end Expr

end TypeGuard
