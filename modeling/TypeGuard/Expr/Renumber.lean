import TypeGuard.Expr.Basic

/-! Guards that differ only in the numbers of the types they were made for. -/

namespace TypeGuard

namespace Ident

def numbers : Ident → List Nat
  | named _ => []
  | slot n => [n]
  | guard _ n => [n]

def mapNumber (f : Nat → Nat) : Ident → Ident
  | named s => named s
  | slot n => slot (f n)
  | guard subject n => guard subject (f n)

end Ident

namespace Expr

/-- The numbers in an expression, each node before its parts. -/
def numbers : Expr → List Nat
  | ident name => name.numbers
  | prop target _ => target.numbers
  | elem target index => target.numbers ++ index.numbers
  | const _ => []
  | typeOf operand => operand.numbers
  | eq left right => left.numbers ++ right.numbers
  | ne left right => left.numbers ++ right.numbers
  | and left right => left.numbers ++ right.numbers
  | or left right => left.numbers ++ right.numbers
  | recur label argument => label.numbers ++ argument.numbers
  | fix label parameter body argument =>
      label.numbers ++ parameter.numbers ++ body.numbers ++ argument.numbers

def mapNumbers (f : Nat → Nat) : Expr → Expr
  | ident name => ident (name.mapNumber f)
  | prop target name => prop (target.mapNumbers f) name
  | elem target index => elem (target.mapNumbers f) (index.mapNumbers f)
  | const value => const value
  | typeOf operand => typeOf (operand.mapNumbers f)
  | eq left right => eq (left.mapNumbers f) (right.mapNumbers f)
  | ne left right => ne (left.mapNumbers f) (right.mapNumbers f)
  | and left right => and (left.mapNumbers f) (right.mapNumbers f)
  | or left right => or (left.mapNumbers f) (right.mapNumbers f)
  | recur label argument => recur (label.mapNumber f) (argument.mapNumbers f)
  | fix label parameter body argument =>
      fix (label.mapNumber f) (parameter.mapNumber f) (body.mapNumbers f) (argument.mapNumbers f)

/-- Numbers from zero in the order in which they first appear. -/
def renumber (e : Expr) : Expr :=
  let order := e.numbers.eraseDups
  e.mapNumbers fun n => order.idxOf n

end Expr

end TypeGuard
