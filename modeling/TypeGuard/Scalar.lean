import TypeGuard.Number.Shortest
import TypeGuard.Text.Digit
import TypeGuard.Text.Quoted

/-! Data without parts: null, truth values, numbers and strings. -/

namespace TypeGuard

inductive Scalar where
  | null
  | bool (b : Bool)
  | int (n : Int)
  | float (x : Binary64)
  | str (s : String)
deriving DecidableEq

namespace Scalar

/-- Forgets the sign of a zero and nothing else. -/
def unsignedZero : Scalar → Scalar
  | float x => float x.unsignedZero
  | s => s

/-- Numbers and truth values are told apart by their exact value alone, all else by what it is. -/
def valueKey : Scalar → Scalar
  | bool b => float (.finite (.ofInt (if b then 1 else 0)))
  | int n => float (.finite (.ofInt n))
  | float x => float x.unsignedZero
  | null => null
  | str s => str s

def truthy : Scalar → Bool
  | null => false
  | bool b => b
  | int n => n ≠ 0
  | float x => x.toInt? ≠ some 0
  | str s => s ≠ ""

/-- The text of a datum, a string between quotes. -/
def repr : Scalar → String
  | null => "None"
  | bool true => "True"
  | bool false => "False"
  | int n => n.repr
  | float x => x.text
  | str s => Text.quoted s

/-- Only a whole number can be too long for its text. -/
def isWritable : Scalar → Bool
  | int n => Text.isWritable n
  | _ => true

end Scalar

end TypeGuard
