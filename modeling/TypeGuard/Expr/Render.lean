import TypeGuard.Expr.Basic
import TypeGuard.Text.Escaped

/-! The text of an expression. An alternative is put in parentheses where it is an operand of a
conjunction, and nowhere else. -/

namespace TypeGuard

/-- A whole number is written without a fraction, whichever kind of number it is. -/
def Scalar.constantText : Scalar → String
  | null => "null"
  | bool true => "true"
  | bool false => "false"
  | int n => n.repr
  | float x => match x.toInt? with
      | some n => n.repr
      | none => x.text
  | str s => Text.escaped s

namespace Expr

def isOr : Expr → Bool
  | or _ _ => true
  | _ => false

def render : Expr → String
  | ident name => name.text
  | prop target name => target.render ++ "." ++ name
  | elem target index => target.render ++ "[" ++ index.render ++ "]"
  | const value => value.constantText
  | typeOf operand => "typeof " ++ operand.render
  | eq left right => left.render ++ " === " ++ right.render
  | ne left right => left.render ++ " !== " ++ right.render
  | and left right =>
      (if left.isOr then "(" ++ left.render ++ ")" else left.render) ++ " && " ++
        (if right.isOr then "(" ++ right.render ++ ")" else right.render)
  | or left right => left.render ++ " || " ++ right.render
  | recur label argument => label.text ++ "(" ++ argument.render ++ ")"
  | fix label parameter body argument =>
      "(function " ++ label.text ++ "(" ++ parameter.text ++ ") \x7b return " ++ body.render ++
        "; \x7d)(" ++ argument.render ++ ")"

/-- Whether every number in an expression can be written. -/
def isWritable : Expr → Bool
  | ident _ => true
  | prop target _ => target.isWritable
  | elem target index => target.isWritable && index.isWritable
  | const value => value.isWritable
  | typeOf operand => operand.isWritable
  | eq left right => left.isWritable && right.isWritable
  | ne left right => left.isWritable && right.isWritable
  | and left right => left.isWritable && right.isWritable
  | or left right => left.isWritable && right.isWritable
  | recur _ argument => argument.isWritable
  | fix _ _ body argument => body.isWritable && argument.isWritable

/-- The nodes of an expression, each before its parts. -/
def nodes : Expr → List String
  | ident name => ["id:" ++ name.text]
  | prop target name => ("prop:" ++ name) :: target.nodes
  | elem target index => "elem" :: (target.nodes ++ index.nodes)
  | const .null => ["null"]
  | const (.bool b) => [if b then "bool:true" else "bool:false"]
  | const (.int n) => ["int:" ++ n.repr]
  | const (.float x) => ["float:" ++ x.text]
  | const (.str s) => ["str:" ++ s]
  | typeOf operand => "typeof" :: operand.nodes
  | eq left right => "===" :: (left.nodes ++ right.nodes)
  | ne left right => "!==" :: (left.nodes ++ right.nodes)
  | and left right => "&&" :: (left.nodes ++ right.nodes)
  | or left right => "||" :: (left.nodes ++ right.nodes)
  | recur label argument => ("recur:" ++ label.text) :: argument.nodes
  | fix label parameter body argument =>
      ("fix:" ++ label.text) :: ("param:" ++ parameter.text) :: (body.nodes ++ argument.nodes)

end Expr

end TypeGuard
