import TypeGuard.Expr.Basic
import TypeGuard.Fault

/-! Replacing a name by an expression. -/

namespace TypeGuard.Expr

/-- Replaces a name wherever it is read. The parameter of a recursive condition must not have that
name; nothing else is shadowed or captured by what the guards are built from. -/
def replace (e : Expr) (name : Ident) (replacement : Expr) : Except Fault Expr :=
  match e with
  | ident i => pure (if i = name then replacement else ident i)
  | prop target p => do
      let target ← target.replace name replacement
      pure (prop target p)
  | elem target index => do
      let target ← target.replace name replacement
      let index ← index.replace name replacement
      pure (elem target index)
  | const value => pure (const value)
  | typeOf operand => do
      let operand ← operand.replace name replacement
      pure (typeOf operand)
  | eq left right => do
      let left ← left.replace name replacement
      let right ← right.replace name replacement
      pure (eq left right)
  | ne left right => do
      let left ← left.replace name replacement
      let right ← right.replace name replacement
      pure (ne left right)
  | and left right => do
      let left ← left.replace name replacement
      let right ← right.replace name replacement
      pure (and left right)
  | or left right => do
      let left ← left.replace name replacement
      let right ← right.replace name replacement
      pure (or left right)
  | recur label argument => do
      let argument ← argument.replace name replacement
      pure (recur label argument)
  | fix label parameter body argument =>
      if parameter = name then throw (.broken .freshParameter)
      else do
        let body ← body.replace name replacement
        let argument ← argument.replace name replacement
        pure (fix label parameter body argument)

end TypeGuard.Expr
