import TypeGuard.Value.Read

/-! Evaluation of guard expressions. Names and labels share one scope, and a recursive call sees the
scope of the place it is made from. -/

namespace TypeGuard

abbrev Scope := List (Ident × Value)

namespace Expr

/-- Evaluates an expression, with `call` for the bodies of recursive calls. -/
def evalWith (call : Expr → Scope → Except EvalError Value) :
    Expr → Scope → Except EvalError Value
  | ident name, scope =>
      match scope.lookup name with
      | some v => pure v
      | none => throw (.unboundName name.text)
  | prop target name, scope => do
      let v ← target.evalWith call scope
      v.read (.str name)
  | elem target index, scope => do
      let v ← target.evalWith call scope
      let key ← index.evalWith call scope
      v.read key
  | const value, _ => pure (.scalar value)
  | typeOf operand, scope => do
      let v ← operand.evalWith call scope
      pure (.str v.typeOf)
  | eq left right, scope => do
      let a ← left.evalWith call scope
      let b ← right.evalWith call scope
      pure (.bool (a.strictEqual b))
  | ne left right, scope => do
      let a ← left.evalWith call scope
      let b ← right.evalWith call scope
      pure (.bool (!a.strictEqual b))
  | and left right, scope => do
      let a ← left.evalWith call scope
      if a.truthy then right.evalWith call scope else pure a
  | or left right, scope => do
      let a ← left.evalWith call scope
      if a.truthy then pure a else right.evalWith call scope
  | recur label argument, scope =>
      match scope.lookup label with
      | none => throw (.unboundLabel label.text)
      | some f => do
          let v ← argument.evalWith call scope
          match f with
          | .code (fix _ parameter body _) => call body ((parameter, v) :: scope)
          | _ => throw (.notRecursive label.text)
  | fix label parameter body argument, scope => do
      let v ← argument.evalWith call scope
      body.evalWith call
        ((parameter, v) :: (label, .code (fix label parameter body argument)) :: scope)

/-- Evaluates an expression in which recursive calls nest at most `depth` deep. -/
def eval : (depth : Nat) → Expr → Scope → Except EvalError Value
  | 0 => evalWith fun _ _ => throw .exhausted
  | depth + 1 => evalWith (eval depth)

/-- Whether the condition holds. -/
def holds (depth : Nat) (e : Expr) (scope : Scope) : Except EvalError Bool := do
  let v ← e.eval depth scope
  pure v.truthy

end Expr

end TypeGuard
