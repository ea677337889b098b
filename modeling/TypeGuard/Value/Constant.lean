import TypeGuard.Fault
import TypeGuard.Value.Basic

/-! Values inside expressions. -/

namespace TypeGuard.Value

/-- Only scalars can be written as constants. -/
def constant (v : Value) : Except Fault Expr :=
  match v.toScalar? with
  | some s => pure (.const s)
  | none => throw (.broken .scalarConstant)

end TypeGuard.Value
