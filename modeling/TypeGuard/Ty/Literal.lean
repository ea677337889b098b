import TypeGuard.Fault
import TypeGuard.Ty.Basic

/-! The type that has one value. -/

namespace TypeGuard.Ty

/-- A literal type of any value that can be a key. -/
def ofKey (v : Value) : Except Fault Ty :=
  if v.isKey then pure (literal v) else throw .notAKey

/-- Truth values have literal types of their own. -/
def ofValue : Value → Except Fault Ty
  | .scalar (.bool b) => pure (boolean b)
  | v => ofKey v

end TypeGuard.Ty
