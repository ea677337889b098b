import TypeGuard.Expr.Basic

/-! The conditions that guards are put together from. -/

namespace TypeGuard.Expr

def always : Expr := const (.bool true)

def never : Expr := const (.bool false)

def named (name : String) : Expr := ident (.named name)

def hasTypeOf (accessor : Expr) (name : String) : Expr :=
  eq (typeOf accessor) (const (.str name))

def equalTo (accessor : Expr) (value : Scalar) : Expr :=
  eq accessor (const value)

def nonNull (accessor : Expr) : Expr :=
  ne accessor (const .null)

/-- Every structural check starts with these; more conditions may follow. -/
def objectTests (accessor : Expr) : List Expr :=
  [hasTypeOf accessor "object", nonNull accessor]

def allOf : List Expr → Expr
  | [] => always
  | first :: rest => rest.foldl and first

def anyOf : List Expr → Expr
  | [] => never
  | first :: rest => rest.foldl or first

end TypeGuard.Expr
