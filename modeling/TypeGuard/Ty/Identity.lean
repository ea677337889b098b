import TypeGuard.Ty.Basic

/-! When two types are the same. Literals are told apart by kind and value, which leaves the sign
of a zero open; inside a tuple, numbers and truth values count by their value alone. -/

namespace TypeGuard

namespace Value

mutual
/-- Equal parts of literals have equal keys. -/
def partKey : Value → Value
  | scalar s => scalar s.valueKey
  | tuple items => tuple (partKeys items)
  | code e => code e.key
  | v => v

def partKeys : List Value → List Value
  | [] => []
  | v :: rest => v.partKey :: partKeys rest
end

def literalKey : Value → Value
  | scalar s => scalar s.unsignedZero
  | v => v.partKey

end Value

namespace Ty

mutual
/-- The same types have equal keys. -/
def key : Ty → Ty
  | primitive s => primitive s
  | literal v => literal v.literalKey
  | boolean b => boolean b
  | union members => union (keys members)
  | inter members => inter (keys members)
  | object kind decl elements => object kind decl (keys elements)
  | sequence kind elements => sequence kind (keys elements)
  | ref target args => ref target.key (keys args)
  | param p => param p
  | keyOf t => keyOf t.key
  | index t k => index t.key k.key
  | mapped p constraint template params => mapped p constraint.key template.key params
  | name s args => name s (keys args)

def keys : List Ty → List Ty
  | [] => []
  | t :: rest => t.key :: keys rest
end

def same (a b : Ty) : Bool :=
  a.key = b.key

end Ty

end TypeGuard
