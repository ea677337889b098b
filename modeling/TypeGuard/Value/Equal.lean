import TypeGuard.Value.Basic

/-! Equality of values. Numbers and truth values compare by value, dictionaries by their entries in
any order; strict equality also asks for the same kind of value, at the top only. -/

namespace TypeGuard.Value

mutual
def equal : Value → Value → Bool
  | scalar a, scalar b => a.valueKey = b.valueKey
  | undefined, undefined => true
  | list as, list bs => equalItems as bs
  | tuple as, tuple bs => equalItems as bs
  | dict as, dict bs => entriesIn as bs && bs.all (hasEntry as)
  | handle a, handle b => a = b
  | func a, func b => a = b
  | code a, code b => a.same b
  | _, _ => false

def equalItems : List Value → List Value → Bool
  | [], [] => true
  | a :: as, b :: bs => equal a b && equalItems as bs
  | _, _ => false

/-- Every entry of the first list is one of the second. -/
def entriesIn : List (Value × Value) → List (Value × Value) → Bool
  | [], _ => true
  | (k, v) :: rest, entries =>
      entries.any (fun entry => equal k entry.1 && equal v entry.2) && entriesIn rest entries

def hasEntry : List (Value × Value) → Value × Value → Bool
  | [], _ => false
  | (k, v) :: rest, entry => equal k entry.1 && equal v entry.2 || hasEntry rest entry
end

def strictEqual (a b : Value) : Bool :=
  a.typeOf = b.typeOf && a.equal b

end TypeGuard.Value
