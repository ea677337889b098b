import TypeGuard.Fault
import TypeGuard.Shape.StringSet
import TypeGuard.Value.Basic

/-! Which strings a type stands for. -/

namespace TypeGuard

inductive Shape where
  /-- Any string. -/
  | always
  /-- Something that is not a string, or no string at all. -/
  | never
  /-- One of these strings and nothing else. -/
  | exact (strings : StringSet)
deriving DecidableEq

namespace Shape

def isNever : Shape → Bool
  | never => true
  | _ => false

def isAlways : Shape → Bool
  | always => true
  | _ => false

def literals : Shape → List String
  | exact strings => strings.toList
  | _ => []

/-- No strings at all is spelled `never`. -/
def ofStrings : List String → Except Fault Shape
  | [] => throw (.broken .nonemptySet)
  | items => pure (exact (.ofList items))

/-- An exact set of values, which must be strings. -/
def ofValues (values : List Value) : Except Fault Shape :=
  if values.all Value.isKey then
    match values.mapM Value.toString? with
    | some items => ofStrings items
    | none => throw (.broken .stringSet)
  else throw .notAKey

/-- A case that is no string spoils a union; otherwise an open-ended case makes it open-ended. -/
def union (shapes : List Shape) : Except Fault Shape :=
  if shapes.isEmpty || shapes.any isNever then pure never
  else if shapes.any isAlways then pure always
  else ofStrings (shapes.flatMap literals)

/-- Distinct literals exclude each other, so a demand for more than one of them is no string. -/
def inter (shapes : List Shape) : Except Fault Shape :=
  match (StringSet.ofList (shapes.flatMap literals)).toList with
  | [s] => ofStrings [s]
  | _ :: _ :: _ => pure never
  | [] => pure (if shapes.any isAlways then always else never)

/-- The names that every alternative has. -/
def commonNames (shapes : List Shape) : Except Fault Shape :=
  if shapes.isEmpty || shapes.any isNever then pure never
  else
    match shapes.filterMap fun shape => match shape with
      | exact strings => some strings
      | _ => none with
    | [] => pure always
    | first :: rest =>
        let common := rest.foldl .inter first
        if common.toList.isEmpty then pure never else ofStrings common.toList

/-- The names that some part has. -/
def allNames (shapes : List Shape) : Except Fault Shape :=
  if shapes.any isAlways then pure always
  else
    let names := shapes.flatMap literals
    if names.isEmpty then pure never else ofStrings names

def text : Shape → String
  | always => "<AlwaysString>"
  | never => "<NeverString>"
  | exact strings => "<ExactSet [" ++ ", ".intercalate (strings.toList.map Text.quoted) ++ "]>"

end Shape

end TypeGuard
