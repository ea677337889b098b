import TypeGuard.Catalog.Basic
import TypeGuard.Ty.Identity

/-! The properties of a type, inherited ones included. -/

namespace TypeGuard.Catalog

/-- Follows aliases to the end. A circle of names ends at the first name met again. -/
def followNames (cat : Catalog) : (limit : Nat) → (seen : List String) → Ty → Except Fault Ty
  | limit + 1, seen, .name s args =>
      if s ∈ seen then pure (.name s args)
      else do
        let t ← cat.resolve (.name s args)
        cat.followNames limit (s :: seen) t
  | _, _, t => pure t

/-- A declared object without arguments. The element types are told apart by their keys. -/
structure ObjectHead where
  kind : ObjectKind
  decl : DeclId
  elements : List Ty
deriving DecidableEq

def objectHead? (t : Ty) : Option ObjectHead :=
  match t.head with
  | .object kind decl elements => some ⟨kind, decl, Ty.keys elements⟩
  | _ => none

/-- Interfaces and classes have members, and other declarations do not. -/
def hasMembers (cat : Catalog) (head : ObjectHead) : Bool :=
  match cat.declared? head.decl with
  | some d => d.kind?.isSome
  | none => false

/-- Objects in the order in which their members count, and those already met. -/
structure Lineage where
  order : List ObjectHead := []
  seen : List ObjectHead := []

/-- An object and what it inherits from, bases before their heirs, each object once. -/
def lineage (cat : Catalog) : (limit : Nat) → ObjectHead → Lineage → Except Fault Lineage
  | 0, _, _ => throw .exhausted
  | limit + 1, head, line =>
      if head ∈ line.seen then pure line
      else do
        let bases ← cat.bases (.object head.kind head.decl head.elements)
        let line ← (bases.filterMap objectHead?).foldlM
          (fun line base => cat.lineage limit base line) ⟨line.order, head :: line.seen⟩
        if cat.hasMembers head then pure ⟨line.order ++ [head], line.seen⟩ else throw .unfit

/-- A member takes the last place and drives out an earlier one of its name. -/
def overlay (found : List Property) (member : Property) : List Property :=
  found.filter (fun p => p.name ≠ member.name) ++ [member]

def membersOf (cat : Catalog) (head : ObjectHead) : List Property :=
  match cat.declared? head.decl with
  | some d => d.members
  | none => []

def properties (cat : Catalog) (t : Ty) : Except Fault (List Property) := do
  let t ← cat.followNames (cat.entries.length + 1) [] t
  match objectHead? t with
  | none => pure []
  | some head =>
      let line ← cat.lineage (cat.clauses.length + 2) head {}
      pure ((line.order.flatMap cat.membersOf).foldl overlay [])

def property? (cat : Catalog) (t : Ty) (name : String) : Except Fault (Option Property) := do
  let properties ← cat.properties t
  pure (properties.find? fun p => p.name = .spelled name)

end TypeGuard.Catalog
