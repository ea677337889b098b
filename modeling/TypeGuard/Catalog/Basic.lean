import TypeGuard.Declaration
import TypeGuard.Ty.Substitution

/-! A catalog of declarations, and what a name stands for. -/

namespace TypeGuard

/-- Declarations by their identity, in the order they were made in, and the files that sites are
shown in. -/
structure Catalog where
  entries : List (DeclId × Declaration) := []
  files : Files := []

/-- The declaration that a catalog lists under a name. -/
def DeclId.listed (name : String) : DeclId :=
  ⟨name, 0⟩

namespace Catalog

def declared? (cat : Catalog) (decl : DeclId) : Option Declaration :=
  cat.entries.lookup decl

def find? (cat : Catalog) (name : String) : Option Declaration :=
  cat.declared? (.listed name)

def get (cat : Catalog) (name : String) : Except Fault Declaration :=
  match cat.find? name with
  | some d => pure d
  | none => throw (.rejected ⟨.unknownName, name, none, ""⟩)

/-- Where a declaration was written. -/
def siteOf (cat : Catalog) (decl : DeclId) : Option Span :=
  (cat.declared? decl).bind (·.site)

/-- The name of a declaration without the names around it. -/
def shortName (cat : Catalog) (decl : DeclId) : String :=
  match cat.declared? decl with
  | some d => d.name
  | none => decl.qualified

/-- A name is defined once. -/
def define (d : Declaration) (cat : Catalog) : Except Fault Catalog :=
  if (cat.find? d.qualified).isSome then throw (.duplicate d.qualified)
  else
    let d := { d with serial := 0 }
    pure { cat with entries := cat.entries ++ [(d.id, d)] }

/-- Adds a member to a declaration that is already there. -/
def declare (owner : DeclId) (p : Property) (cat : Catalog) : Catalog :=
  { cat with entries := cat.entries.map fun entry =>
      if entry.1 = owner then (entry.1, entry.2.declare p) else entry }

/-- The parameters that a reference to the target gives arguments for. -/
def paramsOf (cat : Catalog) : Ty → List TypeParam
  | .object _ decl _ => match cat.declared? decl with
      | some d => d.params
      | none => []
  | .mapped _ _ _ params => params
  | _ => []

def isApplicable : Ty → Bool
  | .object _ _ _ => true
  | .sequence _ _ => true
  | .mapped _ _ _ _ => true
  | _ => false

def reference (cat : Catalog) (target : Ty) (args : List Ty) : Except Fault Ty :=
  if !isApplicable target then throw (.broken .applicableTarget)
  else if args.length ≠ (cat.paramsOf target).length then throw (.broken .referenceArity)
  else pure (.ref target args)

def wrongArity (name : String) (given needed : Nat) : Fault :=
  .rejected ⟨.wrongArity, name, none,
    given.repr ++ " were given; " ++ needed.repr ++ " are needed"⟩

/-- The type a declaration stands for, given as many arguments as it has parameters. -/
def instanceOf (cat : Catalog) (name : String) (d : Declaration) (args : List Ty) :
    Except Fault Ty :=
  match d.body with
  | .interface _ _ => object .interface
  | .nominal _ _ => object .nominal
  | .alias none => throw (.broken .aliasBody)
  | .alias (some body) =>
      if d.params.isEmpty then pure body
      else match body with
        | .mapped _ _ _ _ => cat.reference body args
        | _ => pure (body.substitute (.ofPairs (d.params.zip args)))
  | .bare => throw (.rejected ⟨.unknownName, name, none, ""⟩)
  | .property _ => throw (.rejected ⟨.unknownName, name, none, ""⟩)
where
  object (kind : ObjectKind) : Except Fault Ty :=
    let target := Ty.object kind d.id []
    if d.params.isEmpty then pure target else cat.reference target args

/-- Resolves a name by one step. What is no name stays as it is. -/
def resolve (cat : Catalog) : Ty → Except Fault Ty
  | .name s args => do
      let d ← cat.get s
      if args.length ≠ d.arity then throw (wrongArity s args.length d.arity)
      cat.instanceOf s d args
  | t => pure t

/-- All heritage clauses. What a clause stands for depends on nothing but the clause. -/
def clauses (cat : Catalog) : List Heritage :=
  cat.entries.flatMap fun entry => entry.2.heritage

/-- What a declaration extends, in terms of its own parameters. -/
def basesOf (cat : Catalog) (d : Declaration) : Except Fault (List Ty) :=
  d.heritage.mapM fun h => cat.resolve h.annotation

/-- The direct bases of a declared object. -/
def bases (cat : Catalog) (t : Ty) : Except Fault (List Ty) :=
  match t.head with
  | .object _ decl _ => match cat.declared? decl with
      | some d => cat.basesOf d
      | none => pure []
  | _ => pure []

end Catalog

end TypeGuard
