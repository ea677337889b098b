import TypeGuard.Ty.Render
import TypeGuard.Value.Constant

/-! Declarations: interfaces, classes and aliases by name, and the properties inside of them. -/

namespace TypeGuard

/-- The name of a property. One without a text is the same as no other text, whatever is shown for
it. -/
inductive PropertyName where
  | spelled (text : String)
  | unspelled (shown : String)
deriving DecidableEq

namespace PropertyName

def text : PropertyName → String
  | spelled s => s
  | unspelled s => s

end PropertyName

/-- A property name that is given by an expression, or by a plain value in its place. -/
inductive Computed where
  | expr (e : Expr)
  | plain (v : Value)

namespace Computed

def name : Computed → PropertyName
  | expr e => .spelled ("[" ++ e.render ++ "]")
  | plain v =>
      let shown := "[" ++ v.repr ++ "]"
      if v.hasText then .spelled shown else .unspelled shown

end Computed

inductive PropertyKey where
  | str (s : String)
  | int (n : Int)
  | float (x : Binary64)
  | computed (c : Computed)

namespace PropertyKey

def name : PropertyKey → PropertyName
  | str s => .spelled s
  | int n => .spelled n.repr
  | float x => match x.toInt? with
      | some n => .spelled n.repr
      | none => .spelled x.text
  | computed c => c.name

/-- Whether the name can be written. -/
def isWritable : PropertyKey → Bool
  | int n => Text.isWritable n
  | computed (.expr e) => e.isWritable
  | computed (.plain v) => v.isWritable
  | _ => true

/-- A key whose name cannot be written names nothing. -/
def checked (key : PropertyKey) : Except Fault PropertyKey :=
  if key.isWritable then pure key else throw .overlong

def isStr : PropertyKey → Bool
  | str _ => true
  | _ => false

/-- The index under which a value holds the property. -/
def index : PropertyKey → Except Fault Expr
  | computed (.expr e) => pure e
  | computed (.plain v) => v.constant
  | key => pure (.const (.str key.name.text))

end PropertyKey

structure Property where
  key : PropertyKey
  type? : Option Ty
  optional : Bool
  site : Option Span
  owner : DeclId

namespace Property

def name (p : Property) : PropertyName :=
  p.key.name

def qualified (p : Property) : String :=
  p.owner.qualified ++ "." ++ p.name.text

end Property

/-- One entry of an `extends` clause. -/
structure Heritage where
  base : String
  args : List Ty

namespace Heritage

def annotation (h : Heritage) : Ty :=
  .name h.base h.args

end Heritage

namespace Declaration

inductive Body where
  | interface (heritage : List Heritage) (members : List Property)
  | nominal (heritage : List Heritage) (members : List Property)
  | «alias» (type? : Option Ty)
  /-- A name that stands for no type. -/
  | bare
  | property (p : Property)

end Declaration

/-- The scope lists the names around a declaration, outermost first. -/
structure Declaration where
  name : String
  scope : List String := []
  serial : Nat := 0
  params : List TypeParam := []
  site : Option Span := none
  body : Declaration.Body

namespace Declaration

def qualified (d : Declaration) : String :=
  ".".intercalate (d.scope ++ [d.name])

def id (d : Declaration) : DeclId :=
  ⟨d.qualified, d.serial⟩

/-- The kind of object that the declaration is for. -/
def kind? (d : Declaration) : Option ObjectKind :=
  match d.body with
  | .interface _ _ => some .interface
  | .nominal _ _ => some .nominal
  | _ => none

def arity (d : Declaration) : Nat :=
  d.params.length

def heritage (d : Declaration) : List Heritage :=
  match d.body with
  | .interface heritage _ => heritage
  | .nominal heritage _ => heritage
  | _ => []

def members (d : Declaration) : List Property :=
  match d.body with
  | .interface _ members => members
  | .nominal _ members => members
  | _ => []

/-- The first member of a name. -/
def member? (d : Declaration) (name : String) : Option Property :=
  d.members.find? fun p => p.name = .spelled name

/-- Adds a member at the end. -/
def declare (p : Property) (d : Declaration) : Declaration :=
  match d.body with
  | .interface heritage members => { d with body := .interface heritage (members ++ [p]) }
  | .nominal heritage members => { d with body := .nominal heritage (members ++ [p]) }
  | _ => d

/-- The declaration of a property as a thing of its own. -/
def ofProperty (owner : Declaration) (p : Property) : Declaration where
  name := p.name.text
  scope := owner.scope ++ [owner.name]
  site := p.site
  body := .property p

def text (d : Declaration) : Except Fault String := do
  let rest ← match d.body with
    | .interface _ _ => pure ":InterfaceDeclaration"
    | .nominal _ _ => pure ":ClassDeclaration"
    | .alias none => pure " = None"
    | .alias (some t) => do
        let body ← t.render
        pure (" = " ++ body)
    | .bare => pure ":Declaration"
    | .property _ => pure ":PropertyDescriptor"
  pure ("\x7b" ++ d.qualified ++ rest ++ "\x7d")

end Declaration

end TypeGuard
