import TypeGuard.Source.Span

/-! What can stop a walk over types. A rejection is an answer about the subject: there is no guard
for it, and why. The other faults are about the input or the program. -/

namespace TypeGuard

namespace Rejection

inductive Kind where
  | general
  | unsupported
  | unboundParameter
  | malformedLiteral
  | missingPropertyType
  | unknownName
  | wrongArity
deriving DecidableEq

def Kind.intro : Kind → String
  | general => "Could not generate type-check"
  | unsupported => "Unsupported construct"
  | unboundParameter => "Unbound type parameter"
  | malformedLiteral => "Type value is expected to be a string or number"
  | missingPropertyType => "Visiting property without type"
  | unknownName => "Unknown type name"
  | wrongArity => "Wrong number of type-arguments"

end Rejection

/-- The construct names what offended. -/
structure Rejection where
  kind : Rejection.Kind
  construct : String
  site : Option Span := none
  hint : String := ""
deriving DecidableEq

namespace Rejection

def message (files : Files) (r : Rejection) : String :=
  r.kind.intro ++ ": " ++ r.construct ++
    (if r.hint = "" then "" else " (" ++ r.hint ++ ")") ++
    (match r.site with
      | none => ""
      | some site => " at " ++ site.text files)

def isWritable (files : Files) (r : Rejection) : Bool :=
  match r.site with
  | none => true
  | some site => site.isWritable files

end Rejection

/-- The rules that every walk relies on. -/
inductive Rule where
  /-- An exact set has a string. -/
  | nonemptySet
  /-- Only the top frame is popped. -/
  | frameOrder
  /-- A reference is entered only while it is not being expanded. -/
  | enteredOnce
  /-- Only the innermost reference is left. -/
  | leavingInnermost
  /-- Only a reference that is being expanded is marked. -/
  | markedActive
  /-- Frames, references and marks are all gone in the end. -/
  | cleared
  /-- A name is not replaced below a parameter of that name. -/
  | freshParameter
  /-- A constant is a scalar. -/
  | scalarConstant
  /-- A property key is a name, a number or computed. -/
  | propertyKey
  /-- An alias that is used has a body. -/
  | aliasBody
  /-- Only objects and mapped types are applied to arguments. -/
  | applicableTarget
  /-- A reference has an argument for every parameter of its target. -/
  | referenceArity
  /-- An exact set is made of strings. -/
  | stringSet
  /-- A policy is one of those there are. -/
  | knownPolicy
  /-- A span does not end before it starts. -/
  | spanOrder
deriving DecidableEq

inductive Fault where
  | rejected (r : Rejection)
  | unknownPrimitive (name : String)
  | duplicate (name : String)
  /-- A list or a dictionary is used as a key. -/
  | notAKey
  /-- A number has too many digits to be written. -/
  | overlong
  /-- A type or a declaration is used for something that its kind does not have. -/
  | unfit
  | broken (rule : Rule)
  /-- The walk was nested deeper than allowed. -/
  | exhausted
deriving DecidableEq

namespace Fault

def unsupported (construct : String) (site : Option Span) (hint : String) : Fault :=
  rejected ⟨.unsupported, construct, site, hint⟩

/-- Classes have an identity that no structure shows. -/
def nominal (construct : String) (site : Option Span) : Fault :=
  unsupported construct site "Classes cannot be validated"

/-- A fault that shows a text, unless the text cannot be written. -/
def ofText (text : Except Fault String) (fault : String → Fault) : Fault :=
  match text with
  | .ok text => fault text
  | .error failure => failure

/-- A rejection tells where it arose. It is described where it arises, and nothing stops it on its
way, so that it comes to the same to look at the end whether it can be. -/
def raised (files : Files) : Fault → Fault
  | rejected r => if r.isWritable files then rejected r else overlong
  | fault => fault

end Fault

end TypeGuard
