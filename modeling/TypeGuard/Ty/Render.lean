import TypeGuard.Fault
import TypeGuard.Ty.Basic

/-! The notation of types. -/

namespace TypeGuard

def Value.shown (v : Value) : Except Fault String :=
  if v.isWritable then pure v.repr else throw .overlong

/-- A literal type that is neither of a string nor of a number. -/
def Fault.malformed (v : Value) : Fault :=
  .ofText v.shown fun text => .rejected ⟨.malformedLiteral, text, none, ""⟩

def SequenceKind.text : SequenceKind → String
  | array => "array"
  | tuple => "tuple"

namespace Ty

/-- The text, or a word for it if it is empty. -/
def textOr (word text : String) : String :=
  if text = "" then word else text

def argumentList (texts : List String) : String :=
  if texts.isEmpty then "" else "<" ++ ", ".intercalate texts ++ ">"

mutual
/-- An array is shown by its first element type. -/
def render : Ty → Except Fault String
  | primitive s => pure s
  | literal (.scalar (.str s)) => pure ("\"" ++ s ++ "\"")
  | literal v => v.shown
  | boolean b => pure (if b then "true" else "false")
  | union members => do
      let texts ← renders members
      pure (textOr "never" (" | ".intercalate texts))
  | inter members => do
      let texts ← renders members
      pure (textOr "unknown" (" & ".intercalate texts))
  | object _ decl _ => pure decl.qualified
  | sequence .array [] => throw .unfit
  | sequence .array (element :: _) => do
      let text ← element.render
      pure (text ++ "[]")
  | sequence .tuple elements => do
      let texts ← renders elements
      pure ("[" ++ ", ".intercalate texts ++ "]")
  | ref target args => do
      let text ← target.render
      let texts ← renders args
      pure (text ++ argumentList texts)
  | param p => pure p.name
  | keyOf t => do
      let text ← t.render
      pure ("keyof " ++ text)
  | index t k => do
      let text ← t.render
      let key ← k.render
      pure (text ++ "[" ++ key ++ "]")
  | mapped p constraint template _ => do
      let keys ← constraint.render
      let text ← template.render
      pure ("\x7b [" ++ p.name ++ " in " ++ keys ++ "]: " ++ text ++ " \x7d")
  | name s args => do
      let texts ← renders args
      pure (s ++ argumentList texts)

def renders : List Ty → Except Fault (List String)
  | [] => pure []
  | t :: rest => do
      let text ← t.render
      let texts ← renders rest
      pure (text :: texts)
end

end Ty

end TypeGuard
