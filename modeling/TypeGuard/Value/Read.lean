import TypeGuard.Text.Digit
import TypeGuard.Value.Equal

/-! Reading a part of a value. -/

namespace TypeGuard

inductive EvalError where
  | unboundName (name : String)
  | unboundLabel (label : String)
  /-- The label is bound, but not to a recursive condition. -/
  | notRecursive (label : String)
  /-- Null and undefined have no parts. -/
  | unreadable (target key : Value)
  /-- A list or a dictionary is used as a key. -/
  | notAKey
  /-- A numeral cannot be read, or a number cannot be written. -/
  | badNumeral
  /-- Recursive conditions were nested deeper than allowed. -/
  | exhausted

namespace EvalError

def message : EvalError → String
  | unboundName name => name
  | unboundLabel label => Text.quoted label
  | notRecursive label => Text.quoted label
  | unreadable target key =>
      "Cannot read properties of " ++ target.repr ++ " (reading " ++ key.repr ++ ")"
  | notAKey => "not a key"
  | badNumeral => "invalid numeral"
  | exhausted => "too much recursion"

end EvalError

/-- What it takes to tell that nothing can be read from a value: the key is shown. -/
def EvalError.ofUnreadable (target key : Value) : EvalError :=
  if key.isWritable then unreadable target key else badNumeral

namespace Value

def lookup? (entries : List (Value × Value)) (key : Value) : Option Value :=
  (entries.find? fun entry => entry.1.equal key).map (·.2)

/-- Puts an entry in the place of one with an equal key, or in the last place. The key that is there
stays. -/
def insertEntry (entries : List (Value × Value)) (key v : Value) : List (Value × Value) :=
  match entries with
  | [] => [(key, v)]
  | entry :: rest =>
      if entry.1.equal key then (entry.1, v) :: rest else entry :: insertEntry rest key v

/-- A dictionary in which a later entry takes the place of an earlier one with an equal key. -/
def ofEntries (entries : List (Value × Value)) : Except EvalError Value :=
  if entries.all fun entry => entry.1.isKey then
    pure (dict (entries.foldl (fun found entry => insertEntry found entry.1 entry.2) []))
  else throw .notAKey

/-- An entry of a dictionary: by the key itself, else by the text of the key, if it has one. -/
def entry (entries : List (Value × Value)) (key : Value) : Except EvalError Value :=
  match lookup? entries key, key with
  | some v, _ => pure v
  | none, scalar (.str _) => pure undefined
  | none, _ =>
      if key.isWritable then pure ((key.text?.bind fun s => lookup? entries (str s)).getD undefined)
      else throw .badNumeral

/-- An item of a list, by a position or by a numeral; its length by name. -/
def item (items : List Value) : Value → Except EvalError Value
  | scalar (.int n) => pure (if 0 ≤ n then items[n.toNat]?.getD undefined else undefined)
  | scalar (.str s) =>
      if Text.isDigits s.toList then
        match Text.readNumeral? s.toList with
        | some n => pure (items[n]?.getD undefined)
        | none => throw .badNumeral
      else if s = "length" then pure (int items.length)
      else pure undefined
  | _ => pure undefined

def read : Value → Value → Except EvalError Value
  | dict entries, key => if key.isKey then entry entries key else throw .notAKey
  | list items, key => item items key
  | tuple items, key => item items key
  | scalar .null, key => throw (.ofUnreadable .null key)
  | undefined, key => throw (.ofUnreadable .undefined key)
  | _, _ => pure undefined

end Value

end TypeGuard
