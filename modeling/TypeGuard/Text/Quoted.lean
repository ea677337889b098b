import TypeGuard.Text.Hex
import TypeGuard.Text.Printable

/-! Quoted text: a string between quotes, with escapes for what has no visible form. -/

namespace TypeGuard.Text.Quoted

/-- Single quotes, unless the text holds a single quote and no double one. -/
def quoteFor (s : List Char) : Char :=
  if '\'' ∈ s ∧ '"' ∉ s then '"' else '\''

def escape (c : Char) : List Char :=
  let n := c.toNat
  if n < 0x100 then '\\' :: 'x' :: hex 2 n
  else if n < 0x10000 then '\\' :: 'u' :: hex 4 n
  else '\\' :: 'U' :: hex 8 n

def encodeChar (quote c : Char) : List Char :=
  if c = quote ∨ c = '\\' then ['\\', c]
  else if c = '\n' then ['\\', 'n']
  else if c = '\r' then ['\\', 'r']
  else if c = '\t' then ['\\', 't']
  else if isPrintable c then [c]
  else escape c

def encode (s : List Char) : List Char :=
  let quote := quoteFor s
  quote :: (s.flatMap (encodeChar quote) ++ [quote])

end Quoted

def quoted (s : String) : String :=
  String.ofList (Quoted.encode s.toList)

end TypeGuard.Text
