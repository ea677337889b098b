import TypeGuard.Number.Binary64
import TypeGuard.Text.Blank
import TypeGuard.Text.Digit

/-! The text of a binary number as it is written: a decimal numeral or a word, in any case and with
digits of any script. -/

namespace TypeGuard.Binary64

/-- Digits of other scripts become the digits that have their place value. -/
def plainDigit (c : Char) : Char :=
  match Text.decimalValue? c with
  | some n => Nat.digitChar n
  | none => c

/-- Leaves out the low lines that divide groups of digits. They stand only between two digits. -/
def joinGroups? : List Char → Option (List Char)
  | c :: '_' :: d :: rest =>
      if c.isDigit && d.isDigit then (joinGroups? (d :: rest)).map (c :: ·) else none
  | '_' :: _ => none
  | c :: rest => (joinGroups? rest).map (c :: ·)
  | [] => some []

/-- The number that a text stands for, with a tag for the case that it is not a number. -/
def read? (tag : Nat) (s : String) : Option Binary64 :=
  let written := (Text.trim s.toList).map plainDigit
  let (negative, unsigned) := Decimal.splitSign written
  match String.ofList (unsigned.map Char.toLower) with
  | "inf" => some (.inf negative)
  | "infinity" => some (.inf negative)
  | "nan" => some (.nan tag)
  | _ => (joinGroups? written).bind fun numeral =>
      (Decimal.read? (String.ofList numeral)).map ofDecimal

end TypeGuard.Binary64
