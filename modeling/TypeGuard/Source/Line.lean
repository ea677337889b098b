import TypeGuard.Text.Blank

/-! Source text by lines. Offsets count characters; rows start at one. -/

namespace TypeGuard.Source

/-- Every line break becomes a line feed. -/
def unifyBreaks : List Char → List Char
  | '\r' :: '\n' :: rest => '\n' :: unifyBreaks rest
  | '\r' :: rest => '\n' :: unifyBreaks rest
  | c :: rest => c :: unifyBreaks rest
  | [] => []

/-- The offsets after each line feed, for text that starts at `offset`. -/
def breakEnds (offset : Nat) : List Char → List Nat
  | [] => []
  | c :: rest => if c = '\n' then (offset + 1) :: breakEnds (offset + 1) rest
      else breakEnds (offset + 1) rest

/-- The offset where each line starts. -/
def lineStarts (text : List Char) : List Nat :=
  0 :: breakEnds 0 text

/-- Row and column of an offset, the column from zero. An offset before the text is on row zero, and
its column counts back from the end of the text. -/
def position (text : List Char) (offset : Int) : Nat × Int :=
  if offset < 0 then (0, offset - text.length)
  else
    let starts := (lineStarts text).takeWhile fun start : Nat => (start : Int) ≤ offset
    (starts.length, offset - (starts.getLastD 0 : Nat))

/-- The text of a row, its line break included. Row zero is shown as the first. -/
def line (text : List Char) (row : Nat) : List Char :=
  let bounds := lineStarts text ++ [text.length]
  let start := bounds.getD (row - 1) text.length
  let stop := bounds.getD (row - 1 + 1) text.length
  (text.take stop).drop start

/-- The characters before a column. A negative one leaves out as many from the end. -/
def before (line : List Char) (column : Int) : List Char :=
  if 0 ≤ column then line.take column.toNat else line.take (line.length - (-column).toNat)

/-- A row number, padded to six places, and a bar. -/
def margin (row : Nat) : List Char :=
  let digits := Nat.toDigits 10 row
  List.replicate (max 1 (6 - digits.length)) ' ' ++ digits ++ [' ', '|']

/-- A line with its row number, and below it marks under the part that starts at a column, with a
caption. Tabs are kept, so that the marks stand where the part is shown. -/
def markedLine (row : Nat) (line : List Char) (column width : Int) (caption : String) : String :=
  let blanks := (margin row ++ before line column).map fun c => if c = '\t' then c else ' '
  let marks := max 1 (min width (line.length - column))
  String.ofList (margin row ++ Text.trimEnd line ++ '\n' :: blanks ++
    List.replicate marks.toNat '^' ++ [' ']) ++ caption

end TypeGuard.Source
