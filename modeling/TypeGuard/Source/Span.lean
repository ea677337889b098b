import TypeGuard.Source.Line
import TypeGuard.Text.Digit

/-! Where a declaration was written: a file, if it has one, and a range of offsets. -/

namespace TypeGuard

/-- The files that can be read, by path. -/
abbrev Files := List (String × String)

structure Span where
  path : Option String
  start : Int
  stop : Int
deriving DecidableEq

namespace Files

def read? (files : Files) (path : String) : Option (List Char) :=
  (files.lookup path).map fun text => Source.unifyBreaks text.toList

end Files

namespace Span

/-- A span does not end before it starts. -/
def ofBounds? (path : Option String) (start stop : Int) : Option Span :=
  if start ≤ stop then some ⟨path, start, stop⟩ else none

def source? (files : Files) (s : Span) : Option (List Char) :=
  s.path.bind files.read?

def isReadable (files : Files) (s : Span) : Bool :=
  (s.source? files).isSome

/-- Path, row and column, or path and offset where the file cannot be read. -/
def text (files : Files) (s : Span) : String :=
  let path := s.path.getD "<built-in>"
  match s.source? files with
  | none => path ++ "@" ++ s.start.repr
  | some text =>
      let (row, column) := Source.position text s.start
      path ++ ":" ++ row.repr ++ ":" ++ (column + 1).repr

/-- Whether the numbers in the text of a span can be written. -/
def isWritable (files : Files) (s : Span) : Bool :=
  match s.source? files with
  | none => Text.isWritable s.start
  | some text =>
      let (row, column) := Source.position text s.start
      Text.isWritable row && Text.isWritable (column + 1)

/-- The line a span starts on, marked and with a caption. -/
def picture (files : Files) (s : Span) (caption : String) : String :=
  match s.source? files with
  | none => "    " ++ s.text files ++ ": " ++ caption
  | some text =>
      let (row, column) := Source.position text s.start
      Source.markedLine row (Source.line text row) column (s.stop - s.start) caption

end Span

def siteText (files : Files) : Option Span → String
  | none => "<unknown location>"
  | some site => site.text files

end TypeGuard
