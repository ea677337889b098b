import TypeGuard.Fault

/-! The issues of a run, and a console for its progress. -/

namespace TypeGuard

/-- A caption pinned to a span. -/
structure Annotation where
  site : Span
  caption : String := ""

/-- An introduction, the sites involved and closing remarks. -/
structure Issue where
  intro : String
  annotations : List Annotation := []
  footer : List String := []

namespace Issue

/-- The pictures of the sites, each file named ahead of a run of sites within it. -/
def pictures (files : Files) : (current : Option String) → List Annotation → List String
  | _, [] => []
  | current, ann :: rest =>
      let picture := ann.site.picture files ann.caption
      match ann.site.path with
      | some path =>
          if ann.site.isReadable files ∧ current ≠ some path then
            path :: picture :: pictures files (some path) rest
          else picture :: pictures files current rest
      | none => picture :: pictures files current rest

def text (files : Files) (issue : Issue) : String :=
  "\n".intercalate (issue.intro :: "" :: (pictures files none issue.annotations ++ issue.footer))

/-- The issue that a subject was rejected. -/
def ofRejection (files : Files) (subject : String) (r : Rejection) : Issue where
  intro := "No type-check generated for " ++ subject ++ "."
  annotations := match r.site with
    | some site => [⟨site, r.construct⟩]
    | none => []
  footer := [r.message files]

end Issue

/-- A limit of zero is none. The console holds what was printed, line by line. -/
structure Report where
  verbose : Bool := false
  limit : Int := 10
  issues : List Issue := []
  console : List String := []

namespace Report

def isClean (report : Report) : Bool :=
  report.issues.isEmpty

def print (line : String) (report : Report) : Report :=
  { report with console := report.console ++ [line] }

/-- Progress is shown only on demand. -/
def progress (line : String) (report : Report) : Report :=
  if report.verbose then report.print line else report

/-- The report after an issue. It is full once it holds as many issues as its limit. -/
def add (issue : Issue) (report : Report) : Report :=
  { report with issues := report.issues ++ [issue] }

/-- Adds a site to the issue at a position, if there is one. -/
def annotate (position : Nat) (ann : Annotation) (report : Report) : Report :=
  { report with issues := report.issues.modify position fun issue =>
      { issue with annotations := issue.annotations ++ [ann] } }

def isFull (report : Report) : Bool :=
  report.limit ≠ 0 && report.limit ≤ report.issues.length

def clear (report : Report) : Report :=
  { report with issues := [] }

/-- The entry of a list at a number, counted round and round. -/
def pick (luck : Int) (choices : List String) : String :=
  choices.getD (luck % choices.length).toNat ""

def exclamation (luck : Int) : String :=
  pick luck ["Oh, ", "Well, ", "Hmm. ", "", ""] ++
    pick luck ["Drat", "Rats", "Curses", "Fiddlesticks", "Good Grief", "Great Scott", "Nuts"] ++
    "! " ++
    pick luck ["Some types defy checking.", "I could not make sense of every type.",
      "Some guards could not be built.", "Not every shape has a predicate."]

/-- The lines that show every issue. -/
def issueLines (files : Files) (luck : Int) (report : Report) : List String :=
  if report.isClean then []
  else
    let count := report.issues.length
    let shown := report.issues.zipIdx 1 |>.flatMap fun (issue, n) =>
      ["  - " ++ n.repr ++ " of " ++ count.repr ++ " -" ++ String.ofList (.replicate 40 '-'),
        issue.text files]
    String.ofList (.replicate 60 '*') :: exclamation luck :: shown

def printIssues (files : Files) (luck : Int) (report : Report) : Report :=
  { report with console := report.console ++ report.issueLines files luck }

end Report

end TypeGuard
