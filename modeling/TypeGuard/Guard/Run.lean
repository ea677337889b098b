import TypeGuard.Guard.Verdict
import TypeGuard.Report

/-! A run over many subjects. Each is compiled on its own; the policy says what becomes of those
that are rejected. -/

namespace TypeGuard

inductive Policy where
  /-- Drops a rejected subject quietly. -/
  | skip
  /-- Records an issue and goes on. -/
  | warn
  /-- Stops the run. -/
  | abort
deriving DecidableEq

namespace Policy

def ofName : String → Except Fault Policy
  | "skip" => pure skip
  | "warn" => pure warn
  | "abort" => pure abort
  | _ => throw (.broken .knownPolicy)

end Policy

/-- Why a run stops before its end. -/
inductive Stop where
  | fault (f : Fault)
  | tooManyIssues

/-- What a run asks of a host, as far as the host can tell: how a subject is called, and the
verdict on it. The host may keep a state from one subject to the next. -/
structure Host (σ : Type) where
  name : Subject → Except Fault String
  compile : Subject → σ → Outcome σ

/-- A catalog keeps the numbers of the types that it has met. -/
def Catalog.host (cat : Catalog) (limit : Nat) (accessor : Expr) : Host Numbering where
  name := Subject.name
  compile subject numbering := subject.compile cat limit accessor [] numbering

/-- What a run passes on from subject to subject. -/
structure RunState (σ : Type) where
  report : Report := {}
  state : σ

abbrev Run (σ : Type) := EStateM Stop (RunState σ)

namespace Run

variable {σ : Type}

def info (line : String) : Run σ Unit :=
  modify fun run => { run with report := run.report.progress line }

/-- A text that cannot be written stops the run. -/
def nameOf (host : Host σ) (subject : Subject) : Run σ String :=
  match host.name subject with
  | .ok name => pure name
  | .error fault => throw (.fault fault)

/-- Compiles one subject and shows the notes of the walk. -/
def judge (host : Host σ) (subject : Subject) : Run σ Verdict := do
  let run ← get
  let outcome := host.compile subject run.state
  set { run with state := outcome.state }
  outcome.notes.forM fun note => info note.text
  match outcome.verdict with
  | .ok verdict => pure verdict
  | .error fault => throw (.fault fault)

/-- The issue is recorded before the report is found to be full. -/
def issue (it : Issue) : Run σ Unit := do
  modify fun run => { run with report := run.report.add it }
  let run ← get
  if run.report.isFull then throw .tooManyIssues

def step (host : Host σ) (files : Files) (policy : Policy) (subject : Subject) :
    Run σ (Option (Subject × Expr)) := do
  let name ← nameOf host subject
  info ("Type-check for " ++ name)
  match ← judge host subject with
  | .compiled guard => pure (some (subject, guard))
  | .rejected r => match policy with
      | .skip => pure none
      | .warn => do
          issue (.ofRejection files name r)
          pure none
      | .abort => throw (.fault (.rejected r))

/-- The guards of the subjects that have one, in their order. -/
def compileAll (host : Host σ) (files : Files) (policy : Policy) (subjects : List Subject) :
    Run σ (List (Subject × Expr)) := do
  let results ← subjects.mapM (step host files policy)
  pure (results.filterMap id)

end Run

end TypeGuard
