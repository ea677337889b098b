import TypeGuard.Guard.Compile

/-! One subject, one fresh context, one verdict. -/

namespace TypeGuard

inductive Verdict where
  | compiled (guard : Expr)
  | rejected (r : Rejection)

/-- A verdict, or a fault that is none, with what it leaves behind. -/
structure Outcome (σ : Type) where
  verdict : Except Fault Verdict
  state : σ
  notes : List Note

namespace Subject

/-- Every walk ends with a context in which nothing is left open. -/
def judge (s : Session) (verdict : Except Fault Verdict) : Outcome Numbering where
  verdict := if s.ctx.isClear then verdict else throw (.broken .cleared)
  state := s.numbering
  notes := s.notes

def compile (cat : Catalog) (limit : Nat) (accessor : Expr) (args : List Ty)
    (numbering : Numbering) (subject : Subject) : Outcome Numbering :=
  match (subject.walkWith cat limit accessor args).raising cat.files { numbering := numbering } with
  | .ok guard s => judge s (pure (.compiled guard))
  | .error (.rejected r) s => judge s (pure (.rejected r))
  | .error fault s => ⟨throw fault, s.numbering, s.notes⟩

end Subject

end TypeGuard
