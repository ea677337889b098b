import TypeGuard.Catalog.Bindings
import TypeGuard.Context
import TypeGuard.Numbering

/-! Walks over types. A walk has a context, numbers the types it guards and keeps notes; what it
has done to them stays done when it stops at a fault. -/

namespace TypeGuard

/-- What a walk has to tell on its way. -/
inductive Note where
  | compiling (interface : String)
  | optionalChecked (property : String)
deriving DecidableEq

namespace Note

def text : Note → String
  | compiling interface => "Compiling interface " ++ interface
  | optionalChecked property =>
      "Optional property " ++ property ++ " is checked as if it were required."

end Note

structure Session where
  ctx : Context := {}
  numbering : Numbering := {}
  notes : List Note := []

abbrev Walk := EStateM Fault Session

namespace Walk

def ofExcept {α : Type} : Except Fault α → Walk α
  | .ok a => pure a
  | .error fault => throw fault

def context : Walk Context := do
  let s ← get
  pure s.ctx

def setContext (ctx : Context) : Walk Unit :=
  modify fun s => { s with ctx := ctx }

/-- An operation on the context, which stays as it is if the operation fails. -/
def onContext (op : Context → Except Fault Context) : Walk Unit := do
  let ctx ← context
  let ctx ← ofExcept (op ctx)
  setContext ctx

def isActive (t : Ty) : Walk Bool := do
  let ctx ← context
  pure (ctx.isActive t)

def isMarked (t : Ty) : Walk Bool := do
  let ctx ← context
  pure (ctx.isMarked t)

def instantiate (t : Ty) : Walk Ty := do
  let ctx ← context
  pure (ctx.instantiate t)

def note (n : Note) : Walk Unit :=
  modify fun s => { s with notes := s.notes ++ [n] }

def numberOf (t : Ty) : Walk Nat :=
  modifyGet fun s =>
    let (n, numbering) := s.numbering.number t
    (n, { s with numbering := numbering })

def push (bindings : Bindings) : Walk Nat :=
  modifyGet fun s =>
    let (stamp, ctx) := s.ctx.push bindings
    (stamp, { s with ctx := ctx })

/-- A walk whose fault is a result. -/
def attempt {α : Type} (walk : Walk α) : Walk (Except Fault α) := fun s =>
  match walk s with
  | .ok a s => .ok (.ok a) s
  | .error fault s => .ok (.error fault) s

/-- Walks inside a frame, which is popped on every way out. -/
def withFrame {α : Type} (bindings : Bindings) (walk : Walk α) : Walk α := do
  let stamp ← push bindings
  let result ← attempt walk
  onContext (·.pop stamp)
  ofExcept result

/-- Walks while a reference is being expanded, which is left on every way out. -/
def entering {α : Type} (t : Ty) (walk : Walk α) : Walk α := do
  onContext (·.enter t)
  let result ← attempt walk
  onContext (·.leave t)
  ofExcept result

/-- A walk as it is seen from outside, where a rejection has been described. -/
def raising {α : Type} (files : Files) (walk : Walk α) : Walk α := fun s =>
  match walk s with
  | .ok a s => .ok a s
  | .error fault s => .error (fault.raised files) s

/-- What a parameter stands for. -/
def bound (p : TypeParam) (hint : String) : Walk Ty := do
  let ctx ← context
  match ctx.resolve p with
  | some t => pure t
  | none => throw (.rejected ⟨.unboundParameter, p.name, none, hint⟩)

/-- Follows names and parameters to something with a structure of its own. -/
def expose (cat : Catalog) : (limit : Nat) → Ty → Walk Ty
  | 0, _ => throw .exhausted
  | limit + 1, .name s args => do
      let t ← ofExcept (cat.resolve (.name s args))
      expose cat limit t
  | limit + 1, .param p => do
      let t ← bound p ""
      expose cat limit t
  | _ + 1, t => instantiate t

end Walk

end TypeGuard
