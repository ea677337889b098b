import TypeGuard.Fault
import TypeGuard.Ty.Identity
import TypeGuard.Ty.Substitution

/-! The context of a walk: what the parameters stand for, and which references are being
expanded. -/

namespace TypeGuard

/-- The bindings of a frame, with a stamp that no other frame of the context has had. -/
structure Frame where
  stamp : Nat
  bindings : Bindings

/-- Frames and path have the innermost first. There are as many frames as the depth says, and the
keys of the references on the path are at hand for a quick look. The marked references were met
again while they were being expanded. -/
structure Context where
  frames : List Frame := []
  depth : Nat := 0
  path : List Ty := []
  onPath : List Ty := []
  marked : List Ty := []
  nextStamp : Nat := 0

namespace Context

/-- The binding of a parameter in the innermost frame counts. -/
def bindings (ctx : Context) : Bindings :=
  ctx.frames.flatMap Frame.bindings

def resolve (ctx : Context) (p : TypeParam) : Option Ty :=
  ctx.bindings.lookup p

/-- Substitutes through all frames, so that a type is told apart as the instance that it is. -/
def instantiate (ctx : Context) (t : Ty) : Ty :=
  t.substitute ctx.bindings

def push (bindings : Bindings) (ctx : Context) : Nat × Context :=
  (ctx.nextStamp, { ctx with
    frames := ⟨ctx.nextStamp, bindings⟩ :: ctx.frames
    depth := ctx.depth + 1
    nextStamp := ctx.nextStamp + 1 })

/-- Only the top frame can be popped. -/
def pop (stamp : Nat) (ctx : Context) : Except Fault Context :=
  match ctx.frames with
  | frame :: rest =>
      if ctx.depth ≠ 0 ∧ frame.stamp = stamp then
        pure { ctx with frames := rest, depth := ctx.depth - 1 }
      else throw (.broken .frameOrder)
  | [] => throw (.broken .frameOrder)

@[simp] theorem depth_push (bindings : Bindings) (ctx : Context) :
    (ctx.push bindings).2.depth = ctx.depth + 1 := rfl

/-- A frame that is popped leaves nothing behind but its stamp. -/
@[simp] theorem pop_push (bindings : Bindings) (ctx : Context) :
    (ctx.push bindings).2.pop (ctx.push bindings).1 =
      .ok { ctx with nextStamp := ctx.nextStamp + 1 } := by
  simp [push, pop, pure, Except.pure]

/-- The innermost reference. -/
def active? (ctx : Context) : Option Ty :=
  ctx.path.head?

def isActive (ctx : Context) (t : Ty) : Bool :=
  t.key ∈ ctx.onPath

def isMarked (ctx : Context) (t : Ty) : Bool :=
  ctx.marked.any (·.same t)

def enter (t : Ty) (ctx : Context) : Except Fault Context :=
  if ctx.isActive t then throw (.broken .enteredOnce)
  else pure { ctx with path := t :: ctx.path, onPath := t.key :: ctx.onPath }

/-- Only the innermost reference can be left. Its marks go with it. -/
def leave (t : Ty) (ctx : Context) : Except Fault Context :=
  match ctx.path with
  | innermost :: rest =>
      if innermost.same t then
        pure { ctx with
          path := rest
          onPath := ctx.onPath.filter (· ≠ t.key)
          marked := ctx.marked.filter fun u => !u.same t }
      else throw (.broken .leavingInnermost)
  | [] => throw (.broken .leavingInnermost)

/-- Notes that a reference was met again while it was being expanded. -/
def mark (t : Ty) (ctx : Context) : Except Fault Context :=
  if ctx.isActive t then pure { ctx with marked := t :: ctx.marked }
  else throw (.broken .markedActive)

/-- Nothing is left open. -/
def isClear (ctx : Context) : Bool :=
  ctx.depth = 0 && ctx.path.isEmpty && ctx.marked.isEmpty

end Context

end TypeGuard
