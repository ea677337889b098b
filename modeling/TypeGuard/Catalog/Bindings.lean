import TypeGuard.Catalog.Basic
import TypeGuard.Ty.Identity

/-! What the parameters stand for inside a type: those of the type itself and those of its
ancestors. Inherited arguments are phrased in the parameters of the heir, so a look-up may have to
follow a chain of bindings. -/

namespace TypeGuard.Catalog

/-- The bases met breadth first from a queue, each target once. -/
def ancestorsFrom (cat : Catalog) :
    (limit : Nat) → (queue : List Ty) → (seen : List Ty) → Except Fault (List Ty)
  | _, [], _ => pure []
  | 0, _ :: _, _ => throw .exhausted
  | limit + 1, base :: queue, seen =>
      if base.head.key ∈ seen then cat.ancestorsFrom limit queue seen
      else do
        let more ← cat.bases base.head
        let rest ← cat.ancestorsFrom limit (queue ++ more) (base.head.key :: seen)
        pure (base :: rest)

/-- Every object that is met, but for the first, is met through a clause of its own; each brings no
more clauses than there are. -/
def ancestors (cat : Catalog) (t : Ty) : Except Fault (List Ty) := do
  let bases ← cat.bases t
  cat.ancestorsFrom ((cat.clauses.length + 1) * cat.clauses.length + 1) bases [t.key]

/-- The arguments of a reference, by the parameters of its target. -/
def ownBindings (cat : Catalog) (t : Ty) : Bindings :=
  .ofPairs ((cat.paramsOf t.head).zip t.args)

/-- The arguments of the type itself, then those its ancestors receive, nearest first. The first
binding of a parameter counts. -/
def bindings (cat : Catalog) (t : Ty) : Except Fault Bindings :=
  match t.head with
  | .object .interface decl elements => do
      let bases ← cat.ancestors (.object .interface decl elements)
      let inherited := bases.flatMap fun base => (cat.paramsOf base.head).zip base.args
      pure (inherited.foldl (fun bindings pair => bindings.bindNew pair.1 pair.2)
        (cat.ownBindings t))
  | _ => pure (cat.ownBindings t)

end TypeGuard.Catalog
