import TypeGuard.Guard.Parts

/-! From types and declarations to guards. A type is checked by the properties it has, inherited
ones included; a declaration is checked the way it is written, its own members and each heritage
clause in full. -/

namespace TypeGuard.Guard

/-- The check of a type. -/
def ofType (cat : Catalog) : (limit : Nat) → Ty → Expr → Walk Expr
  | 0, _, _ => throw .exhausted
  | limit + 1, t, accessor => match t with
      | .primitive s => .ofExcept (ofPrimitive s accessor)
      | .literal v => .ofExcept (ofLiteral v accessor)
      | .boolean b => pure (.equalTo accessor (.bool b))
      | .union members => do
          let conditions ← members.mapM fun t => ofType cat limit t accessor
          pure (.anyOf conditions)
      | .inter members => do
          let conditions ← members.mapM fun t => ofType cat limit t accessor
          pure (.allOf conditions)
      | .name s args => do
          let t ← .ofExcept (cat.resolve (.name s args))
          ofType cat limit t accessor
      | .param p => do
          let t ← Walk.bound p "missing type argument"
          ofType cat limit t accessor
      | .object .interface decl elements =>
          ofObject cat limit (ofType cat limit) (.object .interface decl elements) accessor
      | .object .nominal decl _ =>
          throw (.nominal ("class " ++ decl.qualified) (cat.siteOf decl))
      | .sequence kind elements =>
          throw (.ofText (Ty.sequence kind elements).render fun text =>
            .unsupported (kind.text ++ " type " ++ text) none "")
      | .ref target args => do
          let r ← Walk.instantiate (.ref target args)
          match r.head with
          | .object .interface _ _ => ofObject cat limit (ofType cat limit) r accessor
          | .mapped _ _ _ _ => ofObject cat limit (ofType cat limit) r accessor
          | target => ofType cat limit target accessor
      | .mapped parameter constraint template params =>
          ofMapped cat limit (ofType cat limit) parameter constraint template params accessor
      | .index object key => do
          let object ← .expose cat limit object
          let keys ← Shape.ofType cat limit key
          let types ← .ofExcept (cat.propertyTypes object key keys)
          let bindings ← .ofExcept (cat.bindings object)
          Walk.withFrame bindings do
            let conditions ← types.mapM fun t => ofType cat limit t accessor
            pure (.anyOf conditions)
      | .keyOf operand => do
          match ← Shape.ofType cat limit (.keyOf operand) with
          | .exact keys => pure (.anyOf (keys.toList.map fun key => .equalTo accessor (.str key)))
          | _ => throw (.ofText (Ty.keyOf operand).render fun text =>
              .unsupported text none "keyof with no finite set of string keys")

def heritageFault (heir : Declaration) (base : Ty) (hint : String) : Fault :=
  .ofText base.render fun text => .unsupported ("heritage " ++ text) heir.site hint

/-- One heritage clause of a declaration, given a way to check the declaration it names. -/
def ofBase (cat : Catalog) (declared : Declaration → Expr → Walk Expr) (heir : Declaration)
    (base : Ty) (accessor : Expr) : Walk Expr := do
  match base.head with
  | .object .interface decl _ =>
      if ← Walk.isActive base then
        throw (heritageFault heir base "An interface cannot extend itself")
      else match cat.declared? decl with
        | some d =>
            Walk.withFrame (.ofPairs (d.params.zip base.args)) (knot base accessor (declared d))
        | none => throw .unfit
  | _ => throw (heritageFault heir base "Expected heritage to name an interface")

/-- The check of a declaration as it is written. -/
def ofDeclaration (cat : Catalog) : (limit : Nat) → Declaration → Expr → Walk Expr
  | 0, _, _ => throw .exhausted
  | limit + 1, d, accessor => match d.body with
      | .interface _ members => do
          Walk.note (.compiling d.qualified)
          let bases ← .ofExcept (cat.basesOf d)
          let inherited ← bases.mapM fun base => do
            let base ← Walk.instantiate base
            ofBase cat (ofDeclaration cat limit) d base accessor
          let own ← members.mapM fun p => ofProperty cat (ofType cat limit) p accessor
          pure (.allOf (Expr.objectTests accessor ++ inherited ++ own))
      | .nominal _ _ => throw (.nominal ("class " ++ d.qualified) d.site)
      | .alias (some t) => ofType cat limit t accessor
      | .alias none => throw .unfit
      | .property p => ofProperty cat (ofType cat limit) p accessor
      | .bare => throw .unfit

def arityFault (name : String) (site : Option Span) (given needed : Nat) : Fault :=
  .unsupported ("instantiation of " ++ name) site
    (given.repr ++ " type-arguments were given; " ++ needed.repr ++ " are needed")

/-- The check of a declaration with arguments for its parameters. No arguments at all are allowed:
members that need them will say so. -/
def ofInstance (cat : Catalog) (limit : Nat) (d : Declaration) (args : List Ty) (accessor : Expr) :
    Walk Expr := do
  unless args.isEmpty || args.length = d.arity do
    throw (arityFault d.qualified d.site args.length d.arity)
  match d.body with
  | .nominal _ _ => throw (.nominal ("class " ++ d.qualified) d.site)
  | _ => do
      let target := Ty.object .interface d.id []
      let t ← if args.isEmpty then pure target else Walk.instantiate (.ref target args)
      Walk.withFrame (.ofPairs (d.params.zip args))
        (knot t accessor (ofDeclaration cat limit d))

end TypeGuard.Guard

namespace TypeGuard

/-- What a guard can be asked for. -/
inductive Subject where
  | decl (d : Declaration)
  | member (p : Property)
  | type (t : Ty)

namespace Subject

def name : Subject → Except Fault String
  | decl d => pure d.qualified
  | member p => pure p.qualified
  | type t => t.render

/-- The check of a subject. -/
def walk (cat : Catalog) (limit : Nat) (accessor : Expr) : Subject → Walk Expr
  | decl d => match d.body with
      | .interface _ _ => Guard.ofInstance cat limit d [] accessor
      | .nominal _ _ => Guard.ofInstance cat limit d [] accessor
      | _ => Guard.ofDeclaration cat limit d accessor
  | member p => Guard.ofProperty cat (Guard.ofType cat limit) p accessor
  | type t => Guard.ofType cat limit t accessor

/-- The check of a subject with type arguments. Properties take none, and types cannot be asked. -/
def walkWith (cat : Catalog) (limit : Nat) (accessor : Expr) (args : List Ty)
    (subject : Subject) : Walk Expr :=
  if args.isEmpty then subject.walk cat limit accessor
  else match subject with
    | decl d => Guard.ofInstance cat limit d args accessor
    | member p => throw (Guard.arityFault p.qualified p.site args.length 0)
    | type _ => throw .unfit

end Subject

end TypeGuard
