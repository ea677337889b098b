import TypeGuard.Expr.Build
import TypeGuard.Expr.Replace
import TypeGuard.Shape.OfType

/-! The parts that guards are put together from, given a way to guard the types inside of them. -/

namespace TypeGuard.Guard

/-- How to check the value that an accessor reads against a type. -/
abbrev Visit := Ty → Expr → Walk Expr

/-- The name a recursive check goes by: that of the declaration, if the type has one. -/
def labelText (t : Ty) : String :=
  match t.head with
  | .object _ decl _ => decl.qualified.map fun c => if c = '.' then '_' else c
  | _ => "mapped"

/-- Builds the check for a type against a slot of its own. Where the type is met again while the
check is being built, the check calls itself; a check that does so is a recursive condition, and in
any other the accessor takes the place of the slot. -/
def knot (t : Ty) (accessor : Expr) (build : Expr → Walk Expr) : Walk Expr := do
  let n ← Walk.numberOf t
  let label := Ident.guard (labelText t) n
  if ← Walk.isActive t then
    Walk.onContext (·.mark t)
    pure (.recur label accessor)
  else
    let slot := Ident.slot n
    let (body, recursive) ← Walk.entering t do
      let body ← build (.ident slot)
      let recursive ← Walk.isMarked t
      pure (body, recursive)
    if recursive then pure (.fix label slot body accessor)
    else .ofExcept (body.replace slot accessor)

/-- Where a property was written, or else its owner. -/
def propertySite (cat : Catalog) (p : Property) : Option Span :=
  p.site.or (cat.siteOf p.owner)

def ofProperty (cat : Catalog) (visit : Visit) (p : Property) (accessor : Expr) : Walk Expr :=
  match p.type? with
  | none => throw (.rejected ⟨.missingPropertyType, p.qualified, propertySite cat p, ""⟩)
  | some t => do
      if p.optional then Walk.note (.optionalChecked p.qualified)
      let index ← .ofExcept p.key.index
      visit t (.elem accessor index)

/-- A property for every key, of the type that the template comes to for it. -/
def ofKeys (visit : Visit) (parameter : TypeParam) (template : Ty) (keys : List String)
    (accessor : Expr) : Walk Expr := do
  let conditions ← keys.mapM fun key =>
    Walk.withFrame [(parameter, .literal (.str key))] do
      visit template (.elem accessor (.const (.str key)))
  pure (.allOf (Expr.objectTests accessor ++ conditions))

def ofMapped (cat : Catalog) (limit : Nat) (visit : Visit) (parameter : TypeParam)
    (constraint template : Ty) (params : List TypeParam) (accessor : Expr) : Walk Expr := do
  match ← Shape.ofType cat limit constraint with
  | .exact keys => ofKeys visit parameter template keys.toList accessor
  | _ => throw (.ofText (Ty.mapped parameter constraint template params).render fun text =>
      .unsupported ("mapped type " ++ text) none
        "the keys must come to a finite set of string literals")

/-- The check that the slot of a type stands for. -/
def ofParts (cat : Catalog) (limit : Nat) (visit : Visit) (t : Ty) (accessor : Expr) :
    Walk Expr := do
  let bindings ← .ofExcept (cat.bindings t)
  Walk.withFrame bindings do
    match t.head with
    | .mapped parameter constraint template params =>
        ofMapped cat limit visit parameter constraint template params accessor
    | _ => do
        let properties ← .ofExcept (cat.properties t)
        let conditions ← properties.mapM fun p => ofProperty cat visit p accessor
        pure (.allOf (Expr.objectTests accessor ++ conditions))

def ofObject (cat : Catalog) (limit : Nat) (visit : Visit) (t : Ty) (accessor : Expr) : Walk Expr :=
  knot t accessor (ofParts cat limit visit t)

def ofPrimitive (name : String) (accessor : Expr) : Except Fault Expr :=
  match name with
  | "number" => pure (.hasTypeOf accessor "number")
  | "string" => pure (.hasTypeOf accessor "string")
  | "boolean" => pure (.hasTypeOf accessor "boolean")
  | "bigint" => pure (.hasTypeOf accessor "bigint")
  | "undefined" => pure (.hasTypeOf accessor "undefined")
  | "null" => pure (.equalTo accessor .null)
  | "object" => pure (.allOf (Expr.objectTests accessor))
  | "any" => pure .always
  | "unknown" => pure .always
  | "never" => pure .never
  | _ => throw (.unsupported ("primitive " ++ name) none "")

def ofLiteral (value : Value) (accessor : Expr) : Except Fault Expr :=
  match value with
  | .scalar (.str s) => pure (.equalTo accessor (.str s))
  | .scalar (.int n) => pure (.equalTo accessor (.int n))
  | .scalar (.float x) => pure (.equalTo accessor (.float x))
  | v => throw (.malformed v)

end TypeGuard.Guard
