import TypeGuard.Catalog.Properties
import TypeGuard.Shape.Basic
import TypeGuard.Walk

/-! The strings that a type stands for, and the names that its properties have. -/

namespace TypeGuard

namespace Catalog

/-- The type of a property that an indexed access reads. -/
def propertyType (cat : Catalog) (object : Ty) (key : String) : Except Fault Ty := do
  match ← cat.property? object key with
  | none => throw (.ofText object.render fun text => .unsupported
      ("indexed access " ++ text ++ "[" ++ Text.quoted key ++ "]") none "no such property")
  | some p => match p.type? with
      | none => throw (.rejected ⟨.missingPropertyType, p.qualified, p.site, ""⟩)
      | some t => pure t

/-- The types that an indexed access stands for, one for each key in ascending order. They are
phrased in the parameters of the object. -/
def propertyTypes (cat : Catalog) (object index : Ty) : Shape → Except Fault (List Ty)
  | .exact keys => keys.toList.mapM (cat.propertyType object)
  | _ => throw (.ofText (Ty.index object index).render fun text => .unsupported
      ("indexed access " ++ text) none "the index must be string literals")

end Catalog

namespace Shape

def ofPrimitive : String → Except Fault Shape
  | "any" => pure always
  | "string" => pure always
  | "unknown" => pure never
  | "never" => pure never
  | "null" => pure never
  | "undefined" => pure never
  | "number" => pure never
  | "bigint" => pure never
  | "boolean" => pure never
  | "object" => pure never
  | name => throw (.unknownPrimitive name)

def ofLiteral : Value → Except Fault Shape
  | .scalar (.str s) => ofStrings [s]
  | .scalar (.int _) => pure never
  | .scalar (.float _) => pure never
  | v => throw (.malformed v)

/-- The names of properties, if there are any and all are strings. -/
def ofProperties (properties : List Property) : Except Fault Shape :=
  if properties.isEmpty || !properties.all (·.key.isStr) then pure never
  else ofStrings (properties.map (·.name.text))

def keyOfFault (t : Ty) : Fault :=
  .ofText (Ty.keyOf t).render fun text => .unsupported text none ""

mutual
/-- The strings that a type stands for. -/
def ofType (cat : Catalog) : (limit : Nat) → Ty → Walk Shape
  | 0, _ => throw .exhausted
  | limit + 1, t => match t with
      | .primitive s => .ofExcept (ofPrimitive s)
      | .literal v => .ofExcept (ofLiteral v)
      | .boolean _ => pure never
      | .union members => do
          let shapes ← members.mapM (ofType cat limit)
          .ofExcept (union shapes)
      | .inter members => do
          let shapes ← members.mapM (ofType cat limit)
          .ofExcept (inter shapes)
      | .object .nominal decl _ =>
          throw (.nominal ("class " ++ cat.shortName decl) (cat.siteOf decl))
      | .object .interface _ _ => pure never
      | .sequence _ _ => pure never
      | .mapped _ _ _ _ => pure never
      | .ref target args => do
          let r ← Walk.instantiate (.ref target args)
          if ← Walk.isActive r then pure never
          else Walk.entering r do
            let bindings ← .ofExcept (cat.bindings r)
            Walk.withFrame bindings (ofType cat limit r.head)
      | .param p => do
          let t ← Walk.bound p "missing type argument"
          ofType cat limit t
      | .name s args => do
          let t ← .ofExcept (cat.resolve (.name s args))
          ofType cat limit t
      | .keyOf t => ofKeys cat limit t
      | .index object key => do
          let object ← Walk.expose cat limit object
          let keys ← ofType cat limit key
          let types ← .ofExcept (cat.propertyTypes object key keys)
          let bindings ← .ofExcept (cat.bindings object)
          Walk.withFrame bindings do
            let shapes ← types.mapM (ofType cat limit)
            .ofExcept (union shapes)

/-- The names of the properties of a type. No names at all and a name that is no string both come to
`never`. -/
def ofKeys (cat : Catalog) : (limit : Nat) → Ty → Walk Shape
  | 0, _ => throw .exhausted
  | limit + 1, t => match t with
      | .object .nominal decl _ =>
          throw (.nominal ("keyof class " ++ cat.shortName decl) (cat.siteOf decl))
      | .object .interface decl elements => do
          let properties ← .ofExcept (cat.properties (.object .interface decl elements))
          .ofExcept (ofProperties properties)
      | .sequence _ _ => pure never
      | .ref target args => do
          let r ← Walk.instantiate (.ref target args)
          match r.head with
          | .mapped p constraint template params => do
              let bindings ← .ofExcept (cat.bindings r)
              Walk.withFrame bindings (ofKeys cat limit (.mapped p constraint template params))
          | target => ofKeys cat limit target
      | .mapped _ constraint _ _ => ofType cat limit constraint
      | .union members => do
          let shapes ← members.mapM (ofKeys cat limit)
          .ofExcept (commonNames shapes)
      | .inter members => do
          let shapes ← members.mapM (ofKeys cat limit)
          .ofExcept (allNames shapes)
      | .param p => do
          let t ← Walk.bound p "missing type argument"
          ofKeys cat limit t
      | .name s args => do
          let t ← .ofExcept (cat.resolve (.name s args))
          ofKeys cat limit t
      | .primitive "any" => pure never
      | .primitive "never" => pure never
      | .primitive s => throw (keyOfFault (.primitive s))
      | .literal v => throw (keyOfFault (.literal v))
      | .boolean b => throw (keyOfFault (.boolean b))
      | .keyOf t => throw (keyOfFault (.keyOf t))
      | .index object key => throw (keyOfFault (.index object key))
end

end Shape

end TypeGuard
