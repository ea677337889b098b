import TypeGuard.Guard.Compile
import TypeGuard.Proofs.Resolve
import TypeGuard.Proofs.Walk

/-! The rules by which types are classified and guarded, without limits on the depth of the
rules. -/

namespace TypeGuard

namespace Ty

/-- Names and parameters stand for other types. -/
def isIndirect : Ty → Bool
  | name _ _ => true
  | param _ => true
  | _ => false

/-- The types that are guarded by the properties they have. -/
def isKnot : Ty → Bool
  | object .interface _ _ => true
  | ref (object .interface _ _) _ => true
  | ref (mapped _ _ _ _) _ => true
  | _ => false

/-- The instance that is guarded: the parameters of a reference are replaced. -/
def knot (env : Bindings) : Ty → Ty
  | ref target args => (ref target args).substitute env
  | t => t

/-- Only references and objects with element types beside their declaration have parameters. -/
theorem knot_eq_substitute {t : Ty} (hknot : t.isKnot = true) (hbare : t.Bare) (env : Bindings) :
    t.knot env = t.substitute env := by
  cases t with
  | ref target args => rfl
  | object kind decl elements =>
      cases hbare kind decl elements rfl
      rfl
  | _ => cases hknot

@[simp] theorem knot_nil (t : Ty) : t.knot [] = t := by
  cases t with
  | ref target args => exact substitute_nil _
  | _ => rfl

theorem head_knot (env : Bindings) (t : Ty) : (t.knot env).head = t.head := by
  cases t <;> rfl

end Ty

/-- What a name or a parameter stands for. -/
inductive Follows (cat : Catalog) (env : Bindings) : Ty → Ty → Prop
  | name {s : String} {args : List Ty} {t : Ty} :
      cat.resolve (.name s args) = .ok t → Follows cat env (.name s args) t
  | param {x : TypeParam} {t : Ty} : env.lookup x = some t → Follows cat env (.param x) t

/-- What names and parameters come to in the end, with its own parameters replaced. -/
inductive Exposes (cat : Catalog) (env : Bindings) : Ty → Ty → Prop
  | here {t : Ty} : t.isIndirect = false → Exposes cat env t (t.substitute env)
  | follow {t t' u : Ty} : Follows cat env t t' → Exposes cat env t' u → Exposes cat env t u

theorem Follows.unique {cat : Catalog} {env : Bindings} {t u u' : Ty}
    (h : Follows cat env t u) (h' : Follows cat env t u') : u = u' := by
  cases h with
  | name hresolve =>
      cases h' with
      | name hresolve' => exact Except.ok.inj (hresolve.symm.trans hresolve')
  | param hbound =>
      cases h' with
      | param hbound' => exact Option.some.inj (hbound.symm.trans hbound')

theorem Follows.isIndirect {cat : Catalog} {env : Bindings} {t u : Ty}
    (h : Follows cat env t u) : t.isIndirect = true := by
  cases h <;> rfl

theorem Exposes.unique {cat : Catalog} {env : Bindings} {t u u' : Ty}
    (h : Exposes cat env t u) (h' : Exposes cat env t u') : u = u' := by
  induction h with
  | here hdirect =>
      cases h' with
      | here => rfl
      | follow hfollow _ =>
          rw [hfollow.isIndirect] at hdirect
          cases hdirect
  | follow hfollow _ ih =>
      cases h' with
      | here hdirect =>
          rw [hfollow.isIndirect] at hdirect
          cases hdirect
      | follow hfollow' hexposes' =>
          cases hfollow.unique hfollow'
          exact ih hexposes'

theorem Catalog.Persists.follows {cat : Catalog} {P : Ty → Prop} (hP : cat.Persists P)
    {env : Bindings}
    {t u : Ty} (henv : ∀ binding ∈ env, binding.2.Every P) (ht : t.Every P)
    (h : Follows cat env t u) :
    u.Every P := by
  cases h with
  | name hresolve => exact hP.resolve (Ty.insideList_iff.1 ht.2) hresolve
  | param hbound => exact henv _ (Bindings.mem_of_lookup hbound)

theorem Catalog.Persists.exposes {cat : Catalog} {P : Ty → Prop} (hP : cat.Persists P)
    {env : Bindings}
    {t u : Ty} (henv : ∀ binding ∈ env, binding.2.Every P) (ht : t.Every P)
    (h : Exposes cat env t u) :
    u.Every P := by
  induction h with
  | here => exact hP.stable.substitute henv ht
  | follow hfollow _ ih => exact ih (hP.follows henv ht hfollow)

theorem Ty.Stable.knot {P : Ty → Prop} (hP : Ty.Stable P) {env : Bindings} {t : Ty}
    (henv : ∀ binding ∈ env, binding.2.Every P) (ht : t.Every P) : (t.knot env).Every P := by
  cases t with
  | ref target args => exact hP.substitute henv ht
  | _ => exact ht

/-- What is asked about a type: the strings it stands for, or the names of its properties. -/
inductive Query where
  | strings
  | names

namespace Query

def union : Query → List Shape → Except Fault Shape
  | strings => Shape.union
  | names => Shape.commonNames

def inter : Query → List Shape → Except Fault Shape
  | strings => Shape.inter
  | names => Shape.allNames

/-- The answer for a type whose parts do not matter to it. -/
def leaf (cat : Catalog) : Query → Ty → Except Fault Shape
  | strings, .primitive s => Shape.ofPrimitive s
  | strings, .literal v => Shape.ofLiteral v
  | strings, .boolean _ => pure .never
  | strings, .object .interface _ _ => pure .never
  | strings, .sequence _ _ => pure .never
  | strings, .mapped _ _ _ _ => pure .never
  | names, .object .interface decl elements => do
      let properties ← cat.properties (.object .interface decl elements)
      Shape.ofProperties properties
  | names, .sequence _ _ => pure .never
  | names, .primitive s =>
      if s = "any" ∨ s = "never" then pure .never else throw (Shape.keyOfFault (.primitive s))
  | _, _ => throw .exhausted

end Query

/-- The rules for the strings that a type stands for and for the names of its properties. -/
inductive Classifies (cat : Catalog) :
    Query → Bindings → List Ty → Ty → Shape → Prop
  | leaf {q : Query} {env : Bindings} {path : List Ty} {t : Ty} {shape : Shape}
      (hleaf : q.leaf cat t = .ok shape) : Classifies cat q env path t shape
  | follow {q : Query} {env : Bindings} {path : List Ty} {t t' : Ty} {shape : Shape}
      (hfollow : Follows cat env t t') (hshape : Classifies cat q env path t' shape) :
      Classifies cat q env path t shape
  | union {q : Query} {env : Bindings} {path : List Ty} {members : List Ty} {shapes : List Shape}
      {shape : Shape} (hlength : members.length = shapes.length)
      (hmembers : ∀ t s, (t, s) ∈ members.zip shapes → Classifies cat q env path t s)
      (hunion : q.union shapes = .ok shape) :
      Classifies cat q env path (.union members) shape
  | inter {q : Query} {env : Bindings} {path : List Ty} {members : List Ty} {shapes : List Shape}
      {shape : Shape} (hlength : members.length = shapes.length)
      (hmembers : ∀ t s, (t, s) ∈ members.zip shapes → Classifies cat q env path t s)
      (hinter : q.inter shapes = .ok shape) :
      Classifies cat q env path (.inter members) shape
  /-- A reference inside itself is no string. -/
  | again {env : Bindings} {path : List Ty} {target : Ty} {args : List Ty}
      (hon : ((Ty.ref target args).substitute env).IsOn path) :
      Classifies cat .strings env path (.ref target args) .never
  | ref {env bindings : Bindings} {path : List Ty} {target : Ty} {args : List Ty} {shape : Shape}
      (hoff : ¬((Ty.ref target args).substitute env).IsOn path)
      (hbindings : cat.bindings ((Ty.ref target args).substitute env) = .ok bindings)
      (hshape : Classifies cat .strings (bindings ++ env)
        ((Ty.ref target args).substitute env :: path) target shape) :
      Classifies cat .strings env path (.ref target args) shape
  | refMapped {env bindings : Bindings} {path : List Ty} {target : Ty} {args : List Ty}
      {shape : Shape} (hmapped : target.isMapped = true)
      (hbindings : cat.bindings ((Ty.ref target args).substitute env) = .ok bindings)
      (hshape : Classifies cat .names (bindings ++ env) path target shape) :
      Classifies cat .names env path (.ref target args) shape
  | refTarget {env : Bindings} {path : List Ty} {target : Ty} {args : List Ty} {shape : Shape}
      (hmapped : target.isMapped = false)
      (hshape : Classifies cat .names env path target shape) :
      Classifies cat .names env path (.ref target args) shape
  | mapped {env : Bindings} {path : List Ty} {x : TypeParam} {constraint template : Ty}
      {params : List TypeParam} {shape : Shape}
      (hshape : Classifies cat .strings env path constraint shape) :
      Classifies cat .names env path (.mapped x constraint template params) shape
  | keyOf {env : Bindings} {path : List Ty} {t : Ty} {shape : Shape}
      (hshape : Classifies cat .names env path t shape) :
      Classifies cat .strings env path (.keyOf t) shape
  | index {env bindings : Bindings} {path : List Ty} {object key o : Ty} {keys : StringSet}
      {types : List Ty} {shapes : List Shape} {shape : Shape}
      (hobject : Exposes cat env object o)
      (hkeys : Classifies cat .strings env path key (.exact keys))
      (htypes : keys.toList.mapM (cat.propertyType o) = .ok types)
      (hbindings : cat.bindings o = .ok bindings) (hlength : types.length = shapes.length)
      (hshapes : ∀ t s, (t, s) ∈ types.zip shapes →
        Classifies cat .strings (bindings ++ env) path t s)
      (hunion : Shape.union shapes = .ok shape) :
      Classifies cat .strings env path (.index object key) shape

/-- A type to be checked where the accessor reads, with what its parameters stand for. Either the
properties it has are checked, or its declaration as it is written. -/
structure Task where
  declared : Bool
  env : Bindings
  type : Ty
  accessor : Expr

/-- A task without the value it belongs to: for a part of it, or for the value itself. -/
structure Part where
  declared : Bool
  env : Bindings
  type : Ty
  index? : Option Expr

namespace Part

def accessor (part : Part) (whole : Expr) : Expr :=
  match part.index? with
  | none => whole
  | some index => .elem whole index

def task (whole : Expr) (part : Part) : Task :=
  ⟨part.declared, part.env, part.type, part.accessor whole⟩

/-- A part for every key, where the parameter stands for the key. -/
def ofKeys (env : Bindings) (x : TypeParam) (template : Ty) (keys : List String) : List Part :=
  keys.map fun key =>
    ⟨false, (x, .literal (.str key)) :: env, template, some (.const (.str key))⟩

/-- The part that a property stands for. -/
def OfProperty (env : Bindings) (p : Property) (part : Part) : Prop :=
  ∃ t index, p.type? = some t ∧ p.key.index = .ok index ∧ part = ⟨false, env, t, some index⟩

end Part

/-- The parts that a guarded type has: its properties, a property for every key, or what its
declaration lists. -/
inductive Parts (cat : Catalog) (env : Bindings) (path : List Ty) :
    Bool → Ty → List Part → Prop
  | properties {t : Ty} {bindings : Bindings} {properties : List Property} {parts : List Part}
      (hmapped : t.head.isMapped = false) (hbindings : cat.bindings t = .ok bindings)
      (hproperties : cat.properties t = .ok properties)
      (hparts : List.Forall₂ (Part.OfProperty (bindings ++ env)) properties parts) :
      Parts cat env path false t parts
  | keys {t : Ty} {bindings : Bindings} {x : TypeParam} {constraint template : Ty}
      {params : List TypeParam} {keys : StringSet} (hbindings : cat.bindings t = .ok bindings)
      (hhead : t.head = .mapped x constraint template params)
      (hkeys : Classifies cat .strings (bindings ++ env) (t :: path) constraint (.exact keys)) :
      Parts cat env path false t (Part.ofKeys (bindings ++ env) x template keys.toList)
  | declared {t : Ty} {decl : DeclId} {elements : List Ty} {d : Declaration}
      {heritage : List Heritage} {members : List Property} {bases : List Ty} {parts : List Part}
      (hhead : t.head = .object .interface decl elements) (hfind : cat.declared? decl = some d)
      (hbody : d.body = .interface heritage members) (hbases : cat.basesOf d = .ok bases)
      (hparts : List.Forall₂
        (Part.OfProperty (Bindings.ofPairs (d.params.zip t.args) ++ env)) members parts) :
      Parts cat env path true t
        (bases.map (fun base => ⟨true, Bindings.ofPairs (d.params.zip t.args) ++ env,
          base.substitute (Bindings.ofPairs (d.params.zip t.args) ++ env), none⟩) ++ parts)

theorem Parts.flat {cat : Catalog} {env : Bindings} {path : List Ty} {t : Ty}
    {parts : List Part} (h : Parts cat env path false t parts) (whole : Expr) :
    ∀ task ∈ parts.map (Part.task whole), task.declared = false := by
  cases h with
  | properties _ _ _ hparts =>
      intro task htask
      obtain ⟨part, hpart, rfl⟩ := List.mem_map.1 htask
      obtain ⟨property, _, hof⟩ := exists_of_forall₂_right hparts hpart
      obtain ⟨t, index, _, _, rfl⟩ := hof
      rfl
  | keys => simp [Part.ofKeys, Part.task]

/-- The instance that a task is about, which is numbered and put on the path. -/
inductive Knots : Task → Ty → Prop
  | flat {env : Bindings} {t : Ty} {accessor : Expr} :
      t.isKnot = true → Knots ⟨false, env, t, accessor⟩ (t.knot env)
  | declared {env : Bindings} {t : Ty} {accessor : Expr} {decl : DeclId} {elements : List Ty} :
      t.head = .object .interface decl elements → Knots ⟨true, env, t, accessor⟩ t

/-- What a type without parts asks of a value. -/
inductive Test where
  | always
  | never
  | object
  | typeOf (name : String)
  | equals (value : Scalar)

namespace Test

def expr (accessor : Expr) : Test → Expr
  | always => .always
  | never => .never
  | object => .allOf (Expr.objectTests accessor)
  | typeOf name => .hasTypeOf accessor name
  | equals value => .equalTo accessor value

def ofPrimitive? : String → Option Test
  | "number" => some (typeOf "number")
  | "string" => some (typeOf "string")
  | "boolean" => some (typeOf "boolean")
  | "bigint" => some (typeOf "bigint")
  | "undefined" => some (typeOf "undefined")
  | "null" => some (equals .null)
  | "object" => some object
  | "any" => some always
  | "unknown" => some always
  | "never" => some never
  | _ => none

def ofLiteral? : Value → Option Test
  | .scalar (.str s) => some (equals (.str s))
  | .scalar (.int n) => some (equals (.int n))
  | .scalar (.float x) => some (equals (.float x))
  | _ => none

def ofType? : Ty → Option Test
  | .primitive s => ofPrimitive? s
  | .literal v => ofLiteral? v
  | .boolean b => some (equals (.bool b))
  | _ => none

theorem ofPrimitive_eq_ok {s : String} {accessor e : Expr} :
    Guard.ofPrimitive s accessor = .ok e ↔
      ∃ test, ofPrimitive? s = some test ∧ e = test.expr accessor := by
  unfold Guard.ofPrimitive ofPrimitive?
  split <;> simp [pure, Except.pure, throw, throwThe, MonadExceptOf.throw, expr, eq_comm]

theorem ofLiteral_eq_ok {v : Value} {accessor e : Expr} :
    Guard.ofLiteral v accessor = .ok e ↔
      ∃ test, ofLiteral? v = some test ∧ e = test.expr accessor := by
  unfold Guard.ofLiteral ofLiteral?
  split <;> simp [pure, Except.pure, throw, throwThe, MonadExceptOf.throw, expr, eq_comm]

end Test

namespace Guard

def label (t : Ty) (n : Nat) : Ident :=
  .guard (labelText t) n

/-- The check of an object, given those of its parts. -/
def whole (accessor : Expr) (conditions : List Expr) : Expr :=
  .allOf (Expr.objectTests accessor ++ conditions)

/-- A check that calls itself is a recursive condition; any other is put where it is used. -/
def tie (recursive : Bool) (label slot : Ident) (body accessor : Expr) : Except Fault Expr :=
  if recursive then pure (.fix label slot body accessor) else body.replace slot accessor

end Guard

/-- The rules for the checks of a list of tasks, made one after the other. -/
inductive Compiles (cat : Catalog) :
    List Ty → List Task → Progress → List Expr → Progress → Prop
  | nil {path : List Ty} {p : Progress} : Compiles cat path [] p [] p
  | cons {path : List Ty} {task : Task} {rest : List Task} {p p' p'' : Progress} {e : Expr}
      {es : List Expr} (hfirst : Compiles cat path [task] p [e] p')
      (hrest : Compiles cat path rest p' es p'') :
      Compiles cat path (task :: rest) p (e :: es) p''
  | test {path : List Ty} {env : Bindings} {t : Ty} {accessor : Expr} {test : Test} {p : Progress}
      (htest : Test.ofType? t = some test) :
      Compiles cat path [⟨false, env, t, accessor⟩] p [test.expr accessor] p
  | follow {path : List Ty} {env : Bindings} {t t' : Ty} {accessor e : Expr} {p p' : Progress}
      (hfollow : Follows cat env t t')
      (hcheck : Compiles cat path [⟨false, env, t', accessor⟩] p [e] p') :
      Compiles cat path [⟨false, env, t, accessor⟩] p [e] p'
  | target {path : List Ty} {env : Bindings} {target : Ty} {args : List Ty} {accessor e : Expr}
      {p p' : Progress} (hodd : Catalog.isApplicable target = false)
      (hcheck : Compiles cat path [⟨false, env, target, accessor⟩] p [e] p') :
      Compiles cat path [⟨false, env, .ref target args, accessor⟩] p [e] p'
  | union {path : List Ty} {env : Bindings} {members : List Ty} {accessor : Expr} {es : List Expr}
      {p p' : Progress}
      (hmembers : Compiles cat path (members.map (⟨false, env, ·, accessor⟩)) p es p') :
      Compiles cat path [⟨false, env, .union members, accessor⟩] p [.anyOf es] p'
  | inter {path : List Ty} {env : Bindings} {members : List Ty} {accessor : Expr} {es : List Expr}
      {p p' : Progress}
      (hmembers : Compiles cat path (members.map (⟨false, env, ·, accessor⟩)) p es p') :
      Compiles cat path [⟨false, env, .inter members, accessor⟩] p [.allOf es] p'
  | again {path : List Ty} {env : Bindings} {t : Ty} {accessor : Expr} {p : Progress}
      (hknot : t.isKnot = true) (hon : (t.knot env).IsOn path) :
      Compiles cat path [⟨false, env, t, accessor⟩] p
        [.recur (Guard.label (t.knot env) (p.number (t.knot env)).1) accessor]
        ((p.number (t.knot env)).2.mark (t.knot env))
  | knot {path : List Ty} {task : Task} {t : Ty} {parts : List Part} {p p' : Progress}
      {es : List Expr} {e : Expr} (hknot : Knots task t) (hoff : ¬t.IsOn path)
      (hparts : Parts cat task.env path task.declared t parts)
      (hchecks : Compiles cat (t :: path)
        (parts.map (Part.task (.ident (.slot (p.number t).1)))) (p.number t).2 es p')
      (htie : Guard.tie (p'.isMarked t) (Guard.label t (p.number t).1) (.slot (p.number t).1)
        (Guard.whole (.ident (.slot (p.number t).1)) es) task.accessor = .ok e) :
      Compiles cat path [task] p [e] (p'.leave t)
  | mapped {path : List Ty} {env : Bindings} {x : TypeParam} {constraint template : Ty}
      {params : List TypeParam} {accessor : Expr} {keys : StringSet} {es : List Expr}
      {p p' : Progress}
      (hkeys : Classifies cat .strings env path constraint (.exact keys))
      (hchecks : Compiles cat path
        ((Part.ofKeys env x template keys.toList).map (Part.task accessor)) p es p') :
      Compiles cat path [⟨false, env, .mapped x constraint template params, accessor⟩] p
        [Guard.whole accessor es] p'
  | index {path : List Ty} {env bindings : Bindings} {object key o : Ty} {accessor : Expr}
      {keys : StringSet} {types : List Ty} {es : List Expr} {p p' : Progress}
      (hobject : Exposes cat env object o)
      (hkeys : Classifies cat .strings env path key (.exact keys))
      (htypes : keys.toList.mapM (cat.propertyType o) = .ok types)
      (hbindings : cat.bindings o = .ok bindings)
      (hchecks : Compiles cat path
        (types.map fun t => ⟨false, bindings ++ env, t, accessor⟩) p es p') :
      Compiles cat path [⟨false, env, .index object key, accessor⟩] p [.anyOf es] p'
  | keyOf {path : List Ty} {env : Bindings} {t : Ty} {accessor : Expr} {keys : StringSet}
      {p : Progress} (hkeys : Classifies cat .strings env path (.keyOf t) (.exact keys)) :
      Compiles cat path [⟨false, env, .keyOf t, accessor⟩] p
        [.anyOf (keys.toList.map fun key => .equalTo accessor (.str key))] p

theorem Compiles.append {cat : Catalog} {path : List Ty} {tasks tasks' : List Task}
    {p p' p'' : Progress} {es es' : List Expr} (h : Compiles cat path tasks p es p')
    (h' : Compiles cat path tasks' p' es' p'') :
    Compiles cat path (tasks ++ tasks') p (es ++ es') p'' := by
  induction h generalizing es' p'' with
  | nil => exact h'
  | cons hfirst _ _ ih => exact .cons hfirst (ih h')
  | test htest => exact .cons (.test htest) h'
  | follow hfollow hcheck _ => exact .cons (.follow hfollow hcheck) h'
  | target hodd hcheck _ => exact .cons (.target hodd hcheck) h'
  | union hmembers _ => exact .cons (.union hmembers) h'
  | inter hmembers _ => exact .cons (.inter hmembers) h'
  | again hknot hon => exact .cons (.again hknot hon) h'
  | knot hknot hoff hparts hchecks htie _ => exact .cons (.knot hknot hoff hparts hchecks htie) h'
  | mapped hkeys hchecks _ => exact .cons (.mapped hkeys hchecks) h'
  | index hobject hkeys htypes hbindings hchecks _ =>
      exact .cons (.index hobject hkeys htypes hbindings hchecks) h'
  | keyOf hkeys => exact .cons (.keyOf hkeys) h'

end TypeGuard
