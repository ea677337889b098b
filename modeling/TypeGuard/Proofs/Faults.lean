import TypeGuard.Guard.Compile
import TypeGuard.Proofs.Resolve

/-! Which faults the parts of a walk that have no context can stop at. -/

namespace TypeGuard

namespace Fault

/-- The faults of an input, in which neither a context nor a limit has a part. -/
def isLocal : Fault → Bool
  | rejected _ => true
  | unknownPrimitive _ => true
  | overlong => true
  | unfit => true
  | broken .nonemptySet => true
  | broken .scalarConstant => true
  | broken .aliasBody => true
  | broken .applicableTarget => true
  | broken .referenceArity => true
  | _ => false

/-- The faults of a limit or of an input. -/
def isBounded : Fault → Bool
  | exhausted => true
  | fault => fault.isLocal

theorem isBounded_of_isLocal {fault : Fault} (h : fault.isLocal = true) :
    fault.isBounded = true := by
  cases fault with
  | exhausted => rfl
  | _ => exact h

end Fault

/-- The computation stops at no other faults than these. -/
def Stops {α : Type} (F : Fault → Prop) (x : Except Fault α) : Prop :=
  ∀ fault, x = .error fault → F fault

namespace Stops

variable {α β : Type} {F G : Fault → Prop}

theorem pure (a : α) : Stops F (Pure.pure a) := by
  intro fault h
  cases h

theorem throw {fault : Fault} (h : F fault) :
    Stops F (MonadExcept.throw fault : Except Fault α) := by
  intro fault' h'
  cases h'
  exact h

theorem mono {x : Except Fault α} (h : Stops F x) (himp : ∀ fault, F fault → G fault) : Stops G x :=
  fun fault hfault => himp fault (h fault hfault)

theorem bind {x : Except Fault α} {f : α → Except Fault β} (hx : Stops F x)
    (hf : ∀ a, x = .ok a → Stops F (f a)) : Stops F (x >>= f) := by
  intro fault h
  cases hres : x with
  | ok a =>
      rw [hres] at h
      exact hf a hres fault h
  | error fault' =>
      rw [hres] at h
      cases h
      exact hx fault hres

theorem ite {p : Prop} [Decidable p] {x y : Except Fault α} (hx : p → Stops F x)
    (hy : ¬p → Stops F y) : Stops F (if p then x else y) := by
  split
  · next h => exact hx h
  · next h => exact hy h

theorem mapM {f : α → Except Fault β} {xs : List α} (h : ∀ a ∈ xs, Stops F (f a)) :
    Stops F (xs.mapM f) := by
  induction xs with
  | nil => exact pure []
  | cons a rest ih =>
      rw [List.mapM_cons]
      refine bind (h a List.mem_cons_self) fun b _ => ?_
      exact bind (ih fun a ha => h a (List.mem_cons_of_mem _ ha)) fun bs _ => pure _

theorem foldlM {f : β → α → Except Fault β} {xs : List α} {init : β}
    (h : ∀ b, ∀ a ∈ xs, Stops F (f b a)) : Stops F (xs.foldlM f init) := by
  induction xs generalizing init with
  | nil => exact pure init
  | cons a rest ih =>
      rw [List.foldlM_cons]
      refine bind (h init a List.mem_cons_self) fun b _ => ?_
      exact ih fun b a ha => h b a (List.mem_cons_of_mem _ ha)

/-- A fault that shows a text is either the one that was meant or what the text stopped at. -/
theorem ofText {text : Except Fault String} {fault : String → Fault} (htext : Stops F text)
    (hfault : ∀ s, F (fault s)) : F (.ofText text fault) := by
  cases text with
  | ok s => exact hfault s
  | error failure => exact htext failure rfl

end Stops

/-! A text can fail to be written in two ways only. -/

section Texts

variable {F : Fault → Prop}

theorem Value.stops_shown {v : Value} (hoverlong : v.isWritable = false → F .overlong) :
    Stops F v.shown :=
  .ite (fun _ => .pure _) fun hlong => .throw (hoverlong (Bool.eq_false_iff.2 hlong))

namespace Ty

theorem stops_renders {ts : List Ty} (h : ∀ t ∈ ts, Stops F t.render) : Stops F (renders ts) := by
  induction ts with
  | nil => exact .pure _
  | cons t rest ih =>
      rw [List.forall_mem_cons] at h
      exact .bind h.1 fun _ _ => .bind (ih h.2) fun _ _ => .pure _

/-- What stands in a text of a type: numbers of literals, and first elements of arrays. -/
theorem stops_render_of {P : Ty → Prop} (htarget : ∀ target args, P (.ref target args) → P target)
    (hoverlong : ∀ v, P (.literal v) → v.isWritable = false → F .overlong)
    (hunfit : P (.sequence .array []) → F .unfit) {t : Ty} (h : t.Every P) : Stops F t.render := by
  induction t with
  | primitive _ | boolean _ | object _ _ _ | param _ => exact .pure _
  | literal v =>
      have hshown := Value.stops_shown (hoverlong v h.1)
      cases v with
      | scalar s =>
          cases s with
          | str s => exact .pure _
          | _ => exact hshown
      | _ => exact hshown
  | union ts ih | inter ts ih | name _ ts ih =>
      exact .bind (stops_renders fun t ht => ih t ht (insideList_iff.1 h.2 t ht)) fun _ _ => .pure _
  | sequence kind ts ih =>
      have hts := fun t ht => ih t ht (insideList_iff.1 h.2 t ht)
      cases kind with
      | array =>
          cases ts with
          | nil => exact .throw (hunfit h.1)
          | cons t _ => exact .bind (hts t List.mem_cons_self) fun _ _ => .pure _
      | tuple => exact .bind (stops_renders hts) fun _ _ => .pure _
  | ref target ts ihtarget ih =>
      refine .bind (ihtarget ⟨htarget target ts h.1, h.2.1⟩) fun _ _ => .bind ?_ fun _ _ => .pure _
      exact stops_renders fun t ht => ih t ht (insideList_iff.1 h.2.2 t ht)
  | keyOf t ih => exact .bind (ih h.2) fun _ _ => .pure _
  | index t k iht ihk | mapped _ t k _ iht ihk =>
      exact .bind (iht h.2.1) fun _ _ => .bind (ihk h.2.2) fun _ _ => .pure _

theorem stops_render (hoverlong : F .overlong) (hunfit : F .unfit) (t : Ty) : Stops F t.render :=
  stops_render_of (fun _ _ => id) (fun _ _ _ => hoverlong) (fun _ => hunfit)
    (t.every_of_forall fun _ => trivial)

end Ty

end Texts

/-- The computation stops at nothing but faults of the input. -/
abbrev StopsLocally {α : Type} (x : Except Fault α) : Prop :=
  Stops (fun fault => fault.isLocal = true) x

namespace Catalog

variable (cat : Catalog)

theorem stops_reference (target : Ty) (args : List Ty) : StopsLocally (cat.reference target args) :=
  .ite (fun _ => .throw rfl) fun _ => .ite (fun _ => .throw rfl) fun _ => .pure _

theorem stops_get (name : String) : StopsLocally (cat.get name) := by
  unfold get
  split
  · exact .pure _
  · exact .throw rfl

theorem stops_instanceOf (name : String) (d : Declaration) (args : List Ty) :
    StopsLocally (cat.instanceOf name d args) := by
  have hobject : ∀ kind, StopsLocally (instanceOf.object cat d args kind) := fun kind =>
    .ite (fun _ => .pure _) fun _ => cat.stops_reference _ _
  unfold instanceOf
  split
  · exact hobject .interface
  · exact hobject .nominal
  · exact .throw rfl
  · refine .ite (fun _ => .pure _) fun _ => ?_
    split
    · exact cat.stops_reference _ _
    · exact .pure _
  · exact .throw rfl
  · exact .throw rfl

theorem stops_resolve (t : Ty) : StopsLocally (cat.resolve t) := by
  cases t with
  | name s args =>
      refine .bind (cat.stops_get s) fun d _ => ?_
      exact .ite (fun _ => .throw rfl) fun _ => cat.stops_instanceOf s d args
  | _ => exact .pure _

/-! The searches stop at nothing else than what resolving a name can stop at, a rejection, or a
limit of their own. -/

section Searches

variable {F : Fault → Prop} (hresolve : ∀ t, Stops F (cat.resolve t))

include hresolve

theorem stops_basesOf_of (d : Declaration) : Stops F (cat.basesOf d) :=
  .mapM fun _ _ => hresolve _

theorem stops_bases_of (t : Ty) : Stops F (cat.bases t) := by
  unfold bases
  split
  · split
    · exact cat.stops_basesOf_of hresolve _
    · exact .pure _
  · exact .pure _

theorem stops_followNames_of (limit : Nat) (seen : List String) (t : Ty) :
    Stops F (cat.followNames limit seen t) := by
  induction limit generalizing seen t with
  | zero => exact .pure _
  | succ limit ih =>
      cases t with
      | name s args =>
          exact .ite (fun _ => .pure _) fun _ => .bind (hresolve _) fun t _ => ih _ t
      | _ => exact .pure _

variable (hlimit : F .exhausted)

include hlimit

theorem stops_ancestorsFrom_of (limit : Nat) (queue seen : List Ty) :
    Stops F (cat.ancestorsFrom limit queue seen) := by
  induction limit generalizing queue seen with
  | zero =>
      cases queue with
      | nil => exact .pure _
      | cons base queue => exact .throw hlimit
  | succ limit ih =>
      cases queue with
      | nil => exact .pure _
      | cons base queue =>
          refine .ite (fun _ => ih _ _) fun _ => .bind (cat.stops_bases_of hresolve _) ?_
          exact fun more _ => .bind (ih _ _) fun rest _ => .pure _

theorem stops_bindings_of (t : Ty) : Stops F (cat.bindings t) := by
  unfold bindings
  split
  · refine .bind (.bind (cat.stops_bases_of hresolve _) ?_) fun bases _ => .pure _
    exact fun bases _ => cat.stops_ancestorsFrom_of hresolve hlimit _ _ _
  · exact .pure _

variable {P : Ty → Prop} (hP : cat.Persists P)
  (hunfit : ∀ t head, P t → objectHead? t = some head → cat.hasMembers head = false → F .unfit)

include hP hunfit

/-- All objects but the first are bases. -/
theorem stops_lineage_of (limit : Nat) {head : ObjectHead}
    (hhead : cat.hasMembers head = false → F .unfit) (line : Lineage) :
    Stops F (cat.lineage limit head line) := by
  induction limit generalizing head line with
  | zero => exact .throw hlimit
  | succ limit ih =>
      refine .ite (fun _ => .pure _) fun _ => .bind (cat.stops_bases_of hresolve _) ?_
      refine fun bases hbases => .bind (.foldlM fun line first hfirst => ih ?_ line) fun line _ =>
        .ite (fun _ => .pure _) fun hnone => .throw (hhead (Bool.eq_false_iff.2 hnone))
      obtain ⟨base, hbase, hfirst⟩ := List.mem_filterMap.1 hfirst
      exact hunfit base first (hP.bases hbases hbase).1 hfirst

theorem stops_properties_of {t : Ty} (ht : t.Every P) : Stops F (cat.properties t) := by
  refine .bind (cat.stops_followNames_of hresolve _ _ t) fun u hu => ?_
  split
  · exact .pure _
  · next head hhead =>
      refine .bind (cat.stops_lineage_of hresolve hlimit hP hunfit _ ?_ _) fun line _ => .pure _
      exact hunfit u head (hP.followNames ht hu).1 hhead

theorem stops_propertyTypes_of (hrender : ∀ t : Ty, t.Every P → Stops F t.render)
    (hunsupported : ∀ construct hint, F (.unsupported construct none hint))
    {object index : Ty} (hobject : object.Every P) (hindex : (Ty.index object index).Every P)
    (huntyped : ∀ properties, cat.properties object = .ok properties → ∀ p ∈ properties,
      F (.rejected ⟨.missingPropertyType, p.qualified, p.site, ""⟩)) (shape : Shape) :
    Stops F (cat.propertyTypes object index shape) := by
  have hproperties := cat.stops_properties_of hresolve hlimit hP hunfit hobject
  unfold propertyTypes
  split
  · refine .mapM fun key _ => .bind (.bind hproperties fun _ _ => .pure _) fun found hfound => ?_
    split
    · exact .throw (Stops.ofText (hrender _ hobject) fun _ => hunsupported _ _)
    · next p =>
        split
        · obtain ⟨properties, hok, hfind⟩ := bind_eq_ok.1 hfound
          have hp := List.mem_of_find?_eq_some (Except.ok.inj hfind)
          exact .throw (huntyped properties hok p hp)
        · exact .pure _
  · exact .throw (Stops.ofText (hrender _ hindex) fun _ => hunsupported _ _)

end Searches

theorem stops_basesOf (d : Declaration) : StopsLocally (cat.basesOf d) :=
  cat.stops_basesOf_of cat.stops_resolve d

theorem stops_bases (t : Ty) : StopsLocally (cat.bases t) :=
  cat.stops_bases_of cat.stops_resolve t

theorem stops_followNames (limit : Nat) (seen : List String) (t : Ty) :
    StopsLocally (cat.followNames limit seen t) :=
  cat.stops_followNames_of cat.stops_resolve limit seen t

section Bounded

variable {F : Fault → Prop} (hF : ∀ fault, fault.isBounded = true → F fault)

include hF

theorem stops_resolve_bounded (t : Ty) : Stops F (cat.resolve t) :=
  (cat.stops_resolve t).mono fun _ h => hF _ (Fault.isBounded_of_isLocal h)

theorem stops_bindings (t : Ty) : Stops F (cat.bindings t) :=
  cat.stops_bindings_of (cat.stops_resolve_bounded hF) (hF _ rfl) t

theorem stops_properties (t : Ty) : Stops F (cat.properties t) :=
  cat.stops_properties_of (cat.stops_resolve_bounded hF) (hF _ rfl)
    (persists_of_forall fun _ => trivial) (fun _ _ _ _ _ => hF _ rfl)
    (t.every_of_forall fun _ => trivial)

theorem stops_propertyTypes (object index : Ty) (shape : Shape) :
    Stops F (cat.propertyTypes object index shape) :=
  cat.stops_propertyTypes_of (cat.stops_resolve_bounded hF) (hF _ rfl)
    (persists_of_forall fun _ => trivial) (fun _ _ _ _ _ => hF _ rfl)
    (fun t _ => t.stops_render (hF _ rfl) (hF _ rfl)) (fun _ _ => hF _ rfl)
    (object.every_of_forall fun _ => trivial)
      ((object.index index).every_of_forall fun _ => trivial)
    (fun _ _ _ _ => hF _ rfl) shape

end Bounded

end Catalog

theorem Ty.render_stops_locally (t : Ty) : StopsLocally t.render :=
  stops_render (F := fun fault => fault.isLocal = true) rfl rfl t

theorem Fault.isLocal_malformed (v : Value) : (Fault.malformed v).isLocal = true :=
  have hshown : StopsLocally v.shown :=
    Value.stops_shown (F := fun fault => fault.isLocal = true) fun _ => rfl
  hshown.ofText fun _ => rfl

namespace Shape

theorem stops_ofStrings (items : List String) : StopsLocally (ofStrings items) := by
  cases items with
  | nil => exact .throw rfl
  | cons => exact .pure _

theorem stops_union (shapes : List Shape) : StopsLocally (union shapes) :=
  .ite (fun _ => .pure _) fun _ => .ite (fun _ => .pure _) fun _ => stops_ofStrings _

theorem stops_inter (shapes : List Shape) : StopsLocally (inter shapes) := by
  unfold inter
  split
  · exact stops_ofStrings _
  · exact .pure _
  · exact .pure _

theorem stops_commonNames (shapes : List Shape) : StopsLocally (commonNames shapes) := by
  refine .ite (fun _ => .pure _) fun _ => ?_
  split
  · exact .pure _
  · exact .ite (fun _ => .pure _) fun _ => stops_ofStrings _

theorem stops_allNames (shapes : List Shape) : StopsLocally (allNames shapes) :=
  .ite (fun _ => .pure _) fun _ => .ite (fun _ => .pure _) fun _ => stops_ofStrings _

theorem stops_ofPrimitive (name : String) : StopsLocally (ofPrimitive name) := by
  unfold ofPrimitive
  split
  all_goals first | exact .pure _ | exact .throw rfl

theorem stops_ofLiteral (v : Value) : StopsLocally (ofLiteral v) := by
  unfold ofLiteral
  split
  · exact stops_ofStrings _
  · exact .pure _
  · exact .pure _
  · exact .throw (Fault.isLocal_malformed v)

theorem stops_ofProperties (properties : List Property) : StopsLocally (ofProperties properties) :=
  .ite (fun _ => .pure _) fun _ => stops_ofStrings _

end Shape

theorem PropertyKey.stops_index (key : PropertyKey) : StopsLocally key.index := by
  unfold index
  split
  · exact .pure _
  · unfold Value.constant
    split
    · exact .pure _
    · exact .throw rfl
  · exact .pure _

theorem Expr.stops_replace (e : Expr) (name : Ident) (replacement : Expr) :
    Stops (· = .broken .freshParameter) (e.replace name replacement) := by
  induction e with
  | ident i => exact .pure _
  | const value => exact .pure _
  | prop target p ih | typeOf operand ih | recur label argument ih =>
      exact .bind ih fun _ _ => .pure _
  | elem a b iha ihb | eq a b iha ihb | ne a b iha ihb | and a b iha ihb | or a b iha ihb =>
      exact .bind iha fun _ _ => .bind ihb fun _ _ => .pure _
  | fix label parameter body argument ihbody iharg =>
      exact .ite (fun _ => .throw rfl) fun _ =>
        .bind ihbody fun _ _ => .bind iharg fun _ _ => .pure _

namespace Guard

theorem stops_ofPrimitive (name : String) (accessor : Expr) :
    StopsLocally (ofPrimitive name accessor) := by
  unfold ofPrimitive
  split
  all_goals first | exact .pure _ | exact .throw rfl

theorem stops_ofLiteral (v : Value) (accessor : Expr) : StopsLocally (ofLiteral v accessor) := by
  unfold ofLiteral
  split
  · exact .pure _
  · exact .pure _
  · exact .pure _
  · exact .throw (Fault.isLocal_malformed v)

end Guard

end TypeGuard
