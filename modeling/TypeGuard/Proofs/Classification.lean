import TypeGuard.Proofs.Resolve
import TypeGuard.Proofs.Termination

/-! What a classification can come to. Every rule that it relies on is kept: an exact set always
has a string, what a name stands for can be referred to, and no reference is entered while it is
being expanded. So a classification that ends gives a verdict, rejects, or has met a primitive that
there is none of. -/

namespace TypeGuard

namespace Shape

/-- The primitives that there are. -/
def primitives : List String :=
  ["any", "string", "unknown", "never", "null", "undefined", "number", "bigint",
    "boolean", "object"]

/-- An exact set has a string. -/
def IsProper : Shape → Prop
  | always => True
  | never => True
  | exact strings => strings.toList ≠ []

end Shape

/-- The faults that say something about the subject, and that of a limit. That a number is too long
to be written is expected unless everything is brief, and that something is used for what its kind
does not have unless everything is fit. -/
def Fault.IsExpected (files : Files) (brief fit : Prop) : Fault → Prop
  | rejected r => brief → r.isWritable files = true
  | unknownPrimitive name => name ∉ Shape.primitives
  | exhausted => True
  | overlong => ¬brief
  | unfit => ¬fit
  | duplicate _ => False
  | notAKey => False
  | broken _ => False

theorem Fault.IsExpected.balanced {files : Files} {brief fit : Prop} {fault : Fault}
    (h : fault.IsExpected files brief fit) : fault.isUnbalanced = false := by
  cases fault with
  | broken rule => exact h.elim
  | _ => rfl

namespace Shape

/-- The computation makes a proper shape. -/
def MakesProper (x : Except Fault Shape) : Prop :=
  ∃ shape, x = .ok shape ∧ shape.IsProper

theorem makesProper_never : MakesProper (pure never) :=
  ⟨never, rfl, trivial⟩

theorem makesProper_always : MakesProper (pure always) :=
  ⟨always, rfl, trivial⟩

theorem makesProper_ofStrings {items : List String} (h : items ≠ []) :
    MakesProper (ofStrings items) := by
  cases items with
  | nil => exact absurd rfl h
  | cons s rest => exact ⟨exact (.ofList (s :: rest)), rfl, StringSet.ofList_cons_ne_nil s rest⟩

theorem makesProper_ofNames (items : List String) :
    MakesProper (if items.isEmpty then pure never else ofStrings items) := by
  split
  · exact makesProper_never
  · next h => exact makesProper_ofStrings fun hnil => h (List.isEmpty_iff.2 hnil)

theorem IsProper.literals_ne_nil {shape : Shape} (h : shape.IsProper)
    (hnever : ¬shape.isNever = true) (halways : ¬shape.isAlways = true) : shape.literals ≠ [] := by
  cases shape with
  | always => exact absurd rfl halways
  | never => exact absurd rfl hnever
  | exact strings => exact h

theorem makesProper_union {shapes : List Shape} (h : ∀ shape ∈ shapes, shape.IsProper) :
    MakesProper (union shapes) := by
  unfold union
  split
  · exact makesProper_never
  · next hspoilt =>
      split
      · exact makesProper_always
      · next hopen =>
          -- Without a case that is spelled differently, the first case has a literal.
          apply makesProper_ofStrings
          cases shapes with
          | nil => exact absurd rfl hspoilt
          | cons first rest =>
              simp only [List.isEmpty_cons, List.any_cons, Bool.false_or, Bool.or_eq_true,
                not_or] at hspoilt hopen
              have hfirst := (h first List.mem_cons_self).literals_ne_nil hspoilt.1 hopen.1
              rw [List.flatMap_cons]
              exact fun hnil => hfirst (List.append_eq_nil_iff.1 hnil).1

theorem makesProper_inter (shapes : List Shape) : MakesProper (inter shapes) := by
  unfold inter
  split
  · exact makesProper_ofStrings (List.cons_ne_nil _ _)
  · exact makesProper_never
  · split
    · exact makesProper_always
    · exact makesProper_never

theorem makesProper_commonNames (shapes : List Shape) : MakesProper (commonNames shapes) := by
  unfold commonNames
  split
  · exact makesProper_never
  · split
    · exact makesProper_always
    · exact makesProper_ofNames _

theorem makesProper_allNames (shapes : List Shape) : MakesProper (allNames shapes) := by
  unfold allNames
  split
  · exact makesProper_always
  · exact makesProper_ofNames _

theorem makesProper_ofProperties (properties : List Property) :
    MakesProper (ofProperties properties) := by
  unfold ofProperties
  split
  · exact makesProper_never
  · next h =>
      apply makesProper_ofStrings
      cases properties with
      | nil => exact absurd rfl h
      | cons p rest => exact List.cons_ne_nil _ _

end Shape

namespace Catalog

variable {cat : Catalog}

/-- Declarations are found under their own names, aliases have bodies, and a mapped type that is
the body of a generic alias carries as many parameters as the alias has. -/
structure Complete (cat : Catalog) : Prop where
  named : cat.Named
  bodies : ∀ s d, cat.find? s = some d → d.body ≠ .alias none
  carries : ∀ s d x constraint template params, cat.find? s = some d →
    d.body = .alias (some (.mapped x constraint template params)) → d.params ≠ [] →
    params.length = d.params.length

namespace Complete

variable {brief fit : Prop}

theorem stops_instanceOf (hcat : cat.Complete) {s : String} {d : Declaration} {args : List Ty}
    (hfind : cat.find? s = some d) (harity : args.length = d.params.length) :
    Stops (Fault.IsExpected cat.files brief fit) (cat.instanceOf s d args) := by
  cases hkind : d.kind? with
  | some kind =>
      have hid : d.id = .listed s := hcat.named _ d hfind
      have hparams : cat.paramsOf (.object kind d.id []) = d.params := by
        simp only [paramsOf, hid]
        rw [show cat.declared? (.listed s) = some d from hfind]
      rw [instanceOf_object hkind, reference_ok rfl (by rw [hparams, harity])]
      exact .ite (fun _ => .pure _) fun _ => .pure _
  | none =>
      cases hbody : d.body with
      | interface heritage members => simp [Declaration.kind?, hbody] at hkind
      | nominal heritage members => simp [Declaration.kind?, hbody] at hkind
      | bare =>
          simp only [instanceOf, hbody]
          exact .throw fun _ => rfl
      | property p =>
          simp only [instanceOf, hbody]
          exact .throw fun _ => rfl
      | «alias» type? =>
          cases type? with
          | none => exact absurd hbody (hcat.bodies s d hfind)
          | some body =>
              rw [instanceOf_alias hbody]
              refine .ite (fun _ => .pure _) fun hgeneric =>
                .ite (fun hmapped => ?_) fun _ => .pure _
              obtain ⟨x, constraint, template, params, rfl⟩ := Ty.eq_mapped_of_isMapped hmapped
              have hcarries := hcat.carries s d x constraint template params hfind hbody
                (by simpa using hgeneric)
              have href : cat.reference (.mapped x constraint template params) args = .ok _ :=
                reference_ok rfl (harity.trans hcarries.symm)
              rw [href]
              exact .pure _

theorem stops_resolve (hcat : cat.Complete) (t : Ty) :
    Stops (Fault.IsExpected cat.files brief fit) (cat.resolve t) := by
  cases t with
  | name s args =>
      cases hfind : cat.find? s with
      | none =>
          simp only [resolve, get, hfind]
          exact .throw fun _ => rfl
      | some d =>
          simp only [resolve, get, hfind, pure_bind]
          refine .ite (fun _ => .throw fun _ => rfl) fun harity => ?_
          exact hcat.stops_instanceOf hfind (Decidable.not_not.1 harity)
  | _ => exact .pure _

end Complete

end Catalog

/-- The layer shows no number that is too long to be written. -/
def Ty.isBrief : Ty → Bool
  | literal v => v.isWritable
  | ref target _ => target.isBrief
  | _ => true

theorem Ty.Every.imp {p : Prop} {P : Ty → Prop} {t : Ty} (h : p → t.Every P) :
    t.Every fun u => p → P u := by
  by_cases hp : p
  · exact (h hp).mono fun _ hu _ => hu
  · exact t.every_of_forall fun _ hp' => absurd hp' hp

namespace Catalog

variable {cat : Catalog}

/-- An object has members, and an array has an element type. -/
def isFit (cat : Catalog) : Ty → Bool
  | .object kind decl elements => cat.hasMembers ⟨kind, decl, elements⟩
  | .sequence .array elements => !elements.isEmpty
  | .ref target _ => cat.isFit target
  | _ => true

/-- The sites of declarations and members have no number that is too long to be written. -/
structure SitesWritable (cat : Catalog) : Prop where
  declaration : ∀ i d site, cat.declared? i = some d → d.site = some site →
    site.isWritable cat.files = true
  member : ∀ i d p site, cat.declared? i = some d → p ∈ d.members → p.site = some site →
    site.isWritable cat.files = true

/-- The layer is brief and fit, as far as that is asked for. -/
def Presents (cat : Catalog) (brief fit : Prop) (t : Ty) : Prop :=
  (brief → t.isBrief = true) ∧ (fit → cat.isFit t = true)

/-- A complete catalog that is brief and fit, as far as that is asked for. -/
structure Prepared (cat : Catalog) (brief fit : Prop) : Prop where
  complete : cat.Complete
  sites : brief → cat.SitesWritable
  brief : brief → cat.Upholds fun t => t.isBrief = true
  fit : fit → cat.Upholds fun t => cat.isFit t = true

variable {brief fit : Prop}

theorem Presents.head {t : Ty} (h : t.Every (cat.Presents brief fit)) :
    t.head.Every (cat.Presents brief fit) := by
  cases t with
  | ref target args => exact ⟨h.1, h.2.1⟩
  | _ => exact h

theorem Presents.hasMembers {t : Ty} {head : ObjectHead} (h : cat.Presents brief fit t)
    (hhead : objectHead? t = some head) (hnone : cat.hasMembers head = false) : ¬fit := by
  intro hfit
  have hlayer := h.2 hfit
  obtain ⟨elements, hobject, _⟩ := exists_head_of_objectHead? hhead
  have hmembers : cat.hasMembers ⟨head.kind, head.decl, elements⟩ = true := by
    cases t with
    | object _ _ _ =>
        cases hobject
        exact hlayer
    | ref _ _ =>
        cases hobject
        exact hlayer
    | _ => cases hobject
  exact absurd (hmembers.symm.trans hnone) (by decide)

namespace Prepared

theorem persists (hcat : cat.Prepared brief fit) : cat.Persists (cat.Presents brief fit) := by
  have hobject : ∀ i d kind, cat.declared? i = some d → d.kind? = some kind →
      cat.Presents brief fit (.object kind d.id []) := by
    intro i d kind hfind hkind
    refine ⟨fun _ => rfl, fun _ => ?_⟩
    simp only [isFit, Catalog.hasMembers, hcat.complete.named i d hfind, hfind, hkind]
    rfl
  refine ⟨⟨fun _ => ⟨fun _ => rfl, fun _ => rfl⟩, fun σ t hparam h => ?_⟩,
    fun i d t hfind hlists => ?_,
    hobject, fun i d kind _ => hobject i d kind, fun _ _ _ _ _ => ⟨fun _ => rfl, fun _ => rfl⟩⟩
  · cases t with
    | param x => exact absurd rfl (hparam x)
    | sequence kind elements =>
        cases kind with
        | array =>
            cases elements with
            | nil => exact h
            | cons _ _ => exact ⟨fun _ => rfl, fun _ => rfl⟩
        | tuple => exact ⟨fun _ => rfl, fun _ => rfl⟩
    | _ => exact h
  · have hbrief := Ty.Every.imp fun hbrief => hcat.brief hbrief i d t hfind hlists
    exact hbrief.and (Ty.Every.imp fun hfit => hcat.fit hfit i d t hfind hlists)

theorem stops_resolve (hcat : cat.Prepared brief fit) (t : Ty) :
    Stops (Fault.IsExpected cat.files brief fit) (cat.resolve t) :=
  hcat.complete.stops_resolve t

theorem stops_bindings (hcat : cat.Prepared brief fit) (t : Ty) :
    Stops (Fault.IsExpected cat.files brief fit) (cat.bindings t) :=
  cat.stops_bindings_of hcat.stops_resolve trivial t

theorem stops_render {t : Ty} (ht : t.Every (cat.Presents brief fit)) :
    Stops (Fault.IsExpected cat.files brief fit) t.render := by
  refine Ty.stops_render_of (fun _ _ => id) (fun v hv hlong hbrief => ?_) (fun hempty hfit => ?_) ht
  · exact absurd ((hv.1 hbrief).symm.trans hlong) (by decide)
  · exact Bool.false_ne_true (hempty.2 hfit)

theorem stops_properties (hcat : cat.Prepared brief fit) {t : Ty}
    (ht : t.Every (cat.Presents brief fit)) :
    Stops (Fault.IsExpected cat.files brief fit) (cat.properties t) :=
  cat.stops_properties_of hcat.stops_resolve trivial hcat.persists
    (fun _ _ => Presents.hasMembers) ht

theorem stops_propertyTypes (hcat : cat.Prepared brief fit) {object index : Ty}
    (hobject : object.Every (cat.Presents brief fit))
    (hindex : index.Every (cat.Presents brief fit)) (shape : Shape) :
    Stops (Fault.IsExpected cat.files brief fit) (cat.propertyTypes object index shape) := by
  refine cat.stops_propertyTypes_of hcat.stops_resolve trivial hcat.persists
    (fun _ _ => Presents.hasMembers) (fun _ => stops_render) (fun _ _ _ => rfl) hobject
    ⟨⟨fun _ => rfl, fun _ => rfl⟩, hobject, hindex⟩
      (fun properties hproperties p hp hbrief => ?_) shape
  obtain ⟨_, _, found, _, _, _, hmem⟩ := mem_properties hproperties hp
  obtain ⟨d, hfind, hmember⟩ := mem_membersOf hmem
  cases hsite : p.site with
  | none => rfl
  | some site => exact (hcat.sites hbrief).member _ d p site hfind hmember hsite

end Prepared

end Catalog

/-- The context is tidy, and what its frames bind is brief and fit as far as that is asked for. -/
structure Context.Presents (cat : Catalog) (brief fit : Prop) (ctx : Context) : Prop where
  tidy : ctx.Tidy
  bindings : ∀ binding ∈ ctx.bindings, binding.2.Every (cat.Presents brief fit)

namespace Context.Presents

variable {cat : Catalog} {brief fit : Prop} {ctx : Context}

theorem kept {s s' : Session} (h : s.ctx.Presents cat brief fit) (hkept : s.Kept s') :
    s'.ctx.Presents cat brief fit := by
  refine ⟨hkept.tidy h.tidy, ?_⟩
  rw [Context.bindings, hkept.frames]
  exact h.bindings

theorem push {bindings : Bindings} (h : ctx.Presents cat brief fit)
    (hbindings : ∀ binding ∈ bindings, binding.2.Every (cat.Presents brief fit)) :
    (ctx.push bindings).2.Presents cat brief fit := by
  refine ⟨h.tidy.push bindings, ?_⟩
  rw [Context.bindings, Context.push, List.flatMap_cons]
  exact Catalog.every_append hbindings h.bindings

theorem inside {t : Ty} (h : ctx.Presents cat brief fit) (hoff : ctx.isActive t = false) :
    (ctx.inside t).Presents cat brief fit :=
  ⟨h.tidy.inside hoff, h.bindings⟩

end Context.Presents

namespace Walk

variable {α β : Type} {cat : Catalog} {brief fit : Prop} {R : α → Prop}

/-- A result of that sort, or a fault of that sort. -/
def ComesTo (F : Fault → Prop) (R : α → Prop) : EStateM.Result Fault Session α → Prop
  | .ok a _ => R a
  | .error fault _ => F fault

/-- In every such context the walk keeps the context and comes to a result of that sort, unless it
stops at a fault that is expected. -/
structure Concludes (cat : Catalog) (brief fit : Prop) (R : α → Prop) (w : Walk α) : Prop where
  restores : ∀ s : Session, s.ctx.Presents cat brief fit → Restores w s
  comesTo : ∀ s : Session, s.ctx.Presents cat brief fit →
    ComesTo (Fault.IsExpected cat.files brief fit) R (w s)

namespace Concludes

theorem of_restoring {w : Walk α} (h : IsRestoring w)
    (hw : ∀ s : Session, s.ctx.Presents cat brief fit →
      ComesTo (Fault.IsExpected cat.files brief fit) R (w s)) : Concludes cat brief fit R w :=
  ⟨fun s hs => h s hs.tidy, hw⟩

theorem pure {a : α} (h : R a) : Concludes cat brief fit R (Pure.pure a) :=
  of_restoring (.pure a) fun _ _ => h

theorem throw {fault : Fault} (h : fault.IsExpected cat.files brief fit) :
    Concludes cat brief fit R (MonadExcept.throw fault : Walk α) :=
  of_restoring (.throw h.balanced) fun _ _ => h

theorem ofExcept {x : Except Fault α} (h : Stops (Fault.IsExpected cat.files brief fit) x)
    (hok : ∀ a, x = .ok a → R a) : Concludes cat brief fit R (Walk.ofExcept x) := by
  cases x with
  | ok a => exact pure (hok a rfl)
  | error fault => exact throw (h fault rfl)

theorem bind {Q : β → Prop} {w : Walk α} {f : α → Walk β} (hw : Concludes cat brief fit R w)
    (hf : ∀ a, R a → Concludes cat brief fit Q (f a)) : Concludes cat brief fit Q (w >>= f) := by
  have hresult : ∀ (s : Session) a s', s.ctx.Presents cat brief fit → w s = .ok a s' →
      R a ∧ s'.ctx.Presents cat brief fit := by
    intro s a s' hs hrun
    have hcomes := hw.comesTo s hs
    rw [hrun] at hcomes
    exact ⟨hcomes, hs.kept ((hw.restores s hs).ok a s' hrun)⟩
  refine ⟨fun s hs => ?_, fun s hs => ?_⟩
  · refine .bind hs.tidy (hw.restores s hs) fun a s' hrun _ => ?_
    obtain ⟨ha, hs'⟩ := hresult s a s' hs hrun
    exact (hf a ha).restores s' hs'
  · have hcomes := hw.comesTo s hs
    rw [bind_apply]
    cases hrun : w s with
    | ok a s' =>
        obtain ⟨ha, hs'⟩ := hresult s a s' hs hrun
        exact (hf a ha).comesTo s' hs'
    | error fault s' =>
        rw [hrun] at hcomes
        exact hcomes

theorem mapM {Q : β → Prop} {f : α → Walk β} {xs : List α}
    (hf : ∀ a ∈ xs, Concludes cat brief fit Q (f a)) :
    Concludes cat brief fit (fun bs => ∀ b ∈ bs, Q b) (xs.mapM f) := by
  induction xs with
  | nil => exact pure fun b hb => absurd hb List.not_mem_nil
  | cons a rest ih =>
      rw [List.forall_mem_cons] at hf
      rw [List.mapM_cons]
      refine bind hf.1 fun b hb => bind (ih hf.2) fun bs hbs => pure ?_
      exact List.forall_mem_cons.2 ⟨hb, hbs⟩

theorem instantiate (hcat : cat.Prepared brief fit) {t : Ty}
    (ht : t.Every (cat.Presents brief fit)) :
    Concludes cat brief fit (fun r => r.Every (cat.Presents brief fit)) (Walk.instantiate t) :=
  of_restoring (.instantiate t) fun _ hs => hcat.persists.stable.substitute hs.bindings ht

theorem bound (x : TypeParam) (hint : String) :
    Concludes cat brief fit (fun t => t.Every (cat.Presents brief fit)) (Walk.bound x hint) := by
  refine of_restoring (.bound x hint) fun s hs => ?_
  cases hx : s.ctx.resolve x with
  | none =>
      rw [bound_apply_none hint hx]
      exact fun _ => rfl
  | some t =>
      rw [bound_apply_some hint hx]
      exact hs.bindings _ (Bindings.mem_of_lookup hx)

theorem withFrame {w : Walk α} {bindings : Bindings}
    (hbindings : ∀ binding ∈ bindings, binding.2.Every (cat.Presents brief fit))
    (hw : Concludes cat brief fit R w) : Concludes cat brief fit R (Walk.withFrame bindings w) := by
  refine ⟨fun s hs => .withFrame hs.tidy (hw.restores _ (hs.push hbindings)), fun s hs => ?_⟩
  have hpushed := hs.push hbindings
  have hcomes := hw.comesTo { s with ctx := (s.ctx.push bindings).2 } hpushed
  have hkept := hw.restores { s with ctx := (s.ctx.push bindings).2 } hpushed
  cases hrun : w { s with ctx := (s.ctx.push bindings).2 } with
  | ok a s' =>
      have hkept := hkept.ok a s' hrun
      rw [hrun] at hcomes
      rw [withFrame_apply_ok hrun (hkept.tidy hpushed.tidy).sound.depth hkept.frames]
      exact hcomes
  | error fault s' =>
      have hkept := (hkept.error fault s' hrun).1
      rw [hrun] at hcomes
      rw [withFrame_apply_fault hrun (hkept.tidy hpushed.tidy).sound.depth hkept.frames]
      exact hcomes

theorem entering {w : Walk α} {t : Ty} {s : Session} (hs : s.ctx.Presents cat brief fit)
    (hoff : s.ctx.isActive t = false) (hw : Concludes cat brief fit R w) :
    ComesTo (Fault.IsExpected cat.files brief fit) R (Walk.entering t w s) := by
  have hcomes := hw.comesTo { s with ctx := s.ctx.inside t } (hs.inside hoff)
  have hkept := hw.restores { s with ctx := s.ctx.inside t } (hs.inside hoff)
  cases hrun : w { s with ctx := s.ctx.inside t } with
  | ok a s' =>
      rw [hrun] at hcomes
      rw [entering_apply_ok hoff hrun (hkept.ok a s' hrun).path]
      exact hcomes
  | error fault s' =>
      rw [hrun] at hcomes
      rw [entering_apply_fault hoff hrun (hkept.error fault s' hrun).1.path]
      exact hcomes

theorem unlessActive {w w' : Walk α} (t : Ty) (hw : Concludes cat brief fit R w)
    (hw' : Concludes cat brief fit R w') :
    Concludes cat brief fit R (do if ← Walk.isActive t then w else Walk.entering t w') := by
  have hactive : ∀ s : Session, Walk.isActive t s = .ok (s.ctx.isActive t) s := fun _ => rfl
  refine ⟨fun s hs => ?_, fun s hs => ?_⟩
  · refine .bind hs.tidy (IsRestoring.of_ctx (fun s => ⟨_, s, hactive s, rfl⟩) s hs.tidy) ?_
    intro active s' hrun _
    cases (hactive s).symm.trans hrun
    cases hoff : s.ctx.isActive t with
    | true => exact hw.restores s hs
    | false => exact .entering hs.tidy hoff (hw'.restores _ (hs.inside hoff))
  · rw [bind_apply, hactive]
    cases hoff : s.ctx.isActive t with
    | true => exact hw.comesTo s hs
    | false => exact entering hs hoff hw'

theorem expose (hcat : cat.Prepared brief fit) (limit : Nat) {t : Ty}
    (ht : t.Every (cat.Presents brief fit)) :
    Concludes cat brief fit (fun u => u.Every (cat.Presents brief fit))
      (Walk.expose cat limit t) := by
  induction limit generalizing t with
  | zero => exact throw trivial
  | succ limit ih =>
      cases t with
      | name s args =>
          refine bind (ofExcept (hcat.stops_resolve _) fun u hu => ?_) fun u hu => ih hu
          exact hcat.persists.resolve (Ty.insideList_iff.1 ht.2) hu
      | param p => exact bind (bound p "") fun t ht => ih ht
      | _ => exact instantiate hcat ht

end Concludes

end Walk

open Walk

namespace Shape

variable {cat : Catalog} {brief fit : Prop}

section Step

variable {limit : Nat} (hcat : cat.Prepared brief fit)
  (htype : ∀ t : Ty, t.Every (cat.Presents brief fit) →
    Concludes cat brief fit IsProper (ofType cat limit t))
  (hkeys : ∀ t : Ty, t.Every (cat.Presents brief fit) →
    Concludes cat brief fit IsProper (ofKeys cat limit t))

include hcat htype hkeys

end Step

end Shape

namespace Shape

variable {cat : Catalog}

end Shape

/-- An interface, and what has the same keys as the object it is applied to. -/
def copies : Catalog where
  entries := [
    (.listed "Named", {
      name := "Named"
      body := .interface []
        [⟨.str "a", some (.primitive "string"), false, none, .listed "Named"⟩] }),
    (.listed "Copy", {
      name := "Copy"
      params := [⟨"T", 0⟩]
      body := .alias (some (.mapped ⟨"K", 1⟩ (.keyOf (.param ⟨"T", 0⟩))
        (.index (.param ⟨"T", 0⟩) (.param ⟨"K", 1⟩)) [⟨"T", 0⟩])) })]

end TypeGuard
