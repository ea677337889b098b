import TypeGuard.Proofs.WalkShape

/-! Guards follow the rules: whatever a walk compiles is derivable, and whatever is derivable is
compiled by every walk with a high enough limit, from the same progress to the same progress. -/

namespace TypeGuard

namespace Guard

variable {cat : Catalog} {env : Bindings} {path : List Ty} {p : Progress}

/-- The walk compiles what the rules say about the task. -/
def Sound (cat : Catalog) (w : Walk Expr) (env : Bindings) (path : List Ty) (task : Task) : Prop :=
  ∀ p, Walk.Meets True w env path p fun e p' => Compiles cat path [task] p [e] p'

theorem meets_map {α : Type} {f : α → Walk Expr} {task : α → Task} {xs : List α}
    (h : ∀ x ∈ xs, Sound cat (f x) env path (task x)) (p : Progress) :
    Walk.Meets True (xs.mapM f) env path p fun es p' =>
      Compiles cat path (xs.map task) p es p' := by
  induction xs generalizing p with
  | nil => exact Walk.Meets.pure .nil
  | cons x rest ih =>
      rw [List.mapM_cons]
      refine Walk.Meets.bind ((h x List.mem_cons_self p).mono ?_)
      intro e p' hfirst
      refine Walk.Meets.bind ((ih (fun a ha => h a (List.mem_cons_of_mem _ ha)) p').mono ?_)
      intro es p'' hrest
      exact Walk.Meets.pure (.cons hfirst hrest)

/-- The types inside are checked by the rules. -/
def SoundVisit (cat : Catalog) (visit : Visit) : Prop :=
  ∀ env path t accessor, Sound cat (visit t accessor) env path ⟨false, env, t, accessor⟩

variable {visit : Visit}

theorem meets_property (hvisit : SoundVisit cat visit) (property : Property) (accessor : Expr)
    (p : Progress) :
    Walk.Meets True (ofProperty cat visit property accessor) env path p fun e p' =>
      ∃ part, Part.OfProperty env property part ∧
        Compiles cat path [part.task accessor] p [e] p' := by
  unfold ofProperty
  cases htype : property.type? with
  | none => exact Walk.Meets.throw trivial
  | some t =>
      have hrest : Walk.Meets True (do
          let index ← Walk.ofExcept property.key.index
          visit t (.elem accessor index)) env path p fun e p' =>
            ∃ part, Part.OfProperty env property part ∧
              Compiles cat path [part.task accessor] p [e] p' := by
        refine Walk.Meets.bind (Walk.Meets.ofExcept (fun index hindex => ?_) fun _ _ => trivial)
        refine (hvisit env path t (.elem accessor index) p).mono fun e p' he => ?_
        exact ⟨⟨false, env, t, some index⟩, ⟨t, index, htype, hindex, rfl⟩, he⟩
      by_cases hoptional : property.optional = true
      · simp only [hoptional, if_true]
        exact Walk.Meets.bind (Walk.Meets.note hrest)
      · simp only [hoptional]
        exact hrest

theorem meets_properties (hvisit : SoundVisit cat visit) (properties : List Property)
    (accessor : Expr) (p : Progress) :
    Walk.Meets True (properties.mapM fun q => ofProperty cat visit q accessor) env path p
      fun es p' => ∃ parts, List.Forall₂ (Part.OfProperty env) properties parts ∧
        Compiles cat path (parts.map (Part.task accessor)) p es p' := by
  induction properties generalizing p with
  | nil => exact Walk.Meets.pure ⟨[], .nil, .nil⟩
  | cons property rest ih =>
      rw [List.mapM_cons]
      refine Walk.Meets.bind ((meets_property hvisit property accessor p).mono ?_)
      rintro e p' ⟨part, hpart, hfirst⟩
      refine Walk.Meets.bind ((ih p').mono ?_)
      rintro es p'' ⟨parts, hparts, hrest⟩
      exact Walk.Meets.pure ⟨part :: parts, .cons hpart hparts, .cons hfirst hrest⟩

/-- What a walk does for the parts of a type while the type is on the path. -/
def SoundParts (cat : Catalog) (build : Expr → Walk Expr) (inner outer : Bindings)
    (path : List Ty) (declared : Bool) (t : Ty) : Prop :=
  ∀ slot p, Walk.Meets True (build slot) inner (t :: path) p fun body p' =>
    ∃ parts es, Parts cat outer path declared t parts ∧
      Compiles cat (t :: path) (parts.map (Part.task slot)) p es p' ∧
      body = whole slot es

/-- A knot is either met again, or it is tied around what is built. -/
theorem meets_knot {build : Expr → Walk Expr} {inner : Bindings} {t : Ty} {accessor : Expr}
    {Q : Expr → Progress → Expr → Progress → Prop}
    (hbuild : ∀ slot p, Walk.Meets True (build slot) inner (t :: path) p (Q slot p)) :
    Walk.Meets True (knot t accessor build) inner path p fun e p' =>
      (t.IsOn path ∧ e = .recur (label t (p.number t).1) accessor ∧ p' = (p.number t).2.mark t) ∨
      (¬t.IsOn path ∧ ∃ body p'', Q (.ident (.slot (p.number t).1)) (p.number t).2 body p'' ∧
        tie (p''.isMarked t) (label t (p.number t).1) (.slot (p.number t).1) body accessor = .ok e ∧
        p' = p''.leave t) := by
  refine Walk.Meets.bind (Walk.Meets.numberOf (Walk.Meets.bind (Walk.Meets.isActive ?_)))
  by_cases hon : t.IsOn path
  · rw [if_pos hon]
    exact Walk.Meets.bind (Walk.Meets.mark hon (Walk.Meets.pure (.inl ⟨hon, rfl, rfl⟩)))
  · rw [if_neg hon]
    refine Walk.Meets.bind (Walk.Meets.entering hon (Walk.Meets.bind ((hbuild _ _).mono ?_)))
    intro body p'' hbody
    refine Walk.Meets.bind (Walk.Meets.isMarked (Walk.Meets.pure ?_))
    simp only
    cases hmarked : p''.isMarked t with
    | true =>
        refine Walk.Meets.pure (.inr ⟨hon, body, p'', hbody, ?_, rfl⟩)
        rw [hmarked]
        rfl
    | false =>
        refine Walk.Meets.ofExcept (fun e he => .inr ⟨hon, body, p'', hbody, ?_, rfl⟩)
          fun _ _ => trivial
        rw [hmarked]
        exact he

theorem meets_mapped (hvisit : SoundVisit cat visit) {limit : Nat} {x : TypeParam}
    {constraint template : Ty} {params : List TypeParam} {accessor : Expr} :
    Walk.Meets True (ofMapped cat limit visit x constraint template params accessor) env path p
      fun e p' => ∃ (keys : StringSet) (es : List Expr),
        Classifies cat .strings env path constraint (.exact keys) ∧
        Compiles cat path
          ((Part.ofKeys env x template keys.toList).map (Part.task accessor)) p es p' ∧
        e = whole accessor es := by
  refine Walk.Meets.bind ((Query.walk_sound limit .strings env path p constraint).mono ?_)
  rintro shape _ ⟨rfl, hshape⟩
  cases shape with
  | always => exact Walk.Meets.throw trivial
  | never => exact Walk.Meets.throw trivial
  | exact keys =>
      have hkeys : ∀ key ∈ keys.toList, Sound cat
          (Walk.withFrame [(x, .literal (.str key))]
            (visit template (.elem accessor (.const (.str key))))) env path
          (Part.task accessor ⟨false, (x, .literal (.str key)) :: env, template,
            some (.const (.str key))⟩) :=
        fun key _ p =>
          Walk.Meets.withFrame (hvisit _ path template (.elem accessor (.const (.str key))) p)
      refine Walk.Meets.bind ((meets_map hkeys _).mono fun es p' hes => ?_)
      refine Walk.Meets.pure ⟨keys, es, hshape, ?_, rfl⟩
      rw [Part.ofKeys, List.map_map]
      exact hes

theorem soundParts_ofParts (hvisit : SoundVisit cat visit) (limit : Nat) (t : Ty) :
    SoundParts cat (ofParts cat limit visit t) env env path false t := by
  intro slot p
  refine Walk.Meets.bind (Walk.Meets.ofExcept (fun bindings hbindings => ?_) fun _ _ => trivial)
  refine Walk.Meets.withFrame ?_
  split
  · next x constraint template params hhead =>
      refine (meets_mapped hvisit).mono ?_
      rintro e p' ⟨keys, es, hkeys, hes, rfl⟩
      exact ⟨_, es, .keys hbindings hhead hkeys, hes, rfl⟩
  · next hmapped =>
      refine Walk.Meets.bind (Walk.Meets.ofExcept (fun properties hproperties => ?_)
        fun _ _ => trivial)
      refine Walk.Meets.bind ((meets_properties hvisit properties slot p).mono ?_)
      rintro es p' ⟨parts, hparts, hes⟩
      refine Walk.Meets.pure ⟨parts, es, .properties ?_ hbindings hproperties hparts, hes, rfl⟩
      cases hhead : t.head with
      | mapped x c u xs => exact absurd hhead (hmapped x c u xs)
      | _ => rfl

theorem sound_object (hvisit : SoundVisit cat visit) {limit : Nat} {t : Ty} {accessor : Expr}
    (hknot : t.isKnot = true) :
    Sound cat (ofObject cat limit visit (t.knot env) accessor) env path
      ⟨false, env, t, accessor⟩ := by
  intro p
  refine (meets_knot (soundParts_ofParts hvisit limit (t.knot env))).mono ?_
  rintro e p' (⟨hon, rfl, rfl⟩ | ⟨hoff, _, p'', ⟨parts, es, hparts, hes, rfl⟩, htie, rfl⟩)
  · exact .again hknot hon
  · exact .knot (.flat hknot) hoff hparts hes htie

theorem sound_members (hvisit : SoundVisit cat visit) (members : List Ty) (accessor : Expr)
    (p : Progress) :
    Walk.Meets True (members.mapM fun t => visit t accessor) env path p fun es p' =>
      Compiles cat path (members.map (⟨false, env, ·, accessor⟩)) p es p' :=
  meets_map (fun t _ => hvisit env path t accessor) p

theorem sound_index (hvisit : SoundVisit cat visit) {limit : Nat} {object key : Ty}
    {accessor : Expr} :
    Sound cat (do
        let object ← Walk.expose cat limit object
        let keys ← Shape.ofType cat limit key
        let types ← Walk.ofExcept (cat.propertyTypes object key keys)
        let bindings ← Walk.ofExcept (cat.bindings object)
        Walk.withFrame bindings do
          let conditions ← types.mapM fun t => visit t accessor
          pure (.anyOf conditions)) env path ⟨false, env, .index object key, accessor⟩ := by
  intro p
  refine Walk.Meets.bind ((Walk.expose_sound cat limit object).mono ?_)
  rintro o _ ⟨rfl, hobject⟩
  refine Walk.Meets.bind ((Query.walk_sound limit .strings env path _ key).mono ?_)
  rintro shape _ ⟨rfl, hkey⟩
  refine Walk.Meets.bind (Walk.Meets.ofExcept (fun types htypes => ?_) fun _ _ => trivial)
  obtain ⟨keys, rfl, htypes⟩ := Catalog.propertyTypes_eq_ok htypes
  refine Walk.Meets.bind (Walk.Meets.ofExcept (fun bindings hbindings => ?_) fun _ _ => trivial)
  refine Walk.Meets.withFrame (Walk.Meets.bind ((sound_members hvisit types accessor _).mono ?_))
  intro es p' hes
  exact Walk.Meets.pure (.index hobject hkey htypes hbindings hes)

theorem sound_keyOf {limit : Nat} {operand : Ty} {accessor : Expr} :
    Sound cat (do
        match ← Shape.ofType cat limit (.keyOf operand) with
        | .exact keys => pure (.anyOf (keys.toList.map fun key => .equalTo accessor (.str key)))
        | _ => throw (.ofText (Ty.keyOf operand).render fun text =>
            .unsupported text none "keyof with no finite set of string keys"))
      env path ⟨false, env, .keyOf operand, accessor⟩ := by
  intro p
  refine Walk.Meets.bind ((Query.walk_sound limit .strings env path p (.keyOf operand)).mono ?_)
  rintro shape _ ⟨rfl, hshape⟩
  cases shape with
  | always => exact Walk.Meets.throw trivial
  | never => exact Walk.Meets.throw trivial
  | exact keys => exact Walk.Meets.pure (.keyOf hshape)

/-- Classes, arrays and tuples have no guard, with or without arguments. What is no target at all is
checked in the place of the reference. -/
theorem meets_target {limit : Nat} {target : Ty} {args : List Ty} {accessor : Expr}
    (hvisit : SoundVisit cat (ofType cat limit)) (hknot : (Ty.ref target args).isKnot = false) :
    Walk.Meets True (ofType cat limit target accessor) env path p fun e p' =>
      Compiles cat path [⟨false, env, .ref target args, accessor⟩] p [e] p' := by
  cases happlicable : Catalog.isApplicable target with
  | false => exact (hvisit env path target accessor p).mono fun _ _ h => .target happlicable h
  | true =>
      cases limit with
      | zero => exact Walk.Meets.throw trivial
      | succ limit =>
          cases target with
          | object kind decl elements =>
              cases kind with
              | interface => cases hknot
              | nominal => exact Walk.Meets.throw trivial
          | sequence kind elements => exact Walk.Meets.throw trivial
          | mapped x c t xs => cases hknot
          | _ => cases happlicable

/-- Whatever a walk compiles is derivable. -/
theorem ofType_sound (cat : Catalog) (limit : Nat) : SoundVisit cat (ofType cat limit) := by
  induction limit with
  | zero => exact fun _ _ _ _ _ => Walk.Meets.throw trivial
  | succ limit ih =>
      intro env path t accessor p
      cases t with
      | primitive s =>
          refine Walk.Meets.ofExcept (fun e he => ?_) fun _ _ => trivial
          obtain ⟨test, htest, rfl⟩ := Test.ofPrimitive_eq_ok.1 he
          exact .test htest
      | literal v =>
          refine Walk.Meets.ofExcept (fun e he => ?_) fun _ _ => trivial
          obtain ⟨test, htest, rfl⟩ := Test.ofLiteral_eq_ok.1 he
          exact .test htest
      | boolean b =>
          have htest : Test.ofType? (.boolean b) = some (.equals (.bool b)) := rfl
          exact Walk.Meets.pure (Compiles.test htest)
      | union members =>
          refine Walk.Meets.bind ((sound_members ih members accessor p).mono fun es p' hes => ?_)
          exact Walk.Meets.pure (.union hes)
      | inter members =>
          refine Walk.Meets.bind ((sound_members ih members accessor p).mono fun es p' hes => ?_)
          exact Walk.Meets.pure (.inter hes)
      | object kind decl elements =>
          cases kind with
          | interface => exact sound_object (t := .object .interface decl elements) ih rfl p
          | nominal => exact Walk.Meets.throw trivial
      | sequence kind elements => exact Walk.Meets.throw trivial
      | ref target args =>
          refine Walk.Meets.bind (Walk.Meets.instantiate ?_)
          cases target with
          | object kind decl elements =>
              cases kind with
              | interface =>
                  exact sound_object (t := .ref (.object .interface decl elements) args) ih rfl p
              | nominal => exact meets_target ih rfl
          | mapped x c template params =>
              exact sound_object (t := .ref (.mapped x c template params) args) ih rfl p
          | _ => exact meets_target ih rfl
      | param x =>
          refine Walk.Meets.bind (Walk.Meets.bound (fun t ht => ?_) fun _ => trivial)
          exact (ih env path t accessor p).mono fun e p' he => .follow (.param ht) he
      | keyOf operand => exact sound_keyOf p
      | index object key => exact sound_index ih p
      | mapped x constraint template params =>
          refine (meets_mapped ih).mono ?_
          rintro e p' ⟨keys, es, hkeys, hes, rfl⟩
          exact .mapped hkeys hes
      | name s args =>
          refine Walk.Meets.bind (Walk.Meets.ofExcept (fun t ht => ?_) fun _ _ => trivial)
          exact (ih env path t accessor p).mono fun e p' he => .follow (.name ht) he

end Guard

/-! The other direction, for high enough limits. -/

open Filter

namespace Walk

variable {α β : Type} {fails : Prop} {env : Bindings} {path : List Ty} {p p' p'' : Progress}

theorem Gives.meets {w : Walk α} {a : α} {Q : α → Progress → Prop} (h : Gives w env path a)
    (hQ : Q a p) : Meets False w env path p Q := by
  refine (h p).mono ?_
  rintro b _ ⟨rfl, rfl⟩
  exact hQ

/-- The walk ends with that result and that progress. -/
def Leads (w : Walk α) (env : Bindings) (path : List Ty) (p : Progress) (a : α) (p' : Progress) :
    Prop :=
  Meets False w env path p fun b q => b = a ∧ q = p'

theorem Leads.pure (a : α) : Leads (Pure.pure a) env path p a p :=
  Meets.pure ⟨rfl, rfl⟩

theorem Leads.bind {w : Walk α} {f : α → Walk β} {a : α} {b : β} (hw : Leads w env path p a p')
    (hf : Leads (f a) env path p' b p'') : Leads (w >>= f) env path p b p'' := by
  refine Meets.bind (Meets.mono hw ?_)
  rintro _ _ ⟨rfl, rfl⟩
  exact hf

theorem Gives.leads {w : Walk α} {a : α} (h : Gives w env path a) : Leads w env path p a p :=
  h.meets ⟨rfl, rfl⟩

end Walk

namespace Guard

variable {cat : Catalog} {env : Bindings} {path : List Ty} {limit : Nat} {p p' : Progress}

/-- The checks of tasks, each by a walk with the bindings of the task in force. -/
def Runs (cat : Catalog) (limit : Nat) (path : List Ty) :
    List Task → Progress → List Expr → Progress → Prop
  | [], p, es, p' => es = [] ∧ p' = p
  | task :: rest, p, es, p'' => ∃ e es' p', es = e :: es' ∧
      Walk.Leads (ofType cat limit task.type task.accessor) task.env path p e p' ∧
      Runs cat limit path rest p' es' p''

theorem runs_singleton {task : Task} {e : Expr} : Runs cat limit path [task] p [e] p' ↔
    Walk.Leads (ofType cat limit task.type task.accessor) task.env path p e p' := by
  constructor
  · rintro ⟨_, _, q, heq, hlead, rfl, rfl⟩
    cases heq
    exact hlead
  · intro h
    exact ⟨e, [], p', rfl, h, rfl, rfl⟩

theorem Runs.mapM {α : Type} {f : α → Walk Expr} {task : α → Task} {xs : List α} {es : List Expr}
    (hf : ∀ x ∈ xs, ∀ p e p',
      Walk.Leads (ofType cat limit (task x).type (task x).accessor) (task x).env path p e p' →
        Walk.Leads (f x) env path p e p')
    (h : Runs cat limit path (xs.map task) p es p') :
    Walk.Leads (xs.mapM f) env path p es p' := by
  induction xs generalizing p es with
  | nil =>
      obtain ⟨rfl, rfl⟩ := h
      exact Walk.Leads.pure []
  | cons x rest ih =>
      obtain ⟨e, es', q, rfl, hfirst, hrest⟩ := h
      rw [List.mapM_cons]
      refine (hf x List.mem_cons_self _ _ _ hfirst).bind ?_
      exact (ih (fun y hy => hf y (List.mem_cons_of_mem _ hy)) hrest).bind (Walk.Leads.pure _)

theorem leads_property {property : Property} {part : Part} {accessor e : Expr}
    (hpart : Part.OfProperty env property part)
    (h : Walk.Leads (ofType cat limit (part.task accessor).type (part.task accessor).accessor)
      (part.task accessor).env path p e p') :
    Walk.Leads (ofProperty cat (ofType cat limit) property accessor) env path p e p' := by
  obtain ⟨t, index, htype, hindex, rfl⟩ := hpart
  unfold ofProperty
  simp only [htype]
  have hrest : Walk.Leads (do
      let index ← Walk.ofExcept property.key.index
      ofType cat limit t (.elem accessor index)) env path p e p' :=
    (Walk.Gives.ofExcept hindex).leads.bind h
  by_cases hoptional : property.optional = true
  · simp only [hoptional, if_true]
    exact Walk.Meets.bind (Walk.Meets.note hrest)
  · simp only [hoptional]
    exact hrest

theorem Runs.properties {properties : List Property} {parts : List Part} {accessor : Expr}
    {es : List Expr}
    (hparts : List.Forall₂ (Part.OfProperty env) properties parts)
    (h : Runs cat limit path (parts.map (Part.task accessor)) p es p') :
    Walk.Leads (properties.mapM fun q => ofProperty cat (ofType cat limit) q accessor)
      env path p es p' := by
  induction hparts generalizing p es with
  | nil =>
      obtain ⟨rfl, rfl⟩ := h
      exact Walk.Leads.pure []
  | cons hpart _ ih =>
      obtain ⟨e, es', q, rfl, hfirst, hrest⟩ := h
      rw [List.mapM_cons]
      exact (leads_property hpart hfirst).bind ((ih hrest).bind (Walk.Leads.pure _))

theorem leads_mapped {x : TypeParam} {constraint template : Ty} {params : List TypeParam}
    {accessor : Expr} {keys : StringSet} {es : List Expr}
    (hkeys : Walk.Gives (Shape.ofType cat limit constraint) env path (.exact keys))
    (h : Runs cat limit path ((Part.ofKeys env x template keys.toList).map (Part.task accessor))
      p es p') :
    Walk.Leads (ofMapped cat limit (ofType cat limit) x constraint template params accessor)
      env path p (whole accessor es) p' := by
  rw [Part.ofKeys, List.map_map] at h
  refine hkeys.leads.bind (Walk.Leads.bind (Runs.mapM (fun key _ p e p' he => ?_) h)
    (Walk.Leads.pure _))
  exact Walk.Meets.withFrame he

theorem eventually_leads_parts {t : Ty} {parts : List Part}
    (hparts : Parts cat env path false t parts) :
    ∀ᶠ limit in atTop, ∀ slot p es p',
      Runs cat limit (t :: path) (parts.map (Part.task slot)) p es p' →
      Walk.Leads (ofParts cat limit (ofType cat limit) t slot) env (t :: path) p
        (whole slot es) p' := by
  cases hparts with
  | properties hmapped hbindings hproperties hforall =>
      refine Eventually.of_forall fun limit slot p es p' h => ?_
      refine (Walk.Gives.ofExcept hbindings).leads.bind (Walk.Meets.withFrame ?_)
      split
      · next hhead =>
          rw [hhead] at hmapped
          cases hmapped
      · exact (Walk.Gives.ofExcept hproperties).leads.bind
          ((Runs.properties hforall h).bind (Walk.Leads.pure _))
  | keys hbindings hhead hkeys =>
      refine (Query.walk_complete hkeys).mono fun limit hlimit slot p es p' h => ?_
      refine (Walk.Gives.ofExcept hbindings).leads.bind (Walk.Meets.withFrame ?_)
      split
      · next hhead' =>
          cases hhead'.symm.trans hhead
          exact leads_mapped hlimit h
      · next hhead' => exact absurd hhead (hhead' _ _ _ _)

theorem leads_again {t : Ty} {accessor : Expr} {build : Expr → Walk Expr} (hon : t.IsOn path) :
    Walk.Leads (knot t accessor build) env path p (.recur (label t (p.number t).1) accessor)
      ((p.number t).2.mark t) := by
  refine Walk.Meets.bind (Walk.Meets.numberOf (Walk.Meets.bind (Walk.Meets.isActive ?_)))
  rw [if_pos hon]
  exact Walk.Meets.bind (Walk.Meets.mark hon (Walk.Leads.pure _))

theorem leads_knot {t : Ty} {accessor e : Expr} {build : Expr → Walk Expr} {es : List Expr}
    (hoff : ¬t.IsOn path)
    (hbuild : Walk.Leads (build (.ident (.slot (p.number t).1))) env (t :: path) (p.number t).2
      (whole (.ident (.slot (p.number t).1)) es) p')
    (htie : tie (p'.isMarked t) (label t (p.number t).1) (.slot (p.number t).1)
      (whole (.ident (.slot (p.number t).1)) es) accessor = .ok e) :
    Walk.Leads (knot t accessor build) env path p e (p'.leave t) := by
  refine Walk.Meets.bind (Walk.Meets.numberOf (Walk.Meets.bind (Walk.Meets.isActive ?_)))
  rw [if_neg hoff]
  refine Walk.Meets.bind (Walk.Meets.entering hoff (Walk.Meets.bind (Walk.Meets.mono hbuild ?_)))
  rintro _ q ⟨rfl, rfl⟩
  refine Walk.Meets.bind (Walk.Meets.isMarked (Walk.Meets.pure ?_))
  simp only
  cases hmarked : q.isMarked t with
  | true =>
      rw [hmarked] at htie
      cases htie
      exact Walk.Leads.pure _
  | false =>
      rw [hmarked] at htie
      exact (Walk.Gives.ofExcept htie).leads

theorem leads_ofType_knot {t : Ty} {accessor e : Expr} (hknot : t.isKnot = true)
    (h : Walk.Leads (ofObject cat limit (ofType cat limit) (t.knot env) accessor)
      env path p e p') :
    Walk.Leads (ofType cat (limit + 1) t accessor) env path p e p' := by
  cases t with
  | object kind decl elements =>
      cases kind with
      | interface => exact h
      | nominal => cases hknot
  | ref target args =>
      refine (Walk.Gives.instantiate _).leads.bind ?_
      cases target with
      | object kind decl elements =>
          cases kind with
          | interface => exact h
          | nominal => cases hknot
      | mapped x c t xs => exact h
      | _ => cases hknot
  | _ => cases hknot

theorem leads_test {t : Ty} {accessor : Expr} {test : Test} (h : Test.ofType? t = some test) :
    Walk.Leads (ofType cat (limit + 1) t accessor) env path p (test.expr accessor) p := by
  cases t with
  | primitive s =>
      exact (Walk.Gives.ofExcept (Test.ofPrimitive_eq_ok.2 ⟨test, h, rfl⟩)).leads
  | literal v =>
      exact (Walk.Gives.ofExcept (Test.ofLiteral_eq_ok.2 ⟨test, h, rfl⟩)).leads
  | boolean b => cases h; exact Walk.Leads.pure _
  | _ => cases h

/-- Whatever is derivable is compiled by every walk with a high enough limit. -/
theorem ofType_complete {tasks : List Task} {es : List Expr}
    (h : Compiles cat path tasks p es p') (hflat : ∀ task ∈ tasks, task.declared = false) :
    ∀ᶠ limit in atTop, Runs cat limit path tasks p es p' := by
  induction h with
  | nil => exact Eventually.of_forall fun _ => ⟨rfl, rfl⟩
  | cons _ _ ihfirst ihrest =>
      have hfirst := ihfirst (List.forall_mem_singleton.2 (hflat _ List.mem_cons_self))
      have hrest := ihrest fun task htask => hflat task (List.mem_cons_of_mem _ htask)
      refine (hfirst.and hrest).mono fun limit hlimit => ?_
      exact ⟨_, _, _, rfl, runs_singleton.1 hlimit.1, hlimit.2⟩
  | test htest =>
      refine eventually_of_succ (Eventually.of_forall fun _ => trivial) fun limit _ => ?_
      exact runs_singleton.2 (leads_test htest)
  | follow hfollow _ ih =>
      refine eventually_of_succ (ih (List.forall_mem_singleton.2 rfl)) fun limit hlimit => ?_
      rw [runs_singleton] at hlimit ⊢
      cases hfollow with
      | name h => exact (Walk.Gives.ofExcept h).leads.bind hlimit
      | param h => exact (Walk.Gives.bound h).leads.bind hlimit
  | @target _ _ target _ _ _ _ _ hodd _ ih =>
      refine eventually_of_succ (ih (List.forall_mem_singleton.2 rfl)) fun limit hlimit => ?_
      rw [runs_singleton] at hlimit ⊢
      refine (Walk.Gives.instantiate _).leads.bind ?_
      cases target with
      | object _ _ _ | mapped _ _ _ _ | sequence _ _ => cases hodd
      | _ => exact hlimit
  | union _ ih =>
      refine eventually_of_succ (ih (by simp)) fun limit hlimit => ?_
      rw [runs_singleton]
      exact Walk.Leads.bind (Runs.mapM (fun _ _ _ _ _ h => h) hlimit) (Walk.Leads.pure _)
  | inter _ ih =>
      refine eventually_of_succ (ih (by simp)) fun limit hlimit => ?_
      rw [runs_singleton]
      exact Walk.Leads.bind (Runs.mapM (fun _ _ _ _ _ h => h) hlimit) (Walk.Leads.pure _)
  | again hknot hon =>
      refine eventually_of_succ (Eventually.of_forall fun _ => trivial) fun limit _ => ?_
      exact runs_singleton.2 (leads_ofType_knot hknot (leads_again hon))
  | knot hknot hoff hparts _ htie ih =>
      cases hknot with
      | declared hhead => cases hflat _ List.mem_cons_self
      | flat hknot =>
          refine eventually_of_succ ((ih (hparts.flat _)).and (eventually_leads_parts hparts))
            fun limit hlimit => ?_
          rw [runs_singleton]
          exact leads_ofType_knot hknot (leads_knot hoff (hlimit.2 _ _ _ _ hlimit.1) htie)
  | mapped hkeys _ ih =>
      refine eventually_of_succ ((ih (by simp [Part.ofKeys, Part.task])).and
        (Query.walk_complete hkeys)) fun limit hlimit => ?_
      exact runs_singleton.2 (leads_mapped hlimit.2 hlimit.1)
  | index hobject hkeys htypes hbindings _ ih =>
      refine eventually_of_succ ((ih (by simp)).and ((Walk.expose_complete hobject).and
        (Query.walk_complete hkeys))) fun limit hlimit => ?_
      obtain ⟨hchecks, hexpose, hkey⟩ := hlimit
      rw [runs_singleton]
      refine (hexpose _).leads.bind (hkey.leads.bind ((Walk.Gives.ofExcept htypes).leads.bind ?_))
      refine (Walk.Gives.ofExcept hbindings).leads.bind (Walk.Meets.withFrame ?_)
      exact Walk.Leads.bind (Runs.mapM (fun _ _ _ _ _ h => h) hchecks) (Walk.Leads.pure _)
  | keyOf hkeys =>
      refine eventually_of_succ (Query.walk_complete hkeys) fun limit hlimit => ?_
      rw [runs_singleton]
      exact hlimit.leads.bind (Walk.Leads.pure _)

end Guard

end TypeGuard
