import TypeGuard.Proofs.Accessors
import TypeGuard.Proofs.Heritage
import TypeGuard.Proofs.WalkSubject

/-! Without heritage, a declaration and the type that it declares have the same guard. The two
walks push the same frame, one around the knot and the other inside of it, and differ in their
notes. -/

namespace TypeGuard

namespace Walk

variable {α β : Type} {Q : α → β → Prop}

/-- Both walks end in the same session but for the notes, with results that are related or with the
same fault. -/
inductive NotedEnds (Q : α → β → Prop) :
    EStateM.Result Fault Session α → EStateM.Result Fault Session β → Prop
  | ok {a : α} {b : β} (h : Q a b) (s : Session) (notes : List Note) :
      NotedEnds Q (.ok a s) (.ok b { s with notes := notes })
  | error (fault : Fault) (s : Session) (notes : List Note) :
      NotedEnds Q (.error fault s) (.error fault { s with notes := notes })

theorem NotedEnds.ends {r : EStateM.Result Fault Session α} {r' : EStateM.Result Fault Session β}
    (h : NotedEnds Q r r') : EndsAlike Q r r' := by
  cases h with
  | ok hab s notes => exact .ok hab rfl
  | error fault s notes => exact .error fault rfl

theorem NotedEnds.numbering_eq {r : EStateM.Result Fault Session α}
    {r' : EStateM.Result Fault Session β} (h : NotedEnds Q r r') :
    (last r').numbering = (last r).numbering := by
  cases h with
  | ok hab s notes => rfl
  | error fault s notes => rfl

/-- Started in sessions that differ in their notes, the walks end in such sessions. -/
def Noted (w : Walk α) (w' : Walk β) (Q : α → β → Prop) : Prop :=
  ∀ (s : Session) (notes : List Note), NotedEnds Q (w s) (w' { s with notes := notes })

/-- No walk reads its notes. -/
theorem lockstep_noted : Lockstep Noted where
  pure h s notes := .ok h s notes
  throw fault s notes := .error fault s notes
  bind {_ _ _ _ _ _ w w' f f'} hw hf s notes := by
    have hends := hw s notes
    rw [bind_apply, bind_apply]
    revert hends
    generalize w s = r
    generalize w' _ = r'
    intro hends
    cases hends with
    | ok hab s' notes' => exact hf _ _ hab s' notes'
    | error fault s' notes' => exact .error fault s' notes'
  attempt {_ _ _ w w'} hw s notes := by
    have hends := hw s notes
    rw [attempt_apply, attempt_apply]
    revert hends
    generalize w s = r
    generalize w' _ = r'
    intro hends
    cases hends with
    | ok hab s' notes' => exact .ok (.ok hab) s' notes'
    | error fault s' notes' => exact .ok (.error fault) s' notes'
  context s notes := .ok rfl s notes
  setContext _ _ _ := .ok rfl _ _
  push _ _ _ := .ok rfl _ _
  note _ _ _ := .ok rfl _ _
  numberOf _ _ _ := .ok rfl _ _

theorem Noted.note {w : Walk α} {w' : Walk β} (n : Note) (h : Noted w w' Q) :
    Noted (do Walk.note n; w) w' Q :=
  fun s notes => h { s with notes := s.notes ++ [n] } notes

theorem withFrame_apply_ofExcept {w : Walk α} {x : Except Fault α} {bindings : Bindings}
    {s s' : Session} (hrun : w { s with ctx := (s.ctx.push bindings).2 } = Walk.ofExcept x s')
    (hdepth : s'.ctx.depth = s'.ctx.frames.length)
    (hframes : s'.ctx.frames = (s.ctx.push bindings).2.frames) :
    withFrame bindings w s = Walk.ofExcept x { s' with ctx := s'.ctx.back s.ctx.frames } := by
  cases x with
  | ok a => exact withFrame_apply_ok hrun hdepth hframes
  | error fault => exact withFrame_apply_fault hrun hdepth hframes

end Walk

open Walk

namespace Guard

variable {t : Ty} {accessor body : Expr} {build : Expr → Walk Expr} {s s' : Session}

/-- The session in which the check of a type is built. -/
def inside (t : Ty) (s : Session) : Session :=
  { s with
    numbering := (s.numbering.number t).2
    ctx := s.ctx.inside t }

/-- The session in which it has been built, with the path from before. -/
def outside (t : Ty) (path : List Ty) (s : Session) : Session :=
  { s with ctx := s.ctx.outside t path }

theorem knot_apply (hoff : s.ctx.isActive t = false) :
    knot t accessor build s = (do
      let (body, recursive) ← Walk.entering t do
        let body ← build (.ident (.slot (s.numbering.number t).1))
        let recursive ← Walk.isMarked t
        pure (body, recursive)
      Walk.ofExcept (tie recursive (label t (s.numbering.number t).1)
        (.slot (s.numbering.number t).1) body accessor))
      { s with numbering := (s.numbering.number t).2 } := by
  have hnumber : numberOf t s =
      .ok (s.numbering.number t).1 { s with numbering := (s.numbering.number t).2 } := rfl
  have hactive : isActive t { s with numbering := (s.numbering.number t).2 } =
      .ok false { s with numbering := (s.numbering.number t).2 } := by
    rw [← hoff]
    rfl
  have htie : ∀ (recursive : Bool) (name slot : Ident) (body : Expr),
      (if recursive then pure (.fix name slot body accessor)
        else Walk.ofExcept (body.replace slot accessor)) =
      Walk.ofExcept (tie recursive name slot body accessor) := by
    intro recursive name slot body
    cases recursive <;> rfl
  simp only [knot, htie, bind_apply, hnumber, hactive, Bool.false_eq_true, if_false]
  rfl

/-- Where the type is not being expanded, its check is built inside and tied outside. -/
theorem knot_apply_ok (hoff : s.ctx.isActive t = false)
    (hrun : build (.ident (.slot (s.numbering.number t).1)) (inside t s) = .ok body s')
    (hpath : s'.ctx.path = t :: s.ctx.path) :
    knot t accessor build s =
      Walk.ofExcept (tie (s'.ctx.isMarked t) (label t (s.numbering.number t).1)
        (.slot (s.numbering.number t).1) body accessor) (outside t s.ctx.path s') := by
  have hbuilt : (do
      let body ← build (.ident (.slot (s.numbering.number t).1))
      let recursive ← Walk.isMarked t
      pure (body, recursive)) (inside t s) = .ok (body, s'.ctx.isMarked t) s' := by
    rw [bind_apply, hrun]
    rfl
  have hentered := entering_apply_ok (s := { s with numbering := (s.numbering.number t).2 }) hoff
    hbuilt hpath
  rw [knot_apply hoff, bind_apply, hentered]
  rfl

theorem knot_apply_fault {fault : Fault} (hoff : s.ctx.isActive t = false)
    (hrun : build (.ident (.slot (s.numbering.number t).1)) (inside t s) = .error fault s')
    (hpath : s'.ctx.path = t :: s.ctx.path) :
    knot t accessor build s = .error fault (outside t s.ctx.path s') := by
  have hbuilt : (do
      let body ← build (.ident (.slot (s.numbering.number t).1))
      let recursive ← Walk.isMarked t
      pure (body, recursive)) (inside t s) = .error fault s' := by
    rw [bind_apply, hrun]
  have hentered := entering_apply_fault (s := { s with numbering := (s.numbering.number t).2 }) hoff
    hbuilt hpath
  rw [knot_apply hoff, bind_apply, hentered]
  rfl

/-- A frame makes no difference to what is entered, so it can be pushed around a knot or inside. -/
theorem withFrame_knot (hbuild : ∀ slot, IsRestoring (build slot)) (htidy : s.ctx.Tidy)
    (hoff : s.ctx.isActive t = false) (bindings : Bindings) :
    Walk.withFrame bindings (knot t accessor build) s =
      knot t accessor (fun slot => Walk.withFrame bindings (build slot)) s := by
  let pushed : Session := { s with ctx := (s.ctx.push bindings).2 }
  have hkept : Restores (build (.ident (.slot (s.numbering.number t).1))) (inside t pushed) :=
    hbuild _ _ ((htidy.push bindings).inside hoff)
  have hinside := (htidy.push bindings).inside (t := t) hoff
  cases hrun : build (.ident (.slot (s.numbering.number t).1)) (inside t pushed) with
  | ok body s' =>
      have hkept := hkept.ok body s' hrun
      have hdepth := (hkept.tidy hinside).sound.depth
      have hinner := withFrame_apply_ok (s := inside t s) hrun hdepth hkept.frames
      have haround : knot t accessor build pushed = _ := knot_apply_ok hoff hrun hkept.path
      have hbuilt : knot t accessor (fun slot => Walk.withFrame bindings (build slot)) s = _ :=
        knot_apply_ok hoff hinner hkept.path
      rw [withFrame_apply_ofExcept haround hdepth hkept.frames, hbuilt]
      rfl
  | error fault s' =>
      have hkept := (hkept.error fault s' hrun).1
      have hdepth := (hkept.tidy hinside).sound.depth
      have hinner := withFrame_apply_fault (s := inside t s) hrun hdepth hkept.frames
      have haround : knot t accessor build pushed = _ := knot_apply_fault hoff hrun hkept.path
      have hbuilt : knot t accessor (fun slot => Walk.withFrame bindings (build slot)) s = _ :=
        knot_apply_fault hoff hinner hkept.path
      rw [withFrame_apply_fault haround hdepth hkept.frames, hbuilt]
      rfl

end Guard

namespace Catalog

variable {cat : Catalog} {d : Declaration} {members : List Property} {t : Ty}

theorem foldl_overlay_of_nodup {found : List Property}
    (h : ((found ++ members).map Property.name).Nodup) :
    members.foldl overlay found = found ++ members := by
  induction members generalizing found with
  | nil => exact (List.append_nil found).symm
  | cons p rest ih =>
      have hfresh : found.filter (fun q => q.name ≠ p.name) = found := by
        rw [List.filter_eq_self]
        intro q hq
        rw [List.map_append, List.nodup_append] at h
        exact decide_eq_true
          (h.2.2 _ (List.mem_map_of_mem hq) _ (List.mem_map_of_mem List.mem_cons_self))
      have hrest : found ++ p :: rest = found ++ [p] ++ rest := by simp
      rw [List.foldl_cons, overlay, hfresh, hrest]
      apply ih
      rw [← hrest]
      exact h

theorem basesOf_of_rootless (hbody : d.body = .interface [] members) : cat.basesOf d = .ok [] := by
  rw [basesOf, Declaration.heritage, hbody]
  rfl

section Rootless

variable (hfind : cat.declared? d.id = some d) (hbody : d.body = .interface [] members)
  (hhead : t.head = .object .interface d.id [])

include hfind hbody hhead

theorem bases_of_rootless : cat.bases t = .ok [] := by
  simp only [bases, hhead, hfind]
  exact basesOf_of_rootless hbody

theorem bindings_of_rootless : cat.bindings t = .ok (.ofPairs (d.params.zip t.args)) := by
  have hbases := bases_of_rootless (t := .object .interface d.id []) hfind hbody rfl
  simp only [bindings, hhead, ancestors, hbases, ownBindings, paramsOf, hfind]
  rfl

theorem properties_of_rootless (hnames : (members.map Property.name).Nodup) :
    cat.properties t = .ok members := by
  have hmembers : d.members = members := by rw [Declaration.members, hbody]
  have hbases := bases_of_rootless (t := .object .interface d.id []) hfind hbody rfl
  have hkind : cat.hasMembers ⟨.interface, d.id, []⟩ = true := by
    simp only [hasMembers, hfind, Declaration.kind?, hbody]
    rfl
  have hlineage : cat.lineage (cat.clauses.length + 2) ⟨.interface, d.id, []⟩ {} =
      .ok ⟨[⟨.interface, d.id, []⟩], [⟨.interface, d.id, []⟩]⟩ := by
    simp only [lineage, hbases, bind, Except.bind, List.filterMap_nil, List.foldlM_nil, hkind]
    rfl
  have hobject : objectHead? t = some ⟨.interface, d.id, []⟩ := objectHead?_of_head hhead
  have hfound : members.foldl overlay [] = members := foldl_overlay_of_nodup hnames
  have hlisted : [⟨.interface, d.id, []⟩].flatMap cat.membersOf = members := by
    rw [List.flatMap_singleton, membersOf, hfind]
    exact hmembers
  unfold properties
  rw [followNames_of_head hhead]
  simp only [bind, Except.bind, hobject, hlineage, hlisted, hfound]
  rfl

end Rootless

end Catalog

namespace Guard

variable {cat : Catalog} {d : Declaration} {members : List Property} {args : List Ty}
  {accessor : Expr} {limit : Nat} {table : Numbering}

/-- The check of an object by its members. -/
def ofMembers (cat : Catalog) (visit : Visit) (members : List Property) (accessor : Expr) :
    Walk Expr := do
  let conditions ← members.mapM fun p => ofProperty cat visit p accessor
  pure (whole accessor conditions)

theorem ofDeclaration_of_rootless (hbody : d.body = .interface [] members) (accessor : Expr) :
    ofDeclaration cat (limit + 1) d accessor = (do
      Walk.note (.compiling d.qualified)
      ofMembers cat (ofType cat limit) members accessor) := by
  have hbases := cat.basesOf_of_rootless hbody
  simp only [ofDeclaration, hbody, hbases, Walk.ofExcept, pure_bind, List.mapM_nil, List.append_nil]
  rfl

theorem ofParts_of_rootless {visit : Visit} {t : Ty} (hfind : cat.declared? d.id = some d)
    (hbody : d.body = .interface [] members) (hnames : (members.map Property.name).Nodup)
    (hhead : t.head = .object .interface d.id []) (accessor : Expr) :
    ofParts cat limit visit t accessor =
      Walk.withFrame (.ofPairs (d.params.zip t.args)) (ofMembers cat visit members accessor) := by
  simp only [ofParts, Catalog.bindings_of_rootless hfind hbody hhead,
    Catalog.properties_of_rootless hfind hbody hhead hnames, hhead, Walk.ofExcept, pure_bind]
  rfl

theorem instantiate_fresh (t : Ty) :
    Walk.instantiate t { numbering := table } = .ok t { numbering := table } := by
  have hrun : Walk.instantiate t { numbering := table } =
      .ok (t.substitute []) { numbering := table } := rfl
  rw [hrun, Ty.substitute_nil]

/-- Where nothing is bound, an instance is what its arguments say. -/
theorem ofInstance_fresh (hbody : d.body = .interface [] members)
    (hargs : args = [] ∨ args.length = d.arity) :
    ofInstance cat limit d args accessor { numbering := table } =
      Walk.withFrame (.ofPairs (d.params.zip args))
        (knot (instanceType d args) accessor (ofDeclaration cat limit d))
          { numbering := table } := by
  cases args with
  | nil =>
      simp only [ofInstance, hbody]
      rfl
  | cons arg rest =>
      have hlength : (arg :: rest).length = d.arity := hargs.resolve_left (List.cons_ne_nil _ _)
      simp only [ofInstance, hbody, hlength, decide_true, Bool.or_true, if_true,
        List.isEmpty_cons, Bool.false_eq_true, if_false, pure_bind]
      rw [bind_apply, instantiate_fresh]
      rfl

theorem ofType_fresh :
    ofType cat (limit + 1) (instanceType d args) accessor { numbering := table } =
      ofObject cat limit (ofType cat limit) (instanceType d args) accessor
        { numbering := table } := by
  unfold instanceType
  split
  · rfl
  · rw [ofType, bind_apply, instantiate_fresh]
    rfl

/-- From a fresh context the two walks differ in a note. -/
theorem noted_ofInstance (hfind : cat.declared? d.id = some d)
    (hbody : d.body = .interface [] members) (hnames : (members.map Property.name).Nodup)
    (hargs : args = [] ∨ args.length = d.arity) :
    NotedEnds Eq (ofInstance cat (limit + 1) d args accessor { numbering := table })
      (ofType cat (limit + 1) (instanceType d args) accessor { numbering := table }) := by
  have hbuilt : ∀ slot, Noted
      (Walk.withFrame (.ofPairs (d.params.zip args)) (ofDeclaration cat (limit + 1) d slot))
      (ofParts cat limit (ofType cat limit) (instanceType d args) slot) Eq := by
    intro slot
    have hmembers : Noted (ofMembers cat (ofType cat limit) members slot)
        (ofMembers cat (ofType cat limit) members slot) Eq := by
      have hbuilds := lockstep_noted.builds
      apply hbuilds.bind (hbuilds.mapM _ members) fun conditions => hbuilds.pure _
      exact fun p => combined_property hbuilds (combined_ofType hbuilds limit) p slot
    rw [ofDeclaration_of_rootless hbody,
      ofParts_of_rootless hfind hbody hnames (head_instanceType d args), args_instanceType]
    exact lockstep_noted.withFrame _ (hmembers.note _)
  rw [ofInstance_fresh hbody hargs, ofType_fresh,
    withFrame_knot (restores_ofDeclaration _ d) Context.tidy_start rfl]
  exact lockstep_noted.knot _ accessor hbuilt _ []

end Guard

namespace Subject

variable {cat : Catalog} {d : Declaration} {members : List Property} {args : List Ty}
  {accessor : Expr} {limit : Nat} {table table' : Numbering}

theorem verdict_of_endsAlike {subject subject' : Subject} {args' : List Ty}
    (h : Walk.EndsAlike Eq (subject.walkWith cat limit accessor args { numbering := table })
      (subject'.walkWith cat limit accessor args' { numbering := table' })) :
    (subject'.compile cat limit accessor args' table').verdict =
      (subject.compile cat limit accessor args table).verdict := by
  unfold compile
  have h := h.raising cat.files
  revert h
  generalize Walk.raising cat.files (subject.walkWith cat limit accessor args) _ = r
  generalize Walk.raising cat.files (subject'.walkWith cat limit accessor args') _ = r'
  intro h
  cases h with
  | ok heq hctx =>
      subst heq
      simp only [judge, hctx]
  | error fault hctx =>
      cases fault with
      | rejected r => simp only [judge, hctx]
      | _ => rfl

/-- What is compiled once more, when all its types have their numbers, comes to the same verdict. -/
theorem verdict_again {subject : Subject}
    (h : (subject.compile cat limit accessor args table).state.Extends table') :
    (subject.compile cat limit accessor args table').verdict =
      (subject.compile cat limit accessor args table).verdict := by
  rw [state_compile] at h
  have hrepeats : Walk.Repeats (subject.walkWith cat limit accessor args) _ Eq :=
    combined_walkWith Walk.lockstep_repeats.builds limit accessor args subject
  exact verdict_of_endsAlike (hrepeats.ends _ table' h).ends

theorem walkWith_decl (hbody : d.body = .interface [] members) :
    (decl d).walkWith cat limit accessor args = Guard.ofInstance cat limit d args accessor := by
  cases args with
  | nil =>
      simp only [walkWith, walk, hbody]
      rfl
  | cons arg rest => rfl

theorem verdict_decl_zero (hbody : d.body = .interface [] members)
    (hargs : args = [] ∨ args.length = d.arity) :
    ((decl d).compile cat 0 accessor args table).verdict = .error .exhausted := by
  have hknot : Guard.knot (Guard.instanceType d args) accessor (Guard.ofDeclaration cat 0 d)
      { ctx := (({} : Context).push (.ofPairs (d.params.zip args))).2, numbering := table } =
        .error .exhausted _ := Guard.knot_apply_fault rfl rfl rfl
  have hrun := Walk.withFrame_apply_fault (s := { numbering := table }) hknot rfl rfl
  rw [← Guard.ofInstance_fresh hbody hargs, ← walkWith_decl hbody] at hrun
  simp only [compile, raising_eq_error.2 ⟨.exhausted, hrun, rfl⟩]
  rfl

/-- Without heritage, a declaration with members of different names compiles to the same guard as
the type that it declares, or is rejected for the same reason, whether both start from the same
numbers or one follows the other. -/
theorem decl_compiles_as_type (hfind : cat.declared? d.id = some d)
    (hbody : d.body = .interface [] members) (hnames : (members.map Property.name).Nodup)
    (hargs : args = [] ∨ args.length = d.arity)
    (hruns : table' = table ∨
      ((decl d).compile cat limit accessor args table).state.Extends table' ∨
      ((type (Guard.instanceType d args)).compile cat limit accessor [] table').state.Extends
        table) :
    ((type (Guard.instanceType d args)).compile cat limit accessor [] table').verdict =
      ((decl d).compile cat limit accessor args table).verdict := by
  cases limit with
  | zero => exact (verdict_decl_zero hbody hargs).symm
  | succ limit =>
      have hends : ∀ table, Walk.NotedEnds Eq
          ((decl d).walkWith cat (limit + 1) accessor args { numbering := table })
          ((type (Guard.instanceType d args)).walkWith cat (limit + 1) accessor []
            { numbering := table }) := by
        intro table
        rw [walkWith_decl hbody]
        exact Guard.noted_ofInstance hfind hbody hnames hargs
      have hverdict := fun table => verdict_of_endsAlike (hends table).ends
      rcases hruns with rfl | hlater | hearlier
      · exact hverdict _
      · have hagain : ((type (Guard.instanceType d args)).compile cat (limit + 1) accessor []
            table).state.Extends table' := by
          rw [state_compile, (hends table).numbering_eq, ← state_compile]
          exact hlater
        exact (verdict_again hagain).trans (hverdict table)
      · have hagain : ((decl d).compile cat (limit + 1) accessor args
            table').state.Extends table := by
          rw [state_compile, ← (hends table').numbering_eq, ← state_compile]
          exact hearlier
        exact (hverdict table').trans (verdict_again hagain).symm

end Subject

theorem Subject.decl_compiles_as_type_chain :
    ∃ d, Catalog.chain.find? "Link" = some d ∧
      let outcome := (decl d).compile .chain 8 (.named "x") [.primitive "string"] {}
      outcome.verdict = .ok (.compiled chainGuard) ∧
        ((type (.ref (.object .interface (.listed "Link") []) [.primitive "string"])).compile .chain
          8 (.named "x") [] outcome.state).verdict = .ok (.compiled chainGuard) := by
  obtain ⟨d, members, hlink, hfind, hbody, hnames, harity, htype, hcompiled⟩ : ∃ d members,
      Catalog.chain.find? "Link" = some d ∧ Catalog.chain.declared? d.id = some d ∧
      d.body = .interface [] members ∧ (members.map Property.name).Nodup ∧ 1 = d.arity ∧
      Guard.instanceType d [.primitive "string"] =
        .ref (.object .interface (.listed "Link") []) [.primitive "string"] ∧
      ((decl d).compile .chain 8 (.named "x") [.primitive "string"] {}).verdict =
        .ok (.compiled chainGuard) :=
    ⟨_, _, rfl, rfl, rfl, by decide, rfl, rfl, Outcome.verdict_of_guard? (by decide +kernel)⟩
  refine ⟨d, hlink, hcompiled, ?_⟩
  rw [← htype, ← hcompiled]
  exact decl_compiles_as_type hfind hbody hnames (.inr harity) (.inr (.inl (.refl _)))

end TypeGuard
