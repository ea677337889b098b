import TypeGuard.Guard.Verdict
import TypeGuard.Proofs.Extraction
import TypeGuard.Proofs.WalkDeclaration

/-! Whatever subject is compiled, its guard is one by the rules: types and interfaces directly, and
the instances of an alias because nothing in them can stand for the alias itself. -/

namespace TypeGuard

namespace Walk

variable {α : Type} {env : Bindings} {path : List Ty} {p : Progress}

theorem Meets.of_ok {fails : Prop} {w : Walk α} {Q : α → Progress → Prop} {s s' : Session} {a : α}
    (h : Meets fails w env path p Q) (hat : s.At env path p) (hrun : w s = .ok a s') :
    ∃ p', Q a p' := by
  have hs := h s hat
  rw [hrun] at hs
  obtain ⟨_, p', _, hQ⟩ := hs
  exact ⟨p', hQ⟩

end Walk

theorem Session.at_start (numbering : Numbering) :
    ({ numbering := numbering } : Session).At [] [] ⟨numbering, []⟩ :=
  ⟨nofun, rfl, rfl, rfl, Context.sound_start⟩

/-- The task is written in types that are declared. -/
def Task.Declared (cat : Catalog) (task : Task) : Prop :=
  task.type.Every cat.Declares ∧ ∀ binding ∈ task.env, binding.2.Every cat.Declares

namespace Catalog

variable {cat : Catalog} {env : Bindings}

theorem every_key_binding {P : Ty → Prop} (hkey : ∀ key, P (.literal (.str key))) (x : TypeParam)
    (key : String) (henv : ∀ binding ∈ env, binding.2.Every P) :
    ∀ binding ∈ (x, Ty.literal (.str key)) :: env, binding.2.Every P :=
  List.forall_mem_cons.2 ⟨⟨hkey key, trivial⟩, henv⟩

/-- The parts of a type have every property that the catalog keeps. -/
theorem Persists.parts {P : Ty → Prop} (hP : cat.Persists P) (hkey : ∀ key, P (.literal (.str key)))
    {path : List Ty} {t : Ty} {parts : List Part} (henv : ∀ binding ∈ env, binding.2.Every P)
    (ht : t.Every P) (h : Parts cat env path false t parts) :
    ∀ part ∈ parts, part.type.Every P ∧ ∀ binding ∈ part.env, binding.2.Every P := by
  intro part hpart
  cases h with
  | properties _ hbindings hproperties hparts =>
      obtain ⟨p, hp, u, index, htype, _, rfl⟩ := exists_of_forall₂_right hparts hpart
      obtain ⟨s, d, hfind, hlists⟩ := lists_of_mem_properties hproperties hp htype
      exact ⟨hP.upholds s d u hfind hlists, every_append (hP.bindings ht hbindings) henv⟩
  | @keys _ _ x constraint template params keys hbindings hhead _ =>
      obtain ⟨key, _, rfl⟩ := List.mem_map.1 hpart
      have hinside : template.Every P := by
        have hhead : t.head = .mapped x constraint template params := hhead
        cases t with
        | ref target args =>
            cases hhead
            exact ht.2.1.2
        | mapped =>
            cases hhead
            exact ht.2.2
        | _ => cases hhead
      exact ⟨hinside, every_key_binding hkey x key (every_append (hP.bindings ht hbindings) henv)⟩

theorem declares_key_binding (x : TypeParam) (key : String)
    (henv : ∀ binding ∈ env, binding.2.Every cat.Declares) :
    ∀ binding ∈ (x, Ty.literal (.str key)) :: env, binding.2.Every cat.Declares :=
  every_key_binding (fun _ => trivial) x key henv

theorem declared_parts (hnamed : cat.Named) (hup : cat.Upholds cat.Declares) {path : List Ty}
    {t : Ty} {parts : List Part} {whole : Expr}
    (henv : ∀ binding ∈ env, binding.2.Every cat.Declares) (ht : t.Every cat.Declares)
    (h : Parts cat env path false t parts) :
    ∀ task ∈ parts.map (Part.task whole), task.Declared cat := by
  intro task htask
  obtain ⟨part, hpart, rfl⟩ := List.mem_map.1 htask
  exact (persists_declares hnamed hup).parts (fun _ => trivial) henv ht h part hpart

end Catalog

namespace Compiles

variable {cat : Catalog} {path : List Ty} {tasks : List Task} {p p' : Progress} {es : List Expr}

/-- A type that stands for no declared object is never met again. -/
theorem unmarked (hnamed : cat.Named) (hup : cat.Upholds cat.Declares)
    (h : Compiles cat path tasks p es p')
    (hflat : ∀ task ∈ tasks, task.declared = false) (htasks : ∀ task ∈ tasks, task.Declared cat)
    {u : Ty} (hu : ¬cat.Declares u) (hmarked : p'.isMarked u = true) : p.isMarked u = true := by
  induction h with
  | nil => exact hmarked
  | cons _ _ ihfirst ihrest =>
      rw [List.forall_mem_cons] at hflat htasks
      refine ihfirst ?_ ?_ (ihrest hflat.2 htasks.2 hmarked)
      · exact List.forall_mem_singleton.2 hflat.1
      · exact List.forall_mem_singleton.2 htasks.1
  | test => exact hmarked
  | follow hfollow _ ih =>
      rw [List.forall_mem_singleton] at hflat htasks
      refine ih (List.forall_mem_singleton.2 rfl)
        (List.forall_mem_singleton.2 ⟨?_, htasks.2⟩) hmarked
      exact (Catalog.persists_declares hnamed hup).follows htasks.2 htasks.1 hfollow
  | target _ _ ih =>
      rw [List.forall_mem_singleton] at hflat htasks
      refine ih (List.forall_mem_singleton.2 rfl)
        (List.forall_mem_singleton.2 ⟨?_, htasks.2⟩) hmarked
      exact ⟨htasks.1.1, htasks.1.2.1⟩
  | union _ ih =>
      rw [List.forall_mem_singleton] at htasks
      refine ih (by simp) (fun task htask => ?_) hmarked
      obtain ⟨t, ht, rfl⟩ := List.mem_map.1 htask
      exact ⟨Ty.insideList_iff.1 htasks.1.2 t ht, htasks.2⟩
  | inter _ ih =>
      rw [List.forall_mem_singleton] at htasks
      refine ih (by simp) (fun task htask => ?_) hmarked
      obtain ⟨t, ht, rfl⟩ := List.mem_map.1 htask
      exact ⟨Ty.insideList_iff.1 htasks.1.2 t ht, htasks.2⟩
  | @again _ env t _ _ _ _ =>
      rw [List.forall_mem_singleton] at htasks
      have ht := (Catalog.stable_declares cat).knot htasks.2 htasks.1
      simp only [Progress.isMarked, Progress.mark, List.any_cons, Bool.or_eq_true] at hmarked
      rcases hmarked with hsame | hold
      · refine absurd ?_ hu
        rw [← Catalog.declares_key, ← Ty.same_iff.1 hsame, Catalog.declares_key]
        exact ht.1
      · exact hold
  | @knot _ task _ _ _ _ _ _ hknot _ hparts _ _ ih =>
      rw [List.forall_mem_singleton] at hflat htasks
      rw [hflat] at hparts
      cases hknot with
      | declared => cases hflat
      | flat =>
          have ht := (Catalog.stable_declares cat).knot htasks.2 htasks.1
          exact ih (hparts.flat _) (Catalog.declared_parts hnamed hup htasks.2 ht hparts)
            (Progress.isMarked_leave.1 hmarked).1
  | mapped _ _ ih =>
      rw [List.forall_mem_singleton] at htasks
      refine ih (by simp [Part.ofKeys, Part.task]) (fun task htask => ?_) hmarked
      obtain ⟨part, hpart, rfl⟩ := List.mem_map.1 htask
      obtain ⟨key, _, rfl⟩ := List.mem_map.1 hpart
      exact ⟨htasks.1.2.2, Catalog.declares_key_binding _ key htasks.2⟩
  | index hobject _ htypes hbindings _ ih =>
      rw [List.forall_mem_singleton] at htasks
      refine ih (by simp) (fun task htask => ?_) hmarked
      obtain ⟨t, ht, rfl⟩ := List.mem_map.1 htask
      have ho := (Catalog.persists_declares hnamed hup).exposes htasks.2 htasks.1.2.1 hobject
      obtain ⟨key, _, hkey⟩ := exists_of_forall₂_right (mapM_eq_ok.1 htypes) ht
      obtain ⟨properties, q, hproperties, hq, htype⟩ := Catalog.propertyType_eq_ok hkey
      obtain ⟨s, d, hfind, hlists⟩ := Catalog.lists_of_mem_properties hproperties hq htype
      exact ⟨hup s d t hfind hlists,
        Catalog.every_append
          ((Catalog.persists_declares hnamed hup).bindings ho hbindings) htasks.2⟩
  | keyOf => exact hmarked

/-- With nothing being expanded, all that is compiled is a guard that calls nothing around it. -/
theorem guards_start {task : Task} {e : Expr} (hcat : cat.Plain)
    (h : Compiles cat [] [task] p [e] p') (haccessor : task.accessor.isPath = true) :
    Guards cat p'.numbering [] [] task e :=
  h.guards hcat (List.forall_mem_singleton.2 haccessor) (.refl _)
    (fun _ hmem => absurd hmem List.not_mem_nil) (fun _ _ hon => by cases hon) task e
    List.mem_cons_self

end Compiles

namespace Guard

variable {cat : Catalog} {limit : Nat} {p : Progress} {accessor : Expr}

/-- What a declaration with arguments for its parameters is checked as. -/
def instanceType (d : Declaration) (args : List Ty) : Ty :=
  if args.isEmpty then .object .interface d.id []
  else .ref (.object .interface d.id []) args

@[simp] theorem head_instanceType (d : Declaration) (args : List Ty) :
    (instanceType d args).head = .object .interface d.id [] := by
  unfold instanceType
  split <;> rfl

@[simp] theorem args_instanceType (d : Declaration) (args : List Ty) :
    (instanceType d args).args = args := by
  unfold instanceType
  split
  · next hempty => exact (List.isEmpty_iff.1 hempty).symm
  · rfl

/-- An instance is a knot inside a frame of its own, unless it is that of a class. -/
theorem meets_ofInstance {d : Declaration} {args : List Ty} {Q : Expr → Progress → Prop}
    (h : Walk.Meets True (knot (instanceType d args) accessor (ofDeclaration cat limit d))
      (.ofPairs (d.params.zip args)) [] p Q) :
    Walk.Meets True (ofInstance cat limit d args accessor) [] [] p Q := by
  rw [← List.append_nil (Bindings.ofPairs _)] at h
  have hframe := Walk.Meets.withFrame h
  unfold ofInstance
  by_cases harity : (args.isEmpty || decide (args.length = d.arity)) = true
  · simp only [harity, if_true]
    refine Walk.Meets.bind (Walk.Meets.pure ?_)
    split
    · exact Walk.Meets.throw trivial
    · unfold instanceType at hframe
      split
      · next hempty =>
          rw [if_pos hempty] at hframe
          exact Walk.Meets.bind (Walk.Meets.pure hframe)
      · next hempty =>
          rw [if_neg hempty] at hframe
          refine Walk.Meets.bind (Walk.Meets.instantiate ?_)
          rw [Ty.substitute_nil]
          exact hframe
  · simp only [harity, Bool.false_eq_true, if_false]
    exact Walk.Meets.bind (Walk.Meets.throw trivial)

theorem sound_ofInstance (hnamed : cat.Named) (hup : cat.Upholds cat.Declares) {d : Declaration}
    {args : List Ty} (hfind : cat.declared? d.id = some d) (hkind : d.kind? ≠ none)
    (hargs : ∀ t ∈ args, t.Every cat.Declares) :
    Sound cat (ofInstance cat limit d args accessor) []
      [] ⟨true, [], instanceType d args, accessor⟩ := by
  intro p
  have hdeclares : (instanceType d args).Every cat.Declares := by
    have hobject : cat.Declares (.object .interface d.id []) := by
      intro e he
      rw [hfind] at he
      cases he
      exact hkind
    unfold instanceType
    split
    · exact ⟨hobject, trivial⟩
    · exact ⟨hobject, trivial, Ty.insideList_iff.2 hargs⟩
  have hparts : SoundParts cat (ofDeclaration cat limit d)
      (Bindings.ofPairs (d.params.zip (instanceType d args).args) ++ []) [] [] true
      (instanceType d args) :=
    soundParts_ofDeclaration hnamed hup limit (fun _ hmem => absurd hmem List.not_mem_nil) hdeclares
      (head_instanceType d args) hfind hkind
  rw [args_instanceType, List.append_nil] at hparts
  refine meets_ofInstance ((meets_knot hparts).mono ?_)
  rintro e p' (⟨hon, _⟩ | ⟨hoff, _, p'', ⟨parts, es, hparts, hes, rfl⟩, htie, rfl⟩)
  · cases hon
  · exact .knot (.declared (head_instanceType d args)) hoff hparts hes htie

/-- The instance of an alias is checked as its body, in which nothing stands for the alias
itself. -/
theorem meets_ofAlias (hnamed : cat.Named) (hup : cat.Upholds cat.Declares) {d : Declaration}
    {type? : Option Ty} {args : List Ty} (hfind : cat.declared? d.id = some d)
    (hbody : d.body = .alias type?) (hargs : ∀ t ∈ args, t.Every cat.Declares) :
    Walk.Meets True (ofInstance cat limit d args accessor) [] [] p fun e p' =>
      ∃ t n body q q', type? = some t ∧
        Compiles cat [instanceType d args]
          [⟨false, .ofPairs (d.params.zip args), t, .ident (.slot n)⟩] q [body] q' ∧
        (∀ u : Ty, u.key = (instanceType d args).key → q'.isMarked u = false) ∧
        body.Fresh (.slot n) ∧ e = body.put (.slot n) accessor ∧ p'.numbering = q'.numbering := by
  refine Walk.Meets.of_tidy fun htidy => meets_ofInstance ((meets_knot (Q := fun slot p body p' =>
    ∃ t, type? = some t ∧ Compiles cat [instanceType d args]
      [⟨false, .ofPairs (d.params.zip args), t, slot⟩] p [body] p') fun slot p => ?_).mono ?_)
  · cases limit with
    | zero => exact Walk.Meets.throw trivial
    | succ limit =>
        cases type? with
        | none =>
            simp only [ofDeclaration, hbody]
            exact Walk.Meets.throw trivial
        | some t =>
            simp only [ofDeclaration, hbody]
            exact (ofType_sound cat limit _ _ t slot p).mono fun _ _ hcheck => ⟨t, rfl, hcheck⟩
  rintro e p' (⟨hon, _⟩ | ⟨_, body, p'', ⟨t, rfl, hcheck⟩, htie, rfl⟩)
  · cases hon
  have hundeclared : ∀ u : Ty, u.key = (instanceType d args).key → ¬cat.Declares u := by
    intro u hkey hdeclares
    rw [← Catalog.declares_key, hkey, Catalog.declares_key] at hdeclares
    have hhead := hdeclares.head
    rw [head_instanceType] at hhead
    exact hhead d hfind (by simp [Declaration.kind?, hbody])
  have hunmarked : ∀ u : Ty, u.key = (instanceType d args).key → p''.isMarked u = false := by
    intro u hkey
    refine Bool.eq_false_iff.2 fun hmarked => ?_
    have htask : ∀ task ∈ [(⟨false, .ofPairs (d.params.zip args), t,
        .ident (.slot (p.number (instanceType d args)).1)⟩ : Task)], task.Declared cat := by
      refine List.forall_mem_singleton.2 ⟨hup _ d t hfind (.body hbody), fun binding hmem => ?_⟩
      exact hargs _ (List.of_mem_zip (Bindings.mem_of_mem_ofPairs hmem)).2
    obtain ⟨w, hw, _⟩ := List.any_eq_true.1 (hcheck.unmarked hnamed hup
      (List.forall_mem_singleton.2 rfl) htask (hundeclared u hkey) hmarked)
    cases htidy w hw
  rw [hunmarked _ rfl] at htie
  obtain ⟨hfresh, rfl⟩ := Expr.replace_eq_ok.1 htie
  exact ⟨t, _, body, _, p'', rfl, hcheck, hunmarked, hfresh, rfl, rfl⟩

theorem guards_ofInstance (hcat : cat.Plain) (hnamed : cat.Named) (hup : cat.Upholds cat.Declares)
    {d : Declaration} {type? : Option Ty} {args : List Ty} (hfind : cat.declared? d.id = some d)
    (hbody : d.body = .alias type?) (hargs : ∀ t ∈ args, t.Every cat.Declares) :
    Walk.Meets True (ofInstance cat limit d args accessor) [] [] p fun e p' =>
      ∃ task path, task.accessor = accessor ∧ Guards cat p'.numbering [] path task e := by
  refine (meets_ofAlias hnamed hup hfind hbody hargs).mono ?_
  rintro e p' ⟨t, n, body, q, q', rfl, hcheck, hunmarked, hfresh, rfl, hnumbering⟩
  have hpath : ∀ task ∈ [(⟨false, .ofPairs (d.params.zip args), t, .ident (.slot n)⟩ : Task)],
      task.accessor.isPath = true :=
    List.forall_mem_singleton.2 rfl
  have hguards := hcheck.guards hcat hpath (.refl _)
    (fun _ hmem => absurd hmem List.not_mem_nil) (fun u n hon hnumber hcalls => ?_) _ body
    List.mem_cons_self
  · rw [hnumbering]
    refine ⟨_, _, ?_, hguards.put accessor hfresh⟩
    simp [Expr.put]
  · obtain ⟨e, he, hcalls⟩ := hcalls
    have hmarked := (hcheck.marks hcat hpath (.refl _) u hon).2 n hnumber e he hcalls
    rcases Ty.isOn_cons.1 hon with hkey | hon
    · rw [hunmarked u hkey.symm] at hmarked
      cases hmarked
    · cases hon

end Guard

namespace Subject

variable {cat : Catalog} {limit : Nat} {accessor guard : Expr} {args : List Ty}
  {numbering : Numbering}

theorem walkWith_of_compiled {subject : Subject}
    (h : (subject.compile cat limit accessor args numbering).verdict = .ok (.compiled guard)) :
    ∃ s, subject.walkWith cat limit accessor args { numbering := numbering } = .ok guard s := by
  unfold compile at h
  split at h
  · next e s hwalk =>
      unfold judge at h
      simp only at h
      split at h
      · cases h
        exact ⟨s, Walk.raising_eq_ok.1 hwalk⟩
      · cases h
  · unfold judge at h
    simp only at h
    split at h <;> cases h
  · cases h

/-- Types, and the interfaces and aliases of a catalog. -/
def IsWhole (cat : Catalog) : Subject → Prop
  | decl d => cat.declared? d.id = some d ∧
      ((∃ heritage members, d.body = .interface heritage members) ∨ ∃ type?, d.body = .alias type?)
  | member _ => False
  | type _ => True

theorem exists_guards (hcat : cat.Plain) (hnamed : cat.Named) (hup : cat.Upholds cat.Declares)
    {subject : Subject} (hsubject : subject.IsWhole cat) (hargs : ∀ t ∈ args, t.Every cat.Declares)
    (haccessor : accessor.isPath = true)
    (h : (subject.compile cat limit accessor args numbering).verdict = .ok (.compiled guard)) :
    ∃ table path task, task.accessor = accessor ∧ Guards cat table [] path task guard := by
  obtain ⟨s, hwalk⟩ := walkWith_of_compiled h
  have hstart := Session.at_start numbering
  have hsound : ∀ {w : Walk Expr} {task : Task}, task.accessor = accessor →
      Guard.Sound cat w [] [] task → w { numbering := numbering } = .ok guard s →
      ∃ table path task, task.accessor = accessor ∧ Guards cat table [] path task guard := by
    intro w task htask hw hrun
    obtain ⟨p', hcompiles⟩ := (hw _).of_ok hstart hrun
    exact ⟨_, _, task, htask, hcompiles.guards_start hcat (by rw [htask]; exact haccessor)⟩
  cases subject with
  | member => exact hsubject.elim
  | type t =>
      unfold walkWith at hwalk
      split at hwalk
      · exact hsound rfl (Guard.ofType_sound cat limit [] [] t accessor) hwalk
      · cases hwalk
  | decl d =>
      obtain ⟨hfind, ⟨heritage, members, hbody⟩ | ⟨type?, hbody⟩⟩ := hsubject
      · have hkind : d.kind? ≠ none := by simp [Declaration.kind?, hbody]
        unfold walkWith at hwalk
        split at hwalk
        · simp only [walk, hbody] at hwalk
          exact hsound rfl (Guard.sound_ofInstance hnamed hup hfind hkind
            (fun _ hmem => absurd hmem List.not_mem_nil)) hwalk
        · exact hsound rfl (Guard.sound_ofInstance hnamed hup hfind hkind hargs) hwalk
      · unfold walkWith at hwalk
        split at hwalk
        · simp only [walk, hbody] at hwalk
          cases limit with
          | zero => cases hwalk
          | succ limit =>
              simp only [Guard.ofDeclaration, hbody] at hwalk
              cases type? with
              | none => cases hwalk
              | some t => exact hsound rfl (Guard.ofType_sound cat limit [] [] t accessor) hwalk
        · obtain ⟨p', task, path, htask, hguards⟩ :=
            (Guard.guards_ofInstance hcat hnamed hup hfind hbody hargs).of_ok hstart hwalk
          exact ⟨_, path, task, htask, hguards⟩

end Subject

end TypeGuard
