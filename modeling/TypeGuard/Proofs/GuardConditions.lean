import TypeGuard.Proofs.Agreement
import TypeGuard.Proofs.Conditions
import TypeGuard.Proofs.Recursion

/-! Whatever is compiled from plain names and finite numbers is a condition on the value that the
accessor reads. -/

namespace TypeGuard

namespace Expr

theorem put_pathOf (x : Ident) (keys : List String) (r : Ident) (keys' : List String) :
    (pathOf x keys).put x (pathOf r keys') = pathOf r (keys' ++ keys) := by
  induction keys using List.reverseRecOn with
  | nil => rw [List.append_nil, pathOf, List.foldl_nil, put, if_pos rfl]
  | append_singleton keys key ih =>
      rw [pathOf_concat, put, ih, put, ← List.append_assoc, pathOf_concat]

theorem eq_of_reads_pathOf {r x : Ident} {keys : List String} (h : (pathOf r keys).Reads x) :
    x = r := by
  induction keys using List.reverseRecOn with
  | nil => exact h.symm
  | append_singleton keys key ih =>
      rw [pathOf_concat] at h
      exact h.elim ih False.elim

namespace Condition

variable {r x : Ident} {e : Expr} {es : List Expr}

theorem allOf (h : ∀ e ∈ es, Condition r e) : Condition r (allOf es) := by
  cases es with
  | nil => exact .truth r true
  | cons first rest =>
      exact (foldl_iff_forall
        (fun _ _ => ⟨of_join (j := .and), fun h => .and h.1 h.2⟩) first rest).2 h

theorem anyOf (h : ∀ e ∈ es, Condition r e) : Condition r (anyOf es) := by
  cases es with
  | nil => exact .truth r false
  | cons first rest =>
      exact (foldl_iff_forall
        (fun _ _ => ⟨of_join (j := .or), fun h => .or h.1 h.2⟩) first rest).2 h

theorem whole (keys : List String) (h : ∀ e ∈ es, Condition r e) :
    Condition r (Guard.whole (pathOf r keys) es) := by
  refine allOf fun e he => ?_
  rcases List.mem_append.1 he with htest | he
  · rcases List.mem_cons.1 htest with rfl | htest
    · exact .kind r keys "object"
    · rw [List.mem_singleton.1 htest]
      exact .present r keys
  · exact h e he

theorem eq_of_reads (h : Condition r e) (hreads : e.Reads x) : x = r := by
  induction h with
  | truth => cases hreads
  | kind | equal | present => exact hreads.elim eq_of_reads_pathOf False.elim
  | and _ _ iha ihb | or _ _ iha ihb => exact hreads.elim iha ihb
  | call => exact eq_of_reads_pathOf hreads
  | fix _ _ _ _ ih =>
      rcases hreads with ⟨hne, hbody⟩ | harg
      · exact absurd (ih hbody).symm hne
      · exact eq_of_reads_pathOf harg

theorem put (h : Condition x e) (hfresh : e.Fresh x) (r : Ident) (keys : List String) :
    Condition r (e.put x (pathOf r keys)) := by
  induction h with
  | truth _ b => exact .truth r b
  | kind _ keys' name =>
      simp only [Expr.put, put_pathOf]
      exact .kind r _ name
  | equal _ keys' hv =>
      simp only [Expr.put, put_pathOf]
      exact .equal r _ hv
  | present _ keys' =>
      simp only [Expr.put, put_pathOf]
      exact .present r _
  | and _ _ iha ihb => exact .and (iha hfresh.1) (ihb hfresh.2)
  | or _ _ iha ihb => exact .or (iha hfresh.1) (ihb hfresh.2)
  | call _ keys' hl =>
      simp only [Expr.put, put_pathOf]
      exact .call r _ hl
  | @fix x keys' l n body hl hbody _ =>
      have hbody' : body.put x (pathOf r keys) = body := by
        refine put_eq_self _ hfresh.2.1 fun hreads => ?_
        exact hfresh.1 (hbody.eq_of_reads hreads).symm
      simp only [Expr.put, put_pathOf, hbody']
      exact .fix r _ hl hbody

end Condition

end Expr

namespace Ty

/-- Numbers are finite, and objects go by plain names. -/
def IsTame : Ty → Prop
  | literal (.scalar s) => s.IsFinite
  | object _ decl _ => Text.IsDotted decl.qualified
  | ref target _ => target.IsTame
  | _ => True

theorem IsTame.head {t : Ty} (h : t.IsTame) : t.head.IsTame := by
  cases t with
  | ref target args => exact h
  | _ => exact h

theorem stable_isTame : Stable IsTame := by
  refine ⟨fun _ => trivial, fun σ t hparam h => ?_⟩
  cases t with
  | param x => exact absurd rfl (hparam x)
  | literal v => exact h
  | object kind decl elements => exact h
  | ref target args => exact h
  | _ => trivial

end Ty

namespace Guard

theorem isLabel_label {t : Ty} (h : t.IsTame) (n : Nat) : (label t n).IsLabel := by
  have hhead := h.head
  have hword : (labelText t).toList.all Text.isWord = true := by
    unfold labelText
    split
    · next kind decl elements hobject =>
        rw [hobject] at hhead
        rw [String.toList_map, List.all_map, List.all_eq_true]
        intro c hc
        rcases Text.IsDotted.isWord_or hhead c hc with hc | rfl
        · simp only [Function.comp_apply]
          split
          · rfl
          · exact hc
        · rfl
    · rfl
  exact hword

theorem condition_of_tie {t : Ty} {n : Nat} {recursive : Bool} {body e : Expr} {r : Ident}
    {keys : List String} (ht : t.IsTame) (hbody : Expr.Condition (.slot n) body)
    (h : tie recursive (label t n) (.slot n) body (.pathOf r keys) = .ok e) :
      Expr.Condition r e := by
  cases recursive with
  | true =>
      cases h
      exact .fix r keys (isLabel_label ht n) hbody
  | false =>
      obtain ⟨hfresh, rfl⟩ := Expr.replace_eq_ok.1 h
      exact hbody.put hfresh r keys

end Guard

theorem Test.isFinite {t : Ty} {v : Scalar} (ht : t.IsTame) (h : ofType? t = some (.equals v)) :
    v.IsFinite := by
  cases t with
  | primitive s =>
      simp only [ofType?, ofPrimitive?] at h
      split at h <;> cases h
      trivial
  | literal value =>
      simp only [ofType?, ofLiteral?] at h
      split at h <;> cases h
      · trivial
      · trivial
      · exact ht
  | boolean b =>
      cases h
      trivial
  | _ => cases h

theorem Test.condition {t : Ty} {test : Test} (ht : t.IsTame)
    (h : ofType? t = some test) (r : Ident)
    (keys : List String) : Expr.Condition r (test.expr (.pathOf r keys)) := by
  cases test with
  | always => exact .truth r true
  | never => exact .truth r false
  | object => exact Expr.Condition.whole keys fun _ hmem => absurd hmem List.not_mem_nil
  | typeOf name => exact .kind r keys name
  | equals value => exact .equal r keys (isFinite ht h)

/-- Names are plain identifiers, keys are not computed, and numbers are finite. -/
structure Declaration.IsTame (d : Declaration) : Prop where
  name : Text.IsName d.name
  scope : ∀ s ∈ d.scope, Text.IsName s
  plain : d.Plain
  types : ∀ t, d.Lists t → t.Every Ty.IsTame
  property : ∀ p t, d.body = .property p → p.type? = some t → t.Every Ty.IsTame

theorem Declaration.IsTame.qualified {d : Declaration} (h : d.IsTame) :
    Text.IsDotted d.qualified := by
  refine ⟨d.scope ++ [d.name], fun s hs => ?_, rfl⟩
  rcases List.mem_append.1 hs with hs | hs
  · exact h.scope s hs
  · rw [List.mem_singleton.1 hs]
    exact h.name

namespace Catalog

/-- Every declaration is tame. -/
def IsTame (cat : Catalog) : Prop :=
  ∀ i d, cat.declared? i = some d → d.IsTame

variable {cat : Catalog}

theorem IsTame.persists (h : cat.IsTame) : cat.Persists Ty.IsTame :=
  ⟨Ty.stable_isTame, fun i d t hfind hlists => (h i d hfind).types t hlists,
    fun i d _ hfind _ => (h i d hfind).qualified, fun i d _ _ hfind _ => (h i d hfind).qualified,
    fun _ _ _ _ _ => trivial⟩

theorem IsTame.uncomputed (h : cat.IsTame) : cat.Uncomputed :=
  fun s d hfind => (h s d hfind).plain

end Catalog

/-- The task is about what a path from the name reads, in tame types. -/
structure Task.IsTame (r : Ident) (task : Task) : Prop where
  type : task.type.Every Ty.IsTame
  env : ∀ binding ∈ task.env, binding.2.Every Ty.IsTame
  accessor : ∃ keys, task.accessor = .pathOf r keys

theorem Part.isTame_task {part : Part} (hplain : part.Plain) (htype : part.type.Every Ty.IsTame)
    (henv : ∀ binding ∈ part.env, binding.2.Every Ty.IsTame) (r : Ident) (keys : List String) :
    (part.task (.pathOf r keys)).IsTame r := by
  refine ⟨htype, henv, ?_⟩
  rcases hplain with ⟨_, hnone⟩ | ⟨_, key, hsome⟩
  · exact ⟨keys, by rw [task, accessor, hnone]⟩
  · exact ⟨keys ++ [key], by rw [task, accessor, hsome, Expr.pathOf_concat]⟩

namespace Compiles

variable {cat : Catalog} {path : List Ty} {tasks : List Task} {p p' : Progress}
  {es : List Expr} {r : Ident}

/-- The checks of types are conditions on what is read. -/
theorem conditions (hcat : cat.IsTame) (h : Compiles cat path tasks p es p')
    (hflat : ∀ task ∈ tasks, task.declared = false) (htasks : ∀ task ∈ tasks, task.IsTame r) :
    ∀ e ∈ es, Expr.Condition r e := by
  have hpersists := hcat.persists
  induction h generalizing r with
  | nil => exact fun e he => absurd he List.not_mem_nil
  | cons _ _ ihfirst ihrest =>
      rw [List.forall_mem_cons] at hflat htasks
      rw [List.forall_mem_cons]
      refine ⟨?_, ihrest hflat.2 htasks.2⟩
      exact List.forall_mem_singleton.1
        (ihfirst (List.forall_mem_singleton.2 hflat.1) (List.forall_mem_singleton.2 htasks.1))
  | test htest =>
      rw [List.forall_mem_singleton] at htasks ⊢
      obtain ⟨htype, _, keys, rfl⟩ := htasks
      exact Test.condition htype.1 htest r keys
  | follow hfollow _ ih =>
      rw [List.forall_mem_singleton] at htasks
      refine ih (List.forall_mem_singleton.2 rfl)
        (List.forall_mem_singleton.2 ⟨?_, htasks.env, htasks.accessor⟩)
      exact hpersists.follows htasks.env htasks.type hfollow
  | target _ _ ih =>
      rw [List.forall_mem_singleton] at htasks
      refine ih (List.forall_mem_singleton.2 rfl)
        (List.forall_mem_singleton.2 ⟨?_, htasks.env, htasks.accessor⟩)
      exact ⟨htasks.type.1, htasks.type.2.1⟩
  | union _ ih =>
      rw [List.forall_mem_singleton] at htasks ⊢
      refine .anyOf (ih (by simp) fun task htask => ?_)
      obtain ⟨t, ht, rfl⟩ := List.mem_map.1 htask
      exact ⟨Ty.insideList_iff.1 htasks.type.2 t ht, htasks.env, htasks.accessor⟩
  | inter _ ih =>
      rw [List.forall_mem_singleton] at htasks ⊢
      refine .allOf (ih (by simp) fun task htask => ?_)
      obtain ⟨t, ht, rfl⟩ := List.mem_map.1 htask
      exact ⟨Ty.insideList_iff.1 htasks.type.2 t ht, htasks.env, htasks.accessor⟩
  | again _ _ =>
      rw [List.forall_mem_singleton] at htasks ⊢
      obtain ⟨htype, henv, keys, rfl⟩ := htasks
      exact .call r keys (Guard.isLabel_label (Ty.stable_isTame.knot henv htype).1 _)
  | @knot _ task t parts p _ _ _ hknot _ hparts _ htie ih =>
      rw [List.forall_mem_singleton] at hflat htasks ⊢
      rw [hflat] at hparts
      cases hknot with
      | declared => cases hflat
      | flat =>
          obtain ⟨htype, henv, keys, rfl⟩ := htasks
          have ht := Ty.stable_isTame.knot henv htype
          refine Guard.condition_of_tie ht.1
            (.whole [] (ih (hparts.flat _) fun task htask => ?_)) htie
          obtain ⟨part, hpart, rfl⟩ := List.mem_map.1 htask
          obtain ⟨hpartType, hpartEnv⟩ :=
            hpersists.parts (fun _ => trivial) henv ht hparts part hpart
          exact Part.isTame_task (hparts.plain hcat.uncomputed.plain hpart) hpartType hpartEnv _ []
  | mapped _ _ ih =>
      rw [List.forall_mem_singleton] at htasks ⊢
      obtain ⟨htype, henv, keys, rfl⟩ := htasks
      refine .whole keys (ih (by simp [Part.ofKeys, Part.task]) fun task htask => ?_)
      obtain ⟨part, hpart, rfl⟩ := List.mem_map.1 htask
      refine Part.isTame_task (Part.plain_ofKeys hpart) ?_ ?_ r keys
      · obtain ⟨key, _, rfl⟩ := List.mem_map.1 hpart
        exact htype.2.2
      · obtain ⟨key, _, rfl⟩ := List.mem_map.1 hpart
        exact Catalog.every_key_binding (fun _ => trivial) _ key henv
  | index hobject _ htypes hbindings _ ih =>
      rw [List.forall_mem_singleton] at htasks ⊢
      refine .anyOf (ih (by simp) fun task htask => ?_)
      obtain ⟨t, ht, rfl⟩ := List.mem_map.1 htask
      have ho := hpersists.exposes htasks.env htasks.type.2.1 hobject
      exact ⟨hpersists.propertyTypes htypes ht,
        Catalog.every_append (hpersists.bindings ho hbindings) htasks.env, htasks.accessor⟩
  | keyOf _ =>
      rw [List.forall_mem_singleton] at htasks ⊢
      obtain ⟨_, _, keys, rfl⟩ := htasks
      refine .anyOf fun e he => ?_
      obtain ⟨key, _, rfl⟩ := List.mem_map.1 he
      exact .equal r keys trivial

end Compiles

/-- A condition on what the accessor reads, if the accessor is a path. -/
def Expr.Concerns (e a : Expr) : Prop :=
  ∀ ⦃r : Ident⦄ ⦃keys : List String⦄, a = .pathOf r keys → Condition r e

namespace Guard

open Walk (Meets)

variable {cat : Catalog} {env : Bindings} {path : List Ty} {p : Progress} {a : Expr}

theorem meets_ofType (hcat : cat.IsTame) (limit : Nat) {t : Ty} (ht : t.Every Ty.IsTame)
    (henv : ∀ binding ∈ env, binding.2.Every Ty.IsTame) :
    Meets True (ofType cat limit t a) env path p fun e _ => e.Concerns a := by
  refine (ofType_sound cat limit env path t a p).mono fun e p' h r keys ha => ?_
  exact List.forall_mem_singleton.1 (h.conditions hcat (List.forall_mem_singleton.2 rfl)
    (List.forall_mem_singleton.2 ⟨ht, henv, keys, ha⟩))

theorem meets_ofProperty (hcat : cat.IsTame) (limit : Nat) {q : Property}
    (hplain : ∀ c, q.key ≠ .computed c) (htype : ∀ t, q.type? = some t → t.Every Ty.IsTame)
    (henv : ∀ binding ∈ env, binding.2.Every Ty.IsTame) :
    Meets True (ofProperty cat (ofType cat limit) q a) env path p fun e _ => e.Concerns a := by
  refine (meets_property (ofType_sound cat limit) q a p).mono ?_
  rintro e p' ⟨part, ⟨t, index, ht, hindex, rfl⟩, h⟩ r keys rfl
  rw [PropertyKey.index_of_plain hplain] at hindex
  cases hindex
  refine List.forall_mem_singleton.1 (h.conditions hcat (List.forall_mem_singleton.2 rfl)
    (List.forall_mem_singleton.2 ⟨htype t ht, henv, keys ++ [q.key.name.text], ?_⟩))
  exact (Expr.pathOf_concat ..).symm

theorem meets_mapM {α : Type} {f : α → Walk Expr} {xs : List α}
    (h : ∀ x ∈ xs, ∀ p, Meets True (f x) env path p fun e _ => e.Concerns a) :
    Meets True (xs.mapM f) env path p fun es _ => ∀ e ∈ es, e.Concerns a := by
  induction xs generalizing p with
  | nil => exact .pure fun e he => absurd he List.not_mem_nil
  | cons x rest ih =>
      rw [List.mapM_cons]
      refine .bind ((h x List.mem_cons_self p).mono fun e p' he => ?_)
      refine .bind ((ih fun y hy => h y (List.mem_cons_of_mem _ hy)).mono fun es p'' hes => ?_)
      exact .pure (List.forall_mem_cons.2 ⟨he, hes⟩)

theorem meets_tied {build : Expr → Walk Expr} {t : Ty} (ht : t.IsTame)
    (hbuild : ∀ slot p, Meets True (build slot) env (t :: path) p fun e _ => e.Concerns slot) :
    Meets True (knot t a build) env path p fun e _ => e.Concerns a := by
  refine (meets_knot hbuild).mono ?_
  rintro e p' (⟨_, rfl, _⟩ | ⟨_, body, p'', hbody, htie, _⟩) r keys rfl
  · exact .call r keys (isLabel_label ht _)
  · exact condition_of_tie ht (hbody (show _ = Expr.pathOf _ [] from rfl)) htie

theorem meets_ofBase (hcat : cat.IsTame) {declared : Declaration → Expr → Walk Expr}
    {heir : Declaration}
    {base : Ty} (hbase : base.Every Ty.IsTame) (henv : ∀ binding ∈ env, binding.2.Every Ty.IsTame)
    (hdeclared : ∀ {d env path p slot}, d.IsTame → (∀ binding ∈ env, binding.2.Every Ty.IsTame) →
      Meets True (declared d slot) env path p fun e _ => e.Concerns slot) :
    Meets True (ofBase cat declared heir base a) env path p fun e _ => e.Concerns a := by
  unfold ofBase
  split
  · next decl elements hhead =>
      refine .bind (.isActive ?_)
      by_cases hon : base.IsOn path
      · simp only [hon, if_true]
        exact .throw trivial
      · simp only [Bool.not_eq_true] at hon
        simp only [hon, Bool.false_eq_true, if_false]
        cases hfind : cat.declared? decl with
        | none => exact .throw trivial
        | some d =>
            refine .withFrame (meets_tied hbase.1 fun slot p => ?_)
            refine hdeclared (hcat decl d hfind)
              (Catalog.every_append (fun binding hmem => ?_) henv)
            exact hbase.args (List.of_mem_zip (Bindings.mem_of_mem_ofPairs hmem)).2
  · exact .throw trivial

theorem meets_ofDeclaration (hcat : cat.IsTame) (limit : Nat) {d : Declaration} (hd : d.IsTame)
    (henv : ∀ binding ∈ env, binding.2.Every Ty.IsTame) :
    Meets True (ofDeclaration cat limit d a) env path p fun e _ => e.Concerns a := by
  induction limit generalizing d env path p a with
  | zero => exact .throw trivial
  | succ limit ih =>
      cases hbody : d.body with
      | interface heritage members =>
          simp only [ofDeclaration, hbody]
          refine .bind (.note (.bind (.ofExcept (fun bases hbases => ?_) fun _ _ => trivial)))
          have hinherited : ∀ base ∈ bases, ∀ p, Meets True (do
              let base ← Walk.instantiate base
              ofBase cat (ofDeclaration cat limit) d base a) env path p fun e _ =>
                e.Concerns a := by
            intro base hbase p
            refine .bind (.instantiate ?_)
            obtain ⟨clause, hclause, hresolve⟩ :=
              exists_of_forall₂_right (mapM_eq_ok.1 hbases) hbase
            have hevery : base.Every Ty.IsTame :=
              hcat.persists.resolve (fun u hu => hd.types u (.argument hclause hu)) hresolve
            exact meets_ofBase hcat (Ty.stable_isTame.substitute henv hevery) henv fun hd henv =>
              ih hd henv
          have hown :
              ∀ q ∈ members, ∀ p, Meets True (ofProperty cat (ofType cat limit) q a) env path p
              fun e _ => e.Concerns a := by
            intro q hq p
            have hmember : q ∈ d.members := by simpa only [Declaration.members, hbody] using hq
            exact meets_ofProperty hcat limit (hd.plain q (Declaration.mem_listed hmember))
              (fun t ht => hd.types t (.member hmember ht)) henv
          refine .bind ((meets_mapM hinherited).mono fun es p' hes => ?_)
          refine .bind ((meets_mapM hown).mono fun es' p'' hes' => .pure ?_)
          rintro r keys rfl
          rw [List.append_assoc]
          refine .whole keys fun e he => ?_
          exact (List.mem_append.1 he).elim (fun he => hes e he rfl) fun he => hes' e he rfl
      | nominal heritage members =>
          simp only [ofDeclaration, hbody]
          exact .throw trivial
      | «alias» type? =>
          cases type? with
          | none =>
              simp only [ofDeclaration, hbody]
              exact .throw trivial
          | some t =>
              simp only [ofDeclaration, hbody]
              exact meets_ofType hcat limit (hd.types t (.body hbody)) henv
      | property q =>
          simp only [ofDeclaration, hbody]
          have hlisted : q ∈ d.listed := by
            simp only [Declaration.listed, hbody, List.mem_singleton]
          exact meets_ofProperty hcat limit (hd.plain q hlisted)
            (fun t ht => hd.property q t hbody ht) henv
      | bare =>
          simp only [ofDeclaration, hbody]
          exact .throw trivial

end Guard

namespace Subject

/-- Names are plain identifiers, keys are not computed, and numbers are finite. -/
def IsTame : Subject → Prop
  | decl d => d.IsTame
  | member p => (∀ c, p.key ≠ .computed c) ∧ ∀ t, p.type? = some t → t.Every Ty.IsTame
  | type t => t.Every Ty.IsTame

variable {cat : Catalog} {limit : Nat} {a guard : Expr} {args : List Ty} {numbering : Numbering}
  {subject : Subject} {p : Progress}

theorem meets_walkWith (hcat : cat.IsTame) (hsubject : subject.IsTame)
    (hargs : ∀ t ∈ args, t.Every Ty.IsTame) :
    Walk.Meets True (subject.walkWith cat limit a args) [] [] p fun e _ => e.Concerns a := by
  have hnone : ∀ binding ∈ ([] : Bindings), binding.2.Every Ty.IsTame := fun _ hmem =>
    absurd hmem List.not_mem_nil
  cases subject with
  | decl d =>
      have hinstance : Walk.Meets True (Guard.ofInstance cat limit d args a) [] [] p
          fun e _ => e.Concerns a := by
        have htame : (Guard.instanceType d args).IsTame := by
          unfold Guard.instanceType
          split
          · exact hsubject.qualified
          · exact hsubject.qualified
        refine Guard.meets_ofInstance (Guard.meets_tied htame fun slot p => ?_)
        refine Guard.meets_ofDeclaration hcat limit hsubject fun binding hmem => ?_
        exact hargs _ (List.of_mem_zip (Bindings.mem_of_mem_ofPairs hmem)).2
      unfold walkWith
      split
      · next hempty =>
          rw [List.isEmpty_iff] at hempty
          subst hempty
          simp only [walk]
          split
          · exact hinstance
          · exact hinstance
          · exact Guard.meets_ofDeclaration hcat limit hsubject hnone
      · exact hinstance
  | member q =>
      unfold walkWith
      split
      · exact Guard.meets_ofProperty hcat limit hsubject.1 hsubject.2 hnone
      · exact .throw trivial
  | type t =>
      unfold walkWith
      split
      · exact Guard.meets_ofType hcat limit hsubject hnone
      · exact .throw trivial

/-- Whatever is compiled is a condition on what the accessor reads. -/
theorem condition_of_compiled {r : Ident} {keys : List String} (hcat : cat.IsTame)
    (hsubject : subject.IsTame) (hargs : ∀ t ∈ args, t.Every Ty.IsTame)
    (h : (subject.compile cat limit (.pathOf r keys) args numbering).verdict =
      .ok (.compiled guard)) :
    Expr.Condition r guard := by
  obtain ⟨s, hwalk⟩ := walkWith_of_compiled h
  obtain ⟨_, hconcerns⟩ :=
    (meets_walkWith hcat hsubject hargs).of_ok (Session.at_start numbering) hwalk
  exact hconcerns rfl

end Subject

end TypeGuard
