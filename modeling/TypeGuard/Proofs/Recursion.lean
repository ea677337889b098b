import TypeGuard.Proofs.Decision
import TypeGuard.Proofs.Fixpoints

/-! The recursive conditions in a guard: where they are called, and where there are none. -/

namespace TypeGuard

open Relation (ReflTransGen)

open Walk (Ties)

namespace Subject

def Plain : Subject → Prop
  | decl d => d.Plain
  | member p => ∀ c, p.key ≠ .computed c
  | type _ => True

/-- A declaration has to be the one that the catalog has under its name. -/
def IsListed (cat : Catalog) : Subject → Prop
  | decl d => cat.declared? d.id = some d
  | _ => True

/-- Where the check of a subject starts. -/
inductive StartsAt (args : List Ty) : Subject → Site → Prop
  | decl (d : Declaration) : StartsAt args (.decl d)
      (.declared (.ofPairs (d.params.zip args)) (Guard.instanceType d args) d)
  | member {p : Property} {t : Ty} (htype : p.type? = some t) :
      StartsAt args (.member p) (.type [] t)
  | type (t : Ty) : StartsAt args (.type t) (.type [] t)

variable {cat : Catalog} {least : Nat} {accessor : Expr} {subject : Subject} {p : Progress}
  (limit : Nat) (args : List Ty) (numbering : Numbering)

theorem ties_decl (hcat : cat.Uncomputed) (hleast : least ≤ 1)
    {d : Declaration} {root : Site} (hplain : d.Plain) (haccessor : accessor.isFlat = true)
    (hroot : root = .declared (.ofPairs (d.params.zip args)) (Guard.instanceType d args) d)
    (hstrict : least = 0 ∨ cat.declared? d.id = some d ∧ root.MeetsNoAlias cat) :
    Ties ((Subject.decl d).walkWith cat limit accessor args) [] [] p fun e p' =>
      Yields cat root least [] [] p [e] p' := by
  have hinstance := Guard.ties_instance (p := p) hcat hleast limit hplain haccessor hroot hstrict
  unfold walkWith
  split
  · next hempty =>
      rw [List.isEmpty_iff] at hempty
      subst hempty
      simp only [walk]
      split
      · exact hinstance
      · exact hinstance
      · have henv : Bindings.ofPairs (d.params.zip []) = [] := by
          rw [List.zip_nil_right]
          rfl
        rw [henv] at hroot
        subst hroot
        exact Guard.ties_ofDeclaration hcat hleast (hstrict.imp_right And.right) limit hplain .refl
          (fun τ hstep => .step .root hstep) ⟨.nil, List.nodup_nil⟩ haccessor
          fun _ _ _ hmem => absurd hmem List.not_mem_nil
  · exact hinstance

theorem ties_walkWith (hcat : cat.Uncomputed) (hsubject : subject.Plain)
    (haccessor : accessor.isFlat = true) (hleast : least ≤ 1)
    (hstrict : least = 0 ∨ subject.IsListed cat ∧
      ∀ root, subject.StartsAt args root → root.MeetsNoAlias cat) :
    Ties (subject.walkWith cat limit accessor args) [] [] p fun e p' =>
      ∃ root, subject.StartsAt args root ∧ Yields cat root least [] [] p [e] p' := by
  cases subject with
  | decl d =>
      refine (ties_decl limit args hcat hleast hsubject haccessor rfl ?_).mono ?_
      · exact hstrict.imp_right fun h => ⟨h.1, h.2 _ (.decl d)⟩
      · exact fun e p' h => ⟨_, .decl d, h⟩
  | member q =>
      unfold walkWith
      split
      · cases htype : q.type? with
        | none =>
            simp only [walk, Guard.ofProperty, htype]
            exact .throw (by simp)
        | some t =>
            have hvisit := Guard.ties_ofType (.type [] t) hcat.plain hleast limit
            refine (Guard.ties_property hleast hvisit hsubject ?_ ⟨.nil, List.nodup_nil⟩
              haccessor).mono fun e p' h => ⟨_, .member htype, h⟩
            intro u hu
            rw [htype] at hu
            cases hu
            exact .root
      · exact .throw (by simp [Guard.arityFault, Fault.unsupported])
  | type t =>
      unfold walkWith
      split
      · have hvisit := Guard.ties_ofType (.type [] t) hcat.plain hleast limit
        refine (hvisit [] [] [] p t accessor .root ⟨⟨.nil, List.nodup_nil⟩, haccessor, ?_⟩).mono ?_
        · exact fun _ hmem => absurd hmem List.not_mem_nil
        · exact fun e p' h => ⟨_, .type t, h⟩
      · exact .throw (by simp)

variable {limit args numbering} in
theorem walkWith_of_fresh
    (h : (subject.compile cat limit accessor args numbering).verdict =
      .error (.broken .freshParameter)) :
    ∃ s, subject.walkWith cat limit accessor args { numbering := numbering } =
      .error (.broken .freshParameter) s := by
  unfold compile at h
  split at h
  · unfold judge at h
    simp only at h
    split at h <;> cases h
  · unfold judge at h
    simp only at h
    split at h <;> cases h
  · next fault s _ hrun =>
      cases h
      obtain ⟨_, hrun, hraised⟩ := Walk.raising_eq_error.1 hrun
      exact ⟨s, Fault.eq_of_raised hraised nofun nofun ▸ hrun⟩

/-- The recursive conditions of a guard are tied in good order, and no parameter is ever in the way
of another. Calls are made on the parts of a value, unless the instance of an alias is met as an
object. There are no such conditions where nothing that can be come to comes to itself. -/
theorem compiled_is_disciplined (hcat : cat.Uncomputed)
    (hsubject : subject.Plain) (haccessor : accessor.isFlat = true) :
    (subject.compile cat limit accessor args numbering).verdict ≠ .error (.broken .freshParameter) ∧
    ∀ guard, (subject.compile cat limit accessor args numbering).verdict = .ok (.compiled guard) →
      guard.Disciplined 0 [] ∧
      (subject.IsListed cat → (∀ root, subject.StartsAt args root → root.MeetsNoAlias cat) →
        guard.Disciplined 1 []) ∧
      ((∀ root σ, subject.StartsAt args root → ReflTransGen (Site.Step cat) root σ →
        ¬σ.IsCyclic cat) → guard.isFlat = true) := by
  have hstart := Session.at_start numbering
  have hties := ties_walkWith (p := ⟨numbering, []⟩) limit args hcat hsubject haccessor
    (Nat.zero_le 1) (.inl rfl)
  refine ⟨fun h => ?_, fun guard h => ?_⟩
  · obtain ⟨s, hrun⟩ := walkWith_of_fresh h
    exact hties.fresh _ s hstart hrun
  · obtain ⟨s, hrun⟩ := walkWith_of_compiled h
    obtain ⟨p', root, hroot, hyields⟩ := hties.meets.of_ok hstart hrun
    refine ⟨hyields.disciplined guard List.mem_cons_self, fun hlisted hnone =>
      ?_, fun hacyclic => ?_⟩
    · have hstrict := ties_walkWith (p := ⟨numbering, []⟩) limit args hcat hsubject haccessor
        (Nat.le_refl 1) (.inr ⟨hlisted, hnone⟩)
      obtain ⟨p', root, _, hyields⟩ := hstrict.meets.of_ok hstart hrun
      exact hyields.disciplined guard List.mem_cons_self
    · by_contra hrecursive
      obtain ⟨σ, hreached, hcyclic⟩ :=
        hyields.cyclic ⟨guard, List.mem_cons_self, Bool.not_eq_true _ ▸ hrecursive⟩
      exact hacyclic root σ hroot hreached hcyclic

end Subject

namespace Site

variable {cat : Catalog} {env : Bindings} {name key : String} {τ : Site}

theorem not_step_primitive : ¬Step cat (.type env (.primitive name)) τ := by
  intro hstep
  cases hstep with
  | follow hfollow => cases hfollow
  | property hknot _ _ _ _ => cases hknot
  | keyed hknot _ _ _ => cases hknot

theorem eq_of_reaches_primitive (h : ReflTransGen (Step cat) (.type env (.primitive name)) τ) :
    τ = .type env (.primitive name) := by
  rcases h.cases_head with rfl | ⟨_, hstep, _⟩
  · rfl
  · exact absurd hstep not_step_primitive

theorem step_box {t : Ty}
    (h : Step (.ofBox key (.primitive name)) (.declared env t (boxOf key (.primitive name))) τ) :
    τ = .type env (.primitive name) := by
  cases h with
  | member hp htype =>
      rw [List.mem_singleton.1 hp] at htype
      cases htype
      rfl
  | base hbases hbase _ _ =>
      cases hbases
      cases hbase
  | body hbody => cases hbody

theorem acyclic_box {root σ : Site} {args : List Ty}
    (hroot : (Subject.decl (boxOf key (.primitive name))).StartsAt args root)
    (h : ReflTransGen (Step (.ofBox key (.primitive name))) root σ) :
    ¬σ.IsCyclic (.ofBox key (.primitive name)) := by
  rintro ⟨t, τ, u, hfor, hbelow, hfor', _⟩
  cases hroot
  obtain ⟨_, hfirst, hrest⟩ := Relation.TransGen.head'_iff.1 (hbelow.trans_right h)
  rw [step_box hfirst] at hrest
  rw [eq_of_reaches_primitive hrest] at hfor'
  cases hfor' with
  | type hknot => cases hknot

end Site

/-- An interface around a box that may hold others. -/
def wrap : Declaration where
  name := "Wrap"
  body := .interface [] [⟨.str "box", some (.name "Box" []), false, none, .listed "Wrap"⟩]

def Catalog.wrapped : Catalog :=
  { entries := [(.listed "Box", boxOf "next" nextBox), (.listed "Wrap", wrap)] }

def wrapGuard : Expr :=
  let slot := Ident.slot 1
  let label := Guard.label (.object .interface (.listed "Box") []) 1
  let next := Expr.elem (.ident slot) (.const (.str "next"))
  Guard.whole (.named "x") [.fix label slot
    (Guard.whole (.ident slot) [.anyOf [.equalTo next .null, .recur label next]])
    (.elem (.named "x") (.const (.str "box")))]

theorem compile_wrap : ((Subject.decl wrap).compile .wrapped 8 (.named "x") [] {}).verdict =
    .ok (.compiled wrapGuard) :=
  Outcome.verdict_of_guard? (by decide +kernel)

theorem Subject.compiled_is_disciplined_wrap :
    ((Subject.decl wrap).compile .wrapped 8 (.named "x") [] {}).verdict ≠
      .error (.broken .freshParameter) ∧ wrapGuard.Disciplined 1 [] ∧
    ∃ guard, ((Subject.decl (boxOf "size" (.primitive "number"))).compile
        (.ofBox "size" (.primitive "number")) 4 (.named "x") [] {}).verdict =
          .ok (.compiled guard) ∧
      guard.isFlat = true := by
  have hplain : Catalog.wrapped.Uncomputed := by
    refine Catalog.forall_of_entries ?_
    simp [Catalog.wrapped, wrap, boxOf, Declaration.Plain, Declaration.listed, Declaration.members]
  have hnone : ∀ root, (Subject.decl wrap).StartsAt [] root → root.MeetsNoAlias .wrapped := by
    rintro root _ σ t _ _ ⟨decl, d, type?, _, hfind, hbody⟩
    have hinterfaces : ∀ i d, Catalog.wrapped.declared? i = some d → d.body ≠ .alias type? := by
      refine Catalog.forall_of_entries ?_
      simp [Catalog.wrapped, wrap, boxOf]
    exact hinterfaces decl d hfind hbody
  have hsize : (Catalog.ofBox "size" (.primitive "number")).Uncomputed := by
    refine Catalog.forall_of_entries ?_
    simp [Catalog.ofBox, boxOf, Declaration.Plain, Declaration.listed, Declaration.members]
  have hwrap : (Subject.decl wrap).Plain := hplain (.listed "Wrap") wrap rfl
  have hbox : (Subject.decl (boxOf "size" (.primitive "number"))).Plain :=
    hsize (.listed "Box") _ rfl
  have hx : (Expr.named "x").isFlat = true := rfl
  obtain ⟨hfresh, hguard⟩ := Subject.compiled_is_disciplined 8 [] {} hplain hwrap hx
  obtain ⟨_, hflat⟩ := Subject.compiled_is_disciplined 4 [] {} hsize hbox hx
  refine ⟨hfresh, (hguard wrapGuard compile_wrap).2.1 rfl hnone, _, rfl, (hflat _ rfl).2.2 ?_⟩
  exact fun root σ hroot => Site.acyclic_box hroot

theorem Site.below_wrap {t : Ty} {τ : Site}
    (h : Relation.TransGen (Site.Step .wrapped) (.declared [] t wrap) τ) :
    ∃ u ∈ [Ty.name "Box" [], .object .interface (.listed "Box") [], nextBox, .primitive "null"],
      τ = .type [] u := by
  induction h with
  | single hstep =>
      cases hstep with
      | member hp htype =>
          rw [List.mem_singleton.1 hp] at htype
          cases htype
          exact ⟨_, by simp, rfl⟩
      | base hbases hbase _ _ =>
          cases hbases
          cases hbase
      | body hbody => cases hbody
  | tail _ hstep ih =>
      obtain ⟨u, hu, rfl⟩ := ih
      simp only [List.mem_cons, List.not_mem_nil, or_false] at hu
      -- From the name to the box, to what the box holds, and from there to nothing or to the name.
      rcases hu with rfl | rfl | rfl | rfl
      · cases hstep with
        | follow hfollow =>
            cases hfollow with
            | name hresolve =>
                cases hresolve
                exact ⟨.object .interface (.listed "Box") [], by simp, rfl⟩
        | property hknot _ _ _ _ => cases hknot
        | keyed hknot _ _ _ => cases hknot
      · cases hstep with
        | follow hfollow => cases hfollow
        | property _ hbindings hproperties hp htype =>
            cases hbindings
            cases hproperties
            rw [List.mem_singleton.1 hp] at htype
            cases htype
            exact ⟨_, by simp, rfl⟩
        | keyed _ _ hhead _ => cases hhead
      · unfold nextBox at hstep
        cases hstep with
        | follow hfollow => cases hfollow
        | union hmember =>
            simp only [List.mem_cons, List.not_mem_nil, or_false] at hmember
            rcases hmember with rfl | rfl
            · exact ⟨_, by simp, rfl⟩
            · exact ⟨_, by simp, rfl⟩
        | property hknot _ _ _ _ => cases hknot
        | keyed hknot _ _ _ => cases hknot
      · exact absurd hstep Site.not_step_primitive

/-- What does not come to itself can come to something that does. The instance of an alias can be
called on the whole value. -/
theorem Subject.recursive_without_itself :
    (¬(Site.declared [] (.object .interface (.listed "Wrap") []) wrap).IsCyclic .wrapped ∧
      ((Subject.decl wrap).compile .wrapped 8 (.named "x") [] {}).verdict =
        .ok (.compiled wrapGuard) ∧
      wrapGuard.isFlat = false) ∧
    (((Subject.decl maybe).compile .looped 8 (.named "x") [.primitive "string"] {}).verdict =
        .ok (.compiled maybeGuard) ∧ ¬maybeGuard.Disciplined 1 []) := by
  refine ⟨⟨?_, compile_wrap, rfl⟩, compile_maybe, ?_⟩
  · rintro ⟨t, τ, w, hfor, hbelow, hfor', hkey⟩
    cases hfor
    obtain ⟨u, hu, rfl⟩ := Site.below_wrap hbelow
    cases hfor' with
    | type hknot =>
        simp only [List.mem_cons, List.not_mem_nil, or_false] at hu
        rcases hu with rfl | rfl | rfl | rfl
        · cases hknot
        · exact absurd hkey (by decide)
        · cases hknot
        · cases hknot
  · rintro ⟨_, _, ⟨_, _, n, hn, hdescends⟩, _⟩
    cases hdescends
    cases hn

end TypeGuard
