import TypeGuard.Proofs.IdentityMapped

/-! Two ways to an alias with arguments: as its body inside a frame that binds the parameters, and
by its name, for which the body is rewritten or referred to. -/

namespace TypeGuard

open Relation (ReflTransGen)

variable {cat : Catalog} {marks : TypeParam → Bool} {d : Declaration} {body : Ty} {args : List Ty}

namespace Catalog

/-- A generic alias of the catalog, with closed types for its parameters. -/
structure AliasInstance (cat : Catalog) (marks : TypeParam → Bool) (d : Declaration) (body : Ty)
    (args : List Ty) : Prop where
  find : cat.find? d.qualified = some d
  body_eq : d.body = .alias (some body)
  generic : d.params ≠ []
  arity : args.length = d.params.length
  fits : ∀ u ∈ args, u.Every (cat.Fits marks)
  closed : ∀ u ∈ args, u.free = []
  unmapped : ∀ u ∈ args, u.unmapped = true

/-- Nothing is inherited by an alias, so it can be on a path. -/
theorem treads_instanceType {type? : Option Ty} (hfind : cat.declared? d.id = some d)
    (hbody : d.body = .alias type?) (args : List Ty) : cat.Treads [Guard.instanceType d args] := by
  have hhead := Guard.head_instanceType d args
  have hbases : cat.bases (.object .interface d.id []) = .ok [] := by
    simp only [bases, Ty.head, hfind, basesOf, Declaration.heritage, hbody]
    rfl
  have hfound : cat.ancestors (.object .interface d.id []) = .ok [] := by
    rw [ancestors, hbases]
    rfl
  exact List.forall_mem_singleton.2
    ⟨Ty.isKnot_of_head hhead, _, (bindings_of_interface hhead).2 ⟨[], hfound, rfl⟩⟩

namespace AliasInstance

variable {key : Expr → Reading} {r : Reading} {b : Bool}

theorem declared (hcat : cat.WellScoped marks) (h : cat.AliasInstance marks d body args) :
    cat.declared? d.id = some d := by
  rw [hcat.named _ d h.find]
  exact h.find

theorem params_eq_nil (h : cat.AliasInstance marks d body args) {u : Ty} (hu : u ∈ args) :
    u.params = [] := by
  rw [← Ty.free_eq_params (h.unmapped u hu), h.closed u hu]

theorem scoped_frame (hcat : cat.WellScoped marks) (h : cat.AliasInstance marks d body args) :
    cat.Scoped marks (d.params.zip args) := by
  intro x u hlookup
  have hu : u ∈ args := (List.of_mem_zip (Bindings.mem_of_lookup hlookup)).2
  exact hcat.portable_of_closed (h.fits u hu) (h.unmapped u hu) (h.params_eq_nil hu)

theorem unmarked_frame (hcat : cat.WellScoped marks) (h : cat.AliasInstance marks d body args)
    {x : TypeParam} (hx : marks x = true) : (d.params.zip args).lookup x = none := by
  refine Bindings.lookup_zip_eq_none fun hmem => ?_
  rw [hcat.unmarked _ d x h.find hmem] at hx
  cases hx

/-- The name is followed to the body with its parameters replaced, or to a reference to it. -/
theorem resolve_eq (hcat : cat.WellScoped marks) (h : cat.AliasInstance marks d body args) :
    (body.isMapped = true ∧ cat.resolve (.name d.qualified args) = .ok (.ref body args) ∧
      cat.ownBindings (.ref body args) = d.params.zip args) ∨
    cat.resolve (.name d.qualified args) = .ok (body.substitute (d.params.zip args)) := by
  have hframe : Bindings.ofPairs (d.params.zip args) = d.params.zip args :=
    hcat.ofPairs_zip h.find h.arity
  by_cases hmapped : body.isMapped = true
  · -- A mapped body carries the parameters of the alias, and the name is a reference to it.
    obtain ⟨x, c, t, xs, rfl⟩ := Ty.eq_mapped_of_isMapped hmapped
    have hxs : xs = d.params := hcat.bodies _ d x c t xs h.find h.body_eq h.generic
    refine .inl ⟨rfl, resolve_eq_ok.2 ?_, ?_⟩
    · exact .mapped h.find h.body_eq h.generic h.arity (hxs ▸ h.arity)
    · rw [← hframe, ← hxs]
      rfl
  · have hresolve :=
      Resolves.rewrite h.find h.body_eq (Bool.eq_false_iff.2 hmapped) h.generic h.arity
    rw [hframe] at hresolve
    exact .inr (resolve_eq_ok.2 hresolve)

theorem sealed_body (hcat : cat.WellScoped marks) (h : cat.AliasInstance marks d body args)
    (hsealed : cat.Sealed marks (.name d.qualified args)) :
    cat.Sealed marks (body.settle marks (d.params.zip args)) := by
  rcases h.resolve_eq hcat with ⟨hmapped, hresolve, hbindings⟩ | hresolve
  · rw [← hbindings]
    exact (hsealed.unfold (.reveal (.name hresolve))).unfold (.target args hmapped)
  · rw [Ty.settle_eq_substitute fun x _ => h.unmarked_frame hcat]
    exact hsealed.unfold (.reveal (.name hresolve))

theorem grounded_body (hcat : cat.WellScoped marks) (h : cat.AliasInstance marks d body args)
    (hsteady : cat.Steady body) (hsealed : cat.Sealed marks (.name d.qualified args)) :
    cat.Grounded marks (d.params.zip args) body := by
  have hscope := hcat.scope _ d body h.find (.body h.body_eq)
  refine ⟨hcat.fits _ d body h.find (.body h.body_eq), hsteady,
    fun x hx => hcat.unmarked _ d x h.find (hscope hx), fun x hx => ?_, h.sealed_body hcat hsealed⟩
  obtain ⟨u, hu, hlookup⟩ := Bindings.exists_lookup_zip h.arity (hscope hx)
  have hchase := Ty.chase_of_lookup hlookup fun y hy => by
    rw [h.params_eq_nil hu] at hy
    cases hy
  rw [hchase, h.params_eq_nil hu]

/-- The body inside of the frame comes to what it is with its parameters replaced. -/
theorem alike (hcat : cat.WellScoped marks) (h : cat.AliasInstance marks d body args)
    (hsteady : cat.Steady body) (hsealed : cat.Sealed marks (.name d.qualified args)) :
    cat.Alike marks Value.literalKey (d.params.zip args) body []
      (body.substitute (d.params.zip args)) := by
  have halike : cat.Alike marks Value.literalKey (d.params.zip args ++ []) body []
      (body.substitute (d.params.zip args)) :=
    .substitute hcat (h.scoped_frame hcat) (fun _ => h.unmarked_frame hcat)
      (h.grounded_body hcat hsteady hsealed)
  rwa [List.append_nil] at halike

theorem whole_name (h : cat.AliasInstance marks d body args)
    (hsealed : cat.Sealed marks (.name d.qualified args)) :
    cat.Whole marks (.name d.qualified args) := by
  refine ⟨⟨h.unmapped, Ty.insideList_iff.2 h.fits⟩, ?_, hsealed⟩
  rw [Ty.free, Ty.freeList_eq, List.flatMap_eq_nil_iff]
  exact h.closed

/-- What is found about the name is found about the body with its parameters replaced. -/
theorem finds_body (hcat : cat.WellScoped marks) (h : cat.AliasInstance marks d body args)
    (hfinds : cat.Finds key [] (.name d.qualified args) r b) :
    cat.Finds key [] (body.substitute (d.params.zip args)) r b := by
  rcases h.resolve_eq hcat with ⟨hmapped, hresolve, hown⟩ | hresolve
  · have hknot : (Ty.ref body args).isKnot = true := by
      cases body <;> first | rfl | cases hmapped
    have hbindings : cat.bindings ((Ty.ref body args).knot []) = .ok (d.params.zip args) := by
      rw [Ty.knot_nil, ← hown]
      refine bindings_of_not_interface fun _ _ hhead => ?_
      rw [show (Ty.ref body args).head = body from rfl] at hhead
      rw [hhead] at hmapped
      cases hmapped
    exact (hfinds.of_follow (.name hresolve)).of_target hknot hmapped hbindings
  · exact hfinds.of_follow (.name hresolve)

end AliasInstance

end Catalog

variable {limit depth : Nat} {x : String} {numbering : Numbering} {guard : Expr} {v : Value}
  {key : Expr → Reading} {b : Bool}

/-- What the guard of an alias with arguments comes to is what is found about its body with the
parameters replaced. -/
theorem Subject.finds_of_alias (hcat : cat.WellScoped marks) (hwritten : cat.WritesNames)
    (hsettles : cat.Indexed (Scope.Settles [(.named x, v)]))
    (hinstance : cat.AliasInstance marks d body args) (hsteady : cat.Steady body)
    (hsealed : cat.Sealed marks (.name d.qualified args))
    (h : ((Subject.decl d).compile cat limit (.named x) args numbering).verdict =
      .ok (.compiled guard))
    (hkey : Scope.Gives [(.named x, v)] key)
    (hb : guard.holds depth [(.named x, v)] = .ok b) :
    cat.Finds key [] (body.substitute (d.params.zip args)) (.ok v) b := by
  obtain ⟨s, hwalk⟩ := walkWith_of_compiled h
  have hargs : args.isEmpty ≠ true := by
    rw [Ne, List.isEmpty_iff_length_eq_zero, hinstance.arity, List.length_eq_zero_iff]
    exact hinstance.generic
  rw [walkWith, if_neg hargs] at hwalk
  have hdeclares : ∀ u ∈ args, u.Every cat.Declares := fun u hu =>
    Catalog.every_declares_of_fits (hinstance.fits u hu)
  obtain ⟨p', t, n, e, q, q', heq, hcompiles, _, hfresh, rfl, _⟩ :=
    (Guard.meets_ofAlias hcat.named hcat.upholds_declares (hinstance.declared hcat)
      hinstance.body_eq hdeclares).of_ok (Session.at_start numbering) hwalk
  cases heq
  have halike := hinstance.alike hcat hsteady hsealed
  -- The alias is on the path while its body is compiled, and its slot gives way to the variable at
  -- the end.
  rw [hcat.ofPairs_zip hinstance.find hinstance.arity] at hcompiles
  have hchecks := hcompiles.checks hcat hwritten (List.forall_mem_singleton.2 rfl)
    (List.forall_mem_singleton.2 halike.left)
    (Catalog.treads_instanceType (hinstance.declared hcat) hinstance.body_eq args) (.refl _) _ _
    List.mem_cons_self
  have hmoved := hchecks.put hwritten (.named x) hfresh
  rw [Expr.put, if_pos rfl] at hmoved
  exact (hmoved.finds_named hcat hsettles hkey hb).transfer hcat halike

/-- The guard of an alias with arguments and that of its name with them say the same wherever both
say something, if the alias does not come up in its own body with its parameters mixed up. -/
theorem Subject.alias_routes_agree {limit' depth' : Nat} {numbering' : Numbering} {guard' : Expr}
    (hcat : cat.WellScoped marks) (hplain : cat.Plain)
    (hinstance : cat.AliasInstance marks d body args)
    (hsealed : cat.Sealed marks (.name d.qualified args))
    (hagain : ∀ again, ReflTransGen cat.Reveals body (.name d.qualified again) →
      cat.Straight d.qualified again)
    (h : ((Subject.decl d).compile cat limit (.named x) args numbering).verdict =
      .ok (.compiled guard))
    (h' : ((Subject.type (.name d.qualified args)).compile cat limit' (.named x) []
      numbering').verdict = .ok (.compiled guard'))
    (v : Value) {b b' : Bool} (hb : guard.holds depth [(.named x, v)] = .ok b)
    (hb' : guard'.holds depth' [(.named x, v)] = .ok b') : b = b' := by
  obtain ⟨key, hkey⟩ := Scope.exists_gives [(.named x, v)]
  have hwritten : cat.WritesNames := hplain.indexed fun _ => rfl
  have hsettles : cat.Indexed (Scope.Settles [(.named x, v)]) :=
    hplain.indexed fun _ => Scope.settles_const _ _
  have hsteady := hcat.steady_body hinstance.find hinstance.body_eq hagain
  have hfinds := finds_of_alias hcat hwritten hsettles hinstance hsteady hsealed h hkey hb
  have hwhole := hinstance.whole_name hsealed
  have hnamed := finds_of_compiled hcat hwritten hsettles hwhole h' hkey hb'
  exact hfinds.unique (hinstance.finds_body hcat hnamed)

/-- Nothing, or a step that leads on. -/
def trail : Declaration where
  name := "Trail"
  params := [⟨"M", 1⟩]
  body := .alias (some (.union [.primitive "null", .name "Step" [.param ⟨"M", 1⟩]]))

namespace Catalog

def trails : Catalog :=
  { entries := [(.listed "Step", {
      name := "Step"
      params := [⟨"T", 0⟩]
      body := .interface [] [⟨.str "value", some (.param ⟨"T", 0⟩), false, none, .listed "Step"⟩,
        ⟨.str "next", some (.name "Trail" [.param ⟨"T", 0⟩]), false, none, .listed "Step"⟩] }),
    (.listed "Trail", trail)] }

theorem wellScoped_trails : trails.WellScoped fun _ => false := by
  refine WellScoped.of_entries ?_ ?_ ?_
  · simp only [trails, List.forall_mem_cons, List.not_mem_nil, IsEmpty.forall_iff,
      implies_true, and_true]
    exact ⟨rfl, rfl⟩
  · simp only [trails, List.forall_mem_cons, List.not_mem_nil, IsEmpty.forall_iff,
      implies_true, and_true]
    refine ⟨?_, ?_⟩ <;> constructor
    all_goals simp [trail, Declaration.types, Declaration.heritage, Declaration.members, Ty.Every,
      Ty.Inside, Ty.InsideList, Fits, Ty.free, Ty.freeList, Ty.unmapped]
  · simp [trails, trail]

theorem plain_trails : trails.Plain := by
  refine forall_of_entries ?_
  simp [trails, trail, Declaration.members]

end Catalog

theorem Subject.alias_routes_agree_trail :
    let torn : Value := .dict [(.str "value", .int 1),
      (.str "next", .dict [(.str "value", .str "a"), (.str "next", .null)])]
    ∃ guard guard' b b',
      ((Subject.decl trail).compile .trails 9 (.named "x") [.primitive "number"] {}).verdict =
        .ok (.compiled guard) ∧
      ((Subject.type (.name "Trail" [.primitive "number"])).compile .trails 9 (.named "x") []
        {}).verdict = .ok (.compiled guard') ∧
      guard.holds 3 [(.named "x", torn)] = .ok b ∧ guard'.holds 3 [(.named "x", torn)] = .ok b' ∧
      b = b' := by
  intro torn
  have hanswer :
      ((Subject.decl trail).compile .trails 9 (.named "x") [.primitive "number"] {}).answer?
      3 [(.named "x", torn)] = some false := by decide +kernel
  have hanswer' :
      ((Subject.type (.name "Trail" [.primitive "number"])).compile .trails 9 (.named "x")
      [] {}).answer? 3 [(.named "x", torn)] = some false := by decide +kernel
  obtain ⟨guard, h, hb⟩ := Outcome.of_answer? hanswer
  obtain ⟨guard', h', hb'⟩ := Outcome.of_answer? hanswer'
  have hinstance : Catalog.trails.AliasInstance (fun _ => false) trail _ [.primitive "number"] :=
    ⟨rfl, rfl, List.cons_ne_nil _ _, rfl, List.forall_mem_singleton.2 ⟨trivial, trivial⟩,
      List.forall_mem_singleton.2 rfl, List.forall_mem_singleton.2 rfl⟩
  have hsingle : ∀ d, Catalog.trails.find? "Trail" = some d → d.params = [⟨"M", 1⟩] := by
    intro d hfind
    cases hfind
    rfl
  exact ⟨guard, guard', _, _, h, h', hb, hb', Subject.alias_routes_agree Catalog.wellScoped_trails
    Catalog.plain_trails hinstance
    (Catalog.sealed_of_no_class (by simp [Catalog.trails, trail, Declaration.kind?]) _)
    (fun _ _ => Catalog.straight_of_single hsingle) h h' torn hb hb'⟩

/-- An alias of two parameters that asks for the keys of itself with the parameters swapped. -/
def swap : Declaration where
  name := "Swap"
  params := [⟨"T", 0⟩, ⟨"U", 1⟩]
  body := .alias (some (.inter [.mapped keyParam (.param ⟨"T", 0⟩)
    (.keyOf (.name "Swap" [.param ⟨"U", 1⟩, .param ⟨"T", 0⟩])) []]))

/-- A mapped alias that comes up again inside of its own parts. -/
def both : Declaration where
  name := "Both"
  params := [⟨"A", 1⟩]
  body := .alias (some (.mapped keyParam (.union [.literal (.str "m"), .literal (.str "n")])
    (.index (.name "Outer" []) (.param keyParam)) [⟨"A", 1⟩]))

namespace Catalog

def swaps : Catalog :=
  { entries := [(.listed "Swap", swap)] }

theorem wellScoped_swaps : swaps.WellScoped (· = keyParam) := by
  refine WellScoped.of_entries ?_ ?_ ?_
  all_goals simp only [swaps, List.forall_mem_singleton]
  · rfl
  · constructor
    all_goals simp [swap, keyParam, Declaration.types, Declaration.heritage,
      Declaration.members, Ty.Every,
      Ty.Inside, Ty.InsideList, Fits, Ty.free, Ty.freeList, Ty.unmapped]
  · simp

theorem plain_swaps : swaps.Plain := by
  refine forall_of_entries ?_
  simp [swaps, swap, Declaration.members]

/-- Interfaces around a class, which come up again through an alias. -/
def maze : Catalog :=
  let interface (name : String) (heritage : List Heritage) (members : List (String × Ty)) :
      DeclId × Declaration :=
    (.listed name, { name := name, body := .interface heritage (members.map fun member =>
      ⟨.str member.1, some member.2, false, none, .listed name⟩) })
  { entries := heirs.entries ++ [
    interface "Inner" [] [("q", .index (.name "Heir" []) (.literal (.str "x"))),
      ("w", .union [.primitive "null", .name "Both" [.primitive "number"]])],
    interface "Left" [⟨"Base", [.primitive "string"]⟩] [("j", .name "Inner" [])],
    interface "Right" [⟨"Base", [.primitive "boolean"]⟩] [("j", .name "Inner" [])],
    interface "Outer" [] [("m", .name "Left" []), ("n", .name "Right" [])],
    (.listed "Both", both)] }

theorem wellScoped_maze : maze.WellScoped (· = keyParam) := by
  refine WellScoped.of_entries ?_ ?_ ?_
  · simp only [maze, heirs, List.cons_append, List.nil_append, List.forall_mem_cons,
      List.not_mem_nil, IsEmpty.forall_iff, implies_true, and_true]
    decide
  · simp only [maze, heirs, List.cons_append, List.nil_append, List.forall_mem_cons,
      List.not_mem_nil, IsEmpty.forall_iff, implies_true, and_true]
    refine ⟨?_, ?_, ?_, ?_, ?_, ?_, ?_⟩ <;> constructor
    all_goals simp [both, keyParam, Declaration.types, Declaration.heritage,
      Declaration.members, Ty.Every,
      Ty.Inside, Ty.InsideList, Fits, Ty.free, Ty.freeList, Ty.unmapped]
    -- The mapped body carries the parameters it should.
    exact fun _ _ _ _ _ _ _ hparams => hparams.symm
  · simp [maze, heirs, both]

theorem plain_maze : maze.Plain := by
  refine forall_of_entries ?_
  simp [maze, heirs, both, Declaration.members]

end Catalog

def mazed : Value :=
  let left (w : Value) : Value := .dict [(.str "x", .str "s"),
    (.str "j", .dict [(.str "q", .str "s"), (.str "w", w)])]
  let right (w : Value) : Value := .dict [(.str "x", .bool true),
    (.str "j", .dict [(.str "q", .bool true), (.str "w", w)])]
  .dict [(.str "m", left (.dict [(.str "m", left .null), (.str "n", right .null)])),
    (.str "n", right .null)]

/-- The guard of an alias with arguments does not let a value through that the guard of its name
lets through. -/
def Declaration.UnlikeName (cat : Catalog) (d : Declaration) (args : List Ty) (v : Value) : Prop :=
  ∃ guard guard',
    ((Subject.decl d).compile cat 30 (.named "v") args {}).verdict = .ok (.compiled guard) ∧
    ((Subject.type (.name d.qualified args)).compile cat 30 (.named "v") [] {}).verdict =
      .ok (.compiled guard') ∧
    guard.holds 20 [(.named "v", v)] = .ok false ∧ guard'.holds 20 [(.named "v", v)] = .ok true

theorem Declaration.UnlikeName.of_answers
    (h : ((Subject.decl d).compile cat 30 (.named "v") args {}).answer? 20 [(.named "v", v)] =
      some false)
    (h' : ((Subject.type (.name d.qualified args)).compile cat 30 (.named "v") [] {}).answer? 20
      [(.named "v", v)] = some true) : d.UnlikeName cat args v := by
  obtain ⟨guard, hguard, hb⟩ := Outcome.of_answer? h
  obtain ⟨guard', hguard', hb'⟩ := Outcome.of_answer? h'
  exact ⟨guard, guard', hguard, hguard', hb, hb'⟩

/-- Parameters that are swapped are followed from one to the other inside of the frame, and back;
and where a class with a generic ancestor is looked into, a check that is called sees what is bound
around it where it is made, which differs between the two ways. -/
theorem Subject.alias_routes_differ :
    (∃ (cat : Catalog) (marks : TypeParam → Bool) (d : Declaration) (body : Ty) (args : List Ty)
      (v : Value), cat.WellScoped marks ∧ cat.Plain ∧ cat.AliasInstance marks d body args ∧
      cat.Sealed marks (.name d.qualified args) ∧ d.UnlikeName cat args v) ∧
    ∃ (cat : Catalog) (marks : TypeParam → Bool) (d : Declaration) (body : Ty) (args : List Ty)
      (v : Value), cat.WellScoped marks ∧ cat.Plain ∧ cat.AliasInstance marks d body args ∧
      (∀ again, ReflTransGen cat.Reveals body (.name d.qualified again) →
        cat.Straight d.qualified again) ∧ d.UnlikeName cat args v := by
  constructor
  · have hinstance : Catalog.swaps.AliasInstance (· = keyParam) swap _
        [.literal (.str "a"), .literal (.str "b")] :=
      ⟨rfl, rfl, List.cons_ne_nil _ _, rfl, by simp [Ty.Every, Ty.Inside, Catalog.Fits],
        by simp [Ty.free], by simp [Ty.unmapped]⟩
    refine ⟨.swaps, (· = keyParam), swap, _, _, .dict [(.str "a", .str "b")],
      Catalog.wellScoped_swaps, Catalog.plain_swaps, hinstance,
      Catalog.sealed_of_no_class (by simp [Catalog.swaps, swap, Declaration.kind?]) _,
      .of_answers ?_ ?_⟩ <;> decide +kernel
  · have hinstance : Catalog.maze.AliasInstance (· = keyParam) both _ [.primitive "number"] :=
      ⟨rfl, rfl, List.cons_ne_nil _ _, rfl, List.forall_mem_singleton.2 ⟨trivial, trivial⟩,
        List.forall_mem_singleton.2 rfl, List.forall_mem_singleton.2 rfl⟩
    have hsingle : ∀ d, Catalog.maze.find? "Both" = some d → d.params = [⟨"A", 1⟩] := by
      intro d hfind
      cases hfind
      rfl
    refine ⟨.maze, (· = keyParam), both, _, _, mazed, Catalog.wellScoped_maze, Catalog.plain_maze,
      hinstance, fun _ _ => Catalog.straight_of_single hsingle, .of_answers ?_ ?_⟩ <;>
        decide +kernel

end TypeGuard
