import TypeGuard.Proofs.Decision

/-! The two ways to a guard for an interface: from its declaration as it is written, and from
its type. What the first lets through the second does, and in an orderly hierarchy they are the
same. -/

namespace TypeGuard

variable {cat : Catalog} {marks : TypeParam → Bool} {limit depth : Nat} {x : String}
  {numbering : Numbering} {guard : Expr} {d : Declaration} {args : List Ty}

namespace Subject

theorem guards_of_declaration (hcat : cat.WellScoped marks) (hplain : cat.Plain)
    {heritage : List Heritage} {members : List Property} (hfind : cat.declared? d.id = some d)
    (hbody : d.body = .interface heritage members)
    (hwhole : cat.Whole marks (Guard.instanceType d args))
    (h : ((Subject.decl d).compile cat limit (.named x) args numbering).verdict =
      .ok (.compiled guard)) :
    ∃ table, Guards cat table [] [] ⟨true, [], Guard.instanceType d args, .named x⟩ guard := by
  obtain ⟨s, hwalk⟩ := walkWith_of_compiled h
  have hargs : ∀ u ∈ args, u.Every cat.Declares := by
    intro u hu
    rw [← Guard.args_instanceType d args] at hu
    exact Catalog.every_declares_of_fits (Catalog.fits_args hwhole.fits hu)
  have hkind : d.kind? ≠ none := by simp [Declaration.kind?, hbody]
  have hrun : Guard.ofInstance cat limit d args (.named x) { numbering := numbering } =
    .ok guard s := by
    unfold walkWith at hwalk
    split at hwalk
    · next hempty =>
        simp only [walk, hbody] at hwalk
        rw [List.isEmpty_iff.1 hempty]
        exact hwalk
    · exact hwalk
  obtain ⟨p', hcompiles⟩ :=
    (Guard.sound_ofInstance hcat.named hcat.upholds_declares hfind hkind hargs
    _).of_ok (Session.at_start numbering) hrun
  exact ⟨_, hcompiles.guards_start hplain rfl⟩

end Subject

theorem Accepts.of_holds {Φ : Bool → Prop} {scope : Scope} {b : Bool}
    (h : Accepts Φ (guard.eval depth scope)) (hb : guard.holds depth scope = .ok b) : Φ b := by
  rcases h with hbad | ⟨b', hb', hΦ⟩
  · rw [Expr.holds, hbad] at hb
    cases hb
  · rw [Expr.holds, hb'] at hb
    cases hb
    exact hΦ

/-- What passes the guard of a declaration passes that of its type, and nothing else does where
every ancestor is named, has one instance, and no property is listed twice. -/
theorem Subject.declared_agrees {limit' : Nat} {x' : String}
    {numbering' : Numbering} {guard' : Expr}
    {heritage : List Heritage} {members : List Property} (hcat : cat.WellScoped marks)
    (hplain : cat.Plain) (hfind : cat.declared? d.id = some d)
    (hbody : d.body = .interface heritage members)
    (hwhole : cat.Whole marks (Guard.instanceType d args))
    (h : ((Subject.decl d).compile cat limit (.named x) args numbering).verdict =
      .ok (.compiled guard))
    (h' : ((Subject.type (Guard.instanceType d args)).compile cat limit' (.named x') []
      numbering').verdict = .ok (.compiled guard'))
    (v : Value) (hdepth : v.height < depth) {b b' : Bool}
    (hb : guard.holds depth [(.named x, v)] = .ok b)
    (hb' : guard'.holds depth [(.named x', v)] = .ok b') :
    (b = true → b' = true) ∧ (cat.Orderly (Guard.instanceType d args) → b = b') := by
  obtain ⟨table, hguards⟩ := guards_of_declaration hcat hplain hfind hbody hwhole h
  obtain ⟨table', hguards'⟩ := guards_of_type hplain h'
  have hplaced : cat.Placed marks (cat.Orderly (Guard.instanceType d args)) []
      (Guard.instanceType d args) true := ⟨hwhole, fun _ _ => rfl, id⟩
  have hplaced' : cat.Placed marks True [] (Guard.instanceType d args) false :=
    hwhole.sits hcat []
  have hdeclared := (hguards.settles_on hcat hplain rfl hplaced v hdepth).of_holds hb
  have htype := (hguards'.settles_on hcat hplain rfl hplaced' v hdepth).of_holds hb'
  have htold := hguards.told hcat (.declared (Guard.head_instanceType d args)) hplaced hdeclared
  refine ⟨fun htrue => htype.2 trivial (htold.1 htrue), fun horderly => ?_⟩
  rw [Bool.eq_iff_iff]
  exact ⟨fun htrue => htype.2 trivial (htold.1 htrue), fun htrue =>
    htold.2 horderly (htype.1 htrue)⟩

/-- What the guard that was compiled says, if there is one. -/
def Outcome.answer? {σ : Type} (outcome : Outcome σ) (depth : Nat) (scope : Scope) : Option Bool :=
  outcome.guard?.bind fun guard => (guard.holds depth scope).toOption

theorem Outcome.of_answer? {σ : Type} {outcome : Outcome σ} {depth : Nat} {scope : Scope} {b : Bool}
    (h : outcome.answer? depth scope = some b) :
    ∃ guard, outcome.verdict = .ok (.compiled guard) ∧ guard.holds depth scope = .ok b := by
  obtain ⟨guard, hguard, hb⟩ := Option.bind_eq_some_iff.1 h
  exact ⟨guard, verdict_of_guard? hguard, eq_ok_of_toOption hb⟩

def named : Declaration where
  name := "Named"
  body := .interface [] [⟨.str "name", some (.primitive "string"), false, none, .listed "Named"⟩]

/-- A named thing that holds a value and may be next to another one. -/
def shelf : Declaration where
  name := "Shelf"
  params := [⟨"T", 0⟩]
  body := .interface [⟨"Named", []⟩] [
    ⟨.str "value", some (.param ⟨"T", 0⟩), false, none, .listed "Shelf"⟩,
    ⟨.str "next", some (.union [.primitive "null", .name "Shelf" [.param ⟨"T", 0⟩]]), false, none,
      .listed "Shelf"⟩]

namespace Catalog

theorem backs_interface {cat : Catalog} {decl : DeclId} {d : Declaration}
    (hfind : cat.declared? decl = some d) (hkind : d.kind? = some .interface) :
    cat.Backs .interface decl :=
  ⟨d, hfind, by rw [hkind]; exact Option.some_ne_none _, nofun⟩

theorem Distinct.of_finite {cat : Catalog} {t : Ty} (ws : List Ty) (heads : List ObjectHead)
    (hws : ∀ w, cat.Inherits t w → w ∈ ws)
    (hargs : ∀ w ∈ ws, ∀ w' ∈ ws,
      (objectHead? w).map ObjectHead.decl = (objectHead? w').map ObjectHead.decl → w.args = w'.args)
    (hheads : ∀ w ∈ ws, ∀ head ∈ objectHead? w, head ∈ heads)
    (hnames : ((heads.flatMap cat.membersOf).map Property.name).Nodup) : cat.Distinct t where
  single w w' kind kind' decl elements elements' hw hw' hhead hhead' := by
    apply hargs w (hws w hw) w' (hws w' hw')
    rw [objectHead?_of_head hhead, objectHead?_of_head hhead']
    rfl
  once w w' p q hw hw' hp hq hname := by
    have hmem : ∀ {w p}, cat.Inherits t w → cat.Bears w p → p ∈ heads.flatMap cat.membersOf := by
      rintro w p hw ⟨head, hhead, hp⟩
      exact List.mem_flatMap.2 ⟨head, hheads _ (hws _ hw) _ hhead, hp⟩
    exact List.inj_on_of_nodup_map hnames (hmem hw hp) (hmem hw' hq) hname

def shelves : Catalog :=
  { entries := [(.listed "Named", named), (.listed "Shelf", shelf)] }

theorem wellScoped_shelves : shelves.WellScoped fun _ => false := by
  refine WellScoped.of_entries ?_ ?_ ?_
  · simp only [shelves, List.forall_mem_cons, List.not_mem_nil, IsEmpty.forall_iff, implies_true,
      and_true]
    exact ⟨rfl, rfl⟩
  · simp only [shelves, List.forall_mem_cons, List.not_mem_nil, IsEmpty.forall_iff, implies_true,
      and_true]
    refine ⟨?_, ?_⟩ <;> constructor
    all_goals simp [named, shelf, Declaration.types, Declaration.heritage,
      Declaration.members, Ty.Every,
      Ty.Inside, Ty.InsideList, Fits, Ty.free, Ty.freeList, Ty.unmapped]
  · simp [shelves, named, shelf]

theorem plain_shelves : shelves.Plain := by
  refine forall_of_entries ?_
  simp [shelves, named, shelf, Declaration.members]

theorem inherits_shelf {w : Ty}
    (h : shelves.Inherits (Guard.instanceType shelf [.primitive "number"]) w) :
    w ∈ [Guard.instanceType shelf [.primitive "number"],
      .object .interface (.listed "Named") []] := by
  induction h with
  | self => exact List.mem_cons_self
  | base _ hbases hbase ih =>
      simp only [List.mem_cons, List.not_mem_nil, or_false] at ih
      rcases ih with rfl | rfl
      · cases hbases
        rw [List.mem_singleton.1 hbase]
        exact List.mem_cons_of_mem _ List.mem_cons_self
      · cases hbases
        cases hbase

theorem orderly_shelf : shelves.Orderly (Guard.instanceType shelf [.primitive "number"]) where
  toDistinct := .of_finite _
    [⟨.interface, .listed "Shelf", []⟩, ⟨.interface, .listed "Named", []⟩]
    (fun _ => inherits_shelf) (by decide) (by decide) (by decide)
  named w bases base x hw hbases hbase := by
    have hw := inherits_shelf hw
    simp only [List.mem_cons, List.not_mem_nil, or_false] at hw
    rcases hw with rfl | rfl
    · cases hbases
      rw [List.mem_singleton.1 hbase]
      exact nofun
    · cases hbases
      cases hbase

end Catalog

theorem Subject.declared_agrees_shelf :
    let t := Guard.instanceType shelf [.primitive "number"]
    let torn : Value := .dict [(.str "name", .str "a"), (.str "value", .int 1),
      (.str "next", .dict [(.str "value", .int 2), (.str "next", .null)])]
    ∃ guard guard' b b',
      ((Subject.decl shelf).compile .shelves 9 (.named "x") [.primitive "number"] {}).verdict =
        .ok (.compiled guard) ∧
      ((Subject.type t).compile .shelves 9 (.named "x") [] {}).verdict = .ok (.compiled guard') ∧
      guard.holds 3 [(.named "x", torn)] = .ok b ∧ guard'.holds 3 [(.named "x", torn)] = .ok b' ∧
      b = b' := by
  intro t torn
  have hanswer : ((Subject.decl shelf).compile .shelves 9 (.named "x") [.primitive "number"]
      {}).answer? 3 [(.named "x", torn)] = some false := by decide +kernel
  have hanswer' : ((Subject.type t).compile .shelves 9 (.named "x") [] {}).answer? 3
      [(.named "x", torn)] = some false := by decide +kernel
  obtain ⟨guard, h, hb⟩ := Outcome.of_answer? hanswer
  obtain ⟨guard', h', hb'⟩ := Outcome.of_answer? hanswer'
  have hwhole : Catalog.shelves.Whole (fun _ => false) t :=
    ⟨⟨⟨fun u hu => by cases List.mem_singleton.1 hu; rfl, rfl, rfl,
      Catalog.backs_interface rfl rfl⟩, trivial, ⟨trivial, trivial⟩, trivial⟩, rfl,
      Catalog.sealed_of_no_class (by simp [Catalog.shelves, named, shelf, Declaration.kind?]) t⟩
  have hagrees := Subject.declared_agrees Catalog.wellScoped_shelves Catalog.plain_shelves rfl rfl
    hwhole h h' torn (by decide) hb hb'
  exact ⟨guard, guard', _, _, h, h', hb, hb', hagrees.2 Catalog.orderly_shelf⟩

/-- An interface that extends whatever its parameter stands for. -/
def mixed : Declaration where
  name := "Mixed"
  params := [⟨"T", 0⟩]
  body := .interface [⟨"Same", [.param ⟨"T", 0⟩]⟩]
    [⟨.str "y", some (.primitive "string"), false, none, .listed "Mixed"⟩]

namespace Catalog

def mixtures : Catalog :=
  { entries := [(.listed "Named", named),
    (.listed "Same",
      { name := "Same", params := [⟨"A", 1⟩], body := .alias (some (.param ⟨"A", 1⟩)) }),
    (.listed "Mixed", mixed)] }

theorem wellScoped_mixtures : mixtures.WellScoped fun _ => false := by
  refine WellScoped.of_entries ?_ ?_ ?_
  · simp only [mixtures, List.forall_mem_cons, List.not_mem_nil, IsEmpty.forall_iff, implies_true,
      and_true]
    exact ⟨rfl, rfl, rfl⟩
  · simp only [mixtures, List.forall_mem_cons, List.not_mem_nil, IsEmpty.forall_iff, implies_true,
      and_true]
    refine ⟨?_, ?_, ?_⟩ <;> constructor
    all_goals simp [named, mixed, Declaration.types, Declaration.heritage,
      Declaration.members, Ty.Every, Ty.Inside, Fits, Ty.free, Ty.unmapped]
  · simp [mixtures, named, mixed]

theorem plain_mixtures : mixtures.Plain := by
  refine forall_of_entries ?_
  simp [mixtures, named, mixed, Declaration.members]

/-- What is mixed into the interface. -/
def ingredient : Ty :=
  .object .interface (.listed "Named") []

theorem distinct_mixed : mixtures.Distinct (Guard.instanceType mixed [ingredient]) := by
  refine .of_finite [Guard.instanceType mixed [ingredient], ingredient]
    [⟨.interface, .listed "Mixed", []⟩, ⟨.interface, .listed "Named", []⟩] (fun w h => ?_)
    (by decide) (by decide) (by decide)
  induction h with
  | self => exact List.mem_cons_self
  | base _ hbases hbase ih =>
      simp only [List.mem_cons, List.not_mem_nil, or_false] at ih
      rcases ih with rfl | rfl
      · have hparam : mixtures.bases (Guard.instanceType mixed [ingredient]) =
            .ok [.param ⟨"T", 0⟩] := eq_ok_of_toOption (by decide +kernel)
        cases hparam.symm.trans hbases
        rw [List.mem_singleton.1 hbase]
        decide +kernel
      · cases hbases
        cases hbase

/-- Interfaces around a class, which shows them what is bound around it. -/
def tangle : Catalog :=
  let interface (name : String) (heritage : List Heritage) (members : List (String × Ty)) :
      DeclId × Declaration :=
    (.listed name, { name := name, body := .interface heritage (members.map fun member =>
      ⟨.str member.1, some member.2, false, none, .listed name⟩) })
  { entries := heirs.entries ++ [
    interface "Leaf" [] [("y", .index (.name "Heir" []) (.literal (.str "x")))],
    interface "Inner" []
      [("q", .name "Leaf" []), ("w", .union [.primitive "null", .name "Outer" []])],
    interface "Left" [⟨"Base", [.primitive "string"]⟩] [("j", .name "Inner" [])],
    interface "Right" [⟨"Base", [.primitive "boolean"]⟩] [("j", .name "Inner" [])],
    interface "Outer" [] [("m", .name "Left" []), ("n", .name "Right" [])],
    interface "Whole" [⟨"Outer", []⟩] []] }

theorem wellScoped_tangle : tangle.WellScoped fun _ => false := by
  refine WellScoped.of_entries ?_ ?_ ?_
  · simp only [tangle, heirs, List.cons_append, List.nil_append, List.forall_mem_cons,
      List.not_mem_nil, IsEmpty.forall_iff, implies_true, and_true]
    decide
  · simp only [tangle, heirs, List.cons_append, List.nil_append, List.forall_mem_cons,
      List.not_mem_nil, IsEmpty.forall_iff, implies_true, and_true]
    refine ⟨?_, ?_, ?_, ?_, ?_, ?_, ?_, ?_⟩ <;> constructor
    all_goals simp [Declaration.types, Declaration.heritage, Declaration.members,
      Ty.Every, Ty.Inside, Ty.InsideList, Fits, Ty.free, Ty.freeList, Ty.unmapped]
  · simp [tangle, heirs]

theorem plain_tangle : tangle.Plain := by
  refine forall_of_entries ?_
  simp [tangle, heirs, Declaration.members]

end Catalog

def outermost : Declaration where
  name := "Whole"
  body := .interface [⟨"Outer", []⟩] []

def tangled : Value :=
  let left (w : Value) : Value := .dict [(.str "x", .str "s"),
    (.str "j", .dict [(.str "q", .dict [(.str "y", .str "s")]), (.str "w", w)])]
  let right (w : Value) : Value := .dict [(.str "x", .bool true),
    (.str "j", .dict [(.str "q", .dict [(.str "y", .bool true)]), (.str "w", w)])]
  .dict [(.str "m", left (.dict [(.str "m", left .null), (.str "n", right .null)])),
    (.str "n", right .null)]

/-- A clause that comes to a parameter is followed in a declaration and not in a type; and a
check that is called sees what is bound around it where it is made, which differs between the two
ways. -/
theorem Subject.declared_unlike_type :
    (∃ (cat : Catalog) (marks : TypeParam → Bool) (d : Declaration) (args : List Ty)
      (guard guard' : Expr) (v : Value), cat.WellScoped marks ∧ cat.Plain ∧
      cat.declared? d.id = some d ∧ cat.Whole marks (Guard.instanceType d args) ∧
      cat.Distinct (Guard.instanceType d args) ∧
      ((Subject.decl d).compile cat 30 (.named "v") args {}).verdict = .ok (.compiled guard) ∧
      ((Subject.type (Guard.instanceType d args)).compile cat 30 (.named "v") [] {}).verdict =
        .ok (.compiled guard') ∧
      guard.holds 20 [(.named "v", v)] = .ok false ∧ guard'.holds 20 [(.named "v", v)] = .ok true) ∧
    ∃ (cat : Catalog) (marks : TypeParam → Bool) (d : Declaration) (args : List Ty)
      (guard guard' : Expr) (v : Value), cat.WellScoped marks ∧ cat.Plain ∧
      cat.declared? d.id = some d ∧ (Guard.instanceType d args).Every (cat.Fits marks) ∧
      (Guard.instanceType d args).free = [] ∧
      ((Subject.decl d).compile cat 30 (.named "v") args {}).verdict = .ok (.compiled guard) ∧
      ((Subject.type (Guard.instanceType d args)).compile cat 30 (.named "v") [] {}).verdict =
        .ok (.compiled guard') ∧
      guard.holds 20 [(.named "v", v)] = .ok true ∧
        guard'.holds 20 [(.named "v", v)] = .ok false := by
  constructor
  · have hanswer : ((Subject.decl mixed).compile .mixtures 30 (.named "v")
        [Catalog.ingredient] {}).answer? 20 [(.named "v", .dict [(.str "y", .str "a")])] =
          some false := by decide +kernel
    have hanswer' : ((Subject.type (Guard.instanceType mixed [Catalog.ingredient])).compile
        .mixtures 30 (.named "v") [] {}).answer? 20 [(.named "v", .dict [(.str "y", .str "a")])] =
          some true := by decide +kernel
    obtain ⟨guard, h, hb⟩ := Outcome.of_answer? hanswer
    obtain ⟨guard', h', hb'⟩ := Outcome.of_answer? hanswer'
    refine ⟨.mixtures, fun _ => false, mixed, [Catalog.ingredient], guard, guard', _,
      Catalog.wellScoped_mixtures, Catalog.plain_mixtures, rfl, ?_,
        Catalog.distinct_mixed, h, h', hb,
      hb'⟩
    refine ⟨⟨⟨fun u hu => ?_, rfl, rfl, Catalog.backs_interface rfl rfl⟩, trivial,
      ⟨⟨rfl, rfl, Catalog.backs_interface rfl rfl⟩, trivial⟩, trivial⟩, rfl,
      Catalog.sealed_of_no_class (by simp [Catalog.mixtures, named, mixed, Declaration.kind?]) _⟩
    cases List.mem_singleton.1 hu
    rfl
  · have hanswer : ((Subject.decl outermost).compile .tangle 30 (.named "v") [] {}).answer? 20
        [(.named "v", tangled)] = some true := by decide +kernel
    have hanswer' :
        ((Subject.type (Guard.instanceType outermost [])).compile .tangle 30 (.named "v") []
        {}).answer? 20 [(.named "v", tangled)] = some false := by decide +kernel
    obtain ⟨guard, h, hb⟩ := Outcome.of_answer? hanswer
    obtain ⟨guard', h', hb'⟩ := Outcome.of_answer? hanswer'
    refine ⟨.tangle, fun _ => false, outermost, [], guard, guard', _, Catalog.wellScoped_tangle,
      Catalog.plain_tangle, rfl, ⟨⟨rfl, rfl, Catalog.backs_interface rfl rfl⟩, trivial⟩, rfl, h, h',
        hb,
      hb'⟩

end TypeGuard
