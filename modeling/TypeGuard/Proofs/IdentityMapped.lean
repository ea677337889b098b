import TypeGuard.Proofs.Declared
import TypeGuard.Proofs.Findings

/-! Reading every property of an interface where its name is the key comes to the interface
itself. -/

namespace TypeGuard

open Relation (ReflTransGen)

variable {cat : Catalog} {marks : TypeParam → Bool} {env : Bindings} {t u : Ty} {x : TypeParam}
  {s : String} {decl : DeclId} {elements : List Ty} {properties : List Property} {p : Property}

namespace Ty

/-- The mapped type that has the properties of another type. -/
def identityMapped (x : TypeParam) (t : Ty) : Ty :=
  .mapped x (.keyOf t) (.index t (.param x)) []

theorem not_isIndirect_of_head {kind : ObjectKind} (h : t.head = .object kind decl elements) :
    t.isIndirect = false := by
  cases t with
  | name _ _ | param _ => cases h
  | _ => rfl

end Ty

namespace Catalog

theorem Whole.subst_eq_self (ht : cat.Whole marks t) (hinstance : t.isInstance = true)
    (σ : TypeParam → Ty) : t.subst σ = t := by
  refine Ty.subst_eq_self fun y hy => ?_
  have hfree := mem_free_of_isInstance ht.fits hinstance hy
  rw [ht.closed] at hfree
  cases hfree

/-- What comes up in the identity mapped type comes up in the type it is made from, but for the
parts that it is made of. -/
theorem unfolds_identityMapped (ht : cat.Whole marks t)
    (hhead : t.head = .object .interface decl elements)
    (h : ReflTransGen (cat.Unfolds marks) (t.identityMapped x) u) :
    ReflTransGen (cat.Unfolds marks) t u ∨ u = .keyOf t ∨ ∃ k,
      (k = .param x ∨ ∃ v, k = .literal v) ∧
        (u = k ∨ u = .index t k ∨ u = .mapped x (.keyOf t) (.index t k) []) := by
  have hself : ∀ f, t.fill marks f = t := fun f => ht.subst_eq_self (Ty.isInstance_of_head hhead) _
  have hfill : ∀ (f : TypeParam → String) {k : Ty}, (k = .param x ∨ ∃ v, k = .literal v) →
      k.fill marks f = .param x ∨ ∃ v, k.fill marks f = .literal v := by
    rintro f k (rfl | ⟨v, rfl⟩)
    · by_cases hx : marks x = true
      · exact .inr ⟨_, if_pos hx⟩
      · exact .inl (if_neg hx)
    · exact .inr ⟨v, rfl⟩
  induction h with
  | refl => exact .inr (.inr ⟨.param x, .inl rfl, .inr (.inr rfl)⟩)
  | @tail w _ _ hstep ih =>
      rcases ih with hreach | rfl | ⟨k, hk, heq | rfl | rfl⟩
      · exact .inl (hreach.tail hstep)
      · obtain hreveal | ⟨f, rfl⟩ := hstep.reveals_or_fills nofun nofun
        · cases hreveal
          exact .inl .refl
        · exact .inr (.inl (congrArg Ty.keyOf (hself f)))
      · rw [← heq] at hk
        have hhead : ∀ kind decl elements, w.head ≠ .object kind decl elements := by
          rcases hk with rfl | ⟨v, rfl⟩ <;> exact nofun
        have href : ∀ target args, w ≠ .ref target args := by
          rcases hk with rfl | ⟨v, rfl⟩ <;> exact nofun
        obtain hreveal | ⟨f, rfl⟩ := hstep.reveals_or_fills hhead href
        · rcases hk with rfl | ⟨v, rfl⟩ <;> cases hreveal
        · exact .inr (.inr ⟨_, hfill f hk, .inl rfl⟩)
      · obtain hreveal | ⟨f, rfl⟩ := hstep.reveals_or_fills nofun nofun
        · cases hreveal with
          | object => exact .inl .refl
          | key => exact .inr (.inr ⟨_, hk, .inl rfl⟩)
        · refine .inr (.inr ⟨_, hfill f hk, .inr (.inl ?_)⟩)
          exact congrArg (Ty.index · _) (hself f)
      · obtain hreveal | ⟨f, rfl⟩ := hstep.reveals_or_fills nofun nofun
        · cases hreveal with
          | constraint => exact .inr (.inl rfl)
          | template => exact .inr (.inr ⟨k, hk, .inr (.inl rfl)⟩)
        · refine .inr (.inr ⟨_, hfill f hk, .inr (.inr ?_)⟩)
          have hmapped : (Ty.mapped x (.keyOf t) (.index t k) []).fill marks f =
              .mapped x (.keyOf (t.fill marks f)) (.index (t.fill marks f) (k.fill marks f)) [] :=
            rfl
          rw [hmapped, hself f]

theorem Whole.identityMapped (ht : cat.Whole marks t)
    (hhead : t.head = .object .interface decl elements) (hx : marks x = true) :
    cat.Whole marks (t.identityMapped x) where
  fits := ⟨hx, ⟨trivial, ht.fits⟩, ⟨trivial, ht.fits, trivial, trivial⟩⟩
  closed := by simp [Ty.identityMapped, Ty.free, ht.closed]
  sealed := by
    intro object key o hindex hexposes
    rcases unfolds_identityMapped ht hhead hindex with hreach | heq | ⟨k, hk, heq | heq | heq⟩
    · exact ht.sealed object key o hreach hexposes
    · cases heq
    · rcases hk with rfl | ⟨v, rfl⟩ <;> cases heq
    · cases heq
      cases hexposes with
      | here _ =>
          rw [Ty.substitute_nil]
          exact not_leaks_of_isKnot (Ty.isKnot_of_head hhead)
      | follow hfollow _ =>
          have hdirect := Ty.not_isIndirect_of_head hhead
          rw [hfollow.isIndirect] at hdirect
          cases hdirect
    · cases heq

theorem propertyType_of_mem (h : cat.properties t = .ok properties) (hp : p ∈ properties)
    (hkey : p.key = .str s) (htype : p.type? = some u) : cat.propertyType t s = .ok u := by
  have hname : p.name = .spelled s := by rw [Property.name, hkey, PropertyKey.name]
  have hfind : properties.find? (fun q => q.name = .spelled s) = some p := by
    cases hfound : properties.find? (fun q => q.name = .spelled s) with
    | none =>
        have hnone := List.find?_eq_none.1 hfound p hp
        exact absurd (decide_eq_true hname) hnone
    | some q =>
        have hq : q.name = .spelled s := by simpa using List.find?_some hfound
        rw [List.inj_on_of_nodup_map (nodup_names_properties h)
          (List.mem_of_find?_eq_some hfound) hp (hq.trans hname.symm)]
  simp only [propertyType, property?, h, bind, Except.bind, pure, Except.pure, hfind, htype]

/-! The strings that the key types stand for. -/

theorem spells_key (hx : env.lookup x = some (.literal (.str s))) :
    cat.Spells env (.param x) (.ofList [s]) :=
  spells_iff.2 (.follow (.param hx) (.leaf rfl))

theorem properties_of_head (hhead : t.head = .object .interface decl elements) :
    cat.properties t = cat.properties (.object .interface decl elements) := by
  unfold Catalog.properties
  rw [followNames_of_head hhead, followNames_of_head rfl]
  simp only [bind, Except.bind, objectHead?_of_head hhead]
  rfl

theorem classifies_names_of_head {path : List Ty} {shape : Shape}
    (hhead : t.head = .object .interface decl elements)
    (h : Classifies cat .names env path t shape) :
    ∃ properties, cat.properties t = .ok properties ∧
      Shape.ofProperties properties = .ok shape := by
  rw [properties_of_head hhead]
  have hleaf : Query.leaf cat .names (.object .interface decl elements) = .ok shape := by
    cases t with
    | object kind decl' elements' =>
        cases hhead
        cases h with
        | leaf hleaf => exact hleaf
        | follow hfollow _ => cases hfollow
    | ref target args =>
        cases hhead
        cases h with
        | leaf hleaf => cases hleaf
        | follow hfollow _ => cases hfollow
        | refMapped hmapped _ _ => cases hmapped
        | refTarget _ hshape =>
            cases hshape with
            | leaf hleaf => exact hleaf
            | follow hfollow _ => cases hfollow
    | _ => cases hhead
  cases hproperties : cat.properties (.object .interface decl elements) with
  | error fault =>
      simp only [Query.leaf, hproperties] at hleaf
      cases hleaf
  | ok properties =>
      simp only [Query.leaf, hproperties] at hleaf
      exact ⟨properties, rfl, hleaf⟩

/-- The keys of an interface are the names of its properties, and all of them are strings. -/
theorem mem_keys_iff {keys : StringSet} (hhead : t.head = .object .interface decl elements)
    (hproperties : cat.properties t = .ok properties) (h : cat.Spells env (.keyOf t) keys) :
    (∀ p ∈ properties, ∃ s, p.key = .str s) ∧
      ∀ s, s ∈ keys.toList ↔ ∃ p ∈ properties, p.key = .str s := by
  have hnames : Classifies cat .names env [] t (.exact keys) := by
    cases spells_iff.1 h with
    | leaf hleaf => cases hleaf
    | follow hfollow _ => cases hfollow
    | keyOf hshape => exact hshape
  obtain ⟨_, hproperties', hshape⟩ := classifies_names_of_head hhead hnames
  cases hproperties.symm.trans hproperties'
  unfold Shape.ofProperties at hshape
  split at hshape
  · cases hshape
  · next hsome =>
      cases Shape.ofStrings_eq_ok hshape
      have hstr : ∀ p ∈ properties, ∃ s, p.key = .str s := by
        simp only [Bool.or_eq_true, Bool.not_eq_true', not_or, Bool.not_eq_false, List.all_eq_true]
          at hsome
        intro p hp
        have hkey := hsome.2 p hp
        cases hp : p.key with
        | str s => exact ⟨s, rfl⟩
        | _ =>
            rw [hp] at hkey
            cases hkey
      refine ⟨hstr, fun s => ?_⟩
      rw [StringSet.mem_ofList, List.mem_map]
      refine exists_congr fun p => and_congr_right fun hp => ?_
      obtain ⟨s', hs'⟩ := hstr p hp
      rw [Property.name, hs']
      exact ⟨fun h => congrArg _ h, fun h => PropertyKey.str.inj h⟩

namespace Finds

variable {key : Expr → Reading} {r : Reading} {b : Bool} {v : Value}

theorem interface (hhead : t.head = .object .interface decl elements) (h : cat.Finds key [] t r b) :
    ∃ bindings properties parts, cat.bindings t = .ok bindings ∧ cat.properties t = .ok properties ∧
      List.Forall₂ (Part.OfInstance bindings) properties parts ∧
      cat.Demands [] t (.object parts) := by
  have hknot := Ty.isKnot_of_head hhead
  rcases h.cases_stands with ⟨_, hfollow, _⟩ | ⟨_, _, hmapped, _⟩ | ⟨_, hdemands, _⟩
  · cases hfollow <;> cases hknot
  · rw [hhead] at hmapped
    cases hmapped
  · cases hdemands with
    | properties _ hmapped hbindings hproperties hparts =>
        have hdemands := Demands.properties hknot hmapped hbindings hproperties hparts
        rw [Ty.knot_nil] at hbindings hproperties
        exact ⟨_, _, _, hbindings, hproperties, hparts, hdemands⟩
    | test htest =>
        rw [Test.not_isKnot htest] at hknot
        cases hknot
    | _ => cases hknot

theorem of_index {bindings : Bindings} (ht : cat.Whole marks t)
    (hhead : t.head = .object .interface decl elements) (hbindings : cat.bindings t = .ok bindings)
    (htype : cat.propertyType t s = .ok u) (hx : env.lookup x = some (.literal (.str s)))
    (h : cat.Finds key env (.index t (.param x)) r b) :
    cat.Finds key [] (u.substitute bindings) r b := by
  have hexposes : Exposes cat env t t := by
    have hhere : Exposes cat env t (t.substitute env) := .here (Ty.not_isIndirect_of_head hhead)
    rwa [Ty.substitute, ht.subst_eq_self (Ty.isInstance_of_head hhead)] at hhere
  have htypes : (StringSet.ofList [s]).toList.mapM (cat.propertyType t) = .ok [u] := by
    simp only [StringSet.ofList, StringSet.insert, StringSet.empty, StringSet.insertItem,
      List.mapM_cons, List.mapM_nil, htype]
    rfl
  have hmet := h.met (.index hexposes (spells_key hx) htypes hbindings)
  cases b with
  | true =>
      obtain ⟨part, hpart, hfinds⟩ := hmet
      rw [List.mem_singleton.1 hpart] at hfinds
      exact hfinds
  | false => exact hmet _ List.mem_cons_self

theorem of_key {bindings : Bindings} {part : Part} (ht : cat.Whole marks t)
    (hhead : t.head = .object .interface decl elements) (hbindings : cat.bindings t = .ok bindings)
    (hproperties : cat.properties t = .ok properties) (hp : p ∈ properties) (hkey : p.key = .str s)
    (hpart : Part.OfInstance bindings p part)
    (h : cat.Finds key [(x, .literal (.str s))] (.index t (.param x))
      ((key (.const (.str s))).bind v.read) b) :
    cat.Finds key part.env part.type (part.readingBy key v) b := by
  obtain ⟨u, index, htype, hindex, rfl⟩ := hpart
  rw [hkey] at hindex
  cases hindex
  exact h.of_index ht hhead hbindings (propertyType_of_mem hproperties hp hkey htype)
    List.lookup_cons_self

/-- What is found about the identity mapped type is found about the interface. -/
theorem of_identityMapped {bindings : Bindings} {parts : List Part} (ht : cat.Whole marks t)
    (hhead : t.head = .object .interface decl elements) (hbindings : cat.bindings t = .ok bindings)
    (hproperties : cat.properties t = .ok properties)
    (hparts : List.Forall₂ (Part.OfInstance bindings) properties parts)
    (hdemands : cat.Demands [] t (.object parts)) (h : cat.Finds key [] (t.identityMapped x) r b) :
    cat.Finds key [] t r b := by
  obtain ⟨keys, hkeys⟩ : ∃ keys, cat.Spells [] (.keyOf t) keys := by
    rcases h.cases_stands with ⟨_, hfollow, _⟩ | ⟨_, hknot, _⟩ | ⟨_, hmapped, _⟩
    · cases hfollow
    · cases hknot
    · cases hmapped with
      | test htest => cases htest
      | properties hknot _ _ _ _ => cases hknot
      | mapped hkeys => exact ⟨_, hkeys⟩
  obtain ⟨hstr, hmem⟩ := mem_keys_iff hhead hproperties hkeys
  have hmet := h.met (.mapped hkeys)
  cases b with
  | true =>
      obtain ⟨v, rfl, hv, hall⟩ := hmet
      refine .object hdemands hv fun part hpart => ?_
      obtain ⟨p, hp, hof⟩ := exists_of_forall₂_right hparts hpart
      obtain ⟨s, hs⟩ := hstr p hp
      exact of_key ht hhead hbindings hproperties hp hs hof
        (hall _ (List.mem_map.2 ⟨s, (hmem s).2 ⟨p, hp, hs⟩, rfl⟩))
  | false =>
      obtain ⟨v, rfl, hv | ⟨_, hkey, hfalse⟩⟩ := hmet
      · exact .plain hdemands hv
      · obtain ⟨s, hs, rfl⟩ := List.mem_map.1 hkey
        obtain ⟨p, hp, hstr⟩ := (hmem s).1 hs
        obtain ⟨part, hpart, hof⟩ := exists_of_forall₂_right hparts.flip hp
        exact .lacking hdemands hpart (of_key ht hhead hbindings hproperties hp hstr hof hfalse)

end Finds

theorem Fits.mark (h : cat.Fits (fun _ => false) t) : cat.Fits marks t := by
  cases t with
  | ref target args =>
      refine ⟨h.1, h.2.1, ?_⟩
      cases target with
      | mapped y constraint template params => cases h.2.2.1
      | _ => exact h.2.2
  | mapped y constraint template params => cases h
  | _ => exact h

theorem WellScoped.mark (h : cat.WellScoped fun _ => false)
    (hmarks : ∀ i d, cat.declared? i = some d → ∀ y ∈ d.params, marks y = false) :
    cat.WellScoped marks :=
  { h with
    fits := fun i d t hfind hlists => (h.fits i d t hfind hlists).mono fun _ => Fits.mark
    unmarked := fun i d y hfind => hmarks i d hfind y }

end Catalog

/-- A parameter to stand for keys. -/
def keyParam : TypeParam := ⟨"P", 9⟩

/-- A compiled interface and the identity mapped type over it say the same wherever both say
something, if the key is a parameter of its own. -/
theorem Subject.identity_mapped_agrees {limit limit' depth depth' : Nat} {y : String}
    {numbering numbering' : Numbering} {guard guard' : Expr} (hcat : cat.WellScoped marks)
    (hwritten : cat.WritesNames) (hx : marks x = true) (ht : cat.Whole marks t)
    (hhead : t.head = .object .interface decl elements)
    (h : ((Subject.type t).compile cat limit (.named y) [] numbering).verdict =
      .ok (.compiled guard))
    (h' : ((Subject.type (t.identityMapped x)).compile cat limit' (.named y) []
      numbering').verdict = .ok (.compiled guard'))
    (v : Value) (hv : v.IsWritten) {b b' : Bool}
    (hb : guard.holds depth [(.named y, v)] = .ok b)
    (hb' : guard'.holds depth' [(.named y, v)] = .ok b') : b = b' := by
  obtain ⟨key, hkey⟩ := Scope.exists_gives [(.named y, v)]
  have hsettles : cat.Indexed (Scope.Settles [(.named y, v)]) := fun i d hfind p hp index hindex =>
    Scope.settles_singleton hv (hwritten i d hfind p hp index hindex)
  have hfinds := finds_of_compiled hcat hwritten hsettles ht h hkey hb
  have hfinds' := finds_of_compiled hcat hwritten hsettles (ht.identityMapped hhead hx) h' hkey hb'
  obtain ⟨_, _, _, hbindings, hproperties, hparts, hdemands⟩ := hfinds.interface hhead
  exact hfinds.unique (hfinds'.of_identityMapped ht hhead hbindings hproperties hparts hdemands)

theorem Subject.identity_mapped_agrees_shelf :
    let t := Guard.instanceType shelf [.primitive "number"]
    let torn : Value := .dict [(.str "name", .str "a"), (.str "value", .int 1),
      (.str "next",
        .dict [(.str "name", .str "b"), (.str "value", .str "c"), (.str "next", .null)])]
    ∃ guard guard' b b',
      ((Subject.type t).compile .shelves 9 (.named "x") [] {}).verdict = .ok (.compiled guard) ∧
      ((Subject.type (t.identityMapped keyParam)).compile .shelves 9 (.named "x") [] {}).verdict =
        .ok (.compiled guard') ∧
      guard.holds 3 [(.named "x", torn)] = .ok b ∧ guard'.holds 3 [(.named "x", torn)] = .ok b' ∧
      b = b' := by
  intro t torn
  have hanswer : ((Subject.type t).compile .shelves 9 (.named "x") [] {}).answer? 3
      [(.named "x", torn)] = some false := by decide +kernel
  have hanswer' : ((Subject.type (t.identityMapped keyParam)).compile .shelves 9 (.named "x") []
      {}).answer? 3 [(.named "x", torn)] = some false := by decide +kernel
  obtain ⟨guard, h, hb⟩ := Outcome.of_answer? hanswer
  obtain ⟨guard', h', hb'⟩ := Outcome.of_answer? hanswer'
  have hcat : Catalog.shelves.WellScoped (· = keyParam) := by
    refine Catalog.wellScoped_shelves.mark (Catalog.forall_of_entries ?_)
    simp [Catalog.shelves, named, shelf, keyParam]
  have hwhole : Catalog.shelves.Whole (· = keyParam) t :=
    ⟨⟨⟨fun u hu => by cases List.mem_singleton.1 hu; rfl, rfl, rfl,
      Catalog.backs_interface rfl rfl⟩, trivial, ⟨trivial, trivial⟩, trivial⟩, rfl,
      Catalog.sealed_of_no_class (by simp [Catalog.shelves, named, shelf, Declaration.kind?]) t⟩
  exact ⟨guard, guard', _, _, h, h', hb, hb', Subject.identity_mapped_agrees hcat
    (Catalog.plain_shelves.indexed fun _ => rfl) (decide_eq_true rfl) hwhole rfl h h' torn
    (.of_isPlain rfl) hb hb'⟩

/-- The guard of a type lets a value through, and that of the identity mapped type over it does
not. -/
def Ty.UnlikeMapped (cat : Catalog) (x : TypeParam) (t : Ty) (v : Value) : Prop :=
  ∃ guard guard',
    ((Subject.type t).compile cat 30 (.named "v") [] {}).verdict = .ok (.compiled guard) ∧
    ((Subject.type (t.identityMapped x)).compile cat 30 (.named "v") [] {}).verdict =
      .ok (.compiled guard') ∧
    guard.holds 20 [(.named "v", v)] = .ok true ∧ guard'.holds 20 [(.named "v", v)] = .ok false

theorem Ty.UnlikeMapped.of_answers {v : Value}
    (h : ((Subject.type t).compile cat 30 (.named "v") [] {}).answer? 20
      [(.named "v", v)] = some true)
    (h' : ((Subject.type (t.identityMapped x)).compile cat 30 (.named "v") [] {}).answer? 20
      [(.named "v", v)] = some false) : t.UnlikeMapped cat x v := by
  obtain ⟨guard, hguard, hb⟩ := Outcome.of_answer? h
  obtain ⟨guard', hguard', hb'⟩ := Outcome.of_answer? h'
  exact ⟨guard, guard', hguard, hguard', hb, hb'⟩

/-- A string of beads, which have a property under a name that is read from somewhere. -/
def Catalog.beads (index : Expr) : Catalog :=
  { entries := [(.listed "String", {
      name := "String"
      body := .interface [] [
        ⟨.str "first", some (.name "Bead" []), false, none, .listed "String"⟩,
        ⟨.str "other", some (.union [.name "String" [], .primitive "null"]), false, none,
          .listed "String"⟩] }),
    (.listed "Bead", {
      name := "Bead"
      body := .interface [] [
        ⟨.computed (.expr index), some (.primitive "string"), false, none, .listed "Bead"⟩,
        ⟨.str "next", some (.union [.name "Bead" [], .primitive "null"]), false, none,
          .listed "Bead"⟩] })] }

theorem Catalog.wellScoped_beads (index : Expr) : (beads index).WellScoped (· = keyParam) := by
  refine WellScoped.of_entries ?_ ?_ ?_
  · simp only [beads, List.forall_mem_cons, List.not_mem_nil, IsEmpty.forall_iff, implies_true,
      and_true]
    exact ⟨rfl, rfl⟩
  · simp only [beads, List.forall_mem_cons, List.not_mem_nil, IsEmpty.forall_iff, implies_true,
      and_true]
    refine ⟨?_, ?_⟩ <;> constructor
    all_goals simp [Declaration.types, Declaration.heritage, Declaration.members, Ty.Every,
      Ty.Inside, Ty.InsideList, Fits, Ty.free, Ty.freeList]
  · simp [beads]

theorem Catalog.whole_string (index : Expr) :
    (beads index).Whole (· = keyParam) (.object .interface (.listed "String") []) :=
  ⟨⟨⟨rfl, rfl, backs_interface rfl rfl⟩, trivial⟩, rfl,
    sealed_of_no_class (by simp [beads, Declaration.kind?]) _⟩

/-- A string of one bead. The string and the bead name different properties of the bead. -/
def strung (more : List (Value × Value)) : Value :=
  .dict ([(.str "first", .dict [(.str "tag", .str "size"), (.str "color", .str "red"),
    (.str "size", .int 1), (.str "next", .null)]), (.str "other", .null),
      (.str "tag", .str "color")] ++ more)

/-- The two guards can say different things where a class with a generic ancestor is looked into,
since a check that is called sees what is bound around it where it is made; and where the name of a
property, or an expression in the value that such a name calls, reads what was named for a type. -/
theorem Subject.identity_mapped_differs :
    (∃ (cat : Catalog) (marks : TypeParam → Bool) (x : TypeParam) (t : Ty)
      (decl : DeclId) (v : Value),
      cat.WellScoped marks ∧ cat.WritesNames ∧ marks x = true ∧ t.Every (cat.Fits marks) ∧
      t.free = [] ∧ t.head = .object .interface decl [] ∧ v.IsWritten ∧ t.UnlikeMapped cat x v) ∧
    (∃ (cat : Catalog) (marks : TypeParam → Bool) (x : TypeParam) (t : Ty)
      (decl : DeclId) (v : Value),
      cat.WellScoped marks ∧ marks x = true ∧ cat.Whole marks t ∧
      t.head = .object .interface decl [] ∧ v.IsWritten ∧ t.UnlikeMapped cat x v) ∧
    ∃ (cat : Catalog) (marks : TypeParam → Bool) (x : TypeParam) (t : Ty)
      (decl : DeclId) (v : Value),
      cat.WellScoped marks ∧ cat.WritesNames ∧ marks x = true ∧ cat.Whole marks t ∧
      t.head = .object .interface decl [] ∧ t.UnlikeMapped cat x v := by
  refine ⟨?_, ?_, ?_⟩
  · have hcat : Catalog.tangle.WellScoped (· = keyParam) := by
      refine Catalog.wellScoped_tangle.mark (Catalog.forall_of_entries ?_)
      simp [Catalog.tangle, Catalog.heirs, keyParam]
    refine ⟨.tangle, (· = keyParam), keyParam, .object .interface (.listed "Outer") [],
      _, tangled, hcat, Catalog.plain_tangle.indexed fun _ => rfl, decide_eq_true rfl,
      ⟨⟨rfl, rfl, Catalog.backs_interface rfl rfl⟩, trivial⟩, rfl, rfl, .of_isPlain rfl,
      .of_answers ?_ ?_⟩ <;> decide +kernel
  · let index : Expr := .prop (.ident (.slot 0)) "tag"
    refine ⟨.beads index, (· = keyParam), keyParam, _, _, strung [], Catalog.wellScoped_beads index,
      decide_eq_true rfl, Catalog.whole_string index, rfl, .of_isPlain rfl, .of_answers ?_ ?_⟩ <;>
      decide +kernel
  · -- The name calls the expression that the value holds under `call`.
    let index : Expr := .fix (.named "f") (.named "p") (.recur (.named "p") (.const .null))
      (.prop (.named "v") "call")
    let called : Value := .code (.fix (.named "g") (.named "q") (.prop (.ident (.slot 0)) "tag")
      (.const .null))
    have hwritten : (Catalog.beads index).WritesNames := by
      refine Catalog.forall_of_entries ?_
      simp [Catalog.beads, Declaration.members, PropertyKey.index, index,
        Expr.numbers, Ident.numbers, Expr.named, pure, Except.pure]
    refine ⟨.beads index, (· = keyParam), keyParam, _, _, strung [(.str "call", called)],
      Catalog.wellScoped_beads index, hwritten, decide_eq_true rfl, Catalog.whole_string index, rfl,
      .of_answers ?_ ?_⟩ <;> decide +kernel

end TypeGuard
