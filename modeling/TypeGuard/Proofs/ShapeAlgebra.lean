import TypeGuard.Proofs.Agreement
import TypeGuard.Proofs.Classification
import TypeGuard.Proofs.Instantiation
import TypeGuard.Proofs.KeyNames

/-! How shapes are put together. A union and an intersection of shapes depend on which shapes there
are, not on their order or number, and a union inside a union can be spliced in unless it is empty.
What holds of the shapes holds of the types: where the members can be classified, their order,
their repetition and the nesting of unions make no difference. -/

namespace TypeGuard

theorem StringSet.ofList_congr {items items' : List String} (h : ∀ x, x ∈ items ↔ x ∈ items') :
    ofList items = ofList items' :=
  ext_toList fun x => by rw [mem_ofList, mem_ofList, h x]

namespace Shape

variable {xs ys zs : List Shape}

theorem isNever_iff {shape : Shape} : shape.isNever = true ↔ shape = never := by
  cases shape <;> simp [isNever]

theorem isAlways_iff {shape : Shape} : shape.isAlways = true ↔ shape = always := by
  cases shape <;> simp [isAlways]

theorem any_isNever : xs.any isNever = true ↔ never ∈ xs := by
  simp only [List.any_eq_true, isNever_iff, exists_eq_right]

theorem any_isAlways : xs.any isAlways = true ↔ always ∈ xs := by
  simp only [List.any_eq_true, isAlways_iff, exists_eq_right]

theorem ofStrings_congr {items items' : List String} (h : ∀ x, x ∈ items ↔ x ∈ items') :
    ofStrings items = ofStrings items' := by
  cases items with
  | nil =>
      have hnil : items' = [] := by
        apply List.eq_nil_iff_forall_not_mem.2
        intro x hx
        exact List.not_mem_nil ((h x).2 hx)
      rw [hnil]
  | cons s rest =>
      cases items' with
      | nil => exact absurd ((h s).1 List.mem_cons_self) List.not_mem_nil
      | cons s' rest' =>
          exact congrArg (fun set => Except.ok (exact set)) (StringSet.ofList_congr h)

/-- No case at all, or one that is no string: either spoils a union. -/
def IsSpoilt (shapes : List Shape) : Prop :=
  shapes = [] ∨ never ∈ shapes

theorem isSpoilt_iff : (xs.isEmpty || xs.any isNever) = true ↔ IsSpoilt xs := by
  rw [Bool.or_eq_true, List.isEmpty_iff, any_isNever, IsSpoilt]

theorem union_of_spoilt (h : IsSpoilt xs) : union xs = .ok never := by
  rw [union, if_pos (isSpoilt_iff.2 h)]
  rfl

theorem union_of_always (h : ¬IsSpoilt xs) (halways : always ∈ xs) : union xs = .ok always := by
  rw [union, if_neg (mt isSpoilt_iff.1 h), if_pos (any_isAlways.2 halways)]
  rfl

theorem union_of_exact (h : ¬IsSpoilt xs) (halways : always ∉ xs) :
    union xs = ofStrings (xs.flatMap literals) := by
  rw [union, if_neg (mt isSpoilt_iff.1 h), if_neg (mt any_isAlways.1 halways)]

/-- What is looked at in a union, in that order: what spoils it, an open-ended case, the
literals. -/
theorem union_congr (hspoilt : IsSpoilt xs ↔ IsSpoilt ys)
    (halways : ¬IsSpoilt xs → (always ∈ xs ↔ always ∈ ys))
    (hliterals : ¬IsSpoilt xs → always ∉ xs →
      ∀ x, x ∈ xs.flatMap literals ↔ x ∈ ys.flatMap literals) : union xs = union ys := by
  by_cases hxs : IsSpoilt xs
  · rw [union_of_spoilt hxs, union_of_spoilt (hspoilt.1 hxs)]
  have hys : ¬IsSpoilt ys := mt hspoilt.2 hxs
  by_cases hopen : always ∈ xs
  · rw [union_of_always hxs hopen, union_of_always hys ((halways hxs).1 hopen)]
  · rw [union_of_exact hxs hopen, union_of_exact hys (mt (halways hxs).2 hopen)]
    exact ofStrings_congr (hliterals hxs hopen)

section SameShapes

variable (h : ∀ shape, shape ∈ xs ↔ shape ∈ ys)

include h

theorem mem_flatMap_literals_congr (x : String) :
    x ∈ xs.flatMap literals ↔ x ∈ ys.flatMap literals := by
  rw [List.mem_flatMap, List.mem_flatMap]
  exact exists_congr fun shape => and_congr_left fun _ => h shape

theorem union_eq_of_mem_iff : union xs = union ys := by
  have hempty : xs = [] ↔ ys = [] := by
    rw [List.eq_nil_iff_forall_not_mem, List.eq_nil_iff_forall_not_mem]
    exact forall_congr' fun shape => not_congr (h shape)
  exact union_congr (or_congr hempty (h never)) (fun _ => h always)
    fun _ _ => mem_flatMap_literals_congr h

theorem inter_eq_of_mem_iff : inter xs = inter ys := by
  have hset := StringSet.ofList_congr (mem_flatMap_literals_congr h)
  have hopen : xs.any isAlways = ys.any isAlways := by
    rw [Bool.eq_iff_iff, any_isAlways, any_isAlways]
    exact h always
  rw [inter, inter, hset, hopen]

end SameShapes

theorem isSpoilt_around (h : ys ≠ []) (xs zs : List Shape) :
    IsSpoilt (xs ++ ys ++ zs) ↔ never ∈ xs ∨ never ∈ ys ∨ never ∈ zs := by
  have hsome : xs ++ ys ++ zs ≠ [] := by simp [h]
  rw [IsSpoilt, or_iff_right hsome, List.mem_append, List.mem_append, or_assoc]

/-- What a union that has cases comes to tells as much about them as a union around it asks. -/
theorem union_splice {merged : Shape} (hsome : ys ≠ []) (h : union ys = .ok merged)
    (xs zs : List Shape) : union (xs ++ [merged] ++ zs) = union (xs ++ ys ++ zs) := by
  have hmerged := isSpoilt_around (List.cons_ne_nil merged []) xs zs
  have hcases := isSpoilt_around hsome xs zs
  by_cases hnever : never ∈ ys
  · cases (union_of_spoilt (.inr hnever)).symm.trans h
    rw [union_of_spoilt (hmerged.2 (.inr (.inl (List.mem_singleton_self _)))),
      union_of_spoilt (hcases.2 (.inr (.inl hnever)))]
  have hsound : ¬IsSpoilt ys := fun hspoilt => hspoilt.elim hsome hnever
  by_cases hopen : always ∈ ys
  · cases (union_of_always hsound hopen).symm.trans h
    apply union_congr
    · rw [hmerged, hcases]
      simp [hnever]
    · simp [hopen]
    · simp
  · -- All cases are exact, and so is what they come to.
    rw [union_of_exact hsound hopen] at h
    cases ofStrings_eq_ok h
    apply union_congr
    · rw [hmerged, hcases]
      simp [hnever]
    · simp [hopen]
    · simp [literals]

/-- A union without cases is no string, so it is not the same as no union. -/
example : union [] = .ok never ∧ union [always, never] = .ok never ∧ union [always] = .ok always :=
  ⟨rfl, rfl, rfl⟩

theorem MakesProper.isProper {x : Except Fault Shape} {shape : Shape} (h : MakesProper x)
    (hx : x = .ok shape) : shape.IsProper := by
  obtain ⟨made, rfl, hmade⟩ := h
  cases hx
  exact hmade

end Shape

namespace Query

variable {cat : Catalog} {shapes : List Shape} {shape : Shape}

theorem isProper_leaf {q : Query} {t : Ty} (h : q.leaf cat t = .ok shape) : shape.IsProper := by
  cases q with
  | strings =>
      cases t with
      | primitive s =>
          simp only [leaf, Shape.ofPrimitive] at h
          split at h <;> cases h <;> trivial
      | literal v =>
          simp only [leaf, Shape.ofLiteral] at h
          split at h
          · exact (Shape.makesProper_ofStrings (List.cons_ne_nil _ _)).isProper h
          all_goals cases h <;> trivial
      | object kind decl elements =>
          cases kind with
          | interface =>
              cases h
              trivial
          | nominal => cases h
      | boolean _ | sequence _ _ | mapped _ _ _ _ =>
          cases h
          trivial
      | _ => cases h
  | names =>
      cases t with
      | primitive s =>
          rw [leaf] at h
          split at h
          · cases h
            trivial
          · cases h
      | object kind decl elements =>
          cases kind with
          | interface =>
              rw [leaf] at h
              cases hproperties : cat.properties (.object .interface decl elements) with
              | error fault =>
                  rw [hproperties] at h
                  cases h
              | ok properties =>
                  rw [hproperties] at h
                  exact (Shape.makesProper_ofProperties properties).isProper h
          | nominal => cases h
      | sequence _ _ =>
          cases h
          trivial
      | _ => cases h

theorem isProper_union {q : Query} (hshapes : ∀ shape ∈ shapes, shape.IsProper)
    (h : q.union shapes = .ok shape) : shape.IsProper := by
  cases q with
  | strings => exact (Shape.makesProper_union hshapes).isProper h
  | names => exact (Shape.makesProper_commonNames shapes).isProper h

theorem isProper_inter {q : Query} (h : q.inter shapes = .ok shape) : shape.IsProper := by
  cases q with
  | strings => exact (Shape.makesProper_inter shapes).isProper h
  | names => exact (Shape.makesProper_allNames shapes).isProper h

end Query

namespace Classifies

variable {cat : Catalog} {env : Bindings} {path : List Ty} {members : List Ty}

theorem isProper {q : Query} {t : Ty} {shape : Shape} (h : Classifies cat q env path t shape) :
    shape.IsProper := by
  -- A union relies on its cases, which stand in one line with their shapes.
  have hall : ∀ {types : List Ty} {shapes : List Shape}, types.length = shapes.length →
      (∀ t s, (t, s) ∈ types.zip shapes → s.IsProper) → ∀ s ∈ shapes, s.IsProper := by
    intro types shapes hlength hzip s hs
    obtain ⟨_, _, hproper⟩ := exists_of_forall₂_right (R := fun _ s => s.IsProper)
      (List.forall₂_iff_zip.2 ⟨hlength, fun hmem => hzip _ _ hmem⟩) hs
    exact hproper
  induction h with
  | leaf hleaf => exact Query.isProper_leaf hleaf
  | union hlength _ hunion ih => exact Query.isProper_union (hall hlength ih) hunion
  | inter _ _ hinter _ => exact Query.isProper_inter hinter
  | again => trivial
  | index _ _ _ _ hlength _ hunion _ ih =>
      exact (Shape.makesProper_union (hall hlength ih)).isProper hunion
  | follow _ _ ih | ref _ _ _ ih | refMapped _ _ _ ih | refTarget _ _ ih | mapped _ ih
  | keyOf _ ih => exact ih

variable {shapes : List Shape} {shape : Shape}

theorem union_of_forall₂ (h : List.Forall₂ (Classifies cat .strings env path) members shapes)
    (hunion : Shape.union shapes = .ok shape) :
    Classifies cat .strings env path (.union members) shape :=
  .union h.length_eq (fun _ _ => (List.forall₂_iff_zip.1 h).2) hunion

theorem inter_of_forall₂ (h : List.Forall₂ (Classifies cat .strings env path) members shapes)
    (hinter : Shape.inter shapes = .ok shape) :
    Classifies cat .strings env path (.inter members) shape :=
  .inter h.length_eq (fun _ _ => (List.forall₂_iff_zip.1 h).2) hinter

variable {shapeOf : Ty → Shape}
  (h : ∀ t ∈ members, Classifies cat .strings env path t (shapeOf t))

include h

theorem forall₂_map :
    List.Forall₂ (Classifies cat .strings env path) members (members.map shapeOf) :=
  List.forall₂_map_right_iff.2 (List.forall₂_same.2 h)

theorem exists_union_map : ∃ shape, Shape.union (members.map shapeOf) = .ok shape := by
  have hproper : ∀ s ∈ members.map shapeOf, s.IsProper := by
    rw [List.forall_mem_map]
    exact fun t ht => (h t ht).isProper
  obtain ⟨shape, hunion, _⟩ := Shape.makesProper_union hproper
  exact ⟨shape, hunion⟩

end Classifies

theorem Session.at_ctx {s : Session} (h : s.ctx.Tidy) :
    s.At s.ctx.bindings s.ctx.path s.progress :=
  ⟨h.marks, rfl, rfl, rfl, h.sound⟩

namespace Shape

open Filter

variable {cat : Catalog} {s : Session}

/-- From some limit on, both types come to one and the same shape. -/
def ComeAlike (cat : Catalog) (s : Session) (t t' : Ty) : Prop :=
  ∃ shape, ∀ᶠ limit in atTop,
    (∃ s', ofType cat limit t s = .ok shape s') ∧ ∃ s', ofType cat limit t' s = .ok shape s'

theorem comeAlike_of_classifies (hs : s.ctx.Tidy) {t t' : Ty} {shape : Shape}
    (h : Classifies cat .strings s.ctx.bindings s.ctx.path t shape)
    (h' : Classifies cat .strings s.ctx.bindings s.ctx.path t' shape) : ComeAlike cat s t t' :=
  ⟨shape, (eventually_ofType (Session.at_ctx hs) h).and (eventually_ofType (Session.at_ctx hs) h')⟩

theorem exists_shapeOf (hs : s.ctx.Tidy) {members : List Ty}
    (h : ∀ t ∈ members, ∃ shape, Walk.Returns (ofType cat · t) s shape) :
    ∃ shapeOf : Ty → Shape, ∀ t ∈ members,
      Classifies cat .strings s.ctx.bindings s.ctx.path t (shapeOf t) := by
  have hnonempty : Nonempty Shape := ⟨never⟩
  choose! shapeOf hshapeOf using h
  exact ⟨shapeOf, fun t ht => (returns_iff (Session.at_ctx hs)).1 (hshapeOf t ht)⟩

section Members

variable {ls ms ns : List Ty}

theorem comeAlike_of_mem_iff (hs : s.ctx.Tidy) (hmem : ∀ t, t ∈ ms ↔ t ∈ ns)
    (h : ∀ t ∈ ms, ∃ shape, Walk.Returns (ofType cat · t) s shape) :
    ComeAlike cat s (.union ms) (.union ns) ∧ ComeAlike cat s (.inter ms) (.inter ns) := by
  obtain ⟨shapeOf, hms⟩ := exists_shapeOf hs h
  have hns : ∀ t ∈ ns, Classifies cat .strings s.ctx.bindings s.ctx.path t (shapeOf t) :=
    fun t ht => hms t ((hmem t).2 ht)
  have hshapes : ∀ shape, shape ∈ ms.map shapeOf ↔ shape ∈ ns.map shapeOf := by
    intro shape
    rw [List.mem_map, List.mem_map]
    exact exists_congr fun t => and_congr_left fun _ => hmem t
  constructor
  · obtain ⟨shape, hunion⟩ := Classifies.exists_union_map hms
    have hunion' := (union_eq_of_mem_iff hshapes).symm.trans hunion
    exact comeAlike_of_classifies hs (.union_of_forall₂ (Classifies.forall₂_map hms) hunion)
      (.union_of_forall₂ (Classifies.forall₂_map hns) hunion')
  · obtain ⟨shape, hinter, _⟩ := makesProper_inter (ms.map shapeOf)
    have hinter' := (inter_eq_of_mem_iff hshapes).symm.trans hinter
    exact comeAlike_of_classifies hs (.inter_of_forall₂ (Classifies.forall₂_map hms) hinter)
      (.inter_of_forall₂ (Classifies.forall₂_map hns) hinter')

theorem comeAlike_splice (hs : s.ctx.Tidy) (hsome : ms ≠ [])
    (h : ∀ t ∈ ls ++ ms ++ ns, ∃ shape, Walk.Returns (ofType cat · t) s shape) :
    ComeAlike cat s (.union (ls ++ [.union ms] ++ ns)) (.union (ls ++ ms ++ ns)) := by
  obtain ⟨shapeOf, hall⟩ := exists_shapeOf hs h
  obtain ⟨⟨hls, hms⟩, hns⟩ := List.forall_mem_append.1 hall |>.imp_left List.forall_mem_append.1
  obtain ⟨merged, hmerged⟩ := Classifies.exists_union_map hms
  obtain ⟨shape, hflat⟩ := Classifies.exists_union_map hall
  have hnested : List.Forall₂ (Classifies cat .strings s.ctx.bindings s.ctx.path)
      (ls ++ [.union ms] ++ ns) (ls.map shapeOf ++ [merged] ++ ns.map shapeOf) := by
    have hinside := Classifies.union_of_forall₂ (Classifies.forall₂_map hms) hmerged
    apply List.rel_append
    · exact List.rel_append (Classifies.forall₂_map hls) (.cons hinside .nil)
    · exact Classifies.forall₂_map hns
  have hsplice := union_splice (mt List.map_eq_nil_iff.1 hsome) hmerged (ls.map shapeOf)
    (ns.map shapeOf)
  rw [← List.map_append, ← List.map_append, hflat] at hsplice
  exact comeAlike_of_classifies hs (.union_of_forall₂ hnested hsplice)
    (.union_of_forall₂ (Classifies.forall₂_map hall) hflat)

end Members

/-- Putting proper shapes together always gives a proper shape. Unions and intersections depend on
which shapes there are and on nothing else, and a union that is not empty can be spliced into the
union around it. So wherever its members can be classified, a union comes to the same shape in any
order, with any repetitions and with a union inside it flattened, and an intersection in any order
and with any repetitions. -/
theorem combining_depends_on_members :
    (∀ xs : List Shape, (∀ shape ∈ xs, shape.IsProper) →
      MakesProper (union xs) ∧ MakesProper (inter xs)) ∧
    (∀ xs ys : List Shape, (∀ shape, shape ∈ xs ↔ shape ∈ ys) →
      union xs = union ys ∧ inter xs = inter ys) ∧
    (∀ ys : List Shape, ys ≠ [] → (∀ shape ∈ ys, shape.IsProper) →
      ∃ merged, union ys = .ok merged ∧
        ∀ xs zs, union (xs ++ [merged] ++ zs) = union (xs ++ ys ++ zs)) ∧
    ∀ (cat : Catalog) (s : Session), s.ctx.Reachable →
      (∀ ms ns : List Ty, (∀ t, t ∈ ms ↔ t ∈ ns) →
        (∀ t ∈ ms, ∃ shape, Walk.Returns (ofType cat · t) s shape) →
        ComeAlike cat s (.union ms) (.union ns) ∧ ComeAlike cat s (.inter ms) (.inter ns)) ∧
      ∀ ls ms ns : List Ty, ms ≠ [] →
        (∀ t ∈ ls ++ ms ++ ns, ∃ shape, Walk.Returns (ofType cat · t) s shape) →
        ComeAlike cat s (.union (ls ++ [.union ms] ++ ns)) (.union (ls ++ ms ++ ns)) := by
  refine ⟨fun xs hproper => ⟨makesProper_union hproper, makesProper_inter xs⟩,
    fun xs ys hmem => ⟨union_eq_of_mem_iff hmem, inter_eq_of_mem_iff hmem⟩,
    fun ys hsome hproper => ?_, fun cat s hs =>
      ⟨fun ms ns hmem h => ?_, fun ls ms ns hsome h => ?_⟩⟩
  · obtain ⟨merged, hmerged, _⟩ := makesProper_union hproper
    exact ⟨merged, hmerged, union_splice hsome hmerged⟩
  · exact comeAlike_of_mem_iff hs.tidy hmem h
  · exact comeAlike_splice hs.tidy hsome h

/-- The keys of what a parameter stands for, beside other strings. -/
theorem combining_depends_on_members_keys :
    let s : Session :=
      { ctx := (Context.push [(⟨"T", 0⟩, .object .interface (.listed "Named") [])] {}).2 }
    let keys := Ty.keyOf (.param ⟨"T", 0⟩)
    let b := Ty.literal (.str "b")
    let a := Shape.exact (.ofList ["a"])
    s.ctx.Reachable ∧ Walk.Returns (ofType copies · keys) s a ∧
      Walk.Returns (ofType copies · b) s (.exact (.ofList ["b"])) ∧
      Walk.Returns (ofType copies · (.primitive "string")) s always ∧
      ComeAlike copies s (.union [b, keys, b]) (.union [keys, b]) ∧
      ComeAlike copies s (.inter [.primitive "string", keys, keys])
        (.inter [keys, .primitive "string"]) ∧
      ComeAlike copies s (.union [b, .union [keys, .primitive "string"]])
        (.union [b, keys, .primitive "string"]) ∧
      MakesProper (union [a, always, a]) ∧ inter [a, always, a] = inter [always, a] ∧
      union [never, always] = union [never, a, always] := by
  intro s keys b a
  obtain ⟨hproper, hmem, hsplice, htypes⟩ := combining_depends_on_members
  have hs : s.ctx.Reachable := .push _ .fresh
  have hkeys : Walk.Returns (ofType copies · keys) s a := ⟨4, _, rfl⟩
  have hb : Walk.Returns (ofType copies · b) s (.exact (.ofList ["b"])) := ⟨1, _, rfl⟩
  have hstring : Walk.Returns (ofType copies · (.primitive "string")) s always := ⟨1, _, rfl⟩
  have hset : a.IsProper := List.cons_ne_nil _ _
  refine ⟨hs, hkeys, hb, hstring, ?_, ?_, ?_, ?_, ?_, ?_⟩
  · refine ((htypes copies s hs).1 _ _ (fun t => ?_) ?_).1
    · simp only [List.mem_cons, List.not_mem_nil, or_false]
      tauto
    · simp only [List.forall_mem_cons]
      exact ⟨⟨_, hb⟩, ⟨_, hkeys⟩, ⟨_, hb⟩, List.forall_mem_nil _⟩
  · refine ((htypes copies s hs).1 _ _ (fun t => ?_) ?_).2
    · simp only [List.mem_cons, List.not_mem_nil, or_false]
      tauto
    · simp only [List.forall_mem_cons]
      exact ⟨⟨_, hstring⟩, ⟨_, hkeys⟩, ⟨_, hkeys⟩, List.forall_mem_nil _⟩
  · refine (htypes copies s hs).2 [b] [keys, .primitive "string"] [] (List.cons_ne_nil _ _) ?_
    simp only [List.cons_append, List.nil_append, List.forall_mem_cons]
    exact ⟨⟨_, hb⟩, ⟨_, hkeys⟩, ⟨_, hstring⟩, List.forall_mem_nil _⟩
  · refine (hproper _ ?_).1
    simp only [List.forall_mem_cons]
    exact ⟨hset, trivial, hset, List.forall_mem_nil _⟩
  · refine (hmem _ _ fun shape => ?_).2
    simp only [List.mem_cons, List.not_mem_nil, or_false]
    tauto
  · obtain ⟨merged, hmerged, hflat⟩ := hsplice [a, always] (List.cons_ne_nil _ _) (by
      simp only [List.forall_mem_cons]
      exact ⟨hset, trivial, List.forall_mem_nil _⟩)
    cases hmerged
    exact hflat [never] []

end Shape

end TypeGuard
