import Mathlib.Data.Finset.Card
import Mathlib.Logic.Relation
import TypeGuard.Catalog.Bindings
import TypeGuard.Proofs.Resolve
import TypeGuard.Shape.OfType

/-! What a type inherits from. The search for ancestors meets every object above a type once, heirs
before what they inherit from, and it runs out of neither clauses nor objects. -/

namespace TypeGuard

open Relation (ReflTransGen)

namespace Catalog

variable {cat : Catalog}

/-- The types above a type, phrased in the parameters of their heirs. -/
inductive Above (cat : Catalog) (t : Ty) : Ty → Prop
  | self : Above cat t t
  | base {u base : Ty} {bases : List Ty} (habove : Above cat t u)
      (hbases : cat.bases u.head = .ok bases) (hbase : base ∈ bases) : Above cat t base

theorem Above.trans {t u w : Ty} (h : cat.Above t u) (h' : cat.Above u w) : cat.Above t w := by
  induction h' with
  | self => exact h
  | base _ hbases hbase ih => exact ih.base hbases hbase

theorem Above.of_head {t t' u : Ty} (hhead : t'.head = t.head) (h : cat.Above t u) :
    u = t ∨ cat.Above t' u := by
  induction h with
  | self => exact .inl rfl
  | base _ hbases hbase ih =>
      rcases ih with rfl | ih
      · exact .inr (Above.base .self (by rw [hhead]; exact hbases) hbase)
      · exact .inr (ih.base hbases hbase)

theorem Above.exists_of_head {t t' u : Ty} (hhead : t'.head = t.head) (h : cat.Above t u) :
    ∃ u', cat.Above t' u' ∧ u'.head = u.head := by
  rcases h.of_head hhead with rfl | h
  · exact ⟨t', .self, hhead⟩
  · exact ⟨u, h, rfl⟩

/-- Every heritage clause above a type stands for something. -/
def Rooted (cat : Catalog) (t : Ty) : Prop :=
  ∀ u, cat.Above t u → ∃ bases, cat.bases u.head = .ok bases

theorem Rooted.above {t u : Ty} (h : cat.Rooted t) (habove : cat.Above t u) : cat.Rooted u :=
  fun w hw => h w (habove.trans hw)

theorem Rooted.of_head {t t' : Ty} (h : cat.Rooted t') (hhead : t'.head = t.head) :
    cat.Rooted t := by
  intro u hu
  obtain ⟨u', hu', hhead'⟩ := hu.exists_of_head hhead
  rw [← hhead']
  exact h u' hu'

/-- Every heritage clause of a catalog stands for something. -/
def Founded (cat : Catalog) : Prop :=
  ∀ i d, cat.declared? i = some d →
    ∀ clause ∈ d.heritage, ∃ base, cat.resolve clause.annotation = .ok base

theorem Founded.bases (h : cat.Founded) (t : Ty) : ∃ bases, cat.bases t = .ok bases := by
  unfold Catalog.bases
  split
  · next kind decl elements _ =>
      cases hfind : cat.declared? decl with
      | none => exact ⟨[], rfl⟩
      | some d => exact exists_mapM_eq_ok (h decl d hfind)
  · exact ⟨[], rfl⟩

/-- What an object inherits from depends on its declaration only. -/
theorem bases_of_head {t u : Ty} {kind kind' : ObjectKind} {decl : DeclId}
    {elements elements' : List Ty}
    (ht : t.head = .object kind decl elements) (hu : u.head = .object kind' decl elements') :
    cat.bases t = cat.bases u := by
  simp only [Catalog.bases, ht, hu]

theorem head_key_congr {t u : Ty} (h : t.key = u.key) : t.head.key = u.head.key := by
  have hhead : ∀ t : Ty, t.key.head = t.head.key := fun t => by cases t <;> rfl
  rw [← hhead, ← hhead, h]

theorem bases_congr {t u : Ty} (h : t.key = u.key) : cat.bases t = cat.bases u := by
  have hkey := head_key_congr h
  cases ht : t.head with
  | object kind decl elements =>
      rw [ht] at hkey
      cases hu : u.head with
      | object kind' decl' elements' =>
          rw [hu] at hkey
          obtain ⟨_, rfl, _⟩ := Ty.object.inj hkey
          exact bases_of_head ht hu
      | _ =>
          rw [hu] at hkey
          cases hkey
  | _ =>
      rw [ht] at hkey
      cases hu : u.head with
      | object kind' decl' elements' =>
          rw [hu] at hkey
          cases hkey
      | _ => simp only [Catalog.bases, ht, hu]

/-! The search for ancestors. -/

/-- By what the search tells objects apart. -/
def heads (ts : List Ty) : List Ty :=
  ts.map fun t => t.head.key

/-- The order in which ancestors are met: each is a base of the type itself or of one met before,
and its object is new. -/
inductive Lines (cat : Catalog) (t : Ty) : List Ty → Prop
  | nil : Lines cat t []
  | snoc {found : List Ty} {heir base : Ty} {bases : List Ty} (hfound : Lines cat t found)
      (hheir : heir ∈ t :: found) (hbases : cat.bases heir.head = .ok bases) (hbase : base ∈ bases)
      (hnew : base.head.key ∉ heads (t :: found)) : Lines cat t (found ++ [base])

/-- The objects met include those that a type inherits from. -/
def Closed (cat : Catalog) (t : Ty) (found : List Ty) (u : Ty) : Prop :=
  ∃ bases, cat.bases u.head = .ok bases ∧ ∀ base ∈ bases, base.head.key ∈ heads (t :: found)

/-- What the search meets, with the number of steps to get there: each is a base of the type itself
or of one met before, and its object is new. -/
inductive Layers (cat : Catalog) (t : Ty) : List (Nat × Ty) → Prop
  | nil : Layers cat t []
  | snoc {met : List (Nat × Ty)} {n : Nat} {heir base : Ty} {bases : List Ty}
      (hmet : Layers cat t met)
      (hheir : (n, heir) ∈ (0, t) :: met) (hbases : cat.bases heir.head = .ok bases)
      (hbase : base ∈ bases) (hnew : base.head.key ∉ heads (t :: met.map Prod.snd)) :
      Layers cat t (met ++ [(n + 1, base)])

/-- The object of a type is met within so many steps. -/
def MetWithin (t : Ty) (met : List (Nat × Ty)) (n : Nat) (u : Ty) : Prop :=
  ∃ entry ∈ (0, t) :: met, entry.2.head.key = u.head.key ∧ entry.1 ≤ n

/-- What is met inherits only from what is met, one step further at most. -/
def Spreads (cat : Catalog) (t : Ty) (met : List (Nat × Ty)) (entry : Nat × Ty) : Prop :=
  ∃ bases, cat.bases entry.2.head = .ok bases ∧ ∀ base ∈ bases, MetWithin t met (entry.1 + 1) base

/-- The queue holds bases of what is met, nearest first. It spans two numbers of steps at most, so
what is added at its end is in order. -/
structure Frontier (cat : Catalog) (t : Ty) (met queue : List (Nat × Ty)) : Prop where
  layers : cat.Layers t met
  queued : ∀ entry ∈ queue, ∃ n heir bases, (n, heir) ∈ (0, t) :: met ∧ entry.1 = n + 1 ∧
    cat.bases heir.head = .ok bases ∧ entry.2 ∈ bases
  sorted : queue.Pairwise fun entry entry' => entry.1 ≤ entry'.1
  near : ∀ entry ∈ (0, t) :: met, ∀ entry' ∈ queue, entry.1 ≤ entry'.1
  span : ∀ entry ∈ queue, ∀ entry' ∈ queue, entry'.1 ≤ entry.1 + 1

namespace Frontier

variable {t : Ty} {met queue : List (Nat × Ty)} {entry : Nat × Ty}

theorem skip (h : cat.Frontier t met (entry :: queue)) : cat.Frontier t met queue where
  layers := h.layers
  queued entry' hmem := h.queued entry' (List.mem_cons_of_mem _ hmem)
  sorted := (List.pairwise_cons.1 h.sorted).2
  near entry' hmet entry'' hmem := h.near entry' hmet entry'' (List.mem_cons_of_mem _ hmem)
  span entry' hmem entry'' hmem' :=
    h.span entry' (List.mem_cons_of_mem _ hmem) entry'' (List.mem_cons_of_mem _ hmem')

theorem start {bases : List Ty} (hbases : cat.bases t.head = .ok bases) :
    cat.Frontier t [] (bases.map fun base => (1, base)) where
  layers := .nil
  queued entry hmem := by
    obtain ⟨base, hbase, rfl⟩ := List.mem_map.1 hmem
    exact ⟨0, t, bases, List.mem_cons_self, rfl, hbases, hbase⟩
  sorted := List.pairwise_map.2 (List.pairwise_of_forall fun _ _ => Nat.le_refl _)
  near entry hmet entry' hmem := by
    cases List.mem_singleton.1 hmet
    exact Nat.zero_le _
  span entry hmem entry' hmem' := by
    obtain ⟨_, _, rfl⟩ := List.mem_map.1 hmem
    obtain ⟨_, _, rfl⟩ := List.mem_map.1 hmem'
    exact Nat.le_succ _

theorem meet {more : List Ty} (h : cat.Frontier t met (entry :: queue))
    (hnew : entry.2.head.key ∉ heads (t :: met.map Prod.snd))
    (hmore : cat.bases entry.2.head = .ok more) :
    cat.Frontier t (met ++ [entry]) (queue ++ more.map fun base => (entry.1 + 1, base)) := by
  have hsorted := List.pairwise_cons.1 h.sorted
  have hspan : ∀ entry' ∈ queue, entry'.1 ≤ entry.1 + 1 := fun entry' hmem =>
    h.span entry List.mem_cons_self entry' (List.mem_cons_of_mem _ hmem)
  -- All of the new queue is between the first of the old one and one step further.
  have hqueue : ∀ entry' ∈ queue ++ more.map fun base => (entry.1 + 1, base),
      entry.1 ≤ entry'.1 ∧ entry'.1 ≤ entry.1 + 1 := by
    intro entry' hmem
    rcases List.mem_append.1 hmem with hold | hadded
    · exact ⟨hsorted.1 entry' hold, hspan entry' hold⟩
    · obtain ⟨_, _, rfl⟩ := List.mem_map.1 hadded
      exact ⟨Nat.le_succ _, Nat.le_refl _⟩
  refine ⟨?_, fun entry' hmem => ?_, ?_, fun entry' hmet entry'' hmem => ?_,
    fun entry' hmem entry'' hmem' => ?_⟩
  · obtain ⟨n, heir, bases, hheir, hn, hbases, hbase⟩ := h.queued entry List.mem_cons_self
    have hsnoc := h.layers.snoc hheir hbases hbase hnew
    rwa [← hn] at hsnoc
  · rw [← List.cons_append]
    rcases List.mem_append.1 hmem with hold | hadded
    · obtain ⟨n, heir, bases, hheir, hrest⟩ := h.queued entry' (List.mem_cons_of_mem _ hold)
      exact ⟨n, heir, bases, List.mem_append_left _ hheir, hrest⟩
    · obtain ⟨base, hbase, rfl⟩ := List.mem_map.1 hadded
      exact ⟨entry.1, entry.2, more, List.mem_append_right _ List.mem_cons_self, rfl, hmore, hbase⟩
  · refine List.pairwise_append.2 ⟨hsorted.2, ?_, fun entry' hold entry'' hadded => ?_⟩
    · exact List.pairwise_map.2 (List.pairwise_of_forall fun _ _ => Nat.le_refl _)
    · obtain ⟨_, _, rfl⟩ := List.mem_map.1 hadded
      exact hspan entry' hold
  · rw [← List.cons_append] at hmet
    refine Nat.le_trans ?_ (hqueue entry'' hmem).1
    rcases List.mem_append.1 hmet with hold | hlast
    · exact h.near entry' hold entry List.mem_cons_self
    · rw [List.mem_singleton.1 hlast]
  · exact Nat.le_trans (hqueue entry'' hmem').2 (Nat.succ_le_succ (hqueue entry' hmem).1)

end Frontier

theorem MetWithin.append {t u : Ty} {met : List (Nat × Ty)} {n : Nat} (h : MetWithin t met n u)
    (more : List (Nat × Ty)) : MetWithin t (met ++ more) n u := by
  obtain ⟨entry, hentry, hkey, hle⟩ := h
  refine ⟨entry, ?_, hkey, hle⟩
  rw [← List.cons_append]
  exact List.mem_append_left _ hentry

theorem layers_ancestorsFrom {t : Ty} {limit : Nat} {met queue : List (Nat × Ty)}
    {seen found : List Ty} (h : cat.ancestorsFrom limit (queue.map Prod.snd) seen = .ok found)
    (hfrontier : cat.Frontier t met queue)
    (hseen : ∀ k, k ∈ seen ↔ k ∈ heads (t :: met.map Prod.snd)) :
    ∃ more, more.map Prod.snd = found ∧ cat.Layers t (met ++ more) ∧
      (∀ entry ∈ queue, MetWithin t (met ++ more) entry.1 entry.2) ∧
      ∀ entry ∈ more, cat.Spreads t (met ++ more) entry := by
  -- What was met so far is carried along: the queue holds bases of it only.
  induction limit generalizing queue seen met found with
  | zero =>
      cases queue with
      | nil =>
          cases h
          exact ⟨[], rfl, by rw [List.append_nil]; exact hfrontier.layers, by simp, by simp⟩
      | cons _ _ => cases h
  | succ limit ih =>
      cases queue with
      | nil =>
          cases h
          exact ⟨[], rfl, by rw [List.append_nil]; exact hfrontier.layers, by simp, by simp⟩
      | cons entry queue =>
          simp only [List.forall_mem_cons]
          rw [List.map_cons, ancestorsFrom] at h
          split at h
          · next hold =>
              obtain ⟨more, rfl, hlayers, hqueue, hspreads⟩ := ih h hfrontier.skip hseen
              refine ⟨more, rfl, hlayers, ⟨MetWithin.append ?_ more, hqueue⟩, hspreads⟩
              obtain ⟨u, hu, hkey⟩ := List.mem_map.1 ((hseen _).1 hold)
              obtain ⟨entry', hentry', rfl⟩ : ∃ entry' ∈ (0, t) :: met, entry'.2 = u := by
                rwa [← List.map_cons (f := Prod.snd) (a := (0, t)), List.mem_map] at hu
              exact ⟨entry', hentry', hkey, hfrontier.near entry' hentry' entry List.mem_cons_self⟩
          · next hnew =>
              cases hmore : cat.bases entry.2.head with
              | error fault =>
                  rw [hmore] at h
                  cases h
              | ok bases =>
                  rw [hmore] at h
                  cases hrest : cat.ancestorsFrom limit (queue.map Prod.snd ++ bases)
                      (entry.2.head.key :: seen) with
                  | error fault => simp [bind, Except.bind, hrest] at h
                  | ok rest =>
                      simp only [bind, Except.bind, hrest] at h
                      cases h
                      have hmeet := hfrontier.meet (fun hmem => hnew ((hseen _).2 hmem)) hmore
                      have hseen' : ∀ k, k ∈ entry.2.head.key :: seen ↔
                          k ∈ heads (t :: (met ++ [entry]).map Prod.snd) := by
                        intro k
                        simp only [heads, List.map_cons, List.map_append, List.map_nil,
                          List.mem_cons, List.mem_append, hseen, List.not_mem_nil]
                        tauto
                      have hqueue :
                          (queue ++ bases.map fun base => (entry.1 + 1, base)).map Prod.snd =
                          queue.map Prod.snd ++ bases := by
                        rw [List.map_append, List.map_map]
                        exact congrArg _ (List.map_id _)
                      rw [← hqueue] at hrest
                      obtain ⟨more, rfl, hrec⟩ := ih hrest hmeet hseen'
                      rw [List.append_assoc, List.singleton_append] at hrec
                      obtain ⟨hlayers, hall, hspreads⟩ := hrec
                      refine ⟨entry :: more, rfl, hlayers, ⟨⟨entry, by simp, rfl, Nat.le_refl _⟩,
                        fun entry' hmem => hall entry' (List.mem_append_left _ hmem)⟩,
                        List.forall_mem_cons.2 ⟨⟨bases, hmore, fun base hbase => ?_⟩, hspreads⟩⟩
                      exact hall _ (List.mem_append_right _ (List.mem_map.2 ⟨base, hbase, rfl⟩))

theorem layers_ancestors {kind : ObjectKind} {decl : DeclId} {elements found : List Ty}
    (h : cat.ancestors (.object kind decl elements) = .ok found) :
    ∃ met, met.map Prod.snd = found ∧ cat.Layers (.object kind decl elements) met ∧
      ∀ entry ∈ (0, Ty.object kind decl elements) :: met,
        cat.Spreads (.object kind decl elements) met entry := by
  unfold ancestors at h
  cases hbases : cat.bases (.object kind decl elements) with
  | error fault =>
      rw [hbases] at h
      cases h
  | ok bases =>
      rw [hbases] at h
      have hqueue : (bases.map fun base => (1, base)).map Prod.snd = bases := by
        rw [List.map_map]
        exact List.map_id _
      rw [← hqueue] at h
      have hstart :
          cat.Frontier (.object kind decl elements) [] (bases.map fun base => (1, base)) :=
        .start hbases
      obtain ⟨met, hfound, hlayers, hall, hspreads⟩ := layers_ancestorsFrom h hstart
        fun k => Iff.rfl
      refine ⟨met, hfound, hlayers, List.forall_mem_cons.2 ⟨⟨bases, hbases, fun base hbase => ?_⟩,
        hspreads⟩⟩
      exact hall _ (List.mem_map.2 ⟨base, hbase, rfl⟩)

theorem Layers.lines {t : Ty} {met : List (Nat × Ty)} (h : cat.Layers t met) :
    cat.Lines t (met.map Prod.snd) := by
  induction h with
  | nil => exact .nil
  | snoc _ hheir hbases hbase hnew ih =>
      rw [List.map_append]
      refine .snoc ih ?_ hbases hbase hnew
      rcases List.mem_cons.1 hheir with heq | hmem
      · cases heq
        exact List.mem_cons_self
      · exact List.mem_cons_of_mem _ (List.mem_map.2 ⟨_, hmem, rfl⟩)

theorem Spreads.closed {t : Ty} {met : List (Nat × Ty)} {entry : Nat × Ty}
    (h : cat.Spreads t met entry) : cat.Closed t (met.map Prod.snd) entry.2 := by
  obtain ⟨bases, hbases, hall⟩ := h
  refine ⟨bases, hbases, fun base hbase => ?_⟩
  obtain ⟨entry', hentry', hkey, _⟩ := hall base hbase
  rw [← hkey]
  exact List.mem_map.2 ⟨entry'.2, List.mem_map.2 ⟨entry', hentry', rfl⟩, rfl⟩

theorem lines_ancestors {kind : ObjectKind} {decl : DeclId} {elements found : List Ty}
    (h : cat.ancestors (.object kind decl elements) = .ok found) :
    cat.Lines (.object kind decl elements) found ∧
      ∀ u ∈ Ty.object kind decl elements :: found,
        cat.Closed (.object kind decl elements) found u := by
  obtain ⟨met, rfl, hlayers, hspreads⟩ := layers_ancestors h
  refine ⟨hlayers.lines, fun u hu => ?_⟩
  obtain ⟨entry, hentry, rfl⟩ : ∃ entry ∈ (0, Ty.object kind decl elements) :: met, entry.2 = u :=
    List.mem_map.1 hu
  exact (hspreads entry hentry).closed

theorem mem_heads_of_above {kind : ObjectKind} {decl : DeclId} {elements found : List Ty} {u : Ty}
    (h : cat.ancestors (.object kind decl elements) = .ok found)
    (habove : cat.Above (.object kind decl elements) u) :
    u.head.key ∈ heads (.object kind decl elements :: found) ∧
      cat.Closed (.object kind decl elements) found u := by
  have hmet : ∀ u : Ty, u.head.key ∈ heads (.object kind decl elements :: found) →
      cat.Closed (.object kind decl elements) found u := by
    intro u hmem
    obtain ⟨w, hw, hkey⟩ := List.mem_map.1 hmem
    obtain ⟨bases, hbases, hall⟩ := (lines_ancestors h).2 w hw
    exact ⟨bases, (bases_congr hkey.symm).trans hbases, hall⟩
  induction habove with
  | self => exact ⟨List.mem_cons_self, hmet _ List.mem_cons_self⟩
  | base _ hbases hbase ih =>
      obtain ⟨bases', hbases', hall⟩ := ih.2
      rw [hbases] at hbases'
      cases hbases'
      exact ⟨hall _ hbase, hmet _ (hall _ hbase)⟩

theorem Lines.mem {t base : Ty} {found : List Ty} (h : cat.Lines t found) (hbase : base ∈ found) :
    ∃ heir bases, cat.bases heir = .ok bases ∧ base ∈ bases := by
  induction h with
  | nil => cases hbase
  | @snoc _ heir _ bases _ _ hbases hmem _ ih =>
      rcases List.mem_append.1 hbase with hold | hlast
      · exact ih hold
      · rw [List.mem_singleton.1 hlast]
        exact ⟨heir.head, bases, hbases, hmem⟩

theorem mem_of_mem_foldl_bindNew {pairs : List (TypeParam × Ty)} {γ : Bindings}
    {binding : TypeParam × Ty}
    (h : binding ∈ pairs.foldl (fun bindings pair => bindings.bindNew pair.1 pair.2) γ) :
    binding ∈ γ ∨ binding ∈ pairs := by
  induction pairs generalizing γ with
  | nil => exact .inl h
  | cons pair rest ih =>
      rcases ih h with hγ | hrest
      · simp only [Bindings.bindNew] at hγ
        split at hγ
        · exact .inl hγ
        · rcases List.mem_append.1 hγ with hγ | hnew
          · exact .inl hγ
          · exact .inr (List.mem_cons.2 (.inl (List.mem_singleton.1 hnew)))
      · exact .inr (List.mem_cons_of_mem _ hrest)

/-- The arguments that a type receives from its ancestors, nearest first. -/
def inherited (cat : Catalog) (found : List Ty) : List (TypeParam × Ty) :=
  found.flatMap fun base => (cat.paramsOf base.head).zip base.args

theorem bindings_of_interface {t : Ty} {decl : DeclId} {elements : List Ty} {bindings : Bindings}
    (hhead : t.head = .object .interface decl elements) :
    cat.bindings t = .ok bindings ↔
      ∃ found, cat.ancestors (.object .interface decl elements) = .ok found ∧
      bindings = (cat.inherited found).foldl (fun bindings pair => bindings.bindNew pair.1 pair.2)
        (cat.ownBindings t) := by
  rw [Catalog.bindings, hhead]
  cases hancestors : cat.ancestors (.object .interface decl elements) with
  | error fault => simp [bind, Except.bind, hancestors]
  | ok found => simp [bind, Except.bind, pure, Except.pure, hancestors, inherited, eq_comm]

theorem bindings_of_not_interface {t : Ty}
    (h : ∀ decl elements, t.head ≠ .object .interface decl elements) :
    cat.bindings t = .ok (cat.ownBindings t) := by
  unfold Catalog.bindings
  split
  · next decl elements hhead => exact absurd hhead (h decl elements)
  · rfl

/-- What a parameter stands for is an argument of the type or of one of its ancestors. -/
theorem mem_bindings {t : Ty} {bindings : Bindings} {binding : TypeParam × Ty}
    (h : cat.bindings t = .ok bindings) (hmem : binding ∈ bindings) :
    ∃ u, (u = t ∨ ∃ heir bases, cat.bases heir = .ok bases ∧ u ∈ bases) ∧
      binding ∈ (cat.paramsOf u.head).zip u.args := by
  by_cases hinterface : ∃ decl elements, t.head = .object .interface decl elements
  · obtain ⟨decl, elements, hhead⟩ := hinterface
    obtain ⟨found, hancestors, rfl⟩ := (bindings_of_interface hhead).1 h
    rcases mem_of_mem_foldl_bindNew hmem with hown | hinherited
    · exact ⟨t, .inl rfl, Bindings.mem_of_mem_ofPairs hown⟩
    · obtain ⟨base, hbase, hpair⟩ := List.mem_flatMap.1 hinherited
      exact ⟨base, .inr ((lines_ancestors hancestors).1.mem hbase), hpair⟩
  · cases (bindings_of_not_interface fun decl elements hhead =>
      hinterface ⟨decl, elements, hhead⟩).symm.trans h
    exact ⟨t, .inl rfl, Bindings.mem_of_mem_ofPairs hmem⟩

/-! The search does not run out of clauses. -/

/-- A type that some heritage clause stands for. -/
def IsBase (cat : Catalog) (base : Ty) : Prop :=
  ∃ clause ∈ cat.clauses, cat.resolve clause.annotation = .ok base

theorem isBase_of_mem_bases {t base : Ty} {bases : List Ty} (h : cat.bases t = .ok bases)
    (hbase : base ∈ bases) : cat.IsBase base := by
  obtain ⟨_, decl, _, d, clause, _, hfind, hclause, hresolve⟩ := mem_bases h hbase
  exact ⟨clause, List.mem_flatMap.2 ⟨(decl, d), mem_entries_of_declared? hfind, hclause⟩, hresolve⟩

theorem length_bases_le {t : Ty} {bases : List Ty} (h : cat.bases t = .ok bases) :
    bases.length ≤ cat.clauses.length := by
  unfold Catalog.bases at h
  split at h
  · split at h
    · next d hfind =>
        rw [← (mapM_eq_ok.1 h).length_eq]
        have hmem : d.heritage ∈ cat.entries.map fun entry => entry.2.heritage :=
          List.mem_map.2 ⟨_, mem_entries_of_declared? hfind, rfl⟩
        exact (List.sublist_flatten_of_mem hmem).length_le
    · cases h
      exact Nat.zero_le _
  · cases h
    exact Nat.zero_le _

/-- What the heritage clauses stand for, as far as a look at it tells. -/
def clauseImages {α : Type} (cat : Catalog) (look : Ty → Option α) : List α :=
  cat.clauses.filterMap fun clause => match cat.resolve clause.annotation with
    | .ok base => look base
    | .error _ => none

theorem mem_clauseImages {α : Type} (look : Ty → Option α) {base : Ty} {a : α}
    (h : cat.IsBase base) (ha : look base = some a) : a ∈ cat.clauseImages look := by
  obtain ⟨clause, hclause, hresolve⟩ := h
  refine List.mem_filterMap.2 ⟨clause, hclause, ?_⟩
  rw [hresolve]
  exact ha

/-- The clauses' images that are not met yet. -/
def imagesLeft {α : Type} [DecidableEq α] (cat : Catalog) (look : Ty → Option α) (seen : List α) :
    Finset α :=
  (cat.clauseImages look).toFinset \ seen.toFinset

section ImagesLeft

variable {α : Type} [DecidableEq α] {look : Ty → Option α} {seen seen' : List α}

theorem card_imagesLeft_le_length (cat : Catalog) (look : Ty → Option α) (seen : List α) :
    (cat.imagesLeft look seen).card ≤ cat.clauses.length :=
  calc (cat.imagesLeft look seen).card
      ≤ (cat.clauseImages look).toFinset.card := Finset.card_le_card Finset.sdiff_subset
    _ ≤ (cat.clauseImages look).length := List.toFinset_card_le _
    _ ≤ cat.clauses.length := List.length_filterMap_le _ _

theorem card_imagesLeft_le (cat : Catalog) (look : Ty → Option α) (h : ∀ a ∈ seen, a ∈ seen') :
    (cat.imagesLeft look seen').card ≤ (cat.imagesLeft look seen).card := by
  refine Finset.card_le_card (Finset.sdiff_subset_sdiff (Finset.Subset.refl _) ?_)
  intro a ha
  exact List.mem_toFinset.2 (h a (List.mem_toFinset.1 ha))

theorem card_imagesLeft_cons_lt {a : α} (ha : a ∈ cat.clauseImages look) (hnew : a ∉ seen) :
    (cat.imagesLeft look (a :: seen)).card < (cat.imagesLeft look seen).card := by
  have heq : cat.imagesLeft look (a :: seen) = (cat.imagesLeft look seen).erase a := by
    ext b
    simp only [imagesLeft, List.toFinset_cons, Finset.mem_sdiff, Finset.mem_insert,
      Finset.mem_erase]
    tauto
  rw [heq]
  refine Finset.card_erase_lt_of_mem (Finset.mem_sdiff.2 ⟨List.mem_toFinset.2 ha, ?_⟩)
  exact fun hmem => hnew (List.mem_toFinset.1 hmem)

end ImagesLeft

/-- By what the search tells a clause from others. -/
def headKey? (t : Ty) : Option Ty :=
  some t.head.key

/-- How often the search can go on: whatever it has yet to meet brings no more than all clauses. -/
def budget (cat : Catalog) (queue seen : List Ty) : Nat :=
  queue.length + (cat.imagesLeft headKey? seen).card * cat.clauses.length

theorem budget_meet {base : Ty} {more queue seen : List Ty} (hbase : cat.IsBase base)
    (hmore : cat.bases base.head = .ok more) (hnew : base.head.key ∉ seen) :
    cat.budget (queue ++ more) (base.head.key :: seen) ≤ cat.budget queue seen := by
  have hless := card_imagesLeft_cons_lt (mem_clauseImages headKey? hbase rfl) hnew
  have hlength := length_bases_le hmore
  have hused := Nat.mul_le_mul_right cat.clauses.length hless
  rw [Nat.succ_mul] at hused
  simp only [budget, List.length_append]
  omega

theorem ancestorsFrom_ok {t : Ty} {limit : Nat} {queue seen : List Ty} (hrooted : cat.Rooted t)
    (hqueue : ∀ base ∈ queue, cat.Above t base ∧ cat.IsBase base)
    (hlimit : cat.budget queue seen ≤ limit) :
    ∃ found, cat.ancestorsFrom limit queue seen = .ok found := by
  induction limit generalizing queue seen with
  | zero =>
      cases queue with
      | nil => exact ⟨[], rfl⟩
      | cons base queue => simp [budget] at hlimit
  | succ limit ih =>
      cases queue with
      | nil => exact ⟨[], rfl⟩
      | cons base queue =>
          rw [List.forall_mem_cons] at hqueue
          have hpop : cat.budget queue seen ≤ limit := by
            simp only [budget, List.length_cons] at hlimit ⊢
            omega
          rw [ancestorsFrom]
          split
          · exact ih hqueue.2 hpop
          · next hnew =>
              obtain ⟨more, hmore⟩ := hrooted base hqueue.1.1
              have hall : ∀ base' ∈ queue ++ more, cat.Above t base' ∧ cat.IsBase base' := by
                intro base' hmem
                rcases List.mem_append.1 hmem with hmem | hmem
                · exact hqueue.2 base' hmem
                · exact ⟨hqueue.1.1.base hmore hmem, isBase_of_mem_bases hmore hmem⟩
              obtain ⟨rest, hrest⟩ := ih hall
                (Nat.le_trans (budget_meet hqueue.1.2 hmore hnew) hpop)
              exact ⟨base :: rest, by simp [bind, Except.bind, hmore, hrest, pure, Except.pure]⟩

theorem budget_start_le {t : Ty} {bases : List Ty} (h : cat.bases t = .ok bases) (seen : List Ty) :
    cat.budget bases seen ≤ (cat.clauses.length + 1) * cat.clauses.length + 1 := by
  have hlength := length_bases_le h
  have hleft :=
    Nat.mul_le_mul_right cat.clauses.length (cat.card_imagesLeft_le_length headKey? seen)
  rw [budget, Nat.succ_mul]
  omega

/-- Where every clause stands for something, the search ends. -/
theorem ancestors_ok {kind : ObjectKind} {decl : DeclId} {elements : List Ty}
    (hrooted : cat.Rooted (.object kind decl elements)) :
    ∃ found, cat.ancestors (.object kind decl elements) = .ok found := by
  obtain ⟨bases, hbases⟩ := hrooted _ .self
  obtain ⟨found, hfound⟩ := ancestorsFrom_ok hrooted (fun base hbase =>
    ⟨Above.base .self hbases hbase, isBase_of_mem_bases hbases hbase⟩) (budget_start_le hbases _)
  refine ⟨found, ?_⟩
  simp only [Ty.head] at hbases
  simp only [ancestors, hbases, bind, Except.bind]
  exact hfound

theorem bindings_ok {t : Ty} {decl : DeclId} {elements : List Ty}
    (hhead : t.head = .object .interface decl elements) (hrooted : cat.Rooted t) :
    ∃ bindings, cat.bindings t = .ok bindings := by
  obtain ⟨found, hfound⟩ :=
    ancestors_ok (hrooted.of_head (t := .object .interface decl elements) hhead)
  exact ⟨_, (bindings_of_interface hhead).2 ⟨found, hfound, rfl⟩⟩

/-- No reference above a type has a reference for its target. -/
def Direct (cat : Catalog) (t : Ty) : Prop :=
  ∀ u, cat.Above t u → u.head.head = u.head

/-! The lineage of an object. -/

/-- The object that a head stands for, up to the sameness of element types. -/
def ObjectHead.type (head : ObjectHead) : Ty :=
  .object head.kind head.decl head.elements

theorem objectHead?_of_head {t : Ty} {kind : ObjectKind} {decl : DeclId} {elements : List Ty}
    (h : t.head = .object kind decl elements) :
    objectHead? t = some ⟨kind, decl, Ty.keys elements⟩ := by
  rw [objectHead?, h]

theorem exists_head_of_objectHead? {t : Ty} {head : ObjectHead} (h : objectHead? t = some head) :
    ∃ elements, t.head = .object head.kind head.decl elements ∧
      head.elements = Ty.keys elements := by
  unfold objectHead? at h
  split at h
  · next kind decl elements hhead =>
      cases h
      exact ⟨elements, hhead, rfl⟩
  · cases h

/-- What the lineage keeps on its way: nothing is lost, what is newly met is put in order, and what
is put in order has its bases met. -/
structure Lineage.Grows (cat : Catalog) (line line' : Lineage) : Prop where
  order : ∀ h ∈ line.order, h ∈ line'.order
  seen : ∀ h ∈ line.seen, h ∈ line'.seen
  met : ∀ h ∈ line'.seen, h ∈ line.seen ∨ h ∈ line'.order
  closed : ∀ h ∈ line'.order, h ∈ line.order ∨ ∃ bases, cat.bases h.type = .ok bases ∧
    ∀ base ∈ bases, ∀ h', objectHead? base = some h' → h' ∈ line'.seen

namespace Lineage.Grows

theorem refl (line : Lineage) : Grows cat line line :=
  ⟨fun _ h => h, fun _ h => h, fun _ h => .inl h, fun _ h => .inl h⟩

theorem trans {line line' line'' : Lineage} (h : Grows cat line line')
    (h' : Grows cat line' line'') : Grows cat line line'' where
  order head hhead := h'.order head (h.order head hhead)
  seen head hhead := h'.seen head (h.seen head hhead)
  met head hhead := by
    rcases h'.met head hhead with hold | hnew
    · exact (h.met head hold).imp_right (h'.order head)
    · exact .inr hnew
  closed head hhead := by
    rcases h'.closed head hhead with hold | hnew
    · refine (h.closed head hold).imp_right fun ⟨bases, hbases, hall⟩ => ?_
      exact ⟨bases, hbases, fun base hbase h' hh => Grows.seen ‹Grows cat line' line''› _
        (hall base hbase h' hh)⟩
    · exact .inr hnew

end Lineage.Grows

theorem foldlM_grows {f : Lineage → ObjectHead → Except Fault Lineage} {line line' : Lineage}
    {heads : List ObjectHead}
    (hf : ∀ head ∈ heads, ∀ line line', f line head = .ok line' →
      Lineage.Grows cat line line' ∧ head ∈ line'.seen)
    (h : heads.foldlM f line = .ok line') :
    Lineage.Grows cat line line' ∧ ∀ head ∈ heads, head ∈ line'.seen := by
  induction heads generalizing line with
  | nil =>
      cases h
      exact ⟨.refl _, by simp⟩
  | cons head rest ih =>
      rw [List.forall_mem_cons] at hf ⊢
      rw [List.foldlM_cons] at h
      cases hfirst : f line head with
      | error fault =>
          rw [hfirst] at h
          cases h
      | ok line₁ =>
          rw [hfirst] at h
          obtain ⟨hgrows, hmem⟩ := hf.1 line line₁ hfirst
          obtain ⟨hgrows', hall⟩ := ih hf.2 h
          exact ⟨hgrows.trans hgrows', hgrows'.seen head hmem, hall⟩

theorem lineage_succ_eq_ok {limit : Nat} {head : ObjectHead} {line line' : Lineage}
    (h : cat.lineage (limit + 1) head line = .ok line') :
    (head ∈ line.seen ∧ line' = line) ∨ (head ∉ line.seen ∧ ∃ bases line₁,
      cat.bases head.type = .ok bases ∧
      (bases.filterMap objectHead?).foldlM (fun line base => cat.lineage limit base line)
        ⟨line.order, head :: line.seen⟩ = .ok line₁ ∧ cat.hasMembers head = true ∧
      line' = ⟨line₁.order ++ [head], line₁.seen⟩) := by
  rw [lineage] at h
  split at h
  · next hseen =>
      cases h
      exact .inl ⟨hseen, rfl⟩
  · next hnew =>
      change (cat.bases head.type >>= _) = _ at h
      cases hbases : cat.bases head.type with
      | error fault =>
          rw [hbases] at h
          cases h
      | ok bases =>
          rw [hbases] at h
          simp only [bind, Except.bind] at h
          split at h
          · cases h
          · next line₁ hline₁ =>
              split at h
              · next hmembers =>
                  cases h
                  exact .inr ⟨hnew, bases, line₁, rfl, hline₁, hmembers, rfl⟩
              · cases h

theorem lineage_grows {limit : Nat} {head : ObjectHead} {line line' : Lineage}
    (h : cat.lineage limit head line = .ok line') :
    Lineage.Grows cat line line' ∧ head ∈ line'.seen := by
  induction limit generalizing head line line' with
  | zero => cases h
  | succ limit ih =>
      rcases lineage_succ_eq_ok h with ⟨hseen, rfl⟩ | ⟨_, bases, line₁, hbases, hline₁, _, rfl⟩
      · exact ⟨.refl _, hseen⟩
      · obtain ⟨hgrows, hall⟩ := foldlM_grows (fun _ _ _ _ hstep => ih hstep) hline₁
        have hhead : head ∈ line₁.seen := hgrows.seen head List.mem_cons_self
        refine ⟨⟨fun h hh => ?_, fun h hh => ?_, fun h hh => ?_, fun h hh => ?_⟩, hhead⟩
        · exact List.mem_append_left _ (hgrows.order h hh)
        · exact hgrows.seen h (List.mem_cons_of_mem _ hh)
        · rcases hgrows.met h hh with hold | hnew
          · rcases List.mem_cons.1 hold with rfl | hold
            · exact .inr (List.mem_append_right _ List.mem_cons_self)
            · exact .inl hold
          · exact .inr (List.mem_append_left _ hnew)
        · rcases List.mem_append.1 hh with hh | hlast
          · exact hgrows.closed h hh
          · rw [List.mem_singleton.1 hlast]
            refine .inr ⟨bases, hbases, fun base hbase h' hh' => ?_⟩
            exact hall h' (List.mem_filterMap.2 ⟨base, hbase, hh'⟩)

theorem mem_order_foldlM {f : Lineage → ObjectHead → Except Fault Lineage} {P : Prop}
    {line line' : Lineage} {heads : List ObjectHead} {found : ObjectHead}
    (hf : ∀ head ∈ heads, ∀ line line', f line head = .ok line' → found ∈ line'.order →
      found ∈ line.order ∨ P)
    (h : heads.foldlM f line = .ok line') (hfound : found ∈ line'.order) :
    found ∈ line.order ∨ P := by
  induction heads generalizing line with
  | nil =>
      cases h
      exact .inl hfound
  | cons head rest ih =>
      rw [List.forall_mem_cons] at hf
      rw [List.foldlM_cons] at h
      cases hfirst : f line head with
      | error fault =>
          rw [hfirst] at h
          cases h
      | ok line₁ =>
          rw [hfirst] at h
          rcases ih hf.2 h with hold | hP
          · exact hf.1 line line₁ hfirst hold
          · exact .inr hP

/-- An object has another among its bases. A clause counts only if what it stands for is an
object. -/
def Extends (cat : Catalog) (heir found : ObjectHead) : Prop :=
  ∃ bases, cat.bases heir.type = .ok bases ∧ ∃ base ∈ bases, objectHead? base = some found

theorem exists_above_of_extends {t : Ty} {head found : ObjectHead}
    (hhead : objectHead? t = some head)
    (h : ReflTransGen cat.Extends head found) :
      ∃ u, cat.Above t u ∧ objectHead? u = some found := by
  induction h with
  | refl => exact ⟨t, .self, hhead⟩
  | @tail heir _ _ hlast ih =>
      obtain ⟨u, hu, hheir⟩ := ih
      obtain ⟨bases, hbases, base, hbase, hfound⟩ := hlast
      obtain ⟨elements, huhead, _⟩ := exists_head_of_objectHead? hheir
      refine ⟨base, hu.base ?_ hbase, hfound⟩
      rw [← hbases, huhead]
      exact bases_of_head rfl rfl

theorem extends_of_above {t u : Ty} {head found : ObjectHead} (hdirect : cat.Direct t)
    (hhead : objectHead? t = some head) (habove : cat.Above t u)
    (hfound : objectHead? u = some found) :
    ReflTransGen cat.Extends head found := by
  induction habove generalizing found with
  | self =>
      rw [hhead] at hfound
      cases hfound
      exact .refl
  | @base heir base bases habove hbases hbase ih =>
      obtain ⟨kind, decl, elements, _, _, hheir, _⟩ := mem_bases hbases hbase
      rw [hdirect heir habove] at hheir
      have hmet := objectHead?_of_head hheir
      refine (ih hmet).tail ⟨bases, ?_, base, hbase, hfound⟩
      rw [← hbases, hheir]
      exact bases_of_head rfl rfl

theorem extends_of_mem_lineage {limit : Nat} {head found : ObjectHead} {line line' : Lineage}
    (h : cat.lineage limit head line = .ok line') (hfound : found ∈ line'.order) :
    found ∈ line.order ∨ ReflTransGen cat.Extends head found := by
  induction limit generalizing head line line' with
  | zero => cases h
  | succ limit ih =>
      rcases lineage_succ_eq_ok h with ⟨_, rfl⟩ | ⟨_, bases, line₁, hbases, hline₁, _, rfl⟩
      · exact .inl hfound
      rcases List.mem_append.1 hfound with hfound | hlast
      · have hold : found ∈ (Lineage.mk line.order (head :: line.seen)).order ∨
            ReflTransGen cat.Extends head found := by
          refine mem_order_foldlM (fun first hfirst line line' hstep hmem => ?_) hline₁ hfound
          obtain ⟨base, hbase, hhead⟩ := List.mem_filterMap.1 hfirst
          exact (ih hstep hmem).imp_right (.head ⟨bases, hbases, base, hbase, hhead⟩)
        exact hold
      · rw [List.mem_singleton.1 hlast]
        exact .inr .refl

theorem hasMembers_of_mem_lineage {limit : Nat} {head found : ObjectHead} {line line' : Lineage}
    (h : cat.lineage limit head line = .ok line') (hfound : found ∈ line'.order) :
    found ∈ line.order ∨ cat.hasMembers found = true := by
  induction limit generalizing head line line' with
  | zero => cases h
  | succ limit ih =>
      rcases lineage_succ_eq_ok h with ⟨_, rfl⟩ | ⟨_, _, line₁, _, hline₁, hmembers, rfl⟩
      · exact .inl hfound
      rcases List.mem_append.1 hfound with hfound | hlast
      · have hold : found ∈ (Lineage.mk line.order (head :: line.seen)).order ∨
            cat.hasMembers found = true :=
          mem_order_foldlM (fun first _ line line' hstep hmem => ih hstep hmem) hline₁ hfound
        exact hold
      · rw [List.mem_singleton.1 hlast]
        exact .inr hmembers

theorem mem_lineage_of_extends {limit : Nat} {head found : ObjectHead} {line : Lineage}
    (h : cat.lineage limit head {} = .ok line) (hfound : ReflTransGen cat.Extends head found) :
    found ∈ line.order := by
  obtain ⟨hgrows, hhead⟩ := lineage_grows h
  have hmet : ∀ found ∈ line.seen, found ∈ line.order := fun found hseen =>
    (hgrows.met found hseen).resolve_left List.not_mem_nil
  induction hfound with
  | refl => exact hmet head hhead
  | tail _ hlast ih =>
      obtain ⟨bases, hbases, base, hbase, hfound⟩ := hlast
      obtain ⟨bases', hbases', hall⟩ := (hgrows.closed _ ih).resolve_left List.not_mem_nil
      rw [hbases'] at hbases
      cases hbases
      exact hmet _ (hall base hbase _ hfound)

theorem mem_lineage_iff {limit : Nat} {head found : ObjectHead} {line : Lineage}
    (h : cat.lineage limit head {} = .ok line) :
    found ∈ line.order ↔ ReflTransGen cat.Extends head found :=
  ⟨fun hfound => (extends_of_mem_lineage h hfound).resolve_left List.not_mem_nil,
    mem_lineage_of_extends h⟩

/-! The lineage does not run out of objects. -/

theorem foldlM_ok {f : Lineage → ObjectHead → Except Fault Lineage} {line : Lineage}
    {heads : List ObjectHead} {P : Lineage → Prop} (hP : P line)
    (hf : ∀ head ∈ heads, ∀ line, P line → ∃ line', f line head = .ok line' ∧ P line') :
    ∃ line', heads.foldlM f line = .ok line' := by
  induction heads generalizing line with
  | nil => exact ⟨line, rfl⟩
  | cons head rest ih =>
      rw [List.forall_mem_cons] at hf
      obtain ⟨line₁, hline₁, hP₁⟩ := hf.1 line hP
      rw [List.foldlM_cons, hline₁]
      exact ih hP₁ hf.2

/-- An object whose clauses stand for something and that has members. -/
def Sited (cat : Catalog) (head : ObjectHead) : Prop :=
  (∃ bases, cat.bases head.type = .ok bases) ∧ cat.hasMembers head = true

theorem lineage_succ_ok {limit : Nat} {head : ObjectHead} {line : Lineage} (hsited : cat.Sited head)
    (hbases : ∀ first, cat.Extends head first → ∀ line' : Lineage,
      (∀ h ∈ head :: line.seen, h ∈ line'.seen) →
        ∃ line'', cat.lineage limit first line' = .ok line'') :
    ∃ line', cat.lineage (limit + 1) head line = .ok line' := by
  obtain ⟨⟨bases, hok⟩, hmembers⟩ := hsited
  rw [lineage]
  split
  · exact ⟨line, rfl⟩
  · obtain ⟨line', hline'⟩ : ∃ line', (bases.filterMap objectHead?).foldlM
        (fun line base => cat.lineage limit base line) ⟨line.order, head :: line.seen⟩ =
          .ok line' := by
      refine foldlM_ok (P := fun line' => ∀ h ∈ head :: line.seen, h ∈ line'.seen)
        (fun _ h => h) fun first hfirst line₁ hseen => ?_
      obtain ⟨base, hbase, hfirst⟩ := List.mem_filterMap.1 hfirst
      obtain ⟨line₂, hline₂⟩ := hbases first ⟨bases, hok, base, hbase, hfirst⟩ line₁ hseen
      exact ⟨line₂, hline₂, fun h hh => (lineage_grows hline₂).1.seen h (hseen h hh)⟩
    change ∃ line', (cat.bases head.type >>= _) = .ok line'
    simp only [hok, bind, Except.bind, hline']
    exact ⟨_, rfl⟩

theorem mem_clauseImages_of_extends {heir found : ObjectHead} (h : cat.Extends heir found) :
    found ∈ cat.clauseImages objectHead? := by
  obtain ⟨bases, hbases, base, hbase, hfound⟩ := h
  exact mem_clauseImages objectHead? (isBase_of_mem_bases hbases hbase) hfound

theorem lineage_ok_of_mem {limit : Nat} {head : ObjectHead} {line : Lineage}
    (hsited : ∀ heir, ReflTransGen cat.Extends head heir → cat.Sited heir)
    (hmem : head ∈ cat.clauseImages objectHead?)
    (hlimit : (cat.imagesLeft objectHead? line.seen).card < limit) :
    ∃ line', cat.lineage limit head line = .ok line' := by
  induction limit generalizing head line with
  | zero => cases hlimit
  | succ limit ih =>
      by_cases hold : head ∈ line.seen
      · exact ⟨line, by rw [lineage, if_pos hold]; rfl⟩
      refine lineage_succ_ok (hsited head .refl) fun first hextends line' hseen => ?_
      have hless := card_imagesLeft_cons_lt hmem hold
      have hleft := cat.card_imagesLeft_le objectHead? hseen
      exact ih (fun heir hheir => hsited heir (hheir.head hextends))
        (mem_clauseImages_of_extends hextends) (by omega)

/-- An object is met through a clause, but for the first. -/
theorem lineage_ok {head : ObjectHead}
    (hsited : ∀ heir, ReflTransGen cat.Extends head heir → cat.Sited heir) :
    ∃ line, cat.lineage (cat.clauses.length + 2) head {} = .ok line := by
  refine lineage_succ_ok (hsited head .refl) fun first hextends line' _ => ?_
  refine lineage_ok_of_mem (fun heir hheir => hsited heir (hheir.head hextends))
    (mem_clauseImages_of_extends hextends) ?_
  exact Nat.lt_succ_of_le (cat.card_imagesLeft_le_length objectHead? line'.seen)

theorem mem_of_mem_foldl_overlay {p : Property} {found members : List Property}
    (h : p ∈ members.foldl overlay found) : p ∈ found ∨ p ∈ members := by
  induction members generalizing found with
  | nil => exact .inl h
  | cons member rest ih =>
      rcases ih h with h | h
      · rcases List.mem_append.1 h with h | h
        · exact .inl (List.mem_filter.1 h).1
        · exact .inr (List.mem_cons.2 (.inl (List.mem_singleton.1 h)))
      · exact .inr (List.mem_cons_of_mem _ h)

theorem mem_foldl_overlay {p : Property} {found members : List Property}
    (hp : p ∈ found ∨ p ∈ members) (hunique : ∀ q ∈ members, q.name = p.name → q = p) :
    p ∈ members.foldl overlay found := by
  induction members generalizing found with
  | nil => exact hp.resolve_right List.not_mem_nil
  | cons member rest ih =>
      rw [List.forall_mem_cons] at hunique
      refine ih ?_ hunique.2
      by_cases hname : member.name = p.name
      · rw [hunique.1 hname]
        exact .inl (List.mem_append_right _ List.mem_cons_self)
      · rcases hp with hp | hp
        · refine .inl (List.mem_append_left _ (List.mem_filter.2 ⟨hp, ?_⟩))
          exact decide_eq_true (Ne.symm hname)
        · rcases List.mem_cons.1 hp with rfl | hp
          · exact absurd rfl hname
          · exact .inr hp

theorem nodup_names_overlay {found : List Property} (h : (found.map Property.name).Nodup)
    (member : Property) : ((overlay found member).map Property.name).Nodup := by
  rw [overlay, List.map_append, List.nodup_append]
  refine ⟨h.sublist (List.filter_sublist.map _), List.nodup_singleton _, ?_⟩
  intro name hname name' hname'
  obtain ⟨q, hq, rfl⟩ := List.mem_map.1 hname
  rw [List.mem_singleton.1 hname']
  exact of_decide_eq_true (List.mem_filter.1 hq).2

theorem nodup_names_foldl_overlay {found : List Property} (h : (found.map Property.name).Nodup)
    (members : List Property) : ((members.foldl overlay found).map Property.name).Nodup := by
  induction members generalizing found with
  | nil => exact h
  | cons member rest ih => exact ih (nodup_names_overlay h member)

theorem followNames_of_isName {t : Ty} (h : t.isName = false) (limit : Nat) (seen : List String) :
    cat.followNames limit seen t = .ok t := by
  cases t with
  | name s args => cases h
  | _ => cases limit <;> rfl

theorem followNames_of_head {t : Ty} {kind : ObjectKind} {decl : DeclId} {elements : List Ty}
    (h : t.head = .object kind decl elements) (limit : Nat) (seen : List String) :
    cat.followNames limit seen t = .ok t := by
  refine followNames_of_isName ?_ limit seen
  cases t with
  | name s args => cases h
  | _ => rfl

theorem properties_eq_ok {t : Ty} {properties : List Property}
    (h : cat.properties t = .ok properties) :
    ∃ u, cat.followNames (cat.entries.length + 1) [] t = .ok u ∧
      ((objectHead? u = none ∧ properties = []) ∨ ∃ head line, objectHead? u = some head ∧
        cat.lineage (cat.clauses.length + 2) head {} = .ok line ∧
        properties = (line.order.flatMap cat.membersOf).foldl overlay []) := by
  unfold Catalog.properties at h
  cases hu : cat.followNames (cat.entries.length + 1) [] t with
  | error fault =>
      rw [hu] at h
      cases h
  | ok u =>
      rw [hu] at h
      simp only [bind, Except.bind] at h
      refine ⟨u, rfl, ?_⟩
      cases hhead : objectHead? u with
      | none =>
          rw [hhead] at h
          cases h
          exact .inl ⟨rfl, rfl⟩
      | some head =>
          rw [hhead] at h
          simp only at h
          cases hline : cat.lineage (cat.clauses.length + 2) head {} with
          | error fault =>
              rw [hline] at h
              cases h
          | ok line =>
              rw [hline] at h
              cases h
              exact .inr ⟨head, line, rfl, hline, rfl⟩

theorem nodup_names_properties {t : Ty} {properties : List Property}
    (h : cat.properties t = .ok properties) : (properties.map Property.name).Nodup := by
  obtain ⟨_, _, ⟨_, rfl⟩ | ⟨_, line, _, _, rfl⟩⟩ := properties_eq_ok h
  · exact List.nodup_nil
  · apply nodup_names_foldl_overlay
    exact List.nodup_nil

theorem mem_properties {t : Ty} {properties : List Property} {p : Property}
    (h : cat.properties t = .ok properties) (hp : p ∈ properties) :
    ∃ u w found, cat.followNames (cat.entries.length + 1) [] t = .ok u ∧ cat.Above u w ∧
      objectHead? w = some found ∧ p ∈ cat.membersOf found := by
  obtain ⟨u, hu, ⟨_, rfl⟩ | ⟨head, line, hhead, hline, rfl⟩⟩ := properties_eq_ok h
  · cases hp
  · have hmember := (mem_of_mem_foldl_overlay hp).resolve_left List.not_mem_nil
    obtain ⟨found, hfound, hmem⟩ := List.mem_flatMap.1 hmember
    obtain ⟨w, hw, hfound⟩ := exists_above_of_extends hhead ((mem_lineage_iff hline).1 hfound)
    exact ⟨u, w, found, hu, hw, hfound, hmem⟩

theorem mem_membersOf {head : ObjectHead} {p : Property} (h : p ∈ cat.membersOf head) :
    ∃ d, cat.declared? head.decl = some d ∧ p ∈ d.members := by
  unfold membersOf at h
  split at h
  · next d hfind => exact ⟨d, hfind, h⟩
  · cases h

theorem Persists.bindings {P : Ty → Prop} (hP : cat.Persists P) {t : Ty} {bindings : Bindings}
    (ht : t.Every P) (h : cat.bindings t = .ok bindings) :
    ∀ binding ∈ bindings, binding.2.Every P := by
  intro binding hmem
  obtain ⟨u, rfl | ⟨heir, bases, hbases, hbase⟩, hpair⟩ := mem_bindings h hmem
  · exact ht.args (List.of_mem_zip hpair).2
  · exact (hP.bases hbases hbase).args (List.of_mem_zip hpair).2

theorem lists_of_mem_properties {t u : Ty} {properties : List Property} {p : Property}
    (h : cat.properties t = .ok properties) (hp : p ∈ properties) (htype : p.type? = some u) :
    ∃ i d, cat.declared? i = some d ∧ d.Lists u := by
  obtain ⟨_, _, found, _, _, _, hmem⟩ := mem_properties h hp
  obtain ⟨d, hfind, hmember⟩ := mem_membersOf hmem
  exact ⟨_, d, hfind, .member hmember htype⟩

theorem propertyType_eq_ok {t u : Ty} {key : String} (h : cat.propertyType t key = .ok u) :
    ∃ properties p, cat.properties t = .ok properties ∧ p ∈ properties ∧ p.type? = some u := by
  unfold propertyType property? at h
  cases hproperties : cat.properties t with
  | error fault =>
      rw [hproperties] at h
      cases h
  | ok properties =>
      rw [hproperties] at h
      simp only [bind, Except.bind, pure, Except.pure] at h
      split at h
      · cases h
      · next p hfind =>
          split at h
          · cases h
          · next u' htype =>
              cases h
              exact ⟨properties, p, rfl, List.mem_of_find?_eq_some hfind, htype⟩

theorem Persists.propertyTypes {P : Ty → Prop} (hP : cat.Persists P) {o t : Ty} {keys : List String}
    {types : List Ty} (h : keys.mapM (cat.propertyType o) = .ok types) (ht : t ∈ types) :
    t.Every P := by
  obtain ⟨key, _, hkey⟩ := exists_of_forall₂_right (mapM_eq_ok.1 h) ht
  obtain ⟨properties, p, hproperties, hp, htype⟩ := propertyType_eq_ok hkey
  obtain ⟨s, d, hfind, hlists⟩ := lists_of_mem_properties hproperties hp htype
  exact hP.upholds s d t hfind hlists

/-- The members of the objects above a type are properties, unless another of the name drives them
out. -/
theorem mem_properties_of_above {t w : Ty} {kind : ObjectKind} {decl : DeclId} {elements : List Ty}
    {found : ObjectHead} {properties : List Property} {p : Property}
    (hhead : t.head = .object kind decl elements) (hdirect : cat.Direct t)
    (h : cat.properties t = .ok properties) (hw : cat.Above t w)
    (hfound : objectHead? w = some found) (hp : p ∈ cat.membersOf found)
    (hunique : ∀ u head q, cat.Above t u → objectHead? u = some head → q ∈ cat.membersOf head →
      q.name = p.name → q = p) : p ∈ properties := by
  obtain ⟨u, hu, hcases⟩ := properties_eq_ok h
  rw [followNames_of_head hhead] at hu
  cases hu
  rcases hcases with ⟨hnone, _⟩ | ⟨head, line, hstart, hline, rfl⟩
  · rw [objectHead?_of_head hhead] at hnone
    cases hnone
  refine mem_foldl_overlay (.inr (List.mem_flatMap.2 ⟨found, ?_, hp⟩)) fun q hq hname => ?_
  · exact mem_lineage_of_extends hline (extends_of_above hdirect hstart hw hfound)
  · obtain ⟨head', hhead', hq⟩ := List.mem_flatMap.1 hq
    obtain ⟨v, hv, hmem⟩ := exists_above_of_extends hstart ((mem_lineage_iff hline).1 hhead')
    exact hunique v head' q hv hmem hq hname

theorem properties_ok_of_extends {t : Ty} {head : ObjectHead} (hhead : objectHead? t = some head)
    (hsited : ∀ heir, ReflTransGen cat.Extends head heir → cat.Sited heir) :
    ∃ properties, cat.properties t = .ok properties := by
  obtain ⟨line, hline⟩ := lineage_ok hsited
  obtain ⟨elements, hobject, _⟩ := exists_head_of_objectHead? hhead
  refine ⟨(line.order.flatMap cat.membersOf).foldl overlay [], ?_⟩
  simp only [Catalog.properties, followNames_of_head hobject, bind, Except.bind, hhead, hline]
  rfl

/-- Every object above a type has members. -/
def Peopled (cat : Catalog) (t : Ty) : Prop :=
  ∀ u head, cat.Above t u → objectHead? u = some head → cat.hasMembers head = true

theorem properties_ok {t : Ty} {kind : ObjectKind} {decl : DeclId} {elements : List Ty}
    (hhead : t.head = .object kind decl elements) (hrooted : cat.Rooted t)
    (hpeopled : cat.Peopled t) :
    ∃ properties, cat.properties t = .ok properties := by
  refine properties_ok_of_extends (objectHead?_of_head hhead) fun heir hheir => ?_
  obtain ⟨u, hu, hfound⟩ := exists_above_of_extends (objectHead?_of_head hhead) hheir
  obtain ⟨bases, hbases⟩ := hrooted u hu
  obtain ⟨elements', huhead, _⟩ := exists_head_of_objectHead? hfound
  refine ⟨⟨bases, ?_⟩, hpeopled u heir hu hfound⟩
  rw [← hbases, huhead]
  exact bases_of_head rfl rfl

end Catalog

end TypeGuard
