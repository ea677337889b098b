import Mathlib.Data.Finset.Basic
import Mathlib.Data.Finset.Insert
import TypeGuard.Proofs.Restoration

/-! Steps on a context, in any order and with anything given to them. Books are kept of the steps
that succeed, without a look at the context: a list of frames, a count of them and two sets of
references. The context never disagrees with the books, a step that fails changes nothing, and
steps that are nested undo each other. -/

namespace TypeGuard

namespace Bindings

theorem lookup_bind (γ : Bindings) (p : TypeParam) (t : Ty) (q : TypeParam) :
    (γ.bind p t).lookup q = if q = p then some t else γ.lookup q := by
  induction γ with
  | nil =>
      by_cases hqp : q = p
      · simp [bind, hqp]
      · simp [bind, List.lookup_cons, beq_eq_false_iff_ne.2 hqp, hqp]
  | cons binding rest ih =>
      obtain ⟨r, u⟩ := binding
      rw [bind]
      split
      · next hrp =>
          subst hrp
          by_cases hqr : q = r
          · simp [hqr]
          · simp [List.lookup_cons, beq_eq_false_iff_ne.2 hqr, hqr]
      · next hrp =>
          rw [List.lookup_cons, List.lookup_cons, ih]
          cases hqr : q == r with
          | true =>
              have hqp : q ≠ p := eq_of_beq hqr ▸ hrp
              simp only [if_neg hqp]
          | false => rfl

/-- Of the pairs that a frame is made of, the last one for a parameter counts. -/
theorem lookup_ofPairs (pairs : List (TypeParam × Ty)) (p : TypeParam) :
    (ofPairs pairs).lookup p = pairs.reverse.lookup p := by
  suffices hfold : ∀ γ : Bindings,
      (pairs.foldl (fun bindings pair => bindings.bind pair.1 pair.2) γ).lookup p =
        (pairs.reverse.lookup p).or (γ.lookup p) by
    rw [ofPairs, hfold, List.lookup_nil, Option.or_none]
  induction pairs with
  | nil => exact fun γ => rfl
  | cons pair rest ih =>
      intro γ
      rw [List.foldl_cons, ih, lookup_bind, List.reverse_cons, List.lookup_append,
        List.lookup_cons, List.lookup_nil, Option.or_assoc]
      by_cases hp : p = pair.1
      · simp [hp]
      · simp [hp, beq_eq_false_iff_ne.2 hp]

end Bindings

namespace Context

/-- A step on a context, with what is given to it. -/
inductive Step where
  | push (pairs : List (TypeParam × Ty))
  | pop (stamp : Nat)
  | enter (t : Ty)
  | leave (t : Ty)
  | mark (t : Ty)

namespace Step

/-- The walk that takes the step and does nothing else. -/
def walk : Step → Walk Unit
  | push pairs => do
      let _ ← Walk.push (.ofPairs pairs)
      pure ()
  | pop stamp => Walk.onContext (·.pop stamp)
  | enter t => Walk.onContext (·.enter t)
  | leave t => Walk.onContext (·.leave t)
  | mark t => Walk.onContext (·.mark t)

def Succeeds (step : Step) (s : Session) : Prop :=
  ∃ s', step.walk s = .ok () s'

end Step

/-- What the steps that succeeded come to. A frame has the number of frames pushed before it;
references are told apart by their keys. -/
structure Books where
  pushes : Nat := 0
  frames : List (Nat × List (TypeParam × Ty)) := []
  depth : Nat := 0
  entered : Finset Ty := ∅
  marked : Finset Ty := ∅

namespace Books

def record (books : Books) : Step → Books
  | .push pairs => { books with
      pushes := books.pushes + 1
      frames := books.frames ++ [(books.pushes, pairs)]
      depth := books.depth + 1 }
  | .pop stamp => { books with
      frames := books.frames.filter fun frame => frame.1 ≠ stamp
      depth := books.depth - 1 }
  | .enter t => { books with entered := insert t.key books.entered }
  | .leave t => { books with
      entered := books.entered.erase t.key
      marked := books.marked.erase t.key }
  | .mark t => { books with marked := insert t.key books.marked }

/-- The last frame that binds the parameter binds it to that type. -/
def Binds (books : Books) (p : TypeParam) (t : Ty) : Prop :=
  ∃ n pairs, (n, pairs) ∈ books.frames ∧ pairs.reverse.lookup p = some t ∧
    ∀ m later, (m, later) ∈ books.frames → n < m → ∀ u, (p, u) ∉ later

end Books

/-- A session, and the books of the steps taken in it. -/
structure Booked where
  session : Session
  books : Books := {}

namespace Booked

/-- A step that fails is not booked. -/
def take (b : Booked) (step : Step) : Booked :=
  match step.walk b.session with
  | .ok _ s => ⟨s, b.books.record step⟩
  | .error _ s => ⟨s, b.books⟩

def run (b : Booked) (steps : List Step) : Booked :=
  steps.foldl take b

/-- The context is as the books say. -/
structure Agrees (b : Booked) : Prop where
  depth : b.session.ctx.depth = b.books.depth ∧ b.books.depth = b.books.frames.length
  path : (b.session.ctx.path.map Ty.key).Nodup
  entered : b.books.entered = (b.session.ctx.path.map Ty.key).toFinset
  marked : b.books.marked ⊆ b.books.entered
  isActive : ∀ t, b.session.ctx.isActive t = true ↔ t.key ∈ b.books.entered
  isMarked : ∀ t, b.session.ctx.isMarked t = true ↔ t.key ∈ b.books.marked
  resolve : ∀ p t, b.session.ctx.resolve p = some t ↔ b.books.Binds p t
  isClear : b.session.ctx.isClear = true ↔ b.books.frames = [] ∧ b.session.ctx.path = []

/-- Steps that pop the frames they push and leave the references they enter, each where nothing
that was begun after it is open. Steps that fail may stand anywhere. -/
inductive Nested : Booked → List Step → Prop
  | nil (b : Booked) : Nested b []
  | append {b : Booked} {steps rest : List Step} (hsteps : Nested b steps)
      (hrest : Nested (b.run steps) rest) : Nested b (steps ++ rest)
  | failed {b : Booked} {step : Step} (hfails : ¬step.Succeeds b.session) : Nested b [step]
  | mark (b : Booked) (t : Ty) : Nested b [.mark t]
  | frame {b : Booked} {pairs : List (TypeParam × Ty)} {inside : List Step}
      (hinside : Nested (b.take (.push pairs)) inside) :
      Nested b (.push pairs :: (inside ++ [.pop b.session.ctx.nextStamp]))
  | guard {b : Booked} {t : Ty} {inside : List Step} (henter : (Step.enter t).Succeeds b.session)
      (hinside : Nested (b.take (.enter t)) inside) : Nested b (.enter t :: (inside ++ [.leave t]))

end Booked

variable {s s' : Session}

theorem onContext_eq_ok {op : Context → Except Fault Context} :
    Walk.onContext op s = .ok () s' ↔ ∃ ctx, op s.ctx = .ok ctx ∧ s' = { s with ctx := ctx } := by
  rw [Walk.onContext_apply]
  cases op s.ctx with
  | ok ctx => simp [eq_comm]
  | error fault => simp

namespace Step

theorem eq_of_walk_error {step : Step} {fault : Fault} (h : step.walk s = .error fault s') :
    s' = s := by
  have hop : ∀ op : Context → Except Fault Context,
      Walk.onContext op s = .error fault s' → s' = s := by
    intro op h
    rw [Walk.onContext_apply] at h
    split at h
    · cases h
    · cases h
      rfl
  cases step with
  | push pairs => cases h
  | pop stamp => exact hop _ h
  | enter t => exact hop _ h
  | leave t => exact hop _ h
  | mark t => exact hop _ h

theorem reachable {step : Step} (h : s.ctx.Reachable) (hstep : step.walk s = .ok () s') :
    s'.ctx.Reachable := by
  cases step with
  | push pairs =>
      cases hstep
      exact h.push _
  | pop stamp =>
      obtain ⟨ctx, hop, rfl⟩ := onContext_eq_ok.1 hstep
      exact h.pop hop
  | enter t =>
      obtain ⟨ctx, hop, rfl⟩ := onContext_eq_ok.1 hstep
      exact h.enter hop
  | leave t =>
      obtain ⟨ctx, hop, rfl⟩ := onContext_eq_ok.1 hstep
      exact h.leave hop
  | mark t =>
      obtain ⟨ctx, hop, rfl⟩ := onContext_eq_ok.1 hstep
      exact h.mark hop

end Step

theorem Sound.isActive_iff {ctx : Context} (h : ctx.Sound) {t : Ty} :
    ctx.isActive t = true ↔ t.key ∈ ctx.path.map Ty.key := by
  rw [Context.isActive, decide_eq_true_iff, h.onPath]

theorem isActive_congr {ctx : Context} {t u : Ty} (hkey : t.key = u.key) :
    ctx.isActive t = ctx.isActive u := by
  rw [isActive, isActive, hkey]

theorem isMarked_iff {ctx : Context} {t : Ty} :
    ctx.isMarked t = true ↔ t.key ∈ ctx.marked.map Ty.key := by
  rw [List.mem_map]
  exact Ty.isOn_iff

theorem mem_keys_unmarked {marked : List Ty} {t key : Ty} :
    key ∈ (marked.filter fun u => !u.same t).map Ty.key ↔ key ≠ t.key ∧
      key ∈ marked.map Ty.key := by
  simp only [List.mem_map, List.mem_filter, Bool.not_eq_true', Bool.eq_false_iff, Ne, Ty.same_iff]
  constructor
  · rintro ⟨u, ⟨hu, hne⟩, rfl⟩
    exact ⟨hne, u, hu, rfl⟩
  · rintro ⟨hne, u, hu, rfl⟩
    exact ⟨u, ⟨hu, hne⟩, rfl⟩

namespace Books

def frame (entry : Nat × List (TypeParam × Ty)) : Frame :=
  ⟨entry.1, .ofPairs entry.2⟩

theorem not_mem_of_lookup_reverse {pairs : List (TypeParam × Ty)} {p : TypeParam} :
    pairs.reverse.lookup p = none ↔ ∀ u, (p, u) ∉ pairs := by
  rw [List.lookup_eq_none_iff]
  constructor
  · intro h u hmem
    have hne := h (p, u) (List.mem_reverse.2 hmem)
    simp at hne
  · intro h pair hmem
    refine bne_iff_ne.2 fun heq => ?_
    subst heq
    exact h pair.2 (List.mem_reverse.1 hmem)

/-- With the last frame first, the first frame that binds a parameter is the last one that does. -/
theorem lookup_frames {entries : List (Nat × List (TypeParam × Ty))}
    (hsorted : entries.Pairwise fun f g => g.1 < f.1) (p : TypeParam) (t : Ty) :
    ((entries.map frame).flatMap Frame.bindings).lookup p = some t ↔
      ∃ n pairs, (n, pairs) ∈ entries ∧ pairs.reverse.lookup p = some t ∧
        ∀ m later, (m, later) ∈ entries → n < m → ∀ u, (p, u) ∉ later := by
  induction entries with
  | nil => simp
  | cons entry rest ih =>
      obtain ⟨n, pairs⟩ := entry
      rw [List.pairwise_cons] at hsorted
      obtain ⟨hfirst, hrest⟩ := hsorted
      rw [List.map_cons, List.flatMap_cons, List.lookup_append]
      show ((Bindings.ofPairs pairs).lookup p).or _ = some t ↔ _
      rw [Bindings.lookup_ofPairs]
      cases hp : pairs.reverse.lookup p with
      | some u =>
          rw [Option.some_or]
          constructor
          · intro h
            cases h
            refine ⟨n, pairs, List.mem_cons_self, hp, fun m later hmem hlt => ?_⟩
            rcases List.mem_cons.1 hmem with heq | hmem
            · cases heq
              exact absurd hlt (Nat.lt_irrefl n)
            · exact absurd hlt (Nat.lt_asymm (hfirst _ hmem))
          · rintro ⟨m, pairs', hmem, hlookup, hlast⟩
            rcases List.mem_cons.1 hmem with heq | hmem
            · cases heq
              exact hp.symm.trans hlookup
            · rw [not_mem_of_lookup_reverse.2 (hlast n pairs List.mem_cons_self (hfirst _ hmem))]
                at hp
              cases hp
      | none =>
          rw [Option.none_or, ih hrest]
          have hnone := not_mem_of_lookup_reverse.1 hp
          constructor
          · rintro ⟨m, pairs', hmem, hlookup, hlast⟩
            refine ⟨m, pairs', List.mem_cons_of_mem _ hmem, hlookup, fun k later hlater hlt => ?_⟩
            rcases List.mem_cons.1 hlater with heq | hlater
            · cases heq
              exact hnone
            · exact hlast k later hlater hlt
          · rintro ⟨m, pairs', hmem, hlookup, hlast⟩
            rcases List.mem_cons.1 hmem with heq | hmem
            · cases heq
              rw [hp] at hlookup
              cases hlookup
            · exact ⟨m, pairs', hmem, hlookup, fun k later hlater =>
                hlast k later (List.mem_cons_of_mem _ hlater)⟩

end Books

namespace Booked

variable {b : Booked} {step : Step} {steps : List Step}

theorem take_of_ok (h : step.walk b.session = .ok () s) :
    b.take step = ⟨s, b.books.record step⟩ := by
  rw [take, h]

theorem take_of_fails (h : ¬step.Succeeds b.session) : b.take step = b := by
  rw [take]
  cases hwalk : step.walk b.session with
  | ok _ s => exact absurd ⟨s, hwalk⟩ h
  | error fault s =>
      cases Step.eq_of_walk_error hwalk
      rfl

theorem reachable_take (h : b.session.ctx.Reachable) (step : Step) :
    (b.take step).session.ctx.Reachable := by
  by_cases hstep : step.Succeeds b.session
  · obtain ⟨s, hs⟩ := hstep
    rw [take_of_ok hs]
    exact Step.reachable h hs
  · rwa [take_of_fails hstep]

theorem reachable_run (h : b.session.ctx.Reachable) (steps : List Step) :
    (b.run steps).session.ctx.Reachable := by
  induction steps generalizing b with
  | nil => exact h
  | cons step rest ih => exact ih (reachable_take h step)

/-- What every step keeps. -/
structure Sound (b : Booked) : Prop where
  reachable : b.session.ctx.Reachable
  stamp : b.session.ctx.nextStamp = b.books.pushes
  frames : b.session.ctx.frames = (b.books.frames.map Books.frame).reverse
  ascending : b.books.frames.Pairwise fun f g => f.1 < g.1
  below : ∀ entry ∈ b.books.frames, entry.1 < b.books.pushes
  depth : b.books.depth = b.books.frames.length
  path : (b.session.ctx.path.map Ty.key).Nodup
  entered : b.books.entered = (b.session.ctx.path.map Ty.key).toFinset
  marked : b.books.marked = (b.session.ctx.marked.map Ty.key).toFinset

theorem sound_fresh (numbering : Numbering) (notes : List Note) :
    Sound ⟨{ numbering := numbering, notes := notes }, {}⟩ where
  reachable := .fresh
  stamp := rfl
  frames := rfl
  ascending := .nil
  below _ h := absurd h List.not_mem_nil
  depth := rfl
  path := .nil
  entered := rfl
  marked := rfl

namespace Sound

theorem push (h : b.Sound) (pairs : List (TypeParam × Ty)) : (b.take (.push pairs)).Sound where
  reachable := reachable_take h.reachable _
  stamp := congrArg (· + 1) h.stamp
  frames := by
    show _ :: b.session.ctx.frames = ((b.books.frames ++ [_]).map Books.frame).reverse
    rw [List.map_append, List.reverse_append, h.frames, h.stamp]
    rfl
  ascending := by
    refine List.pairwise_append.2 ⟨h.ascending, List.pairwise_singleton _ _,
      fun entry hmem new hnew => ?_⟩
    cases List.mem_singleton.1 hnew
    exact h.below entry hmem
  below entry hmem := by
    rcases List.mem_append.1 hmem with hmem | hnew
    · exact Nat.lt_succ_of_lt (h.below entry hmem)
    · cases List.mem_singleton.1 hnew
      exact Nat.lt_succ_self _
  depth := by
    show b.books.depth + 1 = (b.books.frames ++ [_]).length
    rw [List.length_append, h.depth]
    rfl
  path := h.path
  entered := h.entered
  marked := h.marked

/-- What is popped is the last frame, and the only one of its number. -/
theorem pop (h : b.Sound) {stamp : Nat} (hpop : (Step.pop stamp).walk b.session = .ok () s) :
    (⟨s, b.books.record (.pop stamp)⟩ : Booked).Sound := by
  obtain ⟨ctx, hop, rfl⟩ := onContext_eq_ok.1 hpop
  obtain ⟨frame, rest, hframes, hstamp, rfl⟩ := pop_eq_ok hop
  obtain ⟨others, last, hlist⟩ : ∃ others last, b.books.frames = others ++ [last] := by
    refine ⟨_, _, (List.dropLast_append_getLast fun hnil => ?_).symm⟩
    rw [h.frames, hnil] at hframes
    cases hframes
  have hframes' := h.frames
  rw [hframes, hlist, List.map_append, List.reverse_append] at hframes'
  obtain ⟨hlast, hrest⟩ := List.cons.inj hframes'
  have hnumber : last.1 = stamp := by
    rw [← hstamp, hlast]
    rfl
  have hascending := h.ascending
  rw [hlist, List.pairwise_append] at hascending
  have hfilter : b.books.frames.filter (fun entry => entry.1 ≠ stamp) = others := by
    rw [hlist, List.filter_append, List.filter_eq_self.2, List.filter_eq_nil_iff.2, List.append_nil]
    · intro entry hmem
      cases List.mem_singleton.1 hmem
      simp [hnumber]
    · intro entry hmem
      have hlt := hascending.2.2 entry hmem last (List.mem_singleton.2 rfl)
      rw [hnumber] at hlt
      exact decide_eq_true (Nat.ne_of_lt hlt)
  refine ⟨Step.reachable h.reachable hpop, h.stamp, ?_, ?_, ?_, ?_, h.path, h.entered, h.marked⟩
  · show rest = ((b.books.frames.filter fun entry => entry.1 ≠ stamp).map Books.frame).reverse
    rw [hfilter]
    exact hrest
  · exact h.ascending.filter _
  · exact fun entry hmem => h.below entry (List.mem_of_mem_filter hmem)
  · show b.books.depth - 1 = (b.books.frames.filter fun entry => entry.1 ≠ stamp).length
    rw [hfilter, h.depth, hlist, List.length_append]
    rfl

theorem enter (h : b.Sound) {t : Ty} (henter : (Step.enter t).walk b.session = .ok () s) :
    (⟨s, b.books.record (.enter t)⟩ : Booked).Sound := by
  obtain ⟨ctx, hop, rfl⟩ := onContext_eq_ok.1 henter
  obtain ⟨hoff, rfl⟩ := enter_eq_ok hop
  refine ⟨Step.reachable h.reachable henter, h.stamp, h.frames, h.ascending, h.below,
    h.depth, ?_, ?_, h.marked⟩
  · refine List.nodup_cons.2 ⟨fun hmem => ?_, h.path⟩
    rw [h.reachable.tidy.sound.isActive_iff.2 hmem] at hoff
    cases hoff
  · show insert t.key b.books.entered = (t.key :: b.session.ctx.path.map Ty.key).toFinset
    rw [List.toFinset_cons, h.entered]

theorem leave (h : b.Sound) {t : Ty} (hleave : (Step.leave t).walk b.session = .ok () s) :
    (⟨s, b.books.record (.leave t)⟩ : Booked).Sound := by
  obtain ⟨ctx, hop, rfl⟩ := onContext_eq_ok.1 hleave
  obtain ⟨u, rest, hpath, hkey, rfl⟩ := leave_eq_ok hop
  have hnodup := h.path
  rw [hpath, List.map_cons, hkey, List.nodup_cons] at hnodup
  refine ⟨Step.reachable h.reachable hleave, h.stamp, h.frames, h.ascending, h.below,
    h.depth, hnodup.2, ?_, ?_⟩
  · show b.books.entered.erase t.key = (rest.map Ty.key).toFinset
    rw [h.entered, hpath, List.map_cons, hkey, List.toFinset_cons, Finset.erase_insert]
    exact fun hmem => hnodup.1 (List.mem_toFinset.1 hmem)
  · show b.books.marked.erase t.key =
      ((b.session.ctx.marked.filter fun u => !u.same t).map Ty.key).toFinset
    ext key
    rw [h.marked, Finset.mem_erase, List.mem_toFinset, List.mem_toFinset, mem_keys_unmarked]

theorem mark (h : b.Sound) {t : Ty} (hmark : (Step.mark t).walk b.session = .ok () s) :
    (⟨s, b.books.record (.mark t)⟩ : Booked).Sound := by
  obtain ⟨ctx, hop, rfl⟩ := onContext_eq_ok.1 hmark
  obtain ⟨_, rfl⟩ := mark_eq_ok hop
  refine ⟨Step.reachable h.reachable hmark, h.stamp, h.frames, h.ascending, h.below,
    h.depth, h.path, h.entered, ?_⟩
  show insert t.key b.books.marked = (t.key :: b.session.ctx.marked.map Ty.key).toFinset
  rw [List.toFinset_cons, h.marked]

/-- Whether it succeeds or fails, a step keeps the books in order. -/
theorem take (h : b.Sound) (step : Step) : (b.take step).Sound := by
  by_cases hstep : step.Succeeds b.session
  · obtain ⟨s, hs⟩ := hstep
    cases step with
    | push pairs => exact h.push pairs
    | pop stamp => exact take_of_ok hs ▸ h.pop hs
    | enter t => exact take_of_ok hs ▸ h.enter hs
    | leave t => exact take_of_ok hs ▸ h.leave hs
    | mark t => exact take_of_ok hs ▸ h.mark hs
  · exact (take_of_fails hstep).symm ▸ h

theorem run (h : b.Sound) (steps : List Step) : (b.run steps).Sound := by
  induction steps generalizing b with
  | nil => exact h
  | cons step rest ih => exact ih (h.take step)

theorem marked_subset (h : b.Sound) : b.books.marked ⊆ b.books.entered := by
  intro key hkey
  rw [h.marked, List.mem_toFinset] at hkey
  obtain ⟨u, hu, rfl⟩ := List.mem_map.1 hkey
  rw [h.entered, List.mem_toFinset]
  obtain ⟨v, hv, hkey⟩ := Ty.isOn_iff.1 (h.reachable.tidy.marks u hu)
  exact List.mem_map.2 ⟨v, hv, hkey⟩

theorem resolve (h : b.Sound) (p : TypeParam) (t : Ty) :
    b.session.ctx.resolve p = some t ↔ b.books.Binds p t := by
  have hdescending : b.books.frames.reverse.Pairwise fun f g => g.1 < f.1 :=
    List.pairwise_reverse.2 h.ascending
  rw [Context.resolve, bindings, h.frames, ← List.map_reverse, Books.lookup_frames hdescending]
  simp only [List.mem_reverse]
  rfl

theorem isClear (h : b.Sound) :
    b.session.ctx.isClear = true ↔ b.books.frames = [] ∧ b.session.ctx.path = [] := by
  have hframes : b.session.ctx.depth = 0 ↔ b.books.frames = [] := by
    rw [h.reachable.tidy.sound.depth, List.length_eq_zero_iff, h.frames, List.reverse_eq_nil_iff,
      List.map_eq_nil_iff]
  rw [Context.isClear, Bool.and_eq_true, Bool.and_eq_true, decide_eq_true_iff, List.isEmpty_iff,
    List.isEmpty_iff, hframes]
  refine and_iff_left_of_imp fun hnone => ?_
  refine List.eq_nil_iff_forall_not_mem.2 fun u hu => ?_
  have hon := h.reachable.tidy.marks u hu
  rw [hnone.2] at hon
  cases hon

theorem agrees (h : b.Sound) : b.Agrees where
  depth := by
    refine ⟨?_, h.depth⟩
    rw [h.reachable.tidy.sound.depth, h.frames, List.length_reverse, List.length_map, h.depth]
  path := h.path
  entered := h.entered
  marked := h.marked_subset
  isActive t := by rw [h.reachable.tidy.sound.isActive_iff, h.entered, List.mem_toFinset]
  isMarked t := by rw [isMarked_iff, h.marked, List.mem_toFinset]
  resolve := h.resolve
  isClear := h.isClear

end Sound

theorem run_append (b : Booked) (steps rest : List Step) :
    b.run (steps ++ rest) = (b.run steps).run rest :=
  List.foldl_append

/-- What nested steps leave: the frames and the path as they were, and no new marks but those on
references that were being expanded before. -/
structure Restored (b : Booked) (steps : List Step) : Prop where
  frames : (b.run steps).session.ctx.frames = b.session.ctx.frames
  path : (b.run steps).session.ctx.path = b.session.ctx.path
  marked : ∀ u, (b.run steps).session.ctx.isMarked u = true ↔ b.session.ctx.isMarked u = true ∨
    b.session.ctx.isActive u = true ∧ ∃ t, Step.mark t ∈ steps ∧ t.key = u.key

namespace Restored

theorem nil (b : Booked) : b.Restored [] :=
  ⟨rfl, rfl, fun u => by simp [run]⟩

theorem isActive (hreachable : b.session.ctx.Reachable) (h : b.Restored steps) (u : Ty) :
    (b.run steps).session.ctx.isActive u = b.session.ctx.isActive u := by
  rw [(reachable_run hreachable steps).tidy.sound.isActive, hreachable.tidy.sound.isActive, h.path]

theorem append {rest : List Step} (hreachable : b.session.ctx.Reachable) (h : b.Restored steps)
    (hrest : (b.run steps).Restored rest) : b.Restored (steps ++ rest) := by
  refine ⟨?_, ?_, fun u => ?_⟩
  · rw [run_append, hrest.frames, h.frames]
  · rw [run_append, hrest.path, h.path]
  · rw [run_append, hrest.marked, h.marked, h.isActive hreachable, or_assoc, ← and_or_left]
    simp only [List.mem_append, or_and_right, exists_or]

/-- A mark that fails is on a reference that is not being expanded. -/
theorem failed (hfails : ¬step.Succeeds b.session) : b.Restored [step] := by
  have hrun : b.run [step] = b := take_of_fails hfails
  refine ⟨by rw [hrun], by rw [hrun], fun u => ?_⟩
  rw [hrun]
  refine (or_iff_left ?_).symm
  rintro ⟨hon, t, hmem, hkey⟩
  obtain rfl := List.mem_singleton.1 hmem
  have ht : b.session.ctx.isActive t = true := by rwa [isActive_congr hkey]
  have hop :
      b.session.ctx.mark t = .ok { b.session.ctx with marked := t :: b.session.ctx.marked } := by
    rw [Context.mark, if_pos ht]
    rfl
  exact hfails ⟨_, onContext_eq_ok.2 ⟨_, hop, rfl⟩⟩

theorem mark (b : Booked) (t : Ty) : b.Restored [.mark t] := by
  by_cases hstep : (Step.mark t).Succeeds b.session
  · obtain ⟨s, hs⟩ := hstep
    have hrun : b.run [.mark t] = ⟨s, b.books.record (.mark t)⟩ := take_of_ok hs
    obtain ⟨ctx, hop, rfl⟩ := onContext_eq_ok.1 hs
    obtain ⟨hon, rfl⟩ := mark_eq_ok hop
    refine ⟨by rw [hrun], by rw [hrun], fun u => ?_⟩
    rw [hrun, isMarked_iff, isMarked_iff, List.map_cons, List.mem_cons, or_comm]
    refine or_congr_right ⟨fun hkey => ⟨?_, t, List.mem_singleton.2 rfl, hkey.symm⟩, ?_⟩
    · rwa [isActive_congr hkey]
    · rintro ⟨_, v, hmem, hkey⟩
      cases List.mem_singleton.1 hmem
      exact hkey.symm
  · exact failed hstep

/-- A frame is on top again when what was done inside it is undone, so it can be popped. -/
theorem frame {pairs : List (TypeParam × Ty)} (hreachable : b.session.ctx.Reachable)
    (h : (b.take (.push pairs)).Restored steps) :
    b.Restored (.push pairs :: (steps ++ [.pop b.session.ctx.nextStamp])) := by
  have hdepth := (reachable_run (reachable_take hreachable (.push pairs)) steps).tidy.sound.depth
  have hrun : b.run (.push pairs :: (steps ++ [.pop b.session.ctx.nextStamp])) = _ :=
    (run_append (b.take (.push pairs)) steps _).trans (take_of_ok (Walk.pop_apply hdepth h.frames))
  refine ⟨by rw [hrun]; rfl, ?_, fun u => ?_⟩
  · rw [hrun]
    exact h.path
  · rw [hrun]
    refine (h.marked u).trans (or_congr_right (and_congr_right fun _ => exists_congr fun t => ?_))
    simp

/-- A reference is innermost again when what was done inside it is undone, so it can be left. Its
own marks go, and no other mark does. -/
theorem guard {t : Ty} (htidy : b.session.ctx.Tidy) (henter : (Step.enter t).Succeeds b.session)
    (h : (b.take (.enter t)).Restored steps) : b.Restored (.enter t :: (steps ++ [.leave t])) := by
  obtain ⟨s, hs⟩ := henter
  have htake := take_of_ok hs
  obtain ⟨ctx, hop, rfl⟩ := onContext_eq_ok.1 hs
  obtain ⟨hoff, rfl⟩ := enter_eq_ok hop
  have hpath : ((b.take (.enter t)).run steps).session.ctx.path = t :: b.session.ctx.path := by
    rw [h.path, htake]
    rfl
  have hrun : b.run (.enter t :: (steps ++ [.leave t])) = _ :=
    (run_append (b.take (.enter t)) steps _).trans (take_of_ok (Walk.leave_apply hpath))
  refine ⟨?_, by rw [hrun]; rfl, fun u => ?_⟩
  · rw [hrun]
    show ((b.take (.enter t)).run steps).session.ctx.frames = _
    rw [h.frames, htake]
    rfl
  · have hmarked : ((b.take (.enter t)).run steps).session.ctx.isMarked u = true ↔
        b.session.ctx.isMarked u = true ∨ (t.key = u.key ∨ b.session.ctx.isActive u = true) ∧
          ∃ v, Step.mark v ∈ steps ∧ v.key = u.key := by
      have hinside : (b.session.ctx.inside t).isActive u = true ↔
          t.key = u.key ∨ b.session.ctx.isActive u = true := by
        rw [Context.isActive, Context.isActive, decide_eq_true_iff, decide_eq_true_iff, eq_comm]
        exact List.mem_cons
      rw [h.marked, htake]
      exact or_congr_right (and_congr_left' hinside)
    have hunmarked : b.session.ctx.isMarked u = true → u.key ≠ t.key := by
      intro hmarked hkey
      rw [isMarked_iff, hkey] at hmarked
      obtain ⟨v, hv, hvt⟩ := List.mem_map.1 hmarked
      rw [htidy.sound.isActive] at hoff
      exact Bool.eq_false_iff.1 hoff ((Ty.isOn_congr hvt _).1 (htidy.marks v hv))
    have hinactive : b.session.ctx.isActive u = true → u.key ≠ t.key := by
      intro hon hkey
      rw [isActive_congr hkey] at hon
      exact Bool.eq_false_iff.1 hoff hon
    have hmarks : (∃ v, Step.mark v ∈ Step.enter t :: (steps ++ [.leave t]) ∧ v.key = u.key) ↔
        ∃ v, Step.mark v ∈ steps ∧ v.key = u.key := by simp
    rw [hrun, isMarked_iff, Context.outside, mem_keys_unmarked, ← isMarked_iff, hmarked, hmarks]
    constructor
    · rintro ⟨hne, hu | ⟨heq | hon, hsteps⟩⟩
      · exact .inl hu
      · exact absurd heq.symm hne
      · exact .inr ⟨hon, hsteps⟩
    · rintro (hu | ⟨hon, hsteps⟩)
      · exact ⟨hunmarked hu, .inl hu⟩
      · exact ⟨hinactive hon, .inr ⟨.inr hon, hsteps⟩⟩

end Restored

theorem Nested.undone (h : Nested b steps) (hreachable : b.session.ctx.Reachable) :
    b.Restored steps := by
  induction h with
  | nil b => exact .nil b
  | append _ _ ihsteps ihrest =>
      exact (ihsteps hreachable).append hreachable (ihrest (reachable_run hreachable _))
  | failed hfails => exact .failed hfails
  | mark b t => exact .mark b t
  | frame _ ih => exact (ih (reachable_take hreachable _)).frame hreachable
  | guard henter _ ih => exact (ih (reachable_take hreachable _)).guard hreachable.tidy henter

/-- After any steps from a fresh context the context is as the books say. A step that fails then
changes nothing, and nested steps leave what the parameters stand for and what is being expanded as
it was; they mark no reference but those that they mark by name and that were being expanded before
them. -/
theorem follows_books (numbering : Numbering) (notes : List Note) (steps : List Step) :
    let b := run ⟨{ numbering := numbering, notes := notes }, {}⟩ steps
    b.Agrees ∧
    (∀ (step : Step) fault s', step.walk b.session = .error fault s' → s' = b.session) ∧
    ∀ nested, Nested b nested →
      let ctx := b.session.ctx
      let ctx' := (b.run nested).session.ctx
      (∀ p, ctx'.resolve p = ctx.resolve p) ∧
      (∀ t, ctx'.isActive t = ctx.isActive t) ∧
      ∀ t, ctx'.isMarked t = true ↔ ctx.isMarked t = true ∨
        ctx.isActive t = true ∧ ∃ u, Step.mark u ∈ nested ∧ u.key = t.key := by
  intro b
  have hsound : b.Sound := (sound_fresh numbering notes).run steps
  refine ⟨hsound.agrees, fun step fault s' => Step.eq_of_walk_error, fun nested hnested => ?_⟩
  have hrestored := hnested.undone hsound.reachable
  refine ⟨fun p => ?_, hrestored.isActive hsound.reachable, hrestored.marked⟩
  rw [Context.resolve, bindings, hrestored.frames]
  rfl

/-- A box with its parameter bound, entered; inside, the parameter is bound again, the box is
marked and a leaf is entered, marked and left, but the box left too early. The mark of the box
stays and that of the leaf does not. -/
theorem follows_books_box :
    let box : Ty := .object .interface (.listed "Box") []
    let leaf : Ty := .object .interface (.listed "Leaf") []
    let p : TypeParam := ⟨"T", 0⟩
    let b := run ⟨{}, {}⟩ [.push [(p, leaf), (p, box)], .enter box, .pop 1]
    let nested : List Step := .push [(p, leaf)] ::
      ([.mark box] ++ (.enter leaf :: (([.mark leaf] ++ [.leave box]) ++ [.leave leaf])) ++
        [.pop 1])
    let ctx := (b.run nested).session.ctx
    Nested b nested ∧ b.session.ctx.isMarked box = false ∧ ctx.resolve p = some box ∧
      ctx.isActive box = true ∧ ctx.isMarked box = true ∧ ctx.isMarked leaf = false := by
  intro box leaf p b nested ctx
  have hearly : ∀ s : Session, s.ctx.path = [leaf, box] → ¬(Step.leave box).Succeeds s := by
    rintro s hpath ⟨_, h⟩
    obtain ⟨_, hop, _⟩ := onContext_eq_ok.1 h
    obtain ⟨u, rest, hcons, hkey, _⟩ := leave_eq_ok hop
    rw [hpath] at hcons
    cases hcons
    exact absurd hkey (by decide)
  have hnested : Nested b nested :=
    .frame ((Nested.mark _ box).append (.guard ⟨_, Walk.enter_apply (by decide +kernel)⟩
      ((Nested.mark _ leaf).append (.failed (hearly _ (by decide +kernel))))))
  have hbound : b.session.ctx.resolve p = some box := by decide +kernel
  have hbox : b.session.ctx.isActive box = true := by decide +kernel
  have hleaf : b.session.ctx.isActive leaf = false := by decide +kernel
  have hunmarked : b.session.ctx.isMarked box = false ∧ b.session.ctx.isMarked leaf = false := by
    decide +kernel
  have hfollows := follows_books {} [] [.push [(p, leaf), (p, box)], .enter box, .pop 1]
  have hb : run ⟨{}, {}⟩ [.push [(p, leaf), (p, box)], .enter box, .pop 1] = b := rfl
  -- From here on the state before is one that has these properties, and is not run again.
  rw [hb] at hfollows
  clear_value b
  obtain ⟨hresolve, hactive, hmarked⟩ := hfollows.2.2 nested hnested
  refine ⟨hnested, hunmarked.1, (hresolve p).trans hbound, (hactive box).trans hbox, ?_, ?_⟩
  · exact (hmarked box).2 (.inr ⟨hbox, box, by simp [nested], rfl⟩)
  · refine Bool.eq_false_iff.2 fun h => ?_
    rcases (hmarked leaf).1 h with h | ⟨h, _⟩
    · exact Bool.eq_false_iff.1 hunmarked.2 h
    · exact Bool.eq_false_iff.1 hleaf h

end Booked

end Context

end TypeGuard
