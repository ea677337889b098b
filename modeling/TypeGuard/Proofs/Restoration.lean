import TypeGuard.Guard.Verdict
import TypeGuard.Proofs.Faults
import TypeGuard.Proofs.Walk

/-! Walks leave the context as they found it on every way out, whether they end or stop at a
fault. -/

namespace TypeGuard

namespace Fault

/-- The faults in the handling of a context: what is popped, left or marked is not what it should
be, a reference is entered twice, or something is left open in the end. -/
def isUnbalanced : Fault → Bool
  | broken .frameOrder => true
  | broken .enteredOnce => true
  | broken .leavingInnermost => true
  | broken .markedActive => true
  | broken .cleared => true
  | _ => false

theorem not_unbalanced_of_isBounded {fault : Fault} (h : fault.isBounded = true) :
    fault.isUnbalanced = false := by
  cases fault with
  | broken rule => cases rule <;> first | rfl | cases h
  | _ => rfl

theorem not_unbalanced_raised {fault : Fault} (h : fault.isUnbalanced = false) (files : Files) :
    (fault.raised files).isUnbalanced = false := by
  cases fault with
  | rejected r =>
      simp only [raised]
      split <;> rfl
  | _ => exact h

end Fault

namespace Context

/-- Depth and keys go with frames and path, and only references that are being expanded are
marked. -/
structure Tidy (ctx : Context) : Prop where
  sound : ctx.Sound
  marks : ∀ u ∈ ctx.marked, u.IsOn ctx.path

theorem tidy_start : ({} : Context).Tidy :=
  ⟨sound_start, fun _ hu => absurd hu List.not_mem_nil⟩

theorem Tidy.push {ctx : Context} (h : ctx.Tidy) (bindings : Bindings) :
    (ctx.push bindings).2.Tidy :=
  ⟨h.sound.push bindings, h.marks⟩

theorem Tidy.inside {ctx : Context} {t : Ty} (h : ctx.Tidy) (hoff : ctx.isActive t = false) :
    (ctx.inside t).Tidy :=
  ⟨h.sound.inside hoff, fun u hu => Ty.isOn_cons.2 (.inr (h.marks u hu))⟩

/-- The contexts that come about from a fresh one. -/
inductive Reachable : Context → Prop
  | fresh : Reachable {}
  | push {ctx : Context} (bindings : Bindings) (h : Reachable ctx) : Reachable (ctx.push bindings).2
  | pop {ctx ctx' : Context} {stamp : Nat} (h : Reachable ctx) (hpop : ctx.pop stamp = .ok ctx') :
      Reachable ctx'
  | enter {ctx ctx' : Context} {t : Ty} (h : Reachable ctx) (henter : ctx.enter t = .ok ctx') :
      Reachable ctx'
  | leave {ctx ctx' : Context} {t : Ty} (h : Reachable ctx) (hleave : ctx.leave t = .ok ctx') :
      Reachable ctx'
  | mark {ctx ctx' : Context} {t : Ty} (h : Reachable ctx) (hmark : ctx.mark t = .ok ctx') :
      Reachable ctx'

theorem pop_eq_ok {ctx ctx' : Context} {stamp : Nat} (h : ctx.pop stamp = .ok ctx') :
    ∃ frame rest, ctx.frames = frame :: rest ∧ frame.stamp = stamp ∧
      ctx' = { ctx with frames := rest, depth := ctx.depth - 1 } := by
  unfold pop at h
  split at h
  · next frame rest hframes =>
      split at h
      · next htop =>
          cases h
          exact ⟨frame, rest, hframes, htop.2, rfl⟩
      · cases h
  · cases h

theorem enter_eq_ok {ctx ctx' : Context} {t : Ty} (h : ctx.enter t = .ok ctx') :
    ctx.isActive t = false ∧ ctx' = ctx.inside t := by
  unfold enter at h
  split at h
  · cases h
  · next hoff =>
      cases h
      exact ⟨Bool.eq_false_iff.2 hoff, rfl⟩

theorem leave_eq_ok {ctx ctx' : Context} {t : Ty} (h : ctx.leave t = .ok ctx') :
    ∃ u rest, ctx.path = u :: rest ∧ u.key = t.key ∧ ctx' = ctx.outside t rest := by
  unfold leave at h
  split at h
  · next u rest hpath =>
      split at h
      · next hsame =>
          cases h
          exact ⟨u, rest, hpath, Ty.same_iff.1 hsame, rfl⟩
      · cases h
  · cases h

theorem mark_eq_ok {ctx ctx' : Context} {t : Ty} (h : ctx.mark t = .ok ctx') :
    ctx.isActive t = true ∧ ctx' = { ctx with marked := t :: ctx.marked } := by
  unfold mark at h
  split at h
  · next hactive =>
      cases h
      exact ⟨hactive, rfl⟩
  · cases h

theorem Tidy.isOn {ctx : Context} {t : Ty} (h : ctx.Tidy) (hon : ctx.isActive t = true) :
    t.IsOn ctx.path :=
  (h.sound.isActive t).symm.trans hon

theorem Tidy.mark {ctx : Context} {t : Ty} (h : ctx.Tidy) (hon : ctx.isActive t = true) :
    Tidy { ctx with marked := t :: ctx.marked } := by
  refine ⟨⟨h.sound.depth, h.sound.onPath, h.sound.distinct⟩, fun u hu => ?_⟩
  rcases List.mem_cons.1 hu with rfl | hu
  · exact h.isOn hon
  · exact h.marks u hu

theorem Tidy.outside {ctx : Context} {t u : Ty} {rest : List Ty} (h : ctx.Tidy)
    (hpath : ctx.path = u :: rest) (hkey : u.key = t.key) : (ctx.outside t rest).Tidy := by
  refine ⟨h.sound.outside hpath hkey, fun v hv => ?_⟩
  obtain ⟨hmem, hother⟩ := List.mem_filter.1 hv
  have hon := h.marks v hmem
  rw [hpath] at hon
  rcases Ty.isOn_cons.1 hon with hsame | hon
  · rw [Ty.same_iff.2 (hsame.symm.trans hkey)] at hother
    cases hother
  · exact hon

theorem Reachable.tidy {ctx : Context} (h : ctx.Reachable) : ctx.Tidy := by
  induction h with
  | fresh => exact tidy_start
  | push bindings _ ih => exact ih.push bindings
  | pop _ hpop ih =>
      obtain ⟨frame, rest, hframes, _, rfl⟩ := pop_eq_ok hpop
      have hdepth := ih.sound.depth
      rw [hframes, List.length_cons] at hdepth
      exact ⟨⟨by rw [hdepth]; rfl, ih.sound.onPath, ih.sound.distinct⟩, ih.marks⟩
  | enter _ henter ih =>
      obtain ⟨hoff, rfl⟩ := enter_eq_ok henter
      exact ih.inside hoff
  | leave _ hleave ih =>
      obtain ⟨u, rest, hpath, hkey, rfl⟩ := leave_eq_ok hleave
      exact ih.outside hpath hkey
  | mark _ hmark ih =>
      obtain ⟨hon, rfl⟩ := mark_eq_ok hmark
      exact ih.mark hon

end Context

/-- Frames and path are the same as before, and so are depth and keys. No marks are new but those of
references on the path. -/
structure Session.Kept (s s' : Session) : Prop where
  frames : s'.ctx.frames = s.ctx.frames
  depth : s'.ctx.depth = s.ctx.depth
  path : s'.ctx.path = s.ctx.path
  onPath : s'.ctx.onPath = s.ctx.onPath
  marks : ∀ u ∈ s.ctx.marked, u ∈ s'.ctx.marked
  marked : ∀ u ∈ s'.ctx.marked, u ∈ s.ctx.marked ∨ u.IsOn s.ctx.path

namespace Session.Kept

variable {s s' s'' : Session}

theorem of_ctx (h : s'.ctx = s.ctx) : s.Kept s' where
  frames := by rw [h]
  depth := by rw [h]
  path := by rw [h]
  onPath := by rw [h]
  marks u hu := by rwa [h]
  marked u hu := .inl (by rwa [h] at hu)

theorem trans (h : s.Kept s') (h' : s'.Kept s'') : s.Kept s'' where
  frames := h'.frames.trans h.frames
  depth := h'.depth.trans h.depth
  path := h'.path.trans h.path
  onPath := h'.onPath.trans h.onPath
  marks u hu := h'.marks u (h.marks u hu)
  marked u hu := by
    rcases h'.marked u hu with hu | hon
    · exact h.marked u hu
    · rw [h.path] at hon
      exact .inr hon

theorem tidy (h : s.Kept s') (htidy : s.ctx.Tidy) : s'.ctx.Tidy := by
  refine ⟨⟨?_, ?_, ?_⟩, fun u hu => ?_⟩
  · rw [h.depth, h.frames, htidy.sound.depth]
  · rw [h.onPath, h.path, htidy.sound.onPath]
  · rw [h.path]
    exact htidy.sound.distinct
  · rw [h.path]
    exact (h.marked u hu).elim (htidy.marks u) id

theorem of_push {bindings : Bindings} (htidy : s.ctx.Tidy)
    (h : Session.Kept { s with ctx := (s.ctx.push bindings).2 } s') :
    s.Kept { s' with ctx := s'.ctx.back s.ctx.frames } :=
  ⟨rfl, htidy.sound.depth.symm, h.path, h.onPath, h.marks, h.marked⟩

/-- Leaving a reference undoes entering it, and takes along no marks but those that were made
inside. -/
theorem of_enter {t : Ty} (htidy : s.ctx.Tidy) (hoff : s.ctx.isActive t = false)
    (h : Session.Kept { s with ctx := s.ctx.inside t } s') :
    s.Kept { s' with ctx := s'.ctx.outside t s.ctx.path } := by
  have honPath : s'.ctx.onPath.filter (· ≠ t.key) = s.ctx.onPath := by
    have hkey : t.key ∉ s.ctx.onPath := of_decide_eq_false hoff
    have hinside : s'.ctx.onPath = t.key :: s.ctx.onPath := h.onPath
    rw [hinside, List.filter_cons_of_neg (by simp), List.filter_eq_self]
    exact fun key hmem => decide_eq_true fun heq => hkey (heq ▸ hmem)
  refine ⟨h.frames, h.depth, rfl, honPath, fun u hu => ?_, fun u hu => ?_⟩
  · refine List.mem_filter.2 ⟨h.marks u hu, ?_⟩
    cases hsame : u.same t with
    | false => rfl
    | true =>
        have hon := (Ty.isOn_congr (Ty.same_iff.1 hsame) _).1 (htidy.marks u hu)
        rw [htidy.sound.isActive] at hoff
        exact absurd hon (Bool.eq_false_iff.1 hoff)
  · obtain ⟨hmem, hother⟩ := List.mem_filter.1 hu
    rcases h.marked u hmem with hu | hon
    · exact .inl hu
    · rcases Ty.isOn_cons.1 hon with hkey | hon
      · rw [Ty.same_iff.2 hkey.symm] at hother
        cases hother
      · exact .inr hon

end Session.Kept

namespace Walk

variable {α β : Type} {s : Session}

/-- The walk keeps the context on every way out, and does not stop at a fault in its handling. -/
structure Restores (w : Walk α) (s : Session) : Prop where
  ok : ∀ a s', w s = .ok a s' → s.Kept s'
  error : ∀ fault s', w s = .error fault s' → s.Kept s' ∧ fault.isUnbalanced = false

/-- The walk does so in every tidy context. -/
def IsRestoring (w : Walk α) : Prop :=
  ∀ s : Session, s.ctx.Tidy → Restores w s

theorem withFrame_apply_fault {w : Walk α} {bindings : Bindings} {s' : Session} {fault : Fault}
    (hrun : w { s with ctx := (s.ctx.push bindings).2 } = .error fault s')
    (hdepth : s'.ctx.depth = s'.ctx.frames.length)
    (hframes : s'.ctx.frames = (s.ctx.push bindings).2.frames) :
    withFrame bindings w s = .error fault { s' with ctx := s'.ctx.back s.ctx.frames } := by
  simp only [withFrame, bind_apply, push_apply, attempt_apply, hrun, pop_apply hdepth hframes]
  rfl

theorem entering_apply_fault {w : Walk α} {t : Ty} {s' : Session} {fault : Fault}
    (hoff : s.ctx.isActive t = false)
    (hrun : w { s with ctx := s.ctx.inside t } = .error fault s')
    (hpath : s'.ctx.path = t :: s.ctx.path) :
    entering t w s = .error fault { s' with ctx := s'.ctx.outside t s.ctx.path } := by
  simp only [entering, bind_apply, enter_apply hoff, attempt_apply, hrun, leave_apply hpath]
  rfl

namespace Restores

theorem bind {w : Walk α} {f : α → Walk β} (htidy : s.ctx.Tidy) (hw : Restores w s)
    (hf : ∀ a s', w s = .ok a s' → s'.ctx.Tidy → Restores (f a) s') : Restores (w >>= f) s := by
  cases hrun : w s with
  | ok a s' =>
      have hkept := hw.ok a s' hrun
      have hrest := hf a s' hrun (hkept.tidy htidy)
      refine ⟨fun b s'' hb => ?_, fun fault s'' hfault => ?_⟩
      · rw [bind_apply, hrun] at hb
        exact hkept.trans (hrest.ok b s'' hb)
      · rw [bind_apply, hrun] at hfault
        obtain ⟨hkept', hbalanced⟩ := hrest.error fault s'' hfault
        exact ⟨hkept.trans hkept', hbalanced⟩
  | error fault s' =>
      refine ⟨fun b s'' hb => ?_, fun fault' s'' hfault => ?_⟩
      · rw [bind_apply, hrun] at hb
        cases hb
      · rw [bind_apply, hrun] at hfault
        cases hfault
        exact hw.error fault s' hrun

theorem withFrame {w : Walk α} {bindings : Bindings} (htidy : s.ctx.Tidy)
    (hw : Restores w { s with ctx := (s.ctx.push bindings).2 }) :
    Restores (Walk.withFrame bindings w) s := by
  cases hrun : w { s with ctx := (s.ctx.push bindings).2 } with
  | ok a s' =>
      have hkept := hw.ok a s' hrun
      have hdepth := (hkept.tidy (htidy.push bindings)).sound.depth
      have heq := withFrame_apply_ok hrun hdepth hkept.frames
      refine ⟨fun b s'' hb => ?_, fun fault s'' hfault => ?_⟩
      · rw [heq] at hb
        cases hb
        exact hkept.of_push htidy
      · rw [heq] at hfault
        cases hfault
  | error fault s' =>
      obtain ⟨hkept, hbalanced⟩ := hw.error fault s' hrun
      have hdepth := (hkept.tidy (htidy.push bindings)).sound.depth
      have heq := withFrame_apply_fault hrun hdepth hkept.frames
      refine ⟨fun b s'' hb => ?_, fun fault s'' hfault => ?_⟩
      · rw [heq] at hb
        cases hb
      · rw [heq] at hfault
        cases hfault
        exact ⟨hkept.of_push htidy, hbalanced⟩

theorem entering {w : Walk α} {t : Ty} (htidy : s.ctx.Tidy) (hoff : s.ctx.isActive t = false)
    (hw : Restores w { s with ctx := s.ctx.inside t }) :
    Restores (Walk.entering t w) s := by
  cases hrun : w { s with ctx := s.ctx.inside t } with
  | ok a s' =>
      have hkept := hw.ok a s' hrun
      have heq := entering_apply_ok hoff hrun hkept.path
      refine ⟨fun b s'' hb => ?_, fun fault s'' hfault => ?_⟩
      · rw [heq] at hb
        cases hb
        exact hkept.of_enter htidy hoff
      · rw [heq] at hfault
        cases hfault
  | error fault s' =>
      obtain ⟨hkept, hbalanced⟩ := hw.error fault s' hrun
      have heq := entering_apply_fault hoff hrun hkept.path
      refine ⟨fun b s'' hb => ?_, fun fault s'' hfault => ?_⟩
      · rw [heq] at hb
        cases hb
      · rw [heq] at hfault
        cases hfault
        exact ⟨hkept.of_enter htidy hoff, hbalanced⟩

theorem raising {w : Walk α} (h : Restores w s) (files : Files) :
    Restores (w.raising files) s := by
  refine ⟨fun a s' hrun => h.ok a s' (raising_eq_ok.1 hrun), fun fault s' hrun => ?_⟩
  obtain ⟨fault₀, hfault, rfl⟩ := raising_eq_error.1 hrun
  obtain ⟨hkept, hbalanced⟩ := h.error fault₀ s' hfault
  exact ⟨hkept, Fault.not_unbalanced_raised hbalanced files⟩

theorem mark {t : Ty} (htidy : s.ctx.Tidy) (hon : s.ctx.isActive t = true) :
    Restores (onContext (·.mark t)) s := by
  have heq : onContext (·.mark t) s =
      .ok () { s with ctx := { s.ctx with marked := t :: s.ctx.marked } } := by
    simp only [onContext_apply, Context.mark, if_pos hon]
    rfl
  refine ⟨fun _ s' h => ?_, fun fault s' h => ?_⟩
  · rw [heq] at h
    cases h
    refine ⟨rfl, rfl, rfl, rfl, fun u hu => List.mem_cons_of_mem _ hu, fun u hu => ?_⟩
    rcases List.mem_cons.1 hu with rfl | hu
    · exact .inr (htidy.isOn hon)
    · exact .inl hu
  · rw [heq] at h
    cases h

end Restores

/-- A property of walks that is kept by all that a classification of types is put together with. -/
structure Combines (P : {α : Type} → Walk α → Prop) : Prop where
  pure {α : Type} (a : α) : P (Pure.pure a)
  throw {α : Type} {fault : Fault} (h : fault.isBounded = true) :
    P (MonadExcept.throw fault : Walk α)
  bind {α β : Type} {w : Walk α} {f : α → Walk β} (hw : P w) (hf : ∀ a, P (f a)) : P (w >>= f)
  instantiate (t : Ty) : P (Walk.instantiate t)
  bound (x : TypeParam) (hint : String) : P (Walk.bound x hint)
  withFrame {α : Type} {w : Walk α} (hw : P w) (bindings : Bindings) : P (Walk.withFrame bindings w)
  unlessActive {α : Type} {w w' : Walk α} (t : Ty) (hw : P w) (hw' : P w') :
    P (do if ← Walk.isActive t then w else Walk.entering t w')

/-- A property of walks that is kept by all that guards are put together with. -/
structure Builds (P : {α : Type} → Walk α → Prop) : Prop extends Combines P where
  note (n : Note) : P (Walk.note n)
  ifActive {α : Type} {w w' : Walk α} (t : Ty) (hw : P w) (hw' : P w') :
    P (do if ← Walk.isActive t then w else w')
  knot (t : Ty) (accessor : Expr) {build : Expr → Walk Expr} (hbuild : ∀ slot, P (build slot)) :
    P (Guard.knot t accessor build)

namespace Combines

variable {P : {α : Type} → Walk α → Prop} (hP : Combines P)

include hP

theorem ofExcept {x : Except Fault α} (h : Stops (fun fault => fault.isBounded = true) x) :
    P (Walk.ofExcept x) := by
  cases x with
  | ok a => exact hP.pure a
  | error fault => exact hP.throw (h fault rfl)

theorem ofExcept_local {x : Except Fault α} (h : StopsLocally x) : P (Walk.ofExcept x) :=
  hP.ofExcept (h.mono fun _ => Fault.isBounded_of_isLocal)

theorem throw_shown (t : Ty) {fault : String → Fault} (h : ∀ text, (fault text).isBounded = true) :
    P (MonadExcept.throw (.ofText t.render fault) : Walk α) :=
  hP.throw ((t.render_stops_locally.mono fun _ => Fault.isBounded_of_isLocal).ofText h)

theorem mapM {f : α → Walk β} (hf : ∀ a, P (f a)) (xs : List α) : P (xs.mapM f) := by
  induction xs with
  | nil => exact hP.pure []
  | cons a rest ih =>
      rw [List.mapM_cons]
      exact hP.bind (hf a) fun b => hP.bind ih fun bs => hP.pure _

theorem expose (cat : Catalog) (limit : Nat) (t : Ty) : P (Walk.expose cat limit t) := by
  induction limit generalizing t with
  | zero => exact hP.throw rfl
  | succ limit ih =>
      cases t with
      | name s args => exact hP.bind (hP.ofExcept_local (cat.stops_resolve _)) ih
      | param p => exact hP.bind (hP.bound p "") ih
      | _ => exact hP.instantiate _

end Combines

namespace IsRestoring

theorem pure (a : α) : IsRestoring (Pure.pure a) := by
  intro s _
  refine ⟨fun b s' h => ?_, fun fault s' h => ?_⟩
  · cases h
    exact .of_ctx rfl
  · cases h

theorem throw {fault : Fault} (h : fault.isUnbalanced = false) :
    IsRestoring (MonadExcept.throw fault : Walk α) := by
  intro s _
  refine ⟨fun b s' h => ?_, fun fault' s' h' => ?_⟩
  · cases h
  · cases h'
    exact ⟨.of_ctx rfl, h⟩

theorem replace (e : Expr) (x : Ident) (r : Expr) :
    IsRestoring (Walk.ofExcept (e.replace x r)) := by
  cases hreplace : e.replace x r with
  | ok e' => exact pure e'
  | error fault =>
      rw [Expr.stops_replace e x r fault hreplace]
      exact throw rfl

theorem of_ctx {w : Walk α} (h : ∀ s, ∃ a s', w s = .ok a s' ∧ s'.ctx = s.ctx) : IsRestoring w := by
  intro s _
  obtain ⟨a, s', hrun, hctx⟩ := h s
  refine ⟨fun b s'' hb => ?_, fun fault s'' hfault => ?_⟩
  · rw [hrun] at hb
    cases hb
    exact .of_ctx hctx
  · rw [hrun] at hfault
    cases hfault

theorem bind {w : Walk α} {f : α → Walk β} (hw : IsRestoring w) (hf : ∀ a, IsRestoring (f a)) :
    IsRestoring (w >>= f) :=
  fun s htidy => .bind htidy (hw s htidy) fun a s' _ htidy' => hf a s' htidy'

theorem instantiate (t : Ty) : IsRestoring (Walk.instantiate t) :=
  of_ctx fun s => ⟨_, s, rfl, rfl⟩

theorem isMarked (t : Ty) : IsRestoring (Walk.isMarked t) :=
  of_ctx fun s => ⟨_, s, rfl, rfl⟩

theorem note (n : Note) : IsRestoring (Walk.note n) :=
  of_ctx fun _ => ⟨_, _, rfl, rfl⟩

theorem numberOf (t : Ty) : IsRestoring (Walk.numberOf t) :=
  of_ctx fun _ => ⟨_, _, rfl, rfl⟩

theorem bound (x : TypeParam) (hint : String) : IsRestoring (Walk.bound x hint) := by
  refine bind (of_ctx fun s => ⟨s.ctx, s, rfl, rfl⟩) fun ctx => ?_
  split
  · exact pure _
  · exact throw rfl

theorem withFrame {w : Walk α} (hw : IsRestoring w) (bindings : Bindings) :
    IsRestoring (Walk.withFrame bindings w) :=
  fun _ htidy => .withFrame htidy (hw _ (htidy.push bindings))

theorem ifActive {t : Ty} {w w' : Walk α}
    (hw : ∀ s : Session, s.ctx.Tidy → s.ctx.isActive t = true → Restores w s)
    (hw' : ∀ s : Session, s.ctx.Tidy → s.ctx.isActive t = false → Restores w' s) :
    IsRestoring (do if ← Walk.isActive t then w else w') := by
  intro s htidy
  have hrun : Walk.isActive t s = .ok (s.ctx.isActive t) s := rfl
  refine .bind htidy (of_ctx (fun _ => ⟨_, _, rfl, rfl⟩) s htidy) fun active s' h _ => ?_
  rw [hrun] at h
  cases h
  cases hactive : s.ctx.isActive t with
  | true => exact hw s htidy hactive
  | false => exact hw' s htidy hactive

theorem entering {w : Walk α} (hw : IsRestoring w) {t : Ty} (htidy : s.ctx.Tidy)
    (hoff : s.ctx.isActive t = false) : Restores (Walk.entering t w) s :=
  .entering htidy hoff (hw _ (htidy.inside hoff))

theorem combines : Combines IsRestoring where
  pure := pure
  throw h := throw (Fault.not_unbalanced_of_isBounded h)
  bind := bind
  instantiate := instantiate
  bound := bound
  withFrame := withFrame
  unlessActive _ hw hw' :=
    ifActive (fun s htidy _ => hw s htidy) fun _ htidy hoff => hw'.entering htidy hoff

theorem ofExcept_local {x : Except Fault α} (h : StopsLocally x) : IsRestoring (Walk.ofExcept x) :=
  combines.ofExcept_local h

theorem mapM {f : α → Walk β} (hf : ∀ a, IsRestoring (f a)) (xs : List α) :
    IsRestoring (xs.mapM f) :=
  combines.mapM hf xs

theorem knot (t : Ty) (accessor : Expr) {build : Expr → Walk Expr}
    (hbuild : ∀ slot, IsRestoring (build slot)) : IsRestoring (Guard.knot t accessor build) := by
  refine .bind (.numberOf t) fun n => .ifActive (fun s htidy hon => ?_) fun s htidy hoff => ?_
  · exact .bind htidy (.mark htidy hon) fun _ s' _ htidy' => IsRestoring.pure _ s' htidy'
  · have hbody : IsRestoring (do
        let body ← build (.ident (.slot n))
        let recursive ← Walk.isMarked t
        Pure.pure (body, recursive)) :=
      .bind (hbuild _) fun body => .bind (.isMarked t) fun recursive => .pure _
    refine .bind htidy (hbody.entering htidy hoff) fun result s' _ htidy' => ?_
    obtain ⟨body, recursive⟩ := result
    cases recursive with
    | true => exact IsRestoring.pure _ s' htidy'
    | false => exact IsRestoring.replace body _ accessor s' htidy'

theorem builds : Builds IsRestoring where
  toCombines := combines
  note := note
  ifActive _ hw hw' := ifActive (fun s htidy _ => hw s htidy) fun s htidy _ => hw' s htidy
  knot := knot

end IsRestoring

end Walk

open Walk

namespace Shape

variable {cat : Catalog}

section Combined

variable {P : {α : Type} → Walk α → Prop} {limit : Nat}

theorem combined_ofType (hP : Combines P) (htype : ∀ t, P (ofType cat limit t))
    (hkeys : ∀ t, P (ofKeys cat limit t)) (t : Ty) : P (ofType cat (limit + 1) t) := by
  cases t with
  | primitive s => exact hP.ofExcept_local (stops_ofPrimitive s)
  | literal v => exact hP.ofExcept_local (stops_ofLiteral v)
  | boolean _ | sequence _ _ | mapped _ _ _ _ => exact hP.pure _
  | union members =>
      exact hP.bind (hP.mapM htype members) fun shapes => hP.ofExcept_local (stops_union shapes)
  | inter members =>
      exact hP.bind (hP.mapM htype members) fun shapes => hP.ofExcept_local (stops_inter shapes)
  | object kind decl elements =>
      cases kind with
      | interface => exact hP.pure _
      | nominal => exact hP.throw rfl
  | ref target args =>
      refine hP.bind (hP.instantiate _) fun r => hP.unlessActive r (hP.pure _) ?_
      exact hP.bind (hP.ofExcept (cat.stops_bindings (fun _ => id) r)) fun bindings =>
        hP.withFrame (htype r.head) bindings
  | param p => exact hP.bind (hP.bound p _) htype
  | name s args => exact hP.bind (hP.ofExcept_local (cat.stops_resolve _)) htype
  | keyOf t => exact hkeys t
  | index object key =>
      refine hP.bind (hP.expose cat limit object) fun o => hP.bind (htype key) fun keys => ?_
      refine hP.bind (hP.ofExcept (cat.stops_propertyTypes (fun _ => id) o key keys)) ?_
      intro types
      refine hP.bind (hP.ofExcept (cat.stops_bindings (fun _ => id) o)) fun bindings => ?_
      refine hP.withFrame (hP.bind (hP.mapM htype types) fun shapes => ?_) bindings
      exact hP.ofExcept_local (stops_union shapes)

theorem combined_ofKeys (hP : Combines P) (htype : ∀ t, P (ofType cat limit t))
    (hkeys : ∀ t, P (ofKeys cat limit t)) (t : Ty) : P (ofKeys cat (limit + 1) t) := by
  cases t with
  | object kind decl elements =>
      cases kind with
      | interface =>
          refine hP.bind (hP.ofExcept (cat.stops_properties (fun _ => id) _)) ?_
          intro properties
          exact hP.ofExcept_local (stops_ofProperties properties)
      | nominal => exact hP.throw rfl
  | sequence _ _ => exact hP.pure _
  | ref target args =>
      refine hP.bind (hP.instantiate _) fun r => ?_
      split
      · exact hP.bind (hP.ofExcept (cat.stops_bindings (fun _ => id) r)) fun bindings =>
          hP.withFrame (hkeys _) bindings
      · exact hkeys _
  | mapped p constraint template params => exact htype constraint
  | union members =>
      exact hP.bind (hP.mapM hkeys members) fun shapes =>
        hP.ofExcept_local (stops_commonNames shapes)
  | inter members =>
      exact hP.bind (hP.mapM hkeys members) fun shapes =>
        hP.ofExcept_local (stops_allNames shapes)
  | param p => exact hP.bind (hP.bound p _) hkeys
  | name s args => exact hP.bind (hP.ofExcept_local (cat.stops_resolve _)) hkeys
  | primitive s =>
      by_cases hany : s = "any"
      · subst hany
        exact hP.pure _
      by_cases hnever : s = "never"
      · subst hnever
        exact hP.pure _
      simp only [ofKeys]
      exact hP.throw_shown _ fun _ => rfl
  | literal _ | boolean _ | keyOf _ | index _ _ => exact hP.throw_shown _ fun _ => rfl

/-- Both classifiers are put together with nothing else. -/
theorem combined (hP : Combines P) (limit : Nat) :
    (∀ t, P (ofType cat limit t)) ∧ ∀ t, P (ofKeys cat limit t) := by
  induction limit with
  | zero => exact ⟨fun t => hP.throw rfl, fun t => hP.throw rfl⟩
  | succ limit ih => exact ⟨combined_ofType hP ih.1 ih.2, combined_ofKeys hP ih.1 ih.2⟩

end Combined

theorem restores (limit : Nat) :
    (∀ t, IsRestoring (ofType cat limit t)) ∧ ∀ t, IsRestoring (ofKeys cat limit t) :=
  combined IsRestoring.combines limit

end Shape

namespace Guard

variable {cat : Catalog}

section Combined

variable {P : {α : Type} → Walk α → Prop} (hP : Builds P)

include hP

section Visit

variable {visit : Visit} (hvisit : ∀ t accessor, P (visit t accessor))

include hvisit

theorem combined_property (p : Property) (accessor : Expr) :
    P (ofProperty cat visit p accessor) := by
  unfold ofProperty
  split
  · exact hP.throw rfl
  · next t _ =>
      have hindex := hP.bind (hP.ofExcept_local p.key.stops_index) fun index =>
        hvisit t (.elem accessor index)
      split
      · exact hP.bind (hP.note _) fun _ => hindex
      · exact hindex

theorem combined_mapped (limit : Nat) (x : TypeParam) (constraint template : Ty)
    (params : List TypeParam) (accessor : Expr) :
    P (ofMapped cat limit visit x constraint template params accessor) := by
  refine hP.bind ((Shape.combined hP.toCombines limit).1 constraint) fun shape => ?_
  cases shape with
  | exact keys =>
      refine hP.bind (hP.mapM (fun key => ?_) keys.toList) fun conditions => hP.pure _
      exact hP.withFrame (hvisit _ _) _
  | always | never => exact hP.throw_shown _ fun _ => rfl

theorem combined_properties (t : Ty) (accessor : Expr) : P (do
    let properties ← Walk.ofExcept (cat.properties t)
    let conditions ← properties.mapM fun p => ofProperty cat visit p accessor
    pure (Expr.allOf (Expr.objectTests accessor ++ conditions))) := by
  refine hP.bind (hP.ofExcept (cat.stops_properties (fun _ => id) t)) fun properties => ?_
  refine hP.bind (hP.mapM (fun p => ?_) properties) fun conditions => hP.pure _
  exact combined_property hP hvisit p accessor

theorem combined_parts (limit : Nat) (t : Ty) (accessor : Expr) :
    P (ofParts cat limit visit t accessor) := by
  refine hP.bind (hP.ofExcept (cat.stops_bindings (fun _ => id) t)) fun bindings => ?_
  refine hP.withFrame ?_ bindings
  split
  · exact combined_mapped hP hvisit limit _ _ _ _ accessor
  · exact combined_properties hP hvisit t accessor

theorem combined_object (limit : Nat) (t : Ty) (accessor : Expr) :
    P (ofObject cat limit visit t accessor) :=
  hP.knot t accessor (combined_parts hP hvisit limit t)

end Visit

theorem combined_ofType (limit : Nat) (t : Ty) (accessor : Expr) :
    P (ofType cat limit t accessor) := by
  induction limit generalizing t accessor with
  | zero => exact hP.throw rfl
  | succ limit ih =>
      cases t with
      | primitive s => exact hP.ofExcept_local (stops_ofPrimitive s accessor)
      | literal v => exact hP.ofExcept_local (stops_ofLiteral v accessor)
      | boolean b => exact hP.pure _
      | union members | inter members =>
          exact hP.bind (hP.mapM (fun t => ih t accessor) members) fun conditions => hP.pure _
      | name s args =>
          exact hP.bind (hP.ofExcept_local (cat.stops_resolve _)) fun t => ih t accessor
      | param p => exact hP.bind (hP.bound p _) fun t => ih t accessor
      | object kind decl elements =>
          cases kind with
          | interface => exact combined_object hP ih limit _ accessor
          | nominal => exact hP.throw rfl
      | sequence _ _ => exact hP.throw_shown _ fun _ => rfl
      | ref target args =>
          refine hP.bind (hP.instantiate _) fun r => ?_
          split
          · exact combined_object hP ih limit r accessor
          · exact combined_object hP ih limit r accessor
          · exact ih _ accessor
      | mapped x constraint template params =>
          exact combined_mapped hP ih limit x constraint template params accessor
      | index object key =>
          refine hP.bind (hP.expose cat limit object) fun o =>
            hP.bind ((Shape.combined hP.toCombines limit).1 key) fun keys => ?_
          refine hP.bind (hP.ofExcept (cat.stops_propertyTypes (fun _ => id) o key keys)) ?_
          intro types
          refine hP.bind (hP.ofExcept (cat.stops_bindings (fun _ => id) o)) fun bindings => ?_
          refine hP.withFrame ?_ bindings
          exact hP.bind (hP.mapM (fun t => ih t accessor) types) fun conditions => hP.pure _
      | keyOf operand =>
          refine hP.bind ((Shape.combined hP.toCombines limit).1 _) fun shape => ?_
          cases shape with
          | exact keys => exact hP.pure _
          | always | never => exact hP.throw_shown _ fun _ => rfl

theorem combined_ofBase {declared : Declaration → Expr → Walk Expr}
    (hdeclared : ∀ d accessor, P (declared d accessor)) (heir : Declaration) (base : Ty)
    (accessor : Expr) : P (do
      let base ← Walk.instantiate base
      ofBase cat declared heir base accessor) := by
  refine hP.bind (hP.instantiate base) fun base => ?_
  unfold ofBase
  split
  · refine hP.ifActive base (hP.throw_shown base fun _ => rfl) ?_
    split
    · next d _ => exact hP.withFrame (hP.knot base accessor (hdeclared d)) _
    · exact hP.throw rfl
  · exact hP.throw_shown base fun _ => rfl

theorem combined_ofDeclaration (limit : Nat) (d : Declaration) (accessor : Expr) :
    P (ofDeclaration cat limit d accessor) := by
  induction limit generalizing d accessor with
  | zero => exact hP.throw rfl
  | succ limit ih =>
      have hproperty : ∀ p, P (ofProperty cat (ofType cat limit) p accessor) := fun p =>
        combined_property hP (combined_ofType hP limit) p accessor
      unfold ofDeclaration
      split
      · refine hP.bind (hP.note _) fun _ => hP.bind (hP.ofExcept_local (cat.stops_basesOf d)) ?_
        intro bases
        refine hP.bind (hP.mapM (fun base => combined_ofBase hP ih d base accessor) bases) ?_
        exact fun inherited => hP.bind (hP.mapM hproperty _) fun own => hP.pure _
      · exact hP.throw rfl
      · exact combined_ofType hP limit _ accessor
      · exact hP.throw rfl
      · exact hproperty _
      · exact hP.throw rfl

theorem combined_ofInstance (limit : Nat) (d : Declaration) (args : List Ty) (accessor : Expr) :
    P (ofInstance cat limit d args accessor) := by
  have hframe : ∀ t, P (Walk.withFrame (.ofPairs (d.params.zip args))
      (knot t accessor (ofDeclaration cat limit d))) := fun t =>
    hP.withFrame (hP.knot t accessor (combined_ofDeclaration hP limit d)) _
  unfold ofInstance
  by_cases harity : (args.isEmpty || decide (args.length = d.arity)) = true
  · simp only [harity, if_true, pure_bind]
    split
    · exact hP.throw rfl
    · split
      · exact hframe _
      · exact hP.bind (hP.instantiate _) hframe
  · simp only [harity, Bool.false_eq_true, if_false]
    exact hP.throw rfl

end Combined

theorem restores_ofType (limit : Nat) (t : Ty) (accessor : Expr) :
    IsRestoring (ofType cat limit t accessor) :=
  combined_ofType IsRestoring.builds limit t accessor

theorem restores_ofDeclaration (limit : Nat) (d : Declaration) (accessor : Expr) :
    IsRestoring (ofDeclaration cat limit d accessor) :=
  combined_ofDeclaration IsRestoring.builds limit d accessor

theorem restores_ofInstance (limit : Nat) (d : Declaration) (args : List Ty) (accessor : Expr) :
    IsRestoring (ofInstance cat limit d args accessor) :=
  combined_ofInstance IsRestoring.builds limit d args accessor

end Guard

namespace Subject

variable {cat : Catalog}

section Combined

variable {P : {α : Type} → Walk α → Prop} (hP : Builds P)

include hP

theorem combined_walk (limit : Nat) (accessor : Expr) (subject : Subject) :
    P (subject.walk cat limit accessor) := by
  cases subject with
  | decl d =>
      simp only [walk]
      split
      · exact Guard.combined_ofInstance hP limit d [] accessor
      · exact Guard.combined_ofInstance hP limit d [] accessor
      · exact Guard.combined_ofDeclaration hP limit d accessor
  | member p => exact Guard.combined_property hP (Guard.combined_ofType hP limit) p accessor
  | type t => exact Guard.combined_ofType hP limit t accessor

theorem combined_walkWith (limit : Nat) (accessor : Expr) (args : List Ty) (subject : Subject) :
    P (subject.walkWith cat limit accessor args) := by
  unfold walkWith
  split
  · exact combined_walk hP limit accessor subject
  · cases subject with
    | decl d => exact Guard.combined_ofInstance hP limit d args accessor
    | member p => exact hP.throw rfl
    | type t => exact hP.throw rfl

end Combined

theorem restores_walk (limit : Nat) (accessor : Expr) (subject : Subject) :
    IsRestoring (subject.walk cat limit accessor) :=
  combined_walk IsRestoring.builds limit accessor subject

theorem isClear_of_kept {numbering : Numbering} {s : Session}
    (h : Session.Kept { numbering := numbering } s) : s.ctx.isClear = true := by
  have hmarked : s.ctx.marked = [] := by
    refine List.eq_nil_iff_forall_not_mem.2 fun u hu => ?_
    rcases h.marked u hu with hu | hon
    · cases hu
    · cases hon
  have hdepth : s.ctx.depth = 0 := h.depth
  have hpath : s.ctx.path = [] := h.path
  simp [Context.isClear, hdepth, hpath, hmarked]

theorem balanced_of_compile (limit : Nat) (accessor : Expr) (args : List Ty) (numbering : Numbering)
    (subject : Subject) {fault : Fault}
    (h : (subject.compile cat limit accessor args numbering).verdict = .error fault) :
    fault.isUnbalanced = false := by
  have hwalk : Restores ((subject.walkWith cat limit accessor args).raising cat.files)
      { numbering := numbering } :=
    (combined_walkWith IsRestoring.builds limit accessor args subject { numbering := numbering }
      Context.tidy_start).raising cat.files
  unfold compile at h
  split at h
  · next guard s hrun =>
      rw [judge, isClear_of_kept (hwalk.ok guard s hrun)] at h
      cases h
  · next r s hrun =>
      rw [judge, isClear_of_kept (hwalk.error _ s hrun).1] at h
      cases h
  · next fault' s _ hrun =>
      cases h
      exact (hwalk.error _ s hrun).2

end Subject

/-- In every context that can be come by, and on every way out of it, a walk leaves frames and path
as it found them and marks no reference but those that were being expanded; none stops at a fault
in the handling of the context, and no verdict is withheld because something was left open. -/
theorem Context.Reachable.restored {ctx : Context} (h : ctx.Reachable) (cat : Catalog) (limit : Nat)
    (accessor : Expr) (args : List Ty) (numbering : Numbering) (notes : List Note) :
    let s : Session := { ctx := ctx, numbering := numbering, notes := notes }
    (∀ subject : Subject, Restores (subject.walk cat limit accessor) s) ∧
    (∀ d, Restores (Guard.ofInstance cat limit d args accessor) s) ∧
    (∀ t, Restores (Shape.ofType cat limit t) s) ∧
    (∀ t, Restores (Shape.ofKeys cat limit t) s) ∧
    ∀ (subject : Subject) fault,
      (subject.compile cat limit accessor args numbering).verdict = .error fault →
        fault.isUnbalanced = false := by
  refine ⟨fun subject => ?_, fun d => ?_, fun t => ?_, fun t => ?_, fun subject fault hfault => ?_⟩
  · exact Subject.restores_walk limit accessor subject _ h.tidy
  · exact Guard.restores_ofInstance limit d args accessor _ h.tidy
  · exact (Shape.restores limit).1 t _ h.tidy
  · exact (Shape.restores limit).2 t _ h.tidy
  · exact Subject.balanced_of_compile limit accessor args numbering subject hfault

/-- Inside a box, with a parameter bound, a type that names the box and then something unknown. -/
theorem Context.Reachable.restored_unknown :
    let box : Ty := .object .interface (.listed "Box") []
    let ctx : Context :=
      { frames := [⟨0, [(⟨"T", 0⟩, box)]⟩], depth := 1, path := [box], onPath :=
        [box], nextStamp := 1 }
    let w := (Subject.type (.union [box, .name "Missing" []])).walk {} 3 (.named "x")
    (∃ r s', w { ctx := ctx } = .error (.rejected r) s' ∧ s'.ctx.marked = [box]) ∧
      Restores w { ctx := ctx } := by
  refine ⟨⟨_, _, rfl, rfl⟩, ?_⟩
  have hpush := Context.Reachable.fresh.push [(⟨"T", 0⟩, .object .interface (.listed "Box") [])]
  have henter := hpush.enter (t := .object .interface (.listed "Box") []) rfl
  exact (Context.Reachable.restored henter {} 3 (.named "x") [] {} []).1 _

end TypeGuard
