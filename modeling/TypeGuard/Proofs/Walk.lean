import TypeGuard.Walk

/-! What a walk does, told without frames, stamps and notes. A walk is started with bindings in
force, a path of references being expanded and the progress made so far; it ends with more
progress, and the bindings and the path are those it was started with. -/

namespace TypeGuard

namespace Ty

theorem same_iff {t u : Ty} : t.same u = true ↔ t.key = u.key :=
  decide_eq_true_iff

theorem same_refl (t : Ty) : t.same t = true :=
  same_iff.2 rfl

/-- Whether a type is one of those on a path. -/
abbrev IsOn (t : Ty) (path : List Ty) : Prop :=
  path.any (·.same t) = true

theorem isOn_iff {t : Ty} {path : List Ty} : t.IsOn path ↔ ∃ u ∈ path, u.key = t.key := by
  simp only [IsOn, List.any_eq_true, same_iff]

theorem isOn_congr {t u : Ty} (h : t.key = u.key) (path : List Ty) : t.IsOn path ↔ u.IsOn path := by
  rw [isOn_iff, isOn_iff, h]

theorem isOn_cons {t u : Ty} {path : List Ty} :
    t.IsOn (u :: path) ↔ u.key = t.key ∨ t.IsOn path := by
  simp only [isOn_iff, List.mem_cons, exists_eq_or_imp]

end Ty

namespace Context

variable {ctx : Context}

/-- The depth is that of the frames and the keys at hand are those of the path, on which nothing
stands twice. -/
structure Sound (ctx : Context) : Prop where
  depth : ctx.depth = ctx.frames.length
  onPath : ctx.onPath = ctx.path.map Ty.key
  distinct : (ctx.path.map Ty.key).Nodup

theorem sound_start : ({} : Context).Sound :=
  ⟨rfl, rfl, List.nodup_nil⟩

theorem Sound.isActive (h : ctx.Sound) (t : Ty) : ctx.isActive t = ctx.path.any (·.same t) := by
  rw [Bool.eq_iff_iff, Context.isActive, decide_eq_true_iff, h.onPath, List.mem_map]
  exact Ty.isOn_iff.symm

theorem Sound.push (h : ctx.Sound) (bindings : Bindings) : (ctx.push bindings).2.Sound :=
  ⟨congrArg Nat.succ h.depth, h.onPath, h.distinct⟩

/-- The context without the frames that are not listed. -/
def back (frames : List Frame) (ctx : Context) : Context :=
  { ctx with frames := frames, depth := frames.length }

theorem Sound.back (h : ctx.Sound) (frames : List Frame) : (ctx.back frames).Sound :=
  ⟨rfl, h.onPath, h.distinct⟩

/-- The context inside of a reference. -/
def inside (t : Ty) (ctx : Context) : Context :=
  { ctx with path := t :: ctx.path, onPath := t.key :: ctx.onPath }

theorem Sound.inside {t : Ty} (h : ctx.Sound) (hoff : ctx.isActive t = false) :
    (ctx.inside t).Sound := by
  have hkey : t.key ∉ ctx.path.map Ty.key := by
    rw [← h.onPath]
    exact of_decide_eq_false hoff
  exact ⟨h.depth, congrArg (t.key :: ·) h.onPath, List.nodup_cons.2 ⟨hkey, h.distinct⟩⟩

/-- The context after a reference, on the path that was there before. -/
def outside (t : Ty) (path : List Ty) (ctx : Context) : Context :=
  { ctx with
    path := path
    onPath := ctx.onPath.filter (· ≠ t.key)
    marked := ctx.marked.filter fun u => !u.same t }

theorem Sound.outside {t u : Ty} {path : List Ty} (h : ctx.Sound) (hpath : ctx.path = u :: path)
    (hsame : u.key = t.key) : (ctx.outside t path).Sound := by
  have honPath := h.onPath
  have hdistinct := h.distinct
  rw [hpath, List.map_cons, hsame] at honPath hdistinct
  obtain ⟨hkey, hrest⟩ := List.nodup_cons.1 hdistinct
  refine ⟨h.depth, ?_, hrest⟩
  show ctx.onPath.filter _ = path.map Ty.key
  rw [honPath, List.filter_cons_of_neg (by simp), List.filter_eq_self]
  intro key hmem
  exact decide_eq_true fun heq => hkey (heq ▸ hmem)

end Context

/-- The numbers given out so far, and the references met again while being expanded. -/
structure Progress where
  numbering : Numbering
  marked : List Ty

namespace Progress

def isMarked (p : Progress) (t : Ty) : Bool :=
  p.marked.any (·.same t)

def mark (t : Ty) (p : Progress) : Progress :=
  { p with marked := t :: p.marked }

/-- The marks of a reference go when it is left. -/
def leave (t : Ty) (p : Progress) : Progress :=
  { p with marked := p.marked.filter fun u => !u.same t }

/-- The number of a type in the table, which grows by it. -/
def number (t : Ty) (p : Progress) : Nat × Progress :=
  ((p.numbering.number t).1, { p with numbering := (p.numbering.number t).2 })

/-- Only what is being expanded is marked. -/
def Tidy (path : List Ty) (p : Progress) : Prop :=
  ∀ u ∈ p.marked, u.IsOn path

theorem Tidy.leave {t : Ty} {path : List Ty} {p : Progress} (h : p.Tidy (t :: path)) :
    (p.leave t).Tidy path := by
  intro u hu
  obtain ⟨hmem, hne⟩ := List.mem_filter.1 hu
  rcases Ty.isOn_cons.1 (h u hmem) with hkey | hon
  · rw [Ty.same_iff.2 hkey.symm] at hne
    cases hne
  · exact hon

theorem Tidy.enter {path : List Ty} {p : Progress} (h : p.Tidy path) (t : Ty) :
    p.Tidy (t :: path) :=
  fun u hu => Ty.isOn_cons.2 (.inr (h u hu))

theorem Tidy.leave_eq {t : Ty} {path : List Ty} {p : Progress} (h : p.Tidy path)
    (hoff : ¬t.IsOn path) : p.leave t = p := by
  have hfilter : p.marked.filter (fun u => !u.same t) = p.marked := by
    rw [List.filter_eq_self]
    intro u hu
    cases hsame : u.same t with
    | false => rfl
    | true => exact absurd ((Ty.isOn_congr (Ty.same_iff.1 hsame) path).1 (h u hu)) hoff
  simp only [Progress.leave, hfilter]

end Progress

namespace Session

def progress (s : Session) : Progress :=
  ⟨s.numbering, s.ctx.marked⟩

/-- A session with these bindings in force, on that path, with that progress. -/
structure At (s : Session) (env : Bindings) (path : List Ty) (p : Progress) : Prop where
  tidy : p.Tidy path
  bindings : s.ctx.bindings = env
  path : s.ctx.path = path
  progress : s.progress = p
  sound : s.ctx.Sound

theorem At.isActive {s : Session} {env : Bindings} {path : List Ty} {p : Progress}
    (h : s.At env path p) (t : Ty) : s.ctx.isActive t = path.any (·.same t) := by
  rw [h.sound.isActive, h.path]

theorem At.push {s : Session} {env : Bindings} {path : List Ty} {p : Progress}
    (h : s.At env path p) (bindings : Bindings) :
    ({ s with ctx := (s.ctx.push bindings).2 } : Session).At (bindings ++ env) path p := by
  refine ⟨h.tidy, ?_, h.path, h.progress, h.sound.push bindings⟩
  rw [← h.bindings]
  rfl

theorem At.enter {s : Session} {env : Bindings} {path : List Ty} {p : Progress}
    (h : s.At env path p) {t : Ty} (hoff : s.ctx.isActive t = false) :
    ({ s with ctx := s.ctx.inside t } : Session).At env (t :: path) p :=
  ⟨h.tidy.enter t, h.bindings, congrArg (t :: ·) h.path, h.progress, h.sound.inside hoff⟩

end Session

theorem Fault.eq_of_raised {files : Files} {fault fault' : Fault}
    (h : fault.raised files = fault') (hrejected : ∀ r, fault' ≠ .rejected r)
    (hoverlong : fault' ≠ .overlong) : fault = fault' := by
  cases fault with
  | rejected r =>
      simp only [raised] at h
      split at h
      · exact absurd h.symm (hrejected r)
      · exact absurd h.symm hoverlong
  | _ => exact h

namespace Walk

variable {α β : Type} {fails : Prop} {env : Bindings} {path : List Ty} {p : Progress}
  {Q : α → Progress → Prop}

/-- Where the walk ends, the postcondition holds and the frames are as they were; where it stops at
a fault, failing must be allowed for. -/
def Meets (fails : Prop) (w : Walk α) (env : Bindings) (path : List Ty) (p : Progress)
    (Q : α → Progress → Prop) : Prop :=
  ∀ s : Session, s.At env path p → match w s with
    | .ok a s' => s'.ctx.frames = s.ctx.frames ∧ ∃ p', s'.At env path p' ∧ Q a p'
    | .error _ _ => fails

theorem bind_apply (w : Walk α) (f : α → Walk β) (s : Session) :
    (w >>= f) s = match w s with
      | .ok a s' => f a s'
      | .error fault s' => .error fault s' := by
  simp only [bind, EStateM.bind]
  cases w s <;> rfl

theorem onContext_apply (op : Context → Except Fault Context) (s : Session) :
    onContext op s = match op s.ctx with
      | .ok ctx => .ok () { s with ctx := ctx }
      | .error fault => .error fault s := by
  show (ofExcept (op s.ctx) >>= setContext) s = _
  rw [bind_apply]
  cases op s.ctx <;> rfl

namespace Meets

theorem pure {a : α} (h : Q a p) : Meets fails (Pure.pure a) env path p Q :=
  fun _ hs => ⟨rfl, p, hs, h⟩

theorem throw {fault : Fault} (h : fails) :
    Meets fails (MonadExcept.throw fault : Walk α) env path p Q :=
  fun _ _ => h

theorem mono {R : α → Progress → Prop} {w : Walk α} (hw : Meets fails w env path p Q)
    (h : ∀ a p', Q a p' → R a p') : Meets fails w env path p R := by
  intro s hs
  have hrun := hw s hs
  cases hws : w s with
  | ok a s' =>
      rw [hws] at hrun
      obtain ⟨hframes, p', hat, hQ⟩ := hrun
      exact ⟨hframes, p', hat, h a p' hQ⟩
  | error fault s' =>
      rw [hws] at hrun
      exact hrun

theorem bind {w : Walk α} {f : α → Walk β} {Q : β → Progress → Prop}
    (hw : Meets fails w env path p fun a p' => Meets fails (f a) env path p' Q) :
    Meets fails (w >>= f) env path p Q := by
  intro s hs
  have hrun := hw s hs
  rw [bind_apply]
  cases hws : w s with
  | ok a s' =>
      rw [hws] at hrun
      obtain ⟨hframes, p', hat, hf⟩ := hrun
      have hrest := hf s' hat
      simp only
      cases hfs : f a s' with
      | ok b s'' =>
          rw [hfs] at hrest
          exact ⟨hrest.1.trans hframes, hrest.2⟩
      | error fault s'' =>
          rw [hfs] at hrest
          exact hrest
  | error fault s' =>
      rw [hws] at hrun
      exact hrun

theorem ofExcept {x : Except Fault α} (hok : ∀ a, x = .ok a → Q a p)
    (hfault : ∀ fault, x = .error fault → fails) :
    Meets fails (Walk.ofExcept x) env path p Q := by
  intro s hs
  cases x with
  | ok a => exact ⟨rfl, p, hs, hok a rfl⟩
  | error fault => exact hfault fault rfl

theorem instantiate {Q : Ty → Progress → Prop} {t : Ty} (h : Q (t.substitute env) p) :
    Meets fails (Walk.instantiate t) env path p Q := by
  intro s hs
  refine ⟨rfl, p, hs, ?_⟩
  rw [Context.instantiate, hs.bindings]
  exact h

theorem isActive {Q : Bool → Progress → Prop} {t : Ty} (h : Q (path.any (·.same t)) p) :
    Meets fails (Walk.isActive t) env path p Q := by
  intro s hs
  refine ⟨rfl, p, hs, ?_⟩
  rw [hs.isActive]
  exact h

theorem isMarked {Q : Bool → Progress → Prop} {t : Ty} (h : Q (p.isMarked t) p) :
    Meets fails (Walk.isMarked t) env path p Q := by
  intro s hs
  have hprogress := hs.progress
  subst hprogress
  exact ⟨rfl, _, hs, h⟩

theorem note {Q : Unit → Progress → Prop} {n : Note} (h : Q () p) :
    Meets fails (Walk.note n) env path p Q :=
  fun _ hs => ⟨rfl, p, ⟨hs.tidy, hs.bindings, hs.path, hs.progress, hs.sound⟩, h⟩

theorem numberOf {Q : Nat → Progress → Prop} {t : Ty}
    (h : Q (p.number t).1 (p.number t).2) :
    Meets fails (Walk.numberOf t) env path p Q := by
  intro s hs
  have hprogress := hs.progress
  subst hprogress
  exact ⟨rfl, (s.progress.number t).2, ⟨hs.tidy, hs.bindings, hs.path, rfl, hs.sound⟩, h⟩

theorem bound {Q : Ty → Progress → Prop} {x : TypeParam} {hint : String}
    (hsome : ∀ t, env.lookup x = some t → Q t p) (hnone : env.lookup x = none → fails) :
    Meets fails (Walk.bound x hint) env path p Q := by
  intro s hs
  have hcontext : Walk.context s = .ok s.ctx s := rfl
  have hresolve : s.ctx.resolve x = env.lookup x := by rw [Context.resolve, hs.bindings]
  cases hx : env.lookup x with
  | some t =>
      have hrun : Walk.bound x hint s = .ok t s := by
        simp only [Walk.bound, bind_apply, hcontext, hresolve, hx]
        rfl
      rw [hrun]
      exact ⟨rfl, p, hs, hsome t hx⟩
  | none =>
      have hrun : Walk.bound x hint s =
          .error (.rejected ⟨.unboundParameter, x.name, none, hint⟩) s := by
        simp only [Walk.bound, bind_apply, hcontext, hresolve, hx]
        rfl
      rw [hrun]
      exact hnone hx

theorem mark {Q : Unit → Progress → Prop} {t : Ty} (hon : t.IsOn path) (h : Q () (p.mark t)) :
    Meets fails (Walk.onContext (·.mark t)) env path p Q := by
  intro s hs
  have hactive : s.ctx.isActive t = true := (hs.isActive t).trans hon
  have hrun : Walk.onContext (·.mark t) s =
      .ok () { s with ctx := { s.ctx with marked := t :: s.ctx.marked } } := by
    simp only [onContext_apply, Context.mark, if_pos hactive]
    rfl
  rw [hrun]
  have hsound : ({ s.ctx with marked := t :: s.ctx.marked } : Context).Sound :=
    ⟨hs.sound.depth, hs.sound.onPath, hs.sound.distinct⟩
  refine ⟨rfl, p.mark t, ⟨?_, hs.bindings, hs.path, ?_, hsound⟩, h⟩
  · intro u hu
    rcases List.mem_cons.1 hu with rfl | hu
    · exact hon
    · exact hs.tidy u hu
  · rw [← hs.progress]
    rfl

end Meets

theorem attempt_apply (w : Walk α) (s : Session) :
    attempt w s = match w s with
      | .ok a s' => .ok (.ok a) s'
      | .error fault s' => .ok (.error fault) s' := rfl

theorem push_apply (bindings : Bindings) (s : Session) :
    push bindings s = .ok s.ctx.nextStamp { s with ctx := (s.ctx.push bindings).2 } := rfl

theorem pop_apply {bindings : Bindings} {s s' : Session}
    (hdepth : s'.ctx.depth = s'.ctx.frames.length)
    (hframes : s'.ctx.frames = (s.ctx.push bindings).2.frames) :
    onContext (·.pop s.ctx.nextStamp) s' = .ok () { s' with ctx := s'.ctx.back s.ctx.frames } := by
  have hpop : s'.ctx.pop s.ctx.nextStamp = .ok (s'.ctx.back s.ctx.frames) := by
    simp [Context.pop, hdepth, hframes, Context.push, Context.back, Pure.pure, Except.pure]
  rw [onContext_apply, hpop]

theorem enter_apply {t : Ty} {s : Session} (hoff : s.ctx.isActive t = false) :
    onContext (·.enter t) s = .ok () { s with ctx := s.ctx.inside t } := by
  simp only [onContext_apply, Context.enter, hoff]
  rfl

theorem leave_apply {t : Ty} {s s' : Session} (hpath : s'.ctx.path = t :: s.ctx.path) :
    onContext (·.leave t) s' = .ok () { s' with ctx := s'.ctx.outside t s.ctx.path } := by
  simp only [onContext_apply, Context.leave, hpath, if_pos (Ty.same_refl t)]
  rfl

theorem withFrame_apply_ok {w : Walk α} {bindings : Bindings} {s s' : Session} {a : α}
    (hrun : w { s with ctx := (s.ctx.push bindings).2 } = .ok a s')
    (hdepth : s'.ctx.depth = s'.ctx.frames.length)
    (hframes : s'.ctx.frames = (s.ctx.push bindings).2.frames) :
    withFrame bindings w s = .ok a { s' with ctx := s'.ctx.back s.ctx.frames } := by
  simp only [withFrame, bind_apply, push_apply, attempt_apply, hrun, pop_apply hdepth hframes]
  rfl

theorem withFrame_apply_error {w : Walk α} {bindings : Bindings} {s s' : Session} {fault : Fault}
    (hrun : w { s with ctx := (s.ctx.push bindings).2 } = .error fault s') :
    ∃ fault' s'', withFrame bindings w s = .error fault' s'' := by
  simp only [withFrame, bind_apply, push_apply, attempt_apply, hrun]
  cases onContext (·.pop s.ctx.nextStamp) s' with
  | ok u s'' => exact ⟨fault, s'', rfl⟩
  | error fault' s'' => exact ⟨fault', s'', rfl⟩

theorem entering_apply_ok {w : Walk α} {t : Ty} {s s' : Session} {a : α}
    (hoff : s.ctx.isActive t = false)
    (hrun : w { s with ctx := s.ctx.inside t } = .ok a s')
    (hpath : s'.ctx.path = t :: s.ctx.path) :
    entering t w s = .ok a { s' with ctx := s'.ctx.outside t s.ctx.path } := by
  simp only [entering, bind_apply, enter_apply hoff, attempt_apply, hrun, leave_apply hpath]
  rfl

theorem entering_apply_error {w : Walk α} {t : Ty} {s s' : Session} {fault : Fault}
    (hoff : s.ctx.isActive t = false)
    (hrun : w { s with ctx := s.ctx.inside t } = .error fault s') :
    ∃ fault' s'', entering t w s = .error fault' s'' := by
  simp only [entering, bind_apply, enter_apply hoff, attempt_apply, hrun]
  cases onContext (·.leave t) s' with
  | ok u s'' => exact ⟨fault, s'', rfl⟩
  | error fault' s'' => exact ⟨fault', s'', rfl⟩

namespace Meets

/-- Inside a frame, its bindings come before those around it. -/
theorem withFrame {w : Walk α} {bindings : Bindings}
    (hw : Meets fails w (bindings ++ env) path p Q) :
    Meets fails (Walk.withFrame bindings w) env path p Q := by
  intro s hs
  have hrun := hw _ (hs.push bindings)
  cases hws : w { s with ctx := (s.ctx.push bindings).2 } with
  | ok a s' =>
      rw [hws] at hrun
      obtain ⟨hframes, p', hat', hQ⟩ := hrun
      rw [withFrame_apply_ok hws hat'.sound.depth hframes]
      exact ⟨rfl, p', ⟨hat'.tidy, hs.bindings, hat'.path, hat'.progress, hat'.sound.back _⟩, hQ⟩
  | error fault s' =>
      rw [hws] at hrun
      obtain ⟨fault', s'', heq⟩ := withFrame_apply_error hws
      rw [heq]
      exact hrun

theorem entering {w : Walk α} {t : Ty} (hoff : ¬t.IsOn path)
    (hw : Meets fails w env (t :: path) p fun a p' => Q a (p'.leave t)) :
    Meets fails (Walk.entering t w) env path p Q := by
  intro s hs
  have hinactive : s.ctx.isActive t = false :=
    (hs.isActive t).trans (Bool.eq_false_iff.2 hoff)
  have hrun := hw _ (hs.enter hinactive)
  cases hws : w { s with ctx := s.ctx.inside t } with
  | ok a s' =>
      rw [hws] at hrun
      obtain ⟨hframes, p', hat', hQ⟩ := hrun
      have hpath : s'.ctx.path = t :: s.ctx.path := by rw [hat'.path, hs.path]
      rw [entering_apply_ok hinactive hws hpath]
      refine ⟨hframes, p'.leave t,
        ⟨hat'.tidy.leave, hat'.bindings, hs.path, ?_, hat'.sound.outside hpath rfl⟩, hQ⟩
      rw [← hat'.progress]
      rfl
  | error fault s' =>
      rw [hws] at hrun
      obtain ⟨fault', s'', heq⟩ := entering_apply_error hinactive hws
      rw [heq]
      exact hrun

end Meets

theorem raising_eq_ok {α : Type} {files : Files} {walk : Walk α} {s s' : Session} {a : α} :
    walk.raising files s = .ok a s' ↔ walk s = .ok a s' := by
  unfold raising
  split <;> simp_all

theorem raising_eq_error {α : Type} {files : Files} {walk : Walk α} {s s' : Session}
    {fault : Fault} :
    walk.raising files s = .error fault s' ↔
      ∃ fault₀, walk s = .error fault₀ s' ∧ fault₀.raised files = fault := by
  unfold raising
  split
  · next hwalk => simp [hwalk]
  · next fault₀ s₀ hwalk =>
      simp only [hwalk, EStateM.Result.error.injEq]
      constructor
      · rintro ⟨rfl, rfl⟩
        exact ⟨fault₀, ⟨rfl, rfl⟩, rfl⟩
      · rintro ⟨_, ⟨rfl, rfl⟩, rfl⟩
        exact ⟨rfl, rfl⟩

end Walk

end TypeGuard
