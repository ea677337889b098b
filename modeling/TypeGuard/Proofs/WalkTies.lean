import TypeGuard.Proofs.Restoration

/-! What a walk does, where it may stop anywhere but at a parameter that is not fresh. -/

namespace TypeGuard

namespace Context

variable {ctx : Context}

theorem pop_ne_fresh (stamp : Nat) : ctx.pop stamp ≠ .error (.broken .freshParameter) := by
  unfold pop
  intro h
  split at h
  · split at h <;> cases h
  · cases h

theorem enter_ne_fresh (t : Ty) : ctx.enter t ≠ .error (.broken .freshParameter) := by
  unfold enter
  intro h
  split at h <;> cases h

theorem leave_ne_fresh (t : Ty) : ctx.leave t ≠ .error (.broken .freshParameter) := by
  unfold leave
  intro h
  split at h
  · split at h <;> cases h
  · cases h

end Context

theorem Stops.ne_fresh {α : Type} {x : Except Fault α}
    (h : Stops (fun fault => fault.isBounded = true) x) : x ≠ .error (.broken .freshParameter) := by
  intro heq
  cases h _ heq

theorem StopsLocally.ne_fresh {α : Type} {x : Except Fault α} (h : StopsLocally x) :
    x ≠ .error (.broken .freshParameter) :=
  Stops.ne_fresh (h.mono fun _ => Fault.isBounded_of_isLocal)

namespace Walk

variable {α β : Type} {env : Bindings} {path : List Ty} {p : Progress} {Q : α → Progress → Prop}

theorem onContext_ne_fresh {op : Context → Except Fault Context}
    (h : ∀ ctx, op ctx ≠ .error (.broken .freshParameter)) (s s' : Session) :
    onContext op s ≠ .error (.broken .freshParameter) s' := by
  rw [onContext_apply]
  cases hop : op s.ctx with
  | ok ctx =>
      intro heq
      cases heq
  | error fault =>
      intro heq
      cases heq
      exact h _ hop

/-- What is done on the way out does not hide where a fault comes from. -/
theorem closing_eq_fresh {w : Walk α} {close : Context → Except Fault Context} {s s' : Session}
    (hclose : ∀ ctx, close ctx ≠ .error (.broken .freshParameter))
    (h : (do
      let result ← attempt w
      onContext close
      Walk.ofExcept result) s = .error (.broken .freshParameter) s') :
    ∃ s'', w s = .error (.broken .freshParameter) s'' := by
  simp only [bind_apply, attempt_apply] at h
  cases hrun : w s with
  | ok a s₁ =>
      simp only [hrun] at h
      cases hs₂ : onContext close s₁ with
      | ok _ s₂ =>
          rw [hs₂] at h
          cases h
      | error fault s₂ =>
          rw [hs₂] at h
          cases h
          exact absurd hs₂ (onContext_ne_fresh hclose s₁ s')
  | error fault s₁ =>
      simp only [hrun] at h
      cases hs₂ : onContext close s₁ with
      | ok _ s₂ =>
          rw [hs₂] at h
          cases h
          exact ⟨s₁, rfl⟩
      | error fault' s₂ =>
          rw [hs₂] at h
          cases h
          exact absurd hs₂ (onContext_ne_fresh hclose s₁ s')

theorem withFrame_eq_fresh {w : Walk α} {bindings : Bindings} {s s' : Session}
    (h : withFrame bindings w s = .error (.broken .freshParameter) s') :
    ∃ s'', w { s with ctx := (s.ctx.push bindings).2 } = .error (.broken .freshParameter) s'' :=
  closing_eq_fresh (fun ctx => ctx.pop_ne_fresh s.ctx.nextStamp) h

theorem entering_eq_fresh {w : Walk α} {t : Ty} {s s' : Session}
    (h : entering t w s = .error (.broken .freshParameter) s') :
    ∃ s₀ s'', onContext (·.enter t) s = .ok () s₀ ∧
      w s₀ = .error (.broken .freshParameter) s'' := by
  rw [entering, bind_apply] at h
  cases hs₀ : onContext (·.enter t) s with
  | error fault s₀ =>
      rw [hs₀] at h
      cases h
      exact absurd hs₀ (onContext_ne_fresh (fun ctx => ctx.enter_ne_fresh t) s s')
  | ok _ s₀ =>
      rw [hs₀] at h
      obtain ⟨s'', hrun⟩ := closing_eq_fresh (fun ctx => ctx.leave_ne_fresh t) h
      exact ⟨s₀, s'', rfl, hrun⟩

def Misses (w : Walk α) : Prop :=
  ∀ s s', w s ≠ .error (.broken .freshParameter) s'

theorem Misses.combines : Combines Misses where
  pure _ _ _ h := by cases h
  throw h _ _ heq := by
    cases heq
    cases h
  bind {_ _ w f} hw hf s s' h := by
    rw [bind_apply] at h
    cases hrun : w s with
    | ok a s₁ =>
        rw [hrun] at h
        exact hf a s₁ s' h
    | error fault s₁ =>
        rw [hrun] at h
        cases h
        exact hw s s' hrun
  instantiate _ _ _ h := by cases h
  bound x hint s s' h := by
    have hctx : context s = .ok s.ctx s := rfl
    simp only [bound, bind_apply, hctx] at h
    cases hx : s.ctx.resolve x with
    | some t =>
        rw [hx] at h
        cases h
    | none =>
        rw [hx] at h
        cases h
  withFrame hw bindings s s' h := by
    obtain ⟨s'', hrun⟩ := withFrame_eq_fresh h
    exact hw _ s'' hrun
  unlessActive {_ w w'} t hw hw' s s' h := by
    have hactive : isActive t s = .ok (s.ctx.isActive t) s := rfl
    simp only [bind_apply, hactive] at h
    split at h
    · exact hw s s' h
    · obtain ⟨s₀, s'', _, hrun⟩ := entering_eq_fresh h
      exact hw' s₀ s'' hrun

/-- The walk meets the postcondition where it ends, and does not stop at a parameter that is not
fresh. -/
structure Ties (w : Walk α) (env : Bindings) (path : List Ty) (p : Progress)
    (Q : α → Progress → Prop) : Prop where
  meets : Meets True w env path p Q
  fresh : ∀ s s', s.At env path p → w s ≠ .error (.broken .freshParameter) s'

namespace Ties

theorem of_total {w : Walk α} (h : Meets False w env path p Q) : Ties w env path p Q := by
  refine ⟨fun s hs => ?_, fun s s' hs hrun => ?_⟩
  · have hmeets := h s hs
    cases hrun : w s with
    | ok a s' =>
        rw [hrun] at hmeets
        exact hmeets
    | error fault s' => trivial
  · have hmeets := h s hs
    rw [hrun] at hmeets
    exact hmeets

theorem of_misses {w : Walk α} (h : Meets True w env path p Q) (hmisses : Misses w) :
    Ties w env path p Q :=
  ⟨h, fun s s' _ => hmisses s s'⟩

theorem of_tidy {w : Walk α} (h : p.Tidy path → Ties w env path p Q) : Ties w env path p Q :=
  ⟨fun s hs => (h hs.tidy).meets s hs, fun s s' hs => (h hs.tidy).fresh s s' hs⟩

theorem pure {a : α} (h : Q a p) : Ties (Pure.pure a) env path p Q :=
  of_total (.pure h)

theorem throw {fault : Fault} (h : fault ≠ .broken .freshParameter) :
    Ties (MonadExcept.throw fault : Walk α) env path p Q := by
  refine ⟨.throw trivial, fun s s' _ hrun => ?_⟩
  cases hrun
  exact h rfl

theorem throw_shown (t : Ty) {fault : String → Fault} (h : ∀ s, (fault s).isLocal = true) :
    Ties (MonadExcept.throw (.ofText t.render fault) : Walk α) env path p Q := by
  have hlocal := t.render_stops_locally.ofText h
  refine .throw fun heq => ?_
  rw [heq] at hlocal
  cases hlocal

theorem ofExcept {x : Except Fault α} (hok : ∀ a, x = .ok a → Q a p)
    (hne : x ≠ .error (.broken .freshParameter)) : Ties (Walk.ofExcept x) env path p Q := by
  refine ⟨.ofExcept hok fun _ _ => trivial, fun s s' _ hrun => ?_⟩
  cases x with
  | ok a => cases hrun
  | error fault =>
      cases hrun
      exact hne rfl

theorem mono {R : α → Progress → Prop} {w : Walk α} (hw : Ties w env path p Q)
    (h : ∀ a p', Q a p' → R a p') : Ties w env path p R :=
  ⟨hw.meets.mono h, hw.fresh⟩

theorem bind {w : Walk α} {f : α → Walk β} {Q : β → Progress → Prop}
    (hw : Ties w env path p fun a p' => Ties (f a) env path p' Q) :
    Ties (w >>= f) env path p Q := by
  refine ⟨.bind (hw.meets.mono fun a p' h => h.meets), fun s s' hs hrun => ?_⟩
  have hmeets := hw.meets s hs
  rw [bind_apply] at hrun
  cases hfirst : w s with
  | ok a s₁ =>
      rw [hfirst] at hrun hmeets
      obtain ⟨_, p', hs₁, hrest⟩ := hmeets
      exact hrest.fresh s₁ s' hs₁ hrun
  | error fault s₁ =>
      rw [hfirst] at hrun
      cases hrun
      exact hw.fresh s s' hs hfirst

theorem bound {Q : Ty → Progress → Prop} {x : TypeParam} {hint : String}
    (h : ∀ t, env.lookup x = some t → Q t p) : Ties (Walk.bound x hint) env path p Q :=
  of_misses (.bound h fun _ => trivial) (Misses.combines.bound x hint)

theorem withFrame {w : Walk α} {bindings : Bindings} (hw : Ties w (bindings ++ env) path p Q) :
    Ties (Walk.withFrame bindings w) env path p Q := by
  refine ⟨.withFrame hw.meets, fun s s' hs hrun => ?_⟩
  obtain ⟨s'', hrun⟩ := withFrame_eq_fresh hrun
  exact hw.fresh _ s'' (hs.push bindings) hrun

theorem entering {w : Walk α} {t : Ty} (hoff : ¬t.IsOn path)
    (hw : Ties w env (t :: path) p fun a p' => Q a (p'.leave t)) :
    Ties (Walk.entering t w) env path p Q := by
  refine ⟨.entering hoff hw.meets, fun s s' hs hrun => ?_⟩
  obtain ⟨s₀, s'', henter, hrun⟩ := entering_eq_fresh hrun
  have hinactive : s.ctx.isActive t = false := (hs.isActive t).trans (Bool.eq_false_iff.2 hoff)
  rw [enter_apply hinactive] at henter
  cases henter
  exact hw.fresh _ s'' (hs.enter hinactive) hrun

end Ties

end Walk

end TypeGuard
