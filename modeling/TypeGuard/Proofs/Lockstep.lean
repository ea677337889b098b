import TypeGuard.Proofs.Restoration
import TypeGuard.Proofs.Twins

/-! Walks in lockstep. What relates two walks is left open: it is enough that it goes through the
operations that walks are made of. Two such relations are given here, one between walks from the
same session and one between a walk and another that comes later, when more types have numbers. -/

namespace TypeGuard.Walk

/-- A relation between walks, given one between their results, that goes through what walks are
made of. -/
structure Lockstep (Rel : {α β : Type} → Walk α → Walk β → (α → β → Prop) → Prop) : Prop where
  pure {α β : Type} {Q : α → β → Prop} {a : α} {b : β} (h : Q a b) :
    Rel (Pure.pure a) (Pure.pure b) Q
  throw {α β : Type} {Q : α → β → Prop} (fault : Fault) :
    Rel (MonadExcept.throw fault : Walk α) (MonadExcept.throw fault : Walk β) Q
  bind {α β γ δ : Type} {P : α → β → Prop} {Q : γ → δ → Prop} {w : Walk α} {w' : Walk β}
    {f : α → Walk γ} {f' : β → Walk δ} (hw : Rel w w' P) (hf : ∀ a b, P a b → Rel (f a) (f' b) Q) :
    Rel (w >>= f) (w' >>= f') Q
  attempt {α β : Type} {Q : α → β → Prop} {w : Walk α} {w' : Walk β} (hw : Rel w w' Q) :
    Rel (Walk.attempt w) (Walk.attempt w') (TwinResults Q)
  context : Rel Walk.context Walk.context Eq
  setContext (ctx : Context) : Rel (Walk.setContext ctx) (Walk.setContext ctx) Eq
  push (bindings : Bindings) : Rel (Walk.push bindings) (Walk.push bindings) Eq
  note (n : Note) : Rel (Walk.note n) (Walk.note n) Eq
  numberOf (t : Ty) : Rel (Walk.numberOf t) (Walk.numberOf t) Eq

namespace Lockstep

variable {Rel : {α β : Type} → Walk α → Walk β → (α → β → Prop) → Prop} (hRel : Lockstep Rel)
  {α β γ : Type} {P Q : α → β → Prop} {w : Walk α} {w' : Walk β}

include hRel

theorem mono (hw : Rel w w' P) (himp : ∀ a b, P a b → Q a b) : Rel w w' Q := by
  rw [← bind_pure w, ← bind_pure w']
  exact hRel.bind hw fun a b hab => hRel.pure (himp a b hab)

theorem bind_self {w₀ : Walk γ} {f : γ → Walk α} {f' : γ → Walk β} (hw : Rel w₀ w₀ Eq)
    (hf : ∀ c, Rel (f c) (f' c) Q) : Rel (w₀ >>= f) (w₀ >>= f') Q := by
  apply hRel.bind hw
  intro c d hcd
  rw [← hcd]
  exact hf c

theorem results {r : Except Fault α} {r' : Except Fault β} (h : TwinResults Q r r') :
    Rel (Walk.ofExcept r) (Walk.ofExcept r') Q := by
  cases h with
  | ok hab => exact hRel.pure hab
  | error fault => exact hRel.throw fault

theorem ofExcept (r : Except Fault α) : Rel (Walk.ofExcept r) (Walk.ofExcept r) Eq := by
  cases r with
  | ok a => exact hRel.pure rfl
  | error fault => exact hRel.throw fault

theorem instantiate (t : Ty) : Rel (Walk.instantiate t) (Walk.instantiate t) Eq :=
  hRel.bind_self hRel.context fun _ => hRel.pure rfl

theorem isActive (t : Ty) : Rel (Walk.isActive t) (Walk.isActive t) Eq :=
  hRel.bind_self hRel.context fun _ => hRel.pure rfl

theorem isMarked (t : Ty) : Rel (Walk.isMarked t) (Walk.isMarked t) Eq :=
  hRel.bind_self hRel.context fun _ => hRel.pure rfl

theorem bound (x : TypeParam) (hint : String) : Rel (Walk.bound x hint) (Walk.bound x hint) Eq := by
  apply hRel.bind_self hRel.context
  intro ctx
  cases ctx.resolve x with
  | some t => exact hRel.pure rfl
  | none => exact hRel.throw _

theorem onContext (op : Context → Except Fault Context) :
    Rel (Walk.onContext op) (Walk.onContext op) Eq := by
  apply hRel.bind_self hRel.context
  intro ctx
  exact hRel.bind_self (hRel.ofExcept _) hRel.setContext

theorem around {op : γ → Context → Except Fault Context} {first : Walk γ}
    (hfirst : Rel first first Eq) (hw : Rel w w' Q) :
    Rel (do let c ← first; let result ← Walk.attempt w; Walk.onContext (op c); Walk.ofExcept result)
      (do let c ← first; let result ← Walk.attempt w'; Walk.onContext (op c); Walk.ofExcept result)
      Q := by
  apply hRel.bind_self hfirst
  intro c
  apply hRel.bind (hRel.attempt hw)
  intro r r' hresult
  exact hRel.bind_self (hRel.onContext _) fun _ => hRel.results hresult

theorem withFrame (bindings : Bindings) (hw : Rel w w' Q) :
    Rel (Walk.withFrame bindings w) (Walk.withFrame bindings w') Q :=
  hRel.around (hRel.push bindings) hw

theorem entering (t : Ty) (hw : Rel w w' Q) : Rel (Walk.entering t w) (Walk.entering t w') Q :=
  hRel.around (hRel.onContext _) hw

theorem mapM {f : γ → Walk α} {f' : γ → Walk β} (zs : List γ)
    (hf : ∀ z ∈ zs, Rel (f z) (f' z) Q) : Rel (zs.mapM f) (zs.mapM f') (List.Forall₂ Q) := by
  induction zs with
  | nil => exact hRel.pure .nil
  | cons z rest ih =>
      rw [List.forall_mem_cons] at hf
      rw [List.mapM_cons, List.mapM_cons]
      apply hRel.bind hf.1
      intro a b hab
      apply hRel.bind (ih hf.2)
      intro as bs hrest
      exact hRel.pure (.cons hab hrest)

/-- What goes through the operations holds between the walk over the strings of a type and
itself. -/
theorem combines : Combines fun w => Rel w w Eq where
  pure _ := hRel.pure rfl
  throw _ := hRel.throw _
  bind hw hf := hRel.bind_self hw hf
  instantiate := hRel.instantiate
  bound := hRel.bound
  withFrame hw bindings := hRel.withFrame bindings hw
  unlessActive t hw hw' := by
    apply hRel.bind_self (hRel.isActive t)
    intro active
    cases active with
    | true => exact hw
    | false => exact hRel.entering t hw'

theorem knot (t : Ty) (accessor : Expr) {build build' : Expr → Walk Expr}
    (hbuild : ∀ slot, Rel (build slot) (build' slot) Eq) :
    Rel (Guard.knot t accessor build) (Guard.knot t accessor build') Eq := by
  apply hRel.bind_self (hRel.numberOf t)
  intro n
  apply hRel.bind_self (hRel.isActive t)
  intro active
  cases active with
  | true => exact hRel.bind_self (hRel.onContext _) fun _ => hRel.pure rfl
  | false =>
      have hinside : Rel
          (Walk.entering t do
            let body ← build (.ident (.slot n))
            let recursive ← Walk.isMarked t
            Pure.pure (body, recursive))
          (Walk.entering t do
            let body ← build' (.ident (.slot n))
            let recursive ← Walk.isMarked t
            Pure.pure (body, recursive)) Eq := by
        apply hRel.entering
        apply hRel.bind (hbuild _)
        intro body body' hbody
        rw [hbody]
        exact hRel.bind_self (hRel.isMarked t) fun _ => hRel.pure rfl
      apply hRel.bind hinside
      intro r r' hr
      obtain ⟨body, recursive⟩ := r
      obtain rfl := hr
      cases recursive with
      | true => exact hRel.pure rfl
      | false => exact hRel.ofExcept _

theorem builds : Builds fun w => Rel w w Eq where
  toCombines := hRel.combines
  note := hRel.note
  ifActive t hw hw' := by
    apply hRel.bind_self (hRel.isActive t)
    intro active
    cases active with
    | true => exact hw
    | false => exact hw'
  knot t accessor _ hbuild := hRel.knot t accessor hbuild

theorem flip : Lockstep fun w w' Q => Rel w' w fun b a => Q a b where
  pure h := hRel.pure h
  throw := hRel.throw
  bind hw hf := hRel.bind hw fun b a hab => hf a b hab
  attempt hw := by
    apply hRel.mono (hRel.attempt hw)
    intro r r' hresult
    cases hresult with
    | ok hab => exact .ok hab
    | error fault => exact .error fault
  context := hRel.mono hRel.context fun _ _ => Eq.symm
  setContext ctx := hRel.mono (hRel.setContext ctx) fun _ _ => Eq.symm
  push bindings := hRel.mono (hRel.push bindings) fun _ _ => Eq.symm
  note n := hRel.mono (hRel.note n) fun _ _ => Eq.symm
  numberOf t := hRel.mono (hRel.numberOf t) fun _ _ => Eq.symm

end Lockstep

variable {α β : Type} {Q : α → β → Prop} {H : Numbering}

/-- Both walks end in the same context, with results that are related or with the same fault. -/
inductive EndsAlike (Q : α → β → Prop) :
    EStateM.Result Fault Session α → EStateM.Result Fault Session β → Prop
  | ok {a : α} {b : β} {s s' : Session} (h : Q a b) (hctx : s'.ctx = s.ctx) :
      EndsAlike Q (.ok a s) (.ok b s')
  | error (fault : Fault) {s s' : Session} (hctx : s'.ctx = s.ctx) :
      EndsAlike Q (.error fault s) (.error fault s')

theorem EndsAlike.flip {r : EStateM.Result Fault Session α} {r' : EStateM.Result Fault Session β}
    (h : EndsAlike Q r r') : EndsAlike (fun b a => Q a b) r' r := by
  cases h with
  | ok hab hctx => exact .ok hab hctx.symm
  | error fault hctx => exact .error fault hctx.symm

theorem EndsAlike.raising {w : Walk α} {w' : Walk β} {s s' : Session}
    (h : EndsAlike Q (w s) (w' s')) (files : Files) :
    EndsAlike Q (w.raising files s) (w'.raising files s') := by
  simp only [Walk.raising]
  revert h
  generalize w s = r
  generalize w' s' = r'
  intro h
  cases h with
  | ok hab hctx => exact .ok hab hctx
  | error fault hctx => exact .error _ hctx

/-- Both walks end in the same session, with results that are related or with the same fault. -/
inductive SameEnds (Q : α → β → Prop) :
    EStateM.Result Fault Session α → EStateM.Result Fault Session β → Prop
  | ok {a : α} {b : β} (h : Q a b) (s : Session) : SameEnds Q (.ok a s) (.ok b s)
  | error (fault : Fault) (s : Session) : SameEnds Q (.error fault s) (.error fault s)

theorem SameEnds.ends {r : EStateM.Result Fault Session α} {r' : EStateM.Result Fault Session β}
    (h : SameEnds Q r r') : EndsAlike Q r r' := by
  cases h with
  | ok hab s => exact .ok hab rfl
  | error fault s => exact .error fault rfl

/-- Started in the same session, the walks end in the same. -/
def Same (w : Walk α) (w' : Walk β) (Q : α → β → Prop) : Prop :=
  ∀ s, SameEnds Q (w s) (w' s)

theorem lockstep_same : Lockstep Same where
  pure h s := .ok h s
  throw fault s := .error fault s
  bind {_ _ _ _ _ _ w w' f f'} hw hf s := by
    have hends := hw s
    rw [bind_apply, bind_apply]
    revert hends
    generalize w s = r
    generalize w' s = r'
    intro hends
    cases hends with
    | ok hab s' => exact hf _ _ hab s'
    | error fault s' => exact .error fault s'
  attempt {_ _ _ w w'} hw s := by
    have hends := hw s
    rw [attempt_apply, attempt_apply]
    revert hends
    generalize w s = r
    generalize w' s = r'
    intro hends
    cases hends with
    | ok hab s' => exact .ok (.ok hab) s'
    | error fault s' => exact .ok (.error fault) s'
  context s := .ok rfl s
  setContext _ _ := .ok rfl _
  push _ _ := .ok rfl _
  note _ _ := .ok rfl _
  numberOf _ _ := .ok rfl _

/-- The session in which a walk ended. -/
def last : EStateM.Result Fault Session α → Session
  | .ok _ s => s
  | .error _ s => s

/-- Both walks end in the same session but for the numbers, which the second finds in its table. -/
inductive RepeatEnds (H : Numbering) (Q : α → β → Prop) :
    EStateM.Result Fault Session α → EStateM.Result Fault Session β → Prop
  | ok {a : α} {b : β} (h : Q a b) (s : Session) :
      RepeatEnds H Q (.ok a s) (.ok b { s with numbering := H })
  | error (fault : Fault) (s : Session) :
      RepeatEnds H Q (.error fault s) (.error fault { s with numbering := H })

theorem RepeatEnds.ends {r : EStateM.Result Fault Session α} {r' : EStateM.Result Fault Session β}
    (h : RepeatEnds H Q r r') : EndsAlike Q r r' := by
  cases h with
  | ok hab s => exact .ok hab rfl
  | error fault s => exact .error fault rfl

/-- The second walk does what the first did, from any table that has all the numbers of the
first. -/
structure Repeats (w : Walk α) (w' : Walk β) (Q : α → β → Prop) : Prop where
  extends_last : ∀ s : Session, s.numbering.Extends (last (w s)).numbering
  ends : ∀ (s : Session) (H : Numbering), (last (w s)).numbering.Extends H →
    RepeatEnds H Q (w s) (w' { s with numbering := H })

theorem Repeats.of_unnumbered {w : Walk α} {w' : Walk β} {f : Session → Session}
    {a : Session → α} {b : Session → β} (hw : ∀ s, w s = .ok (a s) (f s))
    (hw' : ∀ s H, w' { s with numbering := H } = .ok (b s) { f s with numbering := H })
    (hf : ∀ s, (f s).numbering = s.numbering) (hQ : ∀ s, Q (a s) (b s)) : Repeats w w' Q where
  extends_last s := by
    rw [hw s, last, hf s]
    exact .refl _
  ends s H _ := by
    rw [hw s, hw' s H]
    exact .ok (hQ s) (f s)

theorem Repeats.bind {γ δ : Type} {P : α → β → Prop} {Q : γ → δ → Prop} {w : Walk α} {w' : Walk β}
    {f : α → Walk γ} {f' : β → Walk δ} (hw : Repeats w w' P)
    (hf : ∀ a b, P a b → Repeats (f a) (f' b) Q) : Repeats (w >>= f) (w' >>= f') Q := by
  -- What the second walk starts from has the numbers of both parts of the first.
  have hstep : ∀ s, s.numbering.Extends (last ((w >>= f) s)).numbering ∧
      ∀ H, (last ((w >>= f) s)).numbering.Extends H →
        RepeatEnds H Q ((w >>= f) s) ((w' >>= f') { s with numbering := H }) := by
    intro s
    have hgrows := hw.extends_last s
    have hends := hw.ends s
    simp only [bind_apply]
    revert hgrows hends
    generalize w s = r
    intro hgrows hends
    cases r with
    | error fault s₁ =>
        refine ⟨hgrows, fun H hH => ?_⟩
        have hrepeat := hends H hH
        revert hrepeat
        generalize w' _ = r'
        intro hrepeat
        cases hrepeat with
        | error => exact .error fault s₁
    | ok a s₁ =>
        have hmore : s₁.numbering.Extends (last (f a s₁)).numbering := by
          have hrepeat := hends s₁.numbering (.refl _)
          revert hrepeat
          generalize w' _ = r'
          intro hrepeat
          cases hrepeat with
          | ok hab => exact (hf _ _ hab).extends_last s₁
        refine ⟨hgrows.trans hmore, fun H hH => ?_⟩
        have hrepeat := hends H (hmore.trans hH)
        revert hrepeat
        generalize w' _ = r'
        intro hrepeat
        cases hrepeat with
        | ok hab => exact (hf _ _ hab).ends s₁ H hH
  exact ⟨fun s => (hstep s).1, fun s => (hstep s).2⟩

theorem Repeats.attempt {w : Walk α} {w' : Walk β} (hw : Repeats w w' Q) :
    Repeats (Walk.attempt w) (Walk.attempt w') (TwinResults Q) where
  extends_last s := by
    have hgrows := hw.extends_last s
    rw [attempt_apply]
    revert hgrows
    generalize w s = r
    intro hgrows
    cases r with
    | ok a s₁ => exact hgrows
    | error fault s₁ => exact hgrows
  ends s H hH := by
    have hends := hw.ends s H
    rw [attempt_apply] at hH
    rw [attempt_apply, attempt_apply]
    revert hH hends
    generalize w s = r
    generalize w' _ = r'
    intro hH hends
    cases r with
    | ok a s₁ =>
        cases hends hH with
        | ok hab => exact .ok (.ok hab) s₁
    | error fault s₁ =>
        cases hends hH with
        | error => exact .ok (.error fault) s₁

theorem Repeats.numberOf (t : Ty) : Repeats (Walk.numberOf t) (Walk.numberOf t) Eq where
  extends_last s := (Numbering.number_spec t s.numbering).1
  ends s H hH := by
    have hn := Numbering.number?_extends hH (Numbering.number_spec t s.numbering).2
    have hlater : Walk.numberOf t { s with numbering := H } =
        .ok (s.numbering.number t).1 { s with numbering := H } := by
      change EStateM.Result.ok (H.number t).1 { s with numbering := (H.number t).2 } = _
      rw [Numbering.number_of_number? hn]
    rw [hlater]
    exact .ok rfl { s with numbering := (s.numbering.number t).2 }

theorem lockstep_repeats : Lockstep Repeats where
  pure h := .of_unnumbered (fun _ => rfl) (fun _ _ => rfl) (fun _ => rfl) fun _ => h
  throw fault := ⟨fun _ => .refl _, fun s _ _ => .error fault s⟩
  bind := .bind
  attempt := .attempt
  context := .of_unnumbered (fun _ => rfl) (fun _ _ => rfl) (fun _ => rfl) fun _ => rfl
  setContext _ := .of_unnumbered (fun _ => rfl) (fun _ _ => rfl) (fun _ => rfl) fun _ => rfl
  push _ := .of_unnumbered (fun _ => rfl) (fun _ _ => rfl) (fun _ => rfl) fun _ => rfl
  note _ := .of_unnumbered (fun _ => rfl) (fun _ _ => rfl) (fun _ => rfl) fun _ => rfl
  numberOf := .numberOf

end TypeGuard.Walk
