import TypeGuard.Expr.Build
import TypeGuard.Expr.Renumber
import TypeGuard.Expr.Replace
import TypeGuard.Proofs.Renaming
import TypeGuard.Proofs.Walk

/-! Two walks side by side. They start from contexts that are the same up to a renaming of
parameters, and from any two tables of numbers; where they differ after that is in the numbers they
are given. -/

namespace TypeGuard

/-! Two tables. -/

/-- The tables of two walks. -/
structure Tables where
  left : Numbering
  right : Numbering

namespace Tables

variable {ρ : Renaming} {N N' N'' : Tables} {n m k : Nat}

def Extends (N N' : Tables) : Prop :=
  N.left.Extends N'.left ∧ N.right.Extends N'.right

theorem Extends.refl (N : Tables) : N.Extends N :=
  ⟨.refl _, .refl _⟩

theorem Extends.trans (h : N.Extends N') (h' : N'.Extends N'') : N.Extends N'' :=
  ⟨h.1.trans h'.1, h.2.trans h'.2⟩

/-- The numbers are those of the same type, up to the renaming. -/
def Agree (ρ : Renaming) (N : Tables) (n m : Nat) : Prop :=
  ∃ t, N.left.number? t = some n ∧ N.right.number? (t.rename ρ) = some m

theorem Agree.later (h : N.Agree ρ n m) (hext : N.Extends N') : N'.Agree ρ n m := by
  obtain ⟨t, hn, hm⟩ := h
  exact ⟨t, Numbering.number?_extends hext.1 hn, Numbering.number?_extends hext.2 hm⟩

theorem Agree.right_unique (h : N.Agree ρ n m) (h' : N.Agree ρ n k) : m = k := by
  obtain ⟨t, hn, hm⟩ := h
  obtain ⟨u, hn', hk⟩ := h'
  have hkey : (t.rename ρ).key = (u.rename ρ).key :=
    Ty.key_rename_eq_iff.2 (Numbering.number?_faithful hn hn')
  rw [Numbering.number?_congr hkey, hk] at hm
  exact (Option.some.inj hm).symm

theorem Agree.left_unique (h : N.Agree ρ n m) (h' : N.Agree ρ k m) : n = k := by
  obtain ⟨t, hn, hm⟩ := h
  obtain ⟨u, hk, hm'⟩ := h'
  have hkey : t.key = u.key := Ty.key_rename_eq_iff.1 (Numbering.number?_faithful hm hm')
  rw [Numbering.number?_congr hkey, hk] at hn
  exact (Option.some.inj hn).symm

end Tables

/-! Two expressions. -/

/-- The names are the same up to the numbers in them. -/
inductive Ident.Twin (R : Nat → Nat → Prop) : Ident → Ident → Prop
  | named (s : String) : Twin R (.named s) (.named s)
  | slot {n m : Nat} (h : R n m) : Twin R (.slot n) (.slot m)
  | guard (s : String) {n m : Nat} (h : R n m) : Twin R (.guard s n) (.guard s m)

/-- The expressions are the same up to the numbers in them. -/
inductive Expr.Twin (R : Nat → Nat → Prop) : Expr → Expr → Prop
  | ident {i i' : Ident} (h : i.Twin R i') : Twin R (.ident i) (.ident i')
  | prop {a a' : Expr} (h : Twin R a a') (s : String) : Twin R (.prop a s) (.prop a' s)
  | elem {a a' b b' : Expr} (ha : Twin R a a') (hb : Twin R b b') : Twin R (.elem a b) (.elem a' b')
  | const (v : Scalar) : Twin R (.const v) (.const v)
  | typeOf {a a' : Expr} (h : Twin R a a') : Twin R (.typeOf a) (.typeOf a')
  | eq {a a' b b' : Expr} (ha : Twin R a a') (hb : Twin R b b') : Twin R (.eq a b) (.eq a' b')
  | ne {a a' b b' : Expr} (ha : Twin R a a') (hb : Twin R b b') : Twin R (.ne a b) (.ne a' b')
  | and {a a' b b' : Expr} (ha : Twin R a a') (hb : Twin R b b') : Twin R (.and a b) (.and a' b')
  | or {a a' b b' : Expr} (ha : Twin R a a') (hb : Twin R b b') : Twin R (.or a b) (.or a' b')
  | recur {l l' : Ident} {a a' : Expr} (hl : l.Twin R l') (ha : Twin R a a') :
      Twin R (.recur l a) (.recur l' a')
  | fix {l l' x x' : Ident} {b b' a a' : Expr} (hl : l.Twin R l') (hx : x.Twin R x')
      (hb : Twin R b b') (ha : Twin R a a') : Twin R (.fix l x b a) (.fix l' x' b' a')

namespace Expr.Twin

variable {R S : Nat → Nat → Prop} {e e' a a' : Expr}

theorem mono (h : e.Twin R e') (hRS : ∀ n m, R n m → S n m) : e.Twin S e' := by
  have hident : ∀ {i i' : Ident}, i.Twin R i' → i.Twin S i' := by
    intro i i' hi
    cases hi with
    | named s => exact .named s
    | slot hn => exact .slot (hRS _ _ hn)
    | guard s hn => exact .guard s (hRS _ _ hn)
  induction h with
  | ident hi => exact .ident (hident hi)
  | prop _ s ih => exact .prop ih s
  | elem _ _ iha ihb => exact .elem iha ihb
  | const v => exact .const v
  | typeOf _ ih => exact .typeOf ih
  | eq _ _ iha ihb => exact .eq iha ihb
  | ne _ _ iha ihb => exact .ne iha ihb
  | and _ _ iha ihb => exact .and iha ihb
  | or _ _ iha ihb => exact .or iha ihb
  | recur hl _ ih => exact .recur (hident hl) ih
  | fix hl hx _ _ ihb iha => exact .fix (hident hl) (hident hx) ihb iha

theorem of_numbers (h : e.numbers = []) : e.Twin R e := by
  have hident : ∀ {i : Ident}, i.numbers = [] → i.Twin R i := by
    intro i hi
    cases i with
    | named s => exact .named s
    | slot n | guard s n => cases hi
  induction e with
  | ident i => exact .ident (hident h)
  | prop a s ih => exact .prop (ih h) s
  | const v => exact .const v
  | typeOf a ih => exact .typeOf (ih h)
  | elem a b iha ihb =>
      obtain ⟨ha, hb⟩ := List.append_eq_nil_iff.1 h
      exact .elem (iha ha) (ihb hb)
  | eq a b iha ihb =>
      obtain ⟨ha, hb⟩ := List.append_eq_nil_iff.1 h
      exact .eq (iha ha) (ihb hb)
  | ne a b iha ihb =>
      obtain ⟨ha, hb⟩ := List.append_eq_nil_iff.1 h
      exact .ne (iha ha) (ihb hb)
  | and a b iha ihb =>
      obtain ⟨ha, hb⟩ := List.append_eq_nil_iff.1 h
      exact .and (iha ha) (ihb hb)
  | or a b iha ihb =>
      obtain ⟨ha, hb⟩ := List.append_eq_nil_iff.1 h
      exact .or (iha ha) (ihb hb)
  | recur l a ih =>
      obtain ⟨hl, ha⟩ := List.append_eq_nil_iff.1 h
      exact .recur (hident hl) (ih ha)
  | fix l x b a ihb iha =>
      obtain ⟨hrest, ha⟩ := List.append_eq_nil_iff.1 h
      obtain ⟨hrest, hb⟩ := List.append_eq_nil_iff.1 hrest
      obtain ⟨hl, hx⟩ := List.append_eq_nil_iff.1 hrest
      exact .fix (hident hl) (hident hx) (ihb hb) (iha ha)

theorem allOf {es es' : List Expr} (h : List.Forall₂ (Expr.Twin R) es es') :
    (Expr.allOf es).Twin R (Expr.allOf es') := by
  cases h with
  | nil => exact .const _
  | @cons e e' rest rest' he hrest =>
      have hfold : ∀ first first', Expr.Twin R first first' →
          (rest.foldl Expr.and first).Twin R (rest'.foldl Expr.and first') := by
        induction hrest with
        | nil => exact fun _ _ h => h
        | cons hnext _ ih => exact fun _ _ h => ih _ _ (.and h hnext)
      exact hfold e e' he

theorem anyOf {es es' : List Expr} (h : List.Forall₂ (Expr.Twin R) es es') :
    (Expr.anyOf es).Twin R (Expr.anyOf es') := by
  cases h with
  | nil => exact .const _
  | @cons e e' rest rest' he hrest =>
      have hfold : ∀ first first', Expr.Twin R first first' →
          (rest.foldl Expr.or first).Twin R (rest'.foldl Expr.or first') := by
        induction hrest with
        | nil => exact fun _ _ h => h
        | cons hnext _ ih => exact fun _ _ h => ih _ _ (.or h hnext)
      exact hfold e e' he

theorem hasTypeOf (h : a.Twin R a') (s : String) :
    (Expr.hasTypeOf a s).Twin R (Expr.hasTypeOf a' s) :=
  .eq (.typeOf h) (.const _)

theorem equalTo (h : a.Twin R a') (v : Scalar) : (Expr.equalTo a v).Twin R (Expr.equalTo a' v) :=
  .eq h (.const v)

theorem objectTests (h : a.Twin R a') :
    List.Forall₂ (Expr.Twin R) (Expr.objectTests a) (Expr.objectTests a') :=
  .cons (h.hasTypeOf _) (.cons (.ne h (.const _)) .nil)

end Expr.Twin

/-- Two results that are related, or the same fault twice. -/
inductive TwinResults {α β : Type} (Q : α → β → Prop) : Except Fault α → Except Fault β → Prop
  | ok {a : α} {b : β} (h : Q a b) : TwinResults Q (.ok a) (.ok b)
  | error (fault : Fault) : TwinResults Q (.error fault) (.error fault)

theorem TwinResults.bind {α α' β β' : Type} {P : α → α' → Prop} {Q : β → β' → Prop}
    {x : Except Fault α} {x' : Except Fault α'} {f : α → Except Fault β} {f' : α' → Except Fault β'}
    (hx : TwinResults P x x') (hf : ∀ a a', P a a' → TwinResults Q (f a) (f' a')) :
    TwinResults Q (x >>= f) (x' >>= f') := by
  cases hx with
  | ok h => exact hf _ _ h
  | error fault => exact .error fault

theorem Expr.Twin.replace {R : Nat → Nat → Prop} {e e' r r' : Expr} {n m : Nat} (h : e.Twin R e')
    (hr : r.Twin R r') (hnm : R n m) (hleft : ∀ k, R k m → k = n) (hright : ∀ k, R n k → k = m) :
    TwinResults (Expr.Twin R) (e.replace (.slot n) r) (e'.replace (.slot m) r') := by
  have hident : ∀ {i i' : Ident}, i.Twin R i' → (i = .slot n ↔ i' = .slot m) := by
    intro i i' hi
    cases hi with
    | named s | guard s _ => simp
    | slot hk =>
        simp only [Ident.slot.injEq]
        constructor
        · rintro rfl
          exact hright _ hk
        · rintro rfl
          exact hleft _ hk
  induction h with
  | @ident i i' hi =>
      simp only [Expr.replace, hident hi]
      split
      · exact .ok hr
      · exact .ok (.ident hi)
  | prop _ s ih => exact ih.bind fun _ _ ha => .ok (.prop ha s)
  | const v => exact .ok (.const v)
  | typeOf _ ih => exact ih.bind fun _ _ ha => .ok (.typeOf ha)
  | elem _ _ iha ihb => exact iha.bind fun _ _ ha => ihb.bind fun _ _ hb => .ok (.elem ha hb)
  | eq _ _ iha ihb => exact iha.bind fun _ _ ha => ihb.bind fun _ _ hb => .ok (.eq ha hb)
  | ne _ _ iha ihb => exact iha.bind fun _ _ ha => ihb.bind fun _ _ hb => .ok (.ne ha hb)
  | and _ _ iha ihb => exact iha.bind fun _ _ ha => ihb.bind fun _ _ hb => .ok (.and ha hb)
  | or _ _ iha ihb => exact iha.bind fun _ _ ha => ihb.bind fun _ _ hb => .ok (.or ha hb)
  | recur hl _ ih => exact ih.bind fun _ _ ha => .ok (.recur hl ha)
  | fix hl hx _ _ ihb iha =>
      simp only [Expr.replace, hident hx]
      split
      · exact .error _
      · exact ihb.bind fun _ _ hb => iha.bind fun _ _ ha => .ok (.fix hl hx hb ha)

/-! Two contexts. -/

namespace Context

def rename (ρ : Renaming) (ctx : Context) : Context where
  frames := ctx.frames.map fun frame => ⟨frame.stamp, frame.bindings.rename ρ⟩
  depth := ctx.depth
  path := ctx.path.map (Ty.rename ρ)
  onPath := ctx.onPath.map (Ty.rename ρ)
  marked := ctx.marked.map (Ty.rename ρ)
  nextStamp := ctx.nextStamp

variable {ρ : Renaming}

theorem bindings_rename (ctx : Context) : (ctx.rename ρ).bindings = ctx.bindings.rename ρ := by
  simp only [bindings, rename, List.flatMap_map, Bindings.rename, List.map_flatMap]

theorem instantiate_rename (ctx : Context) (t : Ty) :
    (ctx.rename ρ).instantiate (t.rename ρ) = (ctx.instantiate t).rename ρ := by
  rw [instantiate, instantiate, bindings_rename, Ty.rename_substitute]

theorem resolve_rename (ctx : Context) (x : TypeParam) :
    (ctx.rename ρ).resolve (ρ.map x) = (ctx.resolve x).map (Ty.rename ρ) := by
  rw [resolve, resolve, bindings_rename, Bindings.lookup_rename]

theorem any_same_rename (ts : List Ty) (t : Ty) :
    (ts.map (Ty.rename ρ)).any (·.same (t.rename ρ)) = ts.any (·.same t) := by
  rw [List.any_map]
  simp only [Function.comp_def, Ty.same_rename]

theorem isActive_rename (ctx : Context) (t : Ty) :
    (ctx.rename ρ).isActive (t.rename ρ) = ctx.isActive t := by
  rw [isActive, isActive, decide_eq_decide, Ty.key_rename]
  exact List.mem_map_of_injective fun _ _ => Ty.rename_inj

theorem isMarked_rename (ctx : Context) (t : Ty) :
    (ctx.rename ρ).isMarked (t.rename ρ) = ctx.isMarked t :=
  any_same_rename ctx.marked t

theorem pop_rename (stamp : Nat) (ctx : Context) :
    (ctx.rename ρ).pop stamp = (ctx.pop stamp).map (rename ρ) := by
  obtain ⟨frames, depth, path, onPath, marked, nextStamp⟩ := ctx
  cases frames with
  | nil => rfl
  | cons frame rest =>
      simp only [rename, pop, List.map_cons]
      split <;> rfl

theorem enter_rename (t : Ty) (ctx : Context) :
    (ctx.rename ρ).enter (t.rename ρ) = (ctx.enter t).map (rename ρ) := by
  rw [enter, enter, isActive_rename, Ty.key_rename]
  split <;> rfl

theorem leave_rename (t : Ty) (ctx : Context) :
    (ctx.rename ρ).leave (t.rename ρ) = (ctx.leave t).map (rename ρ) := by
  obtain ⟨frames, depth, path, onPath, marked, nextStamp⟩ := ctx
  cases path with
  | nil => rfl
  | cons innermost rest =>
      simp only [rename, leave, List.map_cons, Ty.same_rename]
      split
      · simp only [pure, Except.pure, Except.map, rename, List.filter_map, Function.comp_def,
          Ty.same_rename, Ty.key_rename, ne_eq, Ty.rename_eq_iff]
      · rfl

theorem mark_rename (t : Ty) (ctx : Context) :
    (ctx.rename ρ).mark (t.rename ρ) = (ctx.mark t).map (rename ρ) := by
  rw [mark, mark, isActive_rename]
  split <;> rfl

theorem isClear_rename (ctx : Context) : (ctx.rename ρ).isClear = ctx.isClear := by
  rw [isClear, isClear, rename, List.isEmpty_map, List.isEmpty_map]

end Context

/-! Two sessions. -/

/-- The sessions tell the same, up to the renaming, whatever their numbers. -/
structure Session.Twin (ρ : Renaming) (s s' : Session) : Prop where
  ctx : s'.ctx = s.ctx.rename ρ
  notes : s'.notes = s.notes

/-- The tables of two sessions. -/
def Session.tables (s s' : Session) : Tables :=
  ⟨s.numbering, s'.numbering⟩

namespace Walk

variable {α α' β β' : Type} {ρ : Renaming} {N N' : Tables}

/-- Both walks end, with what is asked for, or both stop at the same fault. -/
inductive TwinEnds (ρ : Renaming) (N : Tables) (Q : Tables → α → α' → Prop) :
    EStateM.Result Fault Session α → EStateM.Result Fault Session α' → Prop
  | ok {a : α} {a' : α'} {s s' : Session} (htwin : s.Twin ρ s') (hext : N.Extends (s.tables s'))
      (hQ : Q (s.tables s') a a') : TwinEnds ρ N Q (.ok a s) (.ok a' s')
  | error {fault : Fault} {s s' : Session} (htwin : s.Twin ρ s') (hext : N.Extends (s.tables s')) :
      TwinEnds ρ N Q (.error fault s) (.error fault s')

theorem TwinEnds.raising {Q : Tables → α → α' → Prop} {w : Walk α} {w' : Walk α'} {s s' : Session}
    (h : TwinEnds ρ N Q (w s) (w' s')) (files : Files) :
    TwinEnds ρ N Q (w.raising files s) (w'.raising files s') := by
  simp only [Walk.raising]
  revert h
  generalize w s = r
  generalize w' s' = r'
  intro h
  cases h with
  | ok htwin hext hQ => exact .ok htwin hext hQ
  | error htwin hext => exact .error htwin hext

/-- The walks do the same, from twin sessions whose tables extend the given ones. -/
def Twin (ρ : Renaming) (N : Tables) (w : Walk α) (w' : Walk α') (Q : Tables → α → α' → Prop) :
    Prop :=
  ∀ s s' : Session, s.Twin ρ s' → N.Extends (s.tables s') →
    TwinEnds ρ (s.tables s') Q (w s) (w' s')

theorem TwinEnds.after {Q : Tables → α → α' → Prop} {r : EStateM.Result Fault Session α}
    {r' : EStateM.Result Fault Session α'} (h : TwinEnds ρ N' Q r r') (hext : N.Extends N') :
    TwinEnds ρ N Q r r' := by
  cases h with
  | ok htwin hmore hQ => exact .ok htwin (hext.trans hmore) hQ
  | error htwin hmore => exact .error htwin (hext.trans hmore)

namespace Twin

variable {Q : Tables → α → α' → Prop} {w : Walk α} {w' : Walk α'}

theorem later (h : Twin ρ N w w' Q) (hext : N.Extends N') : Twin ρ N' w w' Q :=
  fun s s' htwin hlater => h s s' htwin (hext.trans hlater)

theorem pure {a : α} {a' : α'} (h : ∀ N', N.Extends N' → Q N' a a') :
    Twin ρ N (Pure.pure a) (Pure.pure a') Q :=
  fun _ _ htwin hext => .ok htwin (.refl _) (h _ hext)

theorem throw {fault fault' : Fault} (h : fault' = fault) :
    Twin ρ N (MonadExcept.throw fault : Walk α) (MonadExcept.throw fault' : Walk α') Q := by
  subst h
  exact fun _ _ htwin _ => .error htwin (.refl _)

theorem bind {f : α → Walk β} {f' : α' → Walk β'} {P : Tables → β → β' → Prop}
    (hw : Twin ρ N w w' Q)
    (hf : ∀ N' a a', N.Extends N' → Q N' a a' → Twin ρ N' (f a) (f' a') P) :
    Twin ρ N (w >>= f) (w' >>= f') P := by
  intro s s' htwin hext
  have hends := hw s s' htwin hext
  rw [bind_apply, bind_apply]
  revert hends
  generalize w s = r
  generalize w' s' = r'
  intro hends
  cases hends with
  | ok htwin' hmore hQ =>
      exact (hf _ _ _ (hext.trans hmore) hQ _ _ htwin' (.refl _)).after hmore
  | error htwin' hmore => exact .error htwin' hmore

theorem mono {P : Tables → α → α' → Prop} (hw : Twin ρ N w w' Q)
    (h : ∀ N' a a', N.Extends N' → Q N' a a' → P N' a a') : Twin ρ N w w' P := by
  intro s s' htwin hext
  have hends := hw s s' htwin hext
  revert hends
  generalize w s = r
  generalize w' s' = r'
  intro hends
  cases hends with
  | ok htwin' hmore hQ => exact .ok htwin' hmore (h _ _ _ (hext.trans hmore) hQ)
  | error htwin' hmore => exact .error htwin' hmore

theorem results {x : Except Fault α} {x' : Except Fault α'} {P : α → α' → Prop}
    (h : TwinResults P x x') : Twin ρ N (ofExcept x) (ofExcept x') fun _ => P := by
  intro s s' htwin _
  cases h with
  | ok hP => exact .ok htwin (.refl _) hP
  | error fault => exact .error htwin (.refl _)

theorem ofExcept {x : Except Fault α} {x' : Except Fault α'} {r : α → α'} (h : x' = x.map r) :
    Twin ρ N (Walk.ofExcept x) (Walk.ofExcept x') fun _ a a' => a' = r a := by
  subst h
  refine results ?_
  cases x with
  | ok a => exact .ok rfl
  | error fault => exact .error fault

theorem ofExcept_self (x : Except Fault α) :
    Twin ρ N (Walk.ofExcept x) (Walk.ofExcept x) fun _ a a' => a' = a := by
  refine results ?_
  cases x with
  | ok a => exact .ok rfl
  | error fault => exact .error fault

theorem mapM {γ γ' : Type} {f : γ → Walk α} {f' : γ' → Walk α'} {g : γ → γ'} (xs : List γ)
    (hQ : ∀ {N N' a a'}, N.Extends N' → Q N a a' → Q N' a a')
    (hf : ∀ x ∈ xs, Twin ρ N (f x) (f' (g x)) Q) :
    Twin ρ N (xs.mapM f) ((xs.map g).mapM f') fun N => List.Forall₂ (Q N) := by
  induction xs generalizing N with
  | nil => exact pure fun _ _ => .nil
  | cons x rest ih =>
      rw [List.forall_mem_cons] at hf
      rw [List.map_cons, List.mapM_cons, List.mapM_cons]
      refine bind hf.1 fun N₁ a a' hext ha => ?_
      refine bind (ih fun x hx => (hf.2 x hx).later hext) fun N₂ as as' hext₂ has => ?_
      exact pure fun N₃ hext₃ => .cons (hQ (hext₂.trans hext₃) ha)
        (has.imp fun _ _ => hQ hext₃)

theorem onContext {op op' : Context → Except Fault Context}
    (h : ∀ ctx, op' (ctx.rename ρ) = (op ctx).map (Context.rename ρ)) :
    Twin ρ N (Walk.onContext op) (Walk.onContext op') fun _ _ _ => True := by
  intro s s' htwin _
  rw [onContext_apply, onContext_apply, htwin.ctx, h]
  cases op s.ctx with
  | ok ctx => exact .ok ⟨rfl, htwin.notes⟩ (.refl _) trivial
  | error fault => exact .error htwin (.refl _)

theorem instantiate (t : Ty) : Twin ρ N (Walk.instantiate t) (Walk.instantiate (t.rename ρ))
    fun _ u u' => u' = u.rename ρ := by
  intro s s' htwin _
  refine .ok htwin (.refl _) ?_
  rw [htwin.ctx, Context.instantiate_rename]

theorem isActive (t : Ty) : Twin ρ N (Walk.isActive t) (Walk.isActive (t.rename ρ))
    fun _ b b' => b' = b := by
  intro s s' htwin _
  refine .ok htwin (.refl _) ?_
  rw [htwin.ctx, Context.isActive_rename]

theorem isMarked (t : Ty) : Twin ρ N (Walk.isMarked t) (Walk.isMarked (t.rename ρ))
    fun _ b b' => b' = b := by
  intro s s' htwin _
  refine .ok htwin (.refl _) ?_
  rw [htwin.ctx, Context.isMarked_rename]

theorem note (n : Note) : Twin ρ N (Walk.note n) (Walk.note n) fun _ _ _ => True :=
  fun _ _ htwin _ => .ok ⟨htwin.ctx, by simp only [htwin.notes]⟩ (.refl _) trivial

theorem numberOf (t : Ty) : Twin ρ N (Walk.numberOf t) (Walk.numberOf (t.rename ρ))
    fun N n m => N.Agree ρ n m := by
  intro s s' htwin _
  obtain ⟨hext, hn⟩ := Numbering.number_spec t s.numbering
  obtain ⟨hext', hm⟩ := Numbering.number_spec (t.rename ρ) s'.numbering
  exact .ok ⟨htwin.ctx, htwin.notes⟩ ⟨hext, hext'⟩ ⟨t, hn, hm⟩

theorem bound (x : TypeParam) (hint : String) :
    Twin ρ N (Walk.bound x hint) (Walk.bound (ρ.map x) hint) fun _ t t' => t' = t.rename ρ := by
  intro s s' htwin _
  have hctx : Walk.context s = .ok s.ctx s := rfl
  have hctx' : Walk.context s' = .ok s'.ctx s' := rfl
  simp only [Walk.bound, bind_apply, hctx, hctx', htwin.ctx, Context.resolve_rename, ρ.name]
  cases s.ctx.resolve x with
  | some t => exact .ok htwin (.refl _) rfl
  | none => exact .error htwin (.refl _)

theorem withFrame (γ : Bindings) (hw : Twin ρ N w w' Q) :
    Twin ρ N (Walk.withFrame γ w) (Walk.withFrame (γ.rename ρ) w') Q := by
  intro s s' htwin hext
  have hpush : ({ s with ctx := (s.ctx.push γ).2 } : Session).Twin ρ
      { s' with ctx := (s'.ctx.push (γ.rename ρ)).2 } := ⟨by rw [htwin.ctx]; rfl, htwin.notes⟩
  have hstamp : s'.ctx.nextStamp = s.ctx.nextStamp := by rw [htwin.ctx]; rfl
  have hends := hw _ _ hpush hext
  simp only [Walk.withFrame, bind_apply, push_apply, attempt_apply, hstamp]
  revert hends
  generalize w _ = r
  generalize w' _ = r'
  intro hends
  cases hends with
  | @ok a a' t t' htwin' hmore hQ =>
      simp only [onContext_apply, htwin'.ctx, Context.pop_rename]
      cases t.ctx.pop s.ctx.nextStamp with
      | ok ctx => exact .ok ⟨rfl, htwin'.notes⟩ hmore hQ
      | error fault => exact .error htwin' hmore
  | @error fault t t' htwin' hmore =>
      simp only [onContext_apply, htwin'.ctx, Context.pop_rename]
      cases t.ctx.pop s.ctx.nextStamp with
      | ok ctx => exact .error ⟨rfl, htwin'.notes⟩ hmore
      | error fault => exact .error htwin' hmore

theorem entering (u : Ty) (hw : Twin ρ N w w' Q) :
    Twin ρ N (Walk.entering u w) (Walk.entering (u.rename ρ) w') Q := by
  intro s s' htwin hext
  simp only [Walk.entering, bind_apply, onContext_apply, attempt_apply, htwin.ctx,
    Context.enter_rename]
  cases s.ctx.enter u with
  | error fault => exact .error htwin (.refl _)
  | ok ctx =>
      have hends := hw { s with ctx := ctx } { s' with ctx := ctx.rename ρ } ⟨rfl, htwin.notes⟩ hext
      simp only [Except.map]
      revert hends
      generalize w _ = r
      generalize w' _ = r'
      intro hends
      cases hends with
      | @ok a a' t t' htwin' hmore hQ =>
          simp only [htwin'.ctx, Context.leave_rename]
          cases t.ctx.leave u with
          | ok ctx => exact .ok ⟨rfl, htwin'.notes⟩ hmore hQ
          | error fault => exact .error htwin' hmore
      | @error fault t t' htwin' hmore =>
          simp only [htwin'.ctx, Context.leave_rename]
          cases t.ctx.leave u with
          | ok ctx => exact .error ⟨rfl, htwin'.notes⟩ hmore
          | error fault => exact .error htwin' hmore

theorem expose (cat : Catalog) (limit : Nat) (t : Ty) :
    Twin ρ N (Walk.expose cat limit t) (Walk.expose (cat.rename ρ) limit (t.rename ρ))
      fun _ u u' => u' = u.rename ρ := by
  induction limit generalizing N t with
  | zero => exact throw rfl
  | succ limit ih =>
      cases t with
      | name s args =>
          refine bind (ofExcept (Catalog.resolve_rename (.name s args))) fun N' u u' hext hu => ?_
          rw [hu]
          exact ih u
      | param x =>
          refine bind (bound x "") fun N' u u' hext hu => ?_
          rw [hu]
          exact ih u
      | _ => exact instantiate _

end Twin

end Walk

end TypeGuard
