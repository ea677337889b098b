import TypeGuard.Proofs.Checks

/-! What a check comes to is what is found about its type. Nothing is said about whether it comes to
anything: an expression that names a property may have no end or come to no value. -/

namespace TypeGuard

open TypeGuard.Expr (holds_eq_ok)

variable {d : Nat} {σ : Scope} {a : Expr} {r : Reading} {b : Bool}

/-! Single conditions. -/

theorem Expr.holds_hasTypeOf {name : String} (h : (hasTypeOf a name).holds d σ = .ok b) :
    ∃ v, a.eval d σ = .ok v ∧ b = decide (v.typeOf = name) := by
  obtain ⟨w, hw, rfl⟩ := holds_eq_ok.1 h
  cases ha : a.eval d σ with
  | error error =>
      rw [hasTypeOf, eval_eq, eval_typeOf, ha] at hw
      cases hw
  | ok v =>
      rw [Answers.eval_hasTypeOf name ha] at hw
      cases hw
      exact ⟨v, rfl, rfl⟩

theorem Expr.holds_equalTo {value : Scalar} (h : (equalTo a value).holds d σ = .ok b) :
    ∃ v, a.eval d σ = .ok v ∧ b = v.strictEqual (.scalar value) := by
  obtain ⟨w, hw, rfl⟩ := holds_eq_ok.1 h
  cases ha : a.eval d σ with
  | error error =>
      rw [equalTo, eval_eq, ha] at hw
      cases hw
  | ok v =>
      rw [Answers.eval_equalTo value ha] at hw
      cases hw
      exact ⟨v, rfl, rfl⟩

theorem Expr.holds_nonNull {v : Value} (ha : a.eval d σ = .ok v)
    (h : (nonNull a).holds d σ = .ok b) : b = !v.strictEqual .null := by
  obtain ⟨w, hw, rfl⟩ := holds_eq_ok.1 h
  rw [Answers.eval_nonNull ha] at hw
  cases hw
  rfl

theorem Guard.holds_whole {es : List Expr} (h : (whole a es).holds d σ = .ok b) :
    ∃ v, a.eval d σ = .ok v ∧
      ((b = true ∧ v.isObject = true ∧ ∀ e ∈ es, e.holds d σ = .ok true) ∨
        (b = false ∧ (v.isObject = false ∨ ∃ e ∈ es, e.holds d σ = .ok false))) := by
  have hchain : ((Expr.nonNull a :: es).foldl .and (Expr.hasTypeOf a "object")).holds d σ = .ok b :=
    h
  rcases Expr.holds_foldl_and hchain
    with ⟨hb, hfirst, hall⟩ | ⟨hb, hfirst | ⟨hfirst, e, he, hfalse⟩⟩
  · obtain ⟨v, ha, htype⟩ := Expr.holds_hasTypeOf hfirst
    rw [List.forall_mem_cons] at hall
    have hnull := Expr.holds_nonNull ha hall.1
    exact ⟨v, ha, .inl ⟨hb, by rw [Value.isObject, ← htype, ← hnull]; rfl, hall.2⟩⟩
  · obtain ⟨v, ha, htype⟩ := Expr.holds_hasTypeOf hfirst
    exact ⟨v, ha, .inr ⟨hb, .inl (by rw [Value.isObject, ← htype]; rfl)⟩⟩
  · obtain ⟨v, ha, htype⟩ := Expr.holds_hasTypeOf hfirst
    rcases List.mem_cons.1 he with rfl | he
    · have hnull := Expr.holds_nonNull ha hfalse
      exact ⟨v, ha, .inr ⟨hb, .inl (by rw [Value.isObject, ← htype, ← hnull]; rfl)⟩⟩
    · exact ⟨v, ha, .inr ⟨hb, .inr ⟨e, he, hfalse⟩⟩⟩

theorem Test.decides_of_holds {test : Test} (h : (test.expr a).holds d σ = .ok b)
    (hr : ∀ v, a.eval d σ = .ok v → r = .ok v) : test.Decides r b := by
  cases test with
  | always =>
      obtain ⟨w, hw, rfl⟩ := holds_eq_ok.1 h
      rw [expr, Expr.always, Expr.eval_const] at hw
      cases hw
      rfl
  | never =>
      obtain ⟨w, hw, rfl⟩ := holds_eq_ok.1 h
      rw [expr, Expr.never, Expr.eval_const] at hw
      cases hw
      rfl
  | object =>
      have hwhole : (Guard.whole a []).holds d σ = .ok b := h
      obtain ⟨v, ha, ⟨rfl, hv, _⟩ | ⟨rfl, hv | ⟨e, he, _⟩⟩⟩ := Guard.holds_whole hwhole
      · exact ⟨v, hr v ha, hv.symm⟩
      · exact ⟨v, hr v ha, hv.symm⟩
      · cases he
  | typeOf name =>
      obtain ⟨v, ha, hb⟩ := Expr.holds_hasTypeOf h
      exact ⟨v, hr v ha, hb⟩
  | equals value =>
      obtain ⟨v, ha, hb⟩ := Expr.holds_equalTo h
      exact ⟨v, hr v ha, hb⟩

/-- A call that comes to something was made to a recursive condition in scope. -/
theorem Expr.eval_recur_eq_ok {label : Ident} {w : Value} (h : (recur label a).eval d σ = .ok w) :
    ∃ d' k x body c v, d = d' + 1 ∧ σ.lookup label = some (.code (fix k x body c)) ∧
      a.eval d σ = .ok v ∧ body.eval d' ((x, v) :: σ) = .ok w := by
  rw [eval_eq_evalWith] at h ⊢
  simp only [evalWith] at h
  split at h
  · cases h
  · next f hlabel =>
      cases ha : a.evalWith (callAt d) σ with
      | error error =>
          rw [ha] at h
          cases h
      | ok v =>
          simp only [ha, bind, Except.bind] at h
          split at h
          · next k x body c =>
              cases d with
              | zero => cases h
              | succ d' => exact ⟨d', k, x, body, c, v, rfl, hlabel, rfl, h⟩
          · cases h

theorem Expr.eval_elem {index : Expr} : (elem a index).eval d σ =
    (a.eval d σ).bind fun v => (index.eval d σ).bind v.read := by
  cases d <;> rfl

/-- The value has no expression in it with a name that is made for a type. -/
abbrev Value.IsWritten (v : Value) : Prop :=
  v.Within fun y => y.numbers = []

/-- The names that someone wrote stand for what they did at the start, and every label for a check
of the type it was made for. -/
structure Scope.Keeps (cat : Catalog) (marks : TypeParam → Bool) (table : Numbering)
    (base σ : Scope) : Prop where
  names : ∀ s, σ.lookup (.named s) = base.lookup (.named s)
  labels : ∀ s n f, σ.lookup (.guard s n) = some f → ∃ t body c,
    f = .code (.fix (.guard s n) (.slot n) body c) ∧ cat.Whole marks t ∧
      table.number? t = some n ∧ Checks cat marks table [] t (.ident (.slot n)) body

/-- What the expressions that someone wrote come to in a scope, if they come to something. -/
def Scope.Gives (base : Scope) (key : Expr → Reading) : Prop :=
  ∀ e d k, e.eval d base = .ok k → key e = .ok k

theorem Scope.exists_gives (base : Scope) : ∃ key, base.Gives key := by
  have hall : ∀ e : Expr, ∃ r : Reading, ∀ d k, e.eval d base = .ok k → r = .ok k := by
    intro e
    obtain ⟨outcome, houtcome, hunique⟩ := e.existsUnique_comesTo base
    have hsome : ∀ d k, e.eval d base = .ok k → some (.ok k) = outcome := by
      intro d k hk
      exact hunique (some (.ok k)) ⟨nofun, d, hk⟩
    cases outcome with
    | none => exact ⟨.error .exhausted, fun d k hk => by cases hsome d k hk⟩
    | some r => exact ⟨r, fun d k hk => (Option.some.inj (hsome d k hk)).symm⟩
  choose key hkey using hall
  exact ⟨key, hkey⟩

variable {cat : Catalog} {marks : TypeParam → Bool} {table : Numbering} {base : Scope} {v : Value}
  {key : Expr → Reading}

/-- The expression comes to nothing else in a scope where names are made for types. -/
def Scope.Settles (base : Scope) (e : Expr) : Prop :=
  ∀ σ d k, (∀ s, σ.lookup (.named s) = base.lookup (.named s)) → e.eval d σ = .ok k →
    e.eval d base = .ok k

theorem Scope.settles_const (base : Scope) (value : Scalar) : base.Settles (.const value) := by
  intro σ d k _ hk
  rw [Expr.eval_const] at hk ⊢
  exact hk

/-- What someone wrote comes to the same as at the start, if all values around are written. -/
theorem Scope.settles_of_numbers (hbase : ∀ y v, base.lookup y = some v → v.IsWritten) {e : Expr}
    (he : e.numbers = []) : base.Settles e := by
  intro σ d k hnames hk
  have hagree : Expr.Agree (fun y => y.numbers = []) σ base := by
    intro y hy
    cases y with
    | named s =>
        refine ⟨hnames s, fun v hv => hbase (.named s) v ?_⟩
        rw [← hnames s]
        exact hv
    | slot n => cases hy
    | guard s n => cases hy
  have hlocal := Expr.eval_local (Nat.le_refl d) (Expr.within_of_numbers he) hagree
  rw [← hlocal.eq (by rw [hk]; nofun)]
  exact hk

namespace Scope.Keeps

theorem start (hbase : ∀ s n, base.lookup (.guard s n) = none) :
    Keeps cat marks table base base where
  names _ := rfl
  labels s n f hf := by
    rw [hbase] at hf
    cases hf

theorem slot (h : Keeps cat marks table base σ) (n : Nat) (v : Value) :
    Keeps cat marks table base ((.slot n, v) :: σ) := by
  constructor
  · intro s
    have hne : Ident.named s ≠ .slot n := nofun
    rw [Expr.lookup_cons_of_ne hne]
    exact h.names s
  · intro s k f hf
    have hne : Ident.guard s k ≠ .slot n := nofun
    rw [Expr.lookup_cons_of_ne hne] at hf
    exact h.labels s k f hf

theorem label (h : Keeps cat marks table base σ) {t : Ty} {n : Nat} {body : Expr} (c : Expr)
    (hwhole : cat.Whole marks t) (hnumber : table.number? t = some n)
    (hbody : Checks cat marks table [] t (.ident (.slot n)) body) :
    Keeps cat marks table base
      ((Guard.label t n, .code (.fix (Guard.label t n) (.slot n) body c)) :: σ) := by
  constructor
  · intro s
    have hne : Ident.named s ≠ Guard.label t n := nofun
    rw [Expr.lookup_cons_of_ne hne]
    exact h.names s
  · intro s k f hf
    by_cases hlabel : Ident.guard s k = Guard.label t n
    · rw [hlabel, List.lookup_cons_self] at hf
      cases hf
      cases hlabel
      exact ⟨t, body, c, rfl, hwhole, hnumber, hbody⟩
    · rw [Expr.lookup_cons_of_ne hlabel] at hf
      exact h.labels s k f hf

theorem readingBy_eq (h : Keeps cat marks table base σ) (hkey : base.Gives key) {part : Part}
    (hpart : ∀ index, part.index? = some index → base.Settles index) {u : Value}
    (ha : a.eval d σ = .ok v) (hu : (part.accessor a).eval d σ = .ok u) :
    part.readingBy key v = .ok u := by
  cases hcase : part.index? with
  | none =>
      simp only [Part.accessor, Part.readingBy, hcase] at hu ⊢
      exact ha.symm.trans hu
  | some index =>
      simp only [Part.accessor, Part.readingBy, hcase, Expr.eval_elem, ha] at hu ⊢
      cases hindex : index.eval d σ with
      | error error =>
          rw [hindex] at hu
          cases hu
      | ok k =>
          rw [hindex] at hu
          rw [hkey index d k (hpart index hcase σ d k h.names hindex)]
          exact hu

end Scope.Keeps

/-- What a check comes to is what is found about its type. -/
theorem Checks.finds (hcat : cat.WellScoped marks) (hsettles : cat.Indexed base.Settles)
    (hkey : base.Gives key) {env : Bindings} {t : Ty} {e : Expr}
    (h : Checks cat marks table env t a e) (hσ : Scope.Keeps cat marks table base σ)
    (hr : ∀ v, a.eval d σ = .ok v → r = .ok v) (hb : e.holds d σ = .ok b) :
    cat.Finds key env t r b := by
  -- Calls nest less deep than what they are made from; all else goes by how the check is put
  -- together.
  induction d using Nat.strong_induction_on generalizing env t a e σ r b with
  | _ d ihcall =>
  induction h generalizing σ r b with
  | follow hfollow _ ih => exact .follow hfollow (ih hσ hr hb)
  | target hknot hmapped hbindings _ ih => exact .target hknot hmapped hbindings (ih hσ hr hb)
  | like halike _ ih => exact (ih hσ hr hb).transfer hcat halike
  | closed hknot _ ih => exact .of_knot hknot (ih hσ hr hb)
  | test hdemands => exact .test hdemands (Test.decides_of_holds hb hr)
  | any hdemands hlength _ ih =>
      rcases Expr.holds_anyOf hb with ⟨rfl, e, he, htrue⟩ | ⟨rfl, hall⟩
      · obtain ⟨part, hmem⟩ := exists_mem_zip hlength he
        exact .one hdemands (List.of_mem_zip hmem).1 (ih part e hmem hσ hr htrue)
      · refine .none hdemands fun part hpart => ?_
        obtain ⟨e, hmem⟩ := exists_mem_zip_left hlength hpart
        exact ih part e hmem hσ hr (hall e (List.of_mem_zip hmem).2)
  | all hdemands hlength _ ih =>
      rcases Expr.holds_allOf hb with ⟨rfl, hall⟩ | ⟨rfl, e, he, hfalse⟩
      · refine .every hdemands fun part hpart => ?_
        obtain ⟨e, hmem⟩ := exists_mem_zip_left hlength hpart
        exact ih part e hmem hσ hr (hall e (List.of_mem_zip hmem).2)
      · obtain ⟨part, hmem⟩ := exists_mem_zip hlength he
        exact .missing hdemands (List.of_mem_zip hmem).1 (ih part e hmem hσ hr hfalse)
  | whole hdemands hlength _ ih =>
      obtain ⟨v, ha, hcases⟩ := Guard.holds_whole hb
      rw [hr v ha]
      have hread : ∀ part ∈ _, ∀ u, (Part.accessor part _).eval d σ = .ok u →
          Part.readingBy key v part = .ok u := fun part hpart u hu =>
        hσ.readingBy_eq hkey
          (fun _ => hdemands.indexed hsettles (fun _ => base.settles_const _) hpart) ha hu
      rcases hcases with ⟨rfl, hv, hall⟩ | ⟨rfl, hv | ⟨e, he, hfalse⟩⟩
      · refine .object hdemands hv fun part hpart => ?_
        obtain ⟨e, hmem⟩ := exists_mem_zip_left hlength hpart
        exact ih part e hmem hσ (hread part hpart) (hall e (List.of_mem_zip hmem).2)
      · exact .plain hdemands hv
      · obtain ⟨part, hmem⟩ := exists_mem_zip hlength he
        have hpart := (List.of_mem_zip hmem).1
        exact .lacking hdemands hpart (ih part e hmem hσ (hread part hpart) hfalse)
  | @fix t n a body hwhole hnumber hbody ih =>
      obtain ⟨w, hw, htruthy⟩ := holds_eq_ok.1 hb
      rw [Expr.eval_fix] at hw
      cases ha : a.eval d σ with
      | error error =>
          rw [ha] at hw
          cases hw
      | ok v =>
          rw [ha] at hw
          rw [hr v ha]
          refine ih ((hσ.label a hwhole hnumber hbody).slot n v) (fun u hu => ?_)
            (holds_eq_ok.2 ⟨w, hw, htruthy⟩)
          rw [Expr.eval_ident List.lookup_cons_self] at hu
          exact hu
  | @again t n a hwhole hnumber =>
      obtain ⟨w, hw, htruthy⟩ := holds_eq_ok.1 hb
      obtain ⟨d', k, x, body, c, v, rfl, hlabel, ha, hbody⟩ := Expr.eval_recur_eq_ok hw
      obtain ⟨t', body', c', heq, hwhole', hnumber', hcheck⟩ := hσ.labels _ _ _ hlabel
      cases heq
      rw [hr v ha]
      have hcalled := ihcall d' (Nat.lt_succ_self d') hcheck (hσ.slot n v) (r := .ok v)
        (fun u hu => by rwa [Expr.eval_ident List.lookup_cons_self] at hu)
        (holds_eq_ok.2 ⟨w, hbody, htruthy⟩)
      -- The condition may have been made for a type that differs in the sign of a zero.
      have hkeys := Numbering.number?_faithful hnumber' hnumber
      rw [← Ty.mapLiterals_literalKey, ← Ty.mapLiterals_literalKey] at hkeys
      exact hcalled.transfer hcat (.of_whole hcat hwhole' hwhole hkeys [] [])

theorem Scope.settles_singleton {x : String} (hv : v.IsWritten) {e : Expr} (he : e.numbers = []) :
    Scope.Settles [(.named x, v)] e := by
  refine settles_of_numbers (fun y w hw => ?_) he
  by_cases hy : y = .named x
  · rw [hy, List.lookup_cons_self] at hw
    cases hw
    exact hv
  · rw [Expr.lookup_cons_of_ne hy] at hw
    cases hw

theorem Checks.finds_named {env : Bindings} {t : Ty} {x : String} {e : Expr}
    (hcat : cat.WellScoped marks) (hsettles : cat.Indexed (Scope.Settles [(.named x, v)]))
    (h : Checks cat marks table env t (.named x) e) (hkey : Scope.Gives [(.named x, v)] key)
    (hb : e.holds d [(.named x, v)] = .ok b) : cat.Finds key env t (.ok v) b := by
  have hread : (Expr.named x).eval d [(.named x, v)] = .ok v :=
    Expr.eval_ident List.lookup_cons_self
  exact h.finds hcat hsettles hkey (.start fun _ _ => rfl) (fun w hw => hread.symm.trans hw) hb

/-- What a compiled guard comes to is what is found about its type. -/
theorem Subject.finds_of_compiled {t : Ty} {limit : Nat} {x : String} {numbering : Numbering}
    {guard : Expr} (hcat : cat.WellScoped marks) (hwritten : cat.WritesNames)
    (hsettles : cat.Indexed (Scope.Settles [(.named x, v)])) (ht : cat.Whole marks t)
    (h : ((Subject.type t).compile cat limit (.named x) [] numbering).verdict =
      .ok (.compiled guard))
    (hkey : Scope.Gives [(.named x, v)] key)
    (hb : guard.holds d [(.named x, v)] = .ok b) : cat.Finds key [] t (.ok v) b := by
  obtain ⟨s, hwalk⟩ := walkWith_of_compiled h
  obtain ⟨p', hcompiles⟩ := (Guard.ofType_sound cat limit [] [] t (.named x) ⟨numbering, []⟩).of_ok
    (Session.at_start numbering) hwalk
  have hchecks := hcompiles.checks hcat hwritten (List.forall_mem_singleton.2 rfl)
    (List.forall_mem_singleton.2 (ht.sits hcat [])) Catalog.treads_nil (.refl _) _ _
    List.mem_cons_self
  exact hchecks.finds_named hcat hsettles hkey hb

end TypeGuard
