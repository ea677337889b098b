import TypeGuard.Proofs.ConditionText
import TypeGuard.Proofs.GuardConditions
import TypeGuard.Proofs.Keyed

/-! The text of a guard says all that the guard does: guards of the same text are the same tree, up
to the grouping of chains and the kind of whole numbers, and come to the same result on every
value. -/

namespace TypeGuard

theorem Ident.IsLabel.isGuard {l : Ident} (h : l.IsLabel) : l.isGuard = true := by
  cases l with
  | guard subject n => rfl
  | _ => exact h.elim

theorem Ident.IsRoot.isGuard {r : Ident} (h : r.IsRoot) : r.isGuard = false := by
  cases r with
  | guard subject n => exact h.elim
  | _ => rfl

theorem Ident.ne_of_isGuard {x y : Ident} (hx : x.isGuard = true) (hy : y.isGuard = false) :
    x ≠ y := by
  rintro rfl
  rw [hx] at hy
  cases hy

theorem Binary64.unsignedZero_eq_ofInt {x : Binary64} {n : Int} (h : x.toInt? = some n) :
    x.unsignedZero = .finite (.ofInt n) := by
  cases x with
  | finite v =>
      cases v with
      | zero =>
          cases h
          rfl
      | ofOdd m k hm =>
          simp only [toInt?] at h
          split at h
          · next hk =>
              cases h
              have hprec : k + ((-k).toNat : Int) = 0 := by omega
              have hshift := Dyadic.ofIntWithPrec_shiftLeft_add (x := m) (i := k) (n := (-k).toNat)
              rw [hprec, Int.shiftLeft_eq] at hshift
              have hzero : (finite (.ofOdd m k hm)).unsignedZero = finite (.ofOdd m k hm) := rfl
              rw [hzero, Dyadic.ofOdd_eq_ofIntWithPrec, ← hshift, Dyadic.ofInt, Nat.pow_eq]
              push_cast
              rfl
          · cases h
  | negZero =>
      cases h
      rfl
  | inf negative => cases h
  | nan tag => cases h

/-- Nothing is told apart by the kind of a whole number. -/
theorem Value.strictEqual_whole (v : Value) (s : Scalar) :
    v.strictEqual (.scalar s.whole) = v.strictEqual (.scalar s) := by
  cases s with
  | float x =>
      cases hx : x.toInt? with
      | none => simp only [Scalar.whole, hx]
      | some n =>
          have hkey : (Scalar.int n).valueKey = (Scalar.float x).valueKey := by
            rw [Scalar.valueKey, Scalar.valueKey, Binary64.unsignedZero_eq_ofInt hx]
          have hequal : v.equal (.scalar (.int n)) = v.equal (.scalar (.float x)) := by
            cases v with
            | scalar a => simp only [equal, hkey]
            | _ => simp only [equal]
          have htype : (Value.scalar (.int n)).typeOf = (Value.scalar (.float x)).typeOf := rfl
          simp only [Scalar.whole, hx, strictEqual, hequal, htype]
  | _ => rfl

namespace Expr

variable {call : Expr → Scope → Except EvalError Value} {σ σ' : Scope}

theorem evalWith_pathOf {r : Ident} (h : σ.lookup r = σ'.lookup r) (keys : List String) :
    (pathOf r keys).evalWith call σ = (pathOf r keys).evalWith call σ' := by
  induction keys using List.reverseRecOn with
  | nil => simp only [pathOf, List.foldl_nil, evalWith, h]
  | append_singleton keys key ih => simp only [pathOf_concat, evalWith, ih]

theorem evalWith_assoc (j : Joint) (a b c : Expr) :
    (j.join (j.join a b) c).evalWith call σ = (j.join a (j.join b c)).evalWith call σ := by
  cases j with
  | and =>
      simp only [Joint.join, evalWith]
      cases ha : a.evalWith call σ with
      | error error => rfl
      | ok v =>
          cases hv : v.truthy with
          | true => simp [bind, Except.bind, hv]
          | false => simp [bind, Except.bind, pure, Except.pure, hv]
  | or =>
      simp only [Joint.join, evalWith]
      cases ha : a.evalWith call σ with
      | error error => rfl
      | ok v =>
          cases hv : v.truthy with
          | true => simp [bind, Except.bind, pure, Except.pure, hv]
          | false => simp [bind, Except.bind, hv]

theorem evalWith_join (j : Joint) {a a' b b' : Expr} (ha : a.evalWith call σ = a'.evalWith call σ')
    (hb : b.evalWith call σ = b'.evalWith call σ') :
    (j.join a b).evalWith call σ = (j.join a' b').evalWith call σ' := by
  cases j with
  | and => simp only [Joint.join, evalWith, ha, hb]
  | or => simp only [Joint.join, evalWith, ha, hb]

theorem evalWith_extend (j : Joint) (a b : Expr) :
    (j.extend a b).evalWith call σ = (j.join a b).evalWith call σ := by
  induction b using j.induction with
  | hitem b h => rw [Joint.extend_eq_join h]
  | hjoin b c ihb _ => rw [Joint.extend_join, evalWith_join j ihb rfl, evalWith_assoc]

/-- What a label stands for in a scope and in one with standard forms. -/
inductive Bodies : Option Value → Option Value → Prop
  | none : Bodies none none
  | some (l k : Ident) {n : Nat} {body : Expr} (a b : Expr) (hbody : Condition (.slot n) body) :
      Bodies (some (.code (fix l (.slot n) body a)))
        (some (.code (fix k (.slot n) body.standard b)))

/-- The scopes have the same values, and labels of the same bodies but for their form. -/
structure Standardised (σ σ' : Scope) : Prop where
  value : ∀ x, x.isGuard = false → σ.lookup x = σ'.lookup x
  label : ∀ l, l.isGuard = true → Bodies (σ.lookup l) (σ'.lookup l)

namespace Standardised

theorem single {x : Ident} (hx : x.isGuard = false) (v : Value) :
    Standardised [(x, v)] [(x, v)] := by
  refine ⟨fun _ _ => rfl, fun l hl => ?_⟩
  rw [List.lookup_cons, beq_false_of_ne (Ident.ne_of_isGuard hl hx)]
  exact .none

theorem bind (h : Standardised σ σ') {x : Ident} (hx : x.isGuard = false) (v : Value) :
    Standardised ((x, v) :: σ) ((x, v) :: σ') := by
  refine ⟨fun y hy => ?_, fun l hl => ?_⟩
  · rw [List.lookup_cons, List.lookup_cons]
    split
    · rfl
    · exact h.value y hy
  · rw [List.lookup_cons, List.lookup_cons, beq_false_of_ne (Ident.ne_of_isGuard hl hx)]
    exact h.label l hl

theorem bindLabel (h : Standardised σ σ') {l : Ident} (hl : l.isGuard = true) {v v' : Value}
    (hv : Bodies (some v) (some v')) : Standardised ((l, v) :: σ) ((l, v') :: σ') := by
  refine ⟨fun y hy => ?_, fun k hk => ?_⟩
  · rw [List.lookup_cons, List.lookup_cons, beq_false_of_ne (Ident.ne_of_isGuard hl hy).symm]
    exact h.value y hy
  · rw [List.lookup_cons, List.lookup_cons]
    split
    · exact hv
    · exact h.label k hk

end Standardised

/-- A condition comes to the same as its standard form, if the calls in it do. -/
theorem Condition.evalWith_standard {r : Ident} {e : Expr}
    (hcall : ∀ {n body σ σ'}, Condition (.slot n) body → Standardised σ σ' →
      call body σ = call body.standard σ')
    (h : Condition r e) (hr : r.isGuard = false) (hσ : Standardised σ σ') :
    e.evalWith call σ = e.standard.evalWith call σ' := by
  induction h generalizing σ σ' with
  | truth => rfl
  | kind r keys name =>
      simp only [standard, Scalar.whole, evalWith, evalWith_pathOf (hσ.value r hr) keys]
  | equal r keys hv =>
      simp only [standard, evalWith, evalWith_pathOf (hσ.value r hr) keys,
        pure_bind, Value.strictEqual_whole]
  | present r keys =>
      simp only [standard, evalWith, evalWith_pathOf (hσ.value r hr) keys]
  | and _ _ iha ihb =>
      rw [standard, evalWith_extend]
      exact evalWith_join .and (iha hr hσ) (ihb hr hσ)
  | or _ _ iha ihb =>
      rw [standard, evalWith_extend]
      exact evalWith_join .or (iha hr hσ) (ihb hr hσ)
  | @call r keys l hl =>
      have hbodies := hσ.label l hl.isGuard
      simp only [standard, evalWith, evalWith_pathOf (hσ.value r hr) keys]
      generalize σ.lookup l = found at hbodies ⊢
      generalize σ'.lookup l = found' at hbodies ⊢
      cases hbodies with
      | none => rfl
      | some _ _ _ _ hbody =>
          cases hpath : (pathOf r keys).evalWith call σ' with
          | error error => rfl
          | ok v => exact hcall hbody (hσ.bind rfl v)
  | @fix r keys l n body hl hbody ih =>
      simp only [standard, evalWith, evalWith_pathOf (hσ.value r hr) keys]
      cases hpath : (pathOf r keys).evalWith call σ' with
      | error error => rfl
      | ok v => exact ih rfl ((hσ.bindLabel hl.isGuard (.some l l _ _ hbody)).bind rfl v)

theorem Condition.eval_standard {r : Ident} {e : Expr} (h : Condition r e) (hr : r.isGuard = false)
    (hσ : Standardised σ σ') (depth : Nat) : e.eval depth σ = e.standard.eval depth σ' := by
  induction depth generalizing r e σ σ' with
  | zero => exact h.evalWith_standard (fun _ _ => rfl) hr hσ
  | succ depth ih => exact h.evalWith_standard (fun hbody hσ => ih hbody rfl hσ) hr hσ

theorem Condition.extend (j : Joint) {r : Ident} {a b : Expr} (ha : Condition r a)
    (hb : Condition r b) :
    Condition r (j.extend a b) := by
  have hjoin : ∀ {a b}, Condition r a → Condition r b → Condition r (j.join a b) := by
    intro a b ha hb
    cases j with
    | and => exact .and ha hb
    | or => exact .or ha hb
  induction b using j.induction with
  | hitem b h =>
      rw [Joint.extend_eq_join h]
      exact hjoin ha hb
  | hjoin b c ihb _ =>
      rw [Joint.extend_join]
      exact hjoin (ihb hb.of_join.1) hb.of_join.2

theorem Condition.standard {r : Ident} {e : Expr} (h : Condition r e) : Condition r e.standard := by
  induction h with
  | truth r b => exact .truth r b
  | kind r keys name => exact .kind r keys name
  | @equal r keys v hv =>
      refine .equal r keys ?_
      cases v with
      | float x =>
          cases hx : x.toInt? with
          | some n =>
              simp only [Scalar.whole, hx]
              trivial
          | none =>
              simp only [Scalar.whole, hx]
              exact hv
      | _ => trivial
  | present r keys => exact .present r keys
  | and _ _ iha ihb => exact .extend .and iha ihb
  | or _ _ iha ihb => exact .extend .or iha ihb
  | call r keys hl => exact .call r keys hl
  | fix r keys hl _ ih => exact .fix r keys hl ih

theorem reads_pathOf (r : Ident) (keys : List String) : (pathOf r keys).Reads r := by
  induction keys using List.reverseRecOn with
  | nil => rfl
  | append_singleton keys key ih =>
      rw [pathOf_concat]
      exact .inl ih

theorem Condition.eval_of_not_reads {r : Ident} {e : Expr} (h : Condition r e) (hnot : ¬e.Reads r)
    (σ σ' : Scope) (depth : Nat) : e.eval depth σ = e.eval depth σ' := by
  have hsame : ∀ call, e.evalWith call σ = e.evalWith call σ' := by
    intro call
    induction h with
    | truth => rfl
    | kind r keys | equal r keys | present r keys => exact absurd (.inl (reads_pathOf r keys)) hnot
    | and _ _ iha ihb =>
        exact evalWith_join .and (iha fun ha => hnot (.inl ha)) (ihb fun hb => hnot (.inr hb))
    | or _ _ iha ihb =>
        exact evalWith_join .or (iha fun ha => hnot (.inl ha)) (ihb fun hb => hnot (.inr hb))
    | call r keys => exact absurd (reads_pathOf r keys) hnot
    | fix r keys => exact absurd (.inr (reads_pathOf r keys)) hnot
  cases depth with
  | zero => exact hsame _
  | succ depth => exact hsame _

/-- Conditions of the same standard form come to the same on every value, whatever name it goes
by. -/
theorem Condition.eval_eq {r r' : Ident} {e f : Expr} (h : Condition r e) (h' : Condition r' f)
    (hr : r.IsRoot) (hr' : r'.IsRoot) (heq : e.standard = f.standard) (depth : Nat) (v : Value) :
    e.eval depth [(r, v)] = f.eval depth [(r', v)] := by
  rw [h.eval_standard hr.isGuard (.single hr.isGuard v) depth,
    h'.eval_standard hr'.isGuard (.single hr'.isGuard v) depth, heq]
  by_cases hreads : f.standard.Reads r
  · rw [h'.standard.eq_of_reads hreads]
  · exact Condition.eval_of_not_reads (heq ▸ h.standard) hreads _ _ depth

/-- A guard that is compiled from plain names and finite numbers, on what goes by the name. -/
inductive CompiledOn (name : String) : Expr → Prop
  | intro {cat : Catalog} {subject : Subject} {limit : Nat} {args : List Ty} {numbering : Numbering}
      {guard : Expr} (hname : Text.IsName name) (hcat : cat.IsTame) (hsubject : subject.IsTame)
      (hargs : ∀ t ∈ args, t.Every Ty.IsTame)
      (h : (subject.compile cat limit (.named name) args numbering).verdict =
        .ok (.compiled guard)) :
      CompiledOn name guard

theorem CompiledOn.condition {x : String} {e : Expr} (h : e.CompiledOn x) :
    (Ident.named x).IsRoot ∧ Condition (.named x) e := by
  obtain ⟨hx, hcat, hsubject, hargs, hcompiled⟩ := h
  have hpath : named x = pathOf (.named x) [] := rfl
  rw [hpath] at hcompiled
  exact ⟨hx, Subject.condition_of_compiled hcat hsubject hargs hcompiled⟩

end Expr

end TypeGuard
