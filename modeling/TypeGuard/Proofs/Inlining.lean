import TypeGuard.Proofs.Evaluation
import TypeGuard.Proofs.Keyed

/-! Putting an expression in the place of a name keeps the meaning of the expression around it. A
call runs the body of a recursive condition in the scope of the place it is made from, so the two
sides are compared in scopes whose labels stand for the conditions before and after. -/

namespace TypeGuard

namespace Value

mutual
/-- No recursive condition can be read out of the value. -/
def isPlain : Value → Bool
  | list items => arePlain items
  | tuple items => arePlain items
  | dict entries => entriesPlain entries
  | code _ => false
  | _ => true

def arePlain : List Value → Bool
  | [] => true
  | v :: rest => v.isPlain && arePlain rest

def entriesPlain : List (Value × Value) → Bool
  | [] => true
  | (_, v) :: rest => v.isPlain && entriesPlain rest
end

theorem isPlain_of_mem {v : Value} {items : List Value} (hplain : arePlain items = true)
    (h : v ∈ items) : v.isPlain = true := by
  induction items with
  | nil => cases h
  | cons w rest ih =>
      simp only [arePlain, Bool.and_eq_true] at hplain
      rcases List.mem_cons.1 h with rfl | h
      · exact hplain.1
      · exact ih hplain.2 h

theorem isPlain_of_mem_entries {k v : Value} {entries : List (Value × Value)}
    (hplain : entriesPlain entries = true) (h : (k, v) ∈ entries) : v.isPlain = true := by
  induction entries with
  | nil => cases h
  | cons entry rest ih =>
      simp only [entriesPlain, Bool.and_eq_true] at hplain
      rcases List.mem_cons.1 h with rfl | h
      · exact hplain.1
      · exact ih hplain.2 h

theorem isPlain_lookup {entries : List (Value × Value)} {key v : Value}
    (hplain : entriesPlain entries = true) (h : lookup? entries key = some v) :
    v.isPlain = true := by
  unfold lookup? at h
  obtain ⟨⟨k, v⟩, hfind, rfl⟩ := Option.map_eq_some_iff.1 h
  exact isPlain_of_mem_entries hplain (List.mem_of_find?_eq_some hfind)

theorem isPlain_lookup_text {entries : List (Value × Value)} (hplain : entriesPlain entries = true)
    (text? : Option String) :
    ((text?.bind fun s => lookup? entries (str s)).getD undefined).isPlain = true := by
  cases hlookup : text?.bind fun s => lookup? entries (str s) with
  | none => rfl
  | some v =>
      obtain ⟨s, _, hs⟩ := Option.bind_eq_some_iff.1 hlookup
      exact isPlain_lookup hplain hs

theorem isPlain_entry {entries : List (Value × Value)} {key v : Value}
    (hplain : entriesPlain entries = true) (h : entry entries key = .ok v) : v.isPlain = true := by
  unfold entry at h
  split at h
  · next hlookup =>
      cases h
      exact isPlain_lookup hplain hlookup
  · cases h
    rfl
  · split at h
    · cases h
      exact isPlain_lookup_text hplain _
    · cases h

theorem isPlain_getElem? {items : List Value} (hplain : arePlain items = true) (n : Nat) :
    (items[n]?.getD undefined).isPlain = true := by
  cases hitem : items[n]? with
  | none => rfl
  | some v => exact isPlain_of_mem hplain (List.mem_of_getElem? hitem)

theorem isPlain_item {items : List Value} {key v : Value} (hplain : arePlain items = true)
    (h : item items key = .ok v) : v.isPlain = true := by
  unfold item at h
  split at h
  · cases h
    split
    · exact isPlain_getElem? hplain _
    · rfl
  · split at h
    · split at h
      · cases h
        exact isPlain_getElem? hplain _
      · cases h
    · split at h
      · cases h
        rfl
      · cases h
        rfl
  · cases h
    rfl

theorem isPlain_read {v key w : Value} (hplain : v.isPlain = true) (h : v.read key = .ok w) :
    w.isPlain = true := by
  cases v with
  | dict entries =>
      simp only [read] at h
      split at h
      · exact isPlain_entry hplain h
      · cases h
  | list items => exact isPlain_item hplain h
  | tuple items => exact isPlain_item hplain h
  | scalar a =>
      cases a with
      | null => cases h
      | _ =>
          cases h
          rfl
  | undefined => cases h
  | code e => cases hplain
  | _ =>
      cases h
      rfl

theorem Holds.isPlain {v w : Value} (h : v.Holds w) (hplain : v.isPlain = true) :
    w.isPlain = true := by
  induction h with
  | self => exact hplain
  | part _ hread ih => exact isPlain_read ih hread

theorem Holds.trans {u v w : Value} (huv : u.Holds v) (hvw : v.Holds w) : u.Holds w := by
  induction hvw with
  | self => exact huv
  | part _ hread ih => exact ih.part hread

theorem eq_of_holds_code {e f : Expr} (h : (code e).Holds (code f)) : f = e := by
  have hparts : ∀ w, (code e).Holds w → w = code e ∨ w = undefined := by
    intro w hw
    induction hw with
    | self => exact .inl rfl
    | part _ hread ih =>
        rcases ih with rfl | rfl
        · cases hread
          exact .inr rfl
        · cases hread
  rcases hparts _ h with heq | heq
  · exact (code.inj heq)
  · cases heq

end Value

/-- What a name is there for. -/
inductive Use where
  | read
  | parameter
  | label
  | call
deriving DecidableEq

namespace Expr

/-- The names in an expression, each with what it is there for. -/
def uses : Expr → List (Use × Ident)
  | ident name => [(.read, name)]
  | prop target _ => target.uses
  | elem target index => target.uses ++ index.uses
  | const _ => []
  | typeOf operand => operand.uses
  | eq left right => left.uses ++ right.uses
  | ne left right => left.uses ++ right.uses
  | and left right => left.uses ++ right.uses
  | or left right => left.uses ++ right.uses
  | recur label argument => (.call, label) :: argument.uses
  | fix label parameter body argument =>
      (.label, label) :: (.parameter, parameter) :: (body.uses ++ argument.uses)

/-- The name stands somewhere in the expression. -/
def Names (e : Expr) (y : Ident) : Prop :=
  ∃ use, (use, y) ∈ e.uses

/-- All names in the expression are of this kind. -/
def Within (N : Ident → Prop) (e : Expr) : Prop :=
  ∀ use ∈ e.uses, N use.2

def IsLabel (e : Expr) (l : Ident) : Prop :=
  (.label, l) ∈ e.uses ∨ (.call, l) ∈ e.uses

/-- Nothing in the expression gets in the way of putting another in the place of a name. -/
structure Admits (e : Expr) (x : Ident) (r : Expr) : Prop where
  /-- The binders have names of their own. -/
  binders : ∀ y, (.parameter, y) ∈ e.uses ∨ (.label, y) ∈ e.uses → y ≠ x ∧ ¬r.Names y
  /-- The labels are told apart from all other names. -/
  labels : ∀ l, e.IsLabel l → l ≠ x ∧ (.read, l) ∉ e.uses ∧ (.parameter, l) ∉ e.uses

theorem fresh_of_uses {e : Expr} {x : Ident} (h : (.parameter, x) ∉ e.uses) : e.Fresh x := by
  induction e with
  | ident _ | const _ => trivial
  | prop target name ih | typeOf target ih => exact ih h
  | recur label target ih => exact ih fun hmem => h (List.mem_cons_of_mem _ hmem)
  | elem left right ihl ihr | eq left right ihl ihr | ne left right ihl ihr
  | and left right ihl ihr | or left right ihl ihr =>
      simp only [uses, List.mem_append, not_or] at h
      exact ⟨ihl h.1, ihr h.2⟩
  | fix label y body argument ihb iha =>
      simp only [uses, List.mem_cons, List.mem_append, not_or] at h
      exact ⟨fun heq => h.2.1 (by rw [heq]), ihb h.2.2.1, iha h.2.2.2⟩

theorem Admits.fresh {e r : Expr} {x : Ident} (h : e.Admits x r) : e.Fresh x :=
  fresh_of_uses fun hmem => (h.binders x (.inl hmem)).1 rfl

end Expr

/-- All names in the recursive conditions that can be read out of the value are of this kind. -/
def Value.Within (N : Ident → Prop) (v : Value) : Prop :=
  ∀ e, v.Holds (.code e) → e.Within N

namespace Value.Within

variable {N : Ident → Prop} {v : Value}

theorem of_isPlain (h : v.isPlain = true) : v.Within N := by
  intro e he
  cases he.isPlain h

theorem of_read {key w : Value} (h : v.Within N) (hread : v.read key = .ok w) : w.Within N :=
  fun e he => h e ((Holds.self.part hread).trans he)

theorem code {e : Expr} (h : e.Within N) : (Value.code e).Within N := by
  intro f hf
  rw [Value.eq_of_holds_code hf]
  exact h

end Value.Within

/-- The first reading is the second, a value of this kind if it is one, or it stopped short of
it. -/
inductive Approaches (I : Value → Prop) : Reading → Reading → Prop
  | exhausted (r : Reading) : Approaches I (.error .exhausted) r
  | error (error : EvalError) : Approaches I (.error error) (.error error)
  | ok {v : Value} (h : I v) : Approaches I (.ok v) (.ok v)

namespace Approaches

variable {I J : Value → Prop} {r r' : Reading}

theorem refl (h : ∀ v, r = .ok v → I v) : Approaches I r r := by
  cases r with
  | error error => exact .error error
  | ok v => exact .ok (h v rfl)

theorem bind {f f' : Value → Reading} (h : Approaches I r r')
    (hf : ∀ v, I v → Approaches J (f v) (f' v)) : Approaches J (r.bind f) (r'.bind f') := by
  cases h with
  | exhausted => exact .exhausted _
  | error error => exact .error error
  | ok hv => exact hf _ hv

theorem mono (h : Approaches I r r') (himp : ∀ v, I v → J v) : Approaches J r r' := by
  cases h with
  | exhausted => exact .exhausted _
  | error error => exact .error error
  | ok hv => exact .ok (himp _ hv)

theorem eq (h : Approaches I r r') (hne : r ≠ .error .exhausted) : r = r' := by
  cases h with
  | exhausted => exact absurd rfl hne
  | error | ok => rfl

end Approaches

namespace Expr

section Locality

variable {N : Ident → Prop}

/-- The scopes say the same about these names, and what they say is about these names only. -/
def Agree (N : Ident → Prop) (σ σ' : Scope) : Prop :=
  ∀ y, N y → σ.lookup y = σ'.lookup y ∧ ∀ v, σ.lookup y = some v → v.Within N

theorem Agree.cons {σ σ' : Scope} {v : Value} (h : Agree N σ σ') (y : Ident) (hv : v.Within N) :
    Agree N ((y, v) :: σ) ((y, v) :: σ') := by
  intro z hz
  simp only [List.lookup_cons]
  split
  · refine ⟨rfl, fun u hu => ?_⟩
    cases hu
    exact hv
  · exact h z hz

/-- What an expression comes to depends on the names in it and on how deep calls may nest, as long
as calls do. -/
theorem evalWith_local {call call' : Expr → Scope → Reading} {e : Expr} {σ σ' : Scope}
    (hcall : ∀ body σ σ', body.Within N → Agree N σ σ' →
      Approaches (·.Within N) (call body σ) (call' body σ'))
    (he : e.Within N) (hσ : Agree N σ σ') :
    Approaches (·.Within N) (e.evalWith call σ) (e.evalWith call' σ') := by
  induction e generalizing σ σ' with
  | ident y =>
      obtain ⟨hlookup, hin⟩ := hσ y (he _ List.mem_cons_self)
      simp only [evalWith, ← hlookup]
      split
      · next v hv => exact .ok (hin v hv)
      · exact .error _
  | prop target name ih =>
      apply (ih he hσ).bind
      intro v hv
      exact .refl fun w hread => hv.of_read hread
  | elem target index iht ihi =>
      obtain ⟨ht, hi⟩ := List.forall_mem_append.1 he
      apply (iht ht hσ).bind
      intro v hv
      apply (ihi hi hσ).bind
      intro key _
      exact .refl fun w hread => hv.of_read hread
  | const value => exact .ok (.of_isPlain rfl)
  | typeOf operand ih =>
      apply (ih he hσ).bind
      intro v _
      exact .ok (.of_isPlain rfl)
  | eq left right ihl ihr | ne left right ihl ihr =>
      obtain ⟨hl, hr⟩ := List.forall_mem_append.1 he
      apply (ihl hl hσ).bind
      intro v _
      apply (ihr hr hσ).bind
      intro w _
      exact .ok (.of_isPlain rfl)
  | and left right ihl ihr =>
      obtain ⟨hl, hr⟩ := List.forall_mem_append.1 he
      apply (ihl hl hσ).bind
      intro v hv
      split
      · exact ihr hr hσ
      · exact .ok hv
  | or left right ihl ihr =>
      obtain ⟨hl, hr⟩ := List.forall_mem_append.1 he
      apply (ihl hl hσ).bind
      intro v hv
      split
      · exact .ok hv
      · exact ihr hr hσ
  | recur label argument ih =>
      obtain ⟨hlabel, ha⟩ := List.forall_mem_cons.1 he
      obtain ⟨hlookup, hin⟩ := hσ label hlabel
      simp only [evalWith, ← hlookup]
      split
      · exact .error _
      · next f hf =>
          apply (ih ha hσ).bind
          intro v hv
          split
          · next l x body a =>
              have hcode : (fix l x body a).Within N := hin _ hf _ .self
              have hbody : body.Within N := fun use huse =>
                hcode use
                  (by simp only [uses, List.mem_cons, List.mem_append, huse, true_or, or_true])
              exact hcall body _ _ hbody (hσ.cons x hv)
          · exact .error _
  | fix label x body argument ihb iha =>
      have hparts := he
      simp only [Within, uses, List.forall_mem_cons, List.forall_mem_append] at hparts
      obtain ⟨_, _, hb, ha⟩ := hparts
      apply (iha ha hσ).bind
      intro v hv
      exact ihb hb ((hσ.cons label (.code he)).cons x hv)

/-- How calls are evaluated where they may nest so deep. -/
def callAt : Nat → Expr → Scope → Reading
  | 0 => fun _ _ => .error .exhausted
  | depth + 1 => eval depth

theorem eval_eq_evalWith (d : Nat) : eval d = evalWith (callAt d) := by
  cases d <;> rfl

theorem eval_local {e : Expr} {σ σ' : Scope} {d d' : Nat} (hle : d ≤ d') (he : e.Within N)
    (hσ : Agree N σ σ') : Approaches (·.Within N) (e.eval d σ) (e.eval d' σ') := by
  induction d generalizing d' e σ σ' with
  | zero =>
      rw [eval_eq_evalWith, eval_eq_evalWith]
      exact evalWith_local (fun _ _ _ _ _ => .exhausted _) he hσ
  | succ d ih =>
      cases d' with
      | zero => cases hle
      | succ d' =>
          exact evalWith_local
            (fun body σ σ' hbody hagree => ih (Nat.le_of_succ_le_succ hle) hbody hagree) he hσ

end Locality

theorem eval_of_le {e : Expr} {σ : Scope} {d d' : Nat} (hle : d ≤ d')
    (hne : e.eval d σ ≠ .error .exhausted) : e.eval d' σ = e.eval d σ :=
  have hall : ∀ f : Expr, f.Within fun _ => True := fun _ _ _ => trivial
  ((eval_local hle (hall e) fun _ _ => ⟨rfl, fun _ _ f _ => hall f⟩).eq hne).symm

/-- What evaluation comes to when calls may nest as deep as they need to; `none` if it has no
end. -/
def ComesTo (e : Expr) (σ : Scope) : Option Reading → Prop
  | some r => r ≠ .error .exhausted ∧ ∃ depth, e.eval depth σ = r
  | none => ∀ depth, e.eval depth σ = .error .exhausted

/-- Every expression comes to one thing in a scope. -/
theorem existsUnique_comesTo (e : Expr) (σ : Scope) : ∃! outcome, e.ComesTo σ outcome := by
  by_cases hend : ∃ depth, e.eval depth σ ≠ .error .exhausted
  · obtain ⟨d, hd⟩ := hend
    refine ⟨some (e.eval d σ), ⟨hd, d, rfl⟩, ?_⟩
    intro outcome h
    cases outcome with
    | none => exact absurd (h d) hd
    | some r =>
        obtain ⟨hne, d', rfl⟩ := h
        rcases Nat.le_total d d' with hle | hle
        · rw [eval_of_le hle hd]
        · rw [eval_of_le hle hne]
  · have hall : ∀ depth, e.eval depth σ = .error .exhausted := by
      intro depth
      by_contra hne
      exact hend ⟨depth, hne⟩
    refine ⟨none, hall, ?_⟩
    intro outcome h
    cases outcome with
    | none => rfl
    | some r =>
        obtain ⟨hne, d, rfl⟩ := h
        exact absurd (hall d) hne

/-- A relation between readings that goes through evaluation step by step. -/
structure Carries (R : Reading → Reading → Prop) : Prop where
  refl : ∀ r, R r r
  bind : ∀ {r r' : Reading} {f f' : Value → Reading}, R r r' → (∀ v, R (f v) (f' v)) →
    R (r.bind f) (r'.bind f')

theorem carries_approaches : Carries (Approaches fun _ => True) where
  refl _ := .refl fun _ _ => trivial
  bind h hf := h.bind fun v _ => hf v

theorem carries_approaches_flip : Carries (flip (Approaches fun _ => True)) where
  refl _ := .refl fun _ _ => trivial
  bind h hf := Approaches.bind h fun v _ => hf v

section Inlining

variable {whole r : Expr} {x : Ident} {w : Value} {base σ σ' : Scope}

/-- The scopes for parts of an expression before and after a name is replaced: the name is bound in
the first, the names of the replacement are as they were in both, and labels stand for parts before
and after. -/
structure Inlines (whole : Expr) (x : Ident) (r : Expr) (w : Value) (base σ σ' : Scope) : Prop where
  name : σ.lookup x = some w
  others : ∀ y, y ≠ x → ¬whole.IsLabel y → σ'.lookup y = σ.lookup y
  replacement : ∀ y, r.Names y → σ'.lookup y = base.lookup y
  labels : ∀ l, whole.IsLabel l → (σ.lookup l = none ∧ σ'.lookup l = none) ∨
    ∃ k y body a, (fix k y body a).uses ⊆ whole.uses ∧
      σ.lookup l = some (.code (fix k y body a)) ∧
      σ'.lookup l = some (.code ((fix k y body a).put x r))

theorem lookup_cons_of_ne {y z : Ident} {v : Value} (h : y ≠ z) :
    ((z, v) :: σ : Scope).lookup y = σ.lookup y := by
  rw [List.lookup_cons, beq_false_of_ne h]

namespace Inlines

theorem start (hadmits : whole.Admits x r)
    (hunbound : ∀ l, whole.IsLabel l → base.lookup l = none) :
    Inlines whole x r w base ((x, w) :: base) base where
  name := List.lookup_cons_self
  others y hy _ := (lookup_cons_of_ne hy).symm
  replacement _ _ := rfl
  labels l hl := by
    refine .inl ⟨?_, hunbound l hl⟩
    rw [lookup_cons_of_ne (hadmits.labels l hl).1]
    exact hunbound l hl

theorem parameter (h : Inlines whole x r w base σ σ') (hadmits : whole.Admits x r) {y : Ident}
    (hy : (.parameter, y) ∈ whole.uses) (v : Value) :
    Inlines whole x r w base ((y, v) :: σ) ((y, v) :: σ') where
  name := by
    rw [lookup_cons_of_ne (hadmits.binders y (.inl hy)).1.symm]
    exact h.name
  others z hz hlabel := by
    simp only [List.lookup_cons]
    split
    · rfl
    · exact h.others z hz hlabel
  replacement z hz := by
    have hne : z ≠ y := fun heq => (hadmits.binders y (.inl hy)).2 (heq ▸ hz)
    rw [lookup_cons_of_ne hne]
    exact h.replacement z hz
  labels l hl := by
    have hne : l ≠ y := fun heq => (hadmits.labels l hl).2.2 (heq ▸ hy)
    simp only [lookup_cons_of_ne hne]
    exact h.labels l hl

theorem label (h : Inlines whole x r w base σ σ') (hadmits : whole.Admits x r) {l y : Ident}
    {body a : Expr} (hpart : (fix l y body a).uses ⊆ whole.uses) :
    Inlines whole x r w base ((l, .code (fix l y body a)) :: σ)
      ((l, .code ((fix l y body a).put x r)) :: σ') := by
  have hl : (.label, l) ∈ whole.uses := hpart List.mem_cons_self
  obtain ⟨hx, hr⟩ := hadmits.binders l (.inr hl)
  refine ⟨?_, ?_, ?_, ?_⟩
  · rw [lookup_cons_of_ne hx.symm]
    exact h.name
  · intro z hz hlabel
    have hne : z ≠ l := fun heq => hlabel (heq ▸ .inl hl)
    simp only [lookup_cons_of_ne hne]
    exact h.others z hz hlabel
  · intro z hz
    have hne : z ≠ l := fun heq => hr (heq ▸ hz)
    rw [lookup_cons_of_ne hne]
    exact h.replacement z hz
  · intro k hk
    by_cases heq : k = l
    · subst heq
      exact .inr ⟨k, y, body, a, hpart, List.lookup_cons_self, List.lookup_cons_self⟩
    · simp only [lookup_cons_of_ne heq]
      exact h.labels k hk

end Inlines

/-- Replacing a name and binding it come to readings in the relation, if the replacement comes to
what the name is bound to and calls do the same. -/
theorem evalWith_put {R : Reading → Reading → Prop} (hR : Carries R) (hadmits : whole.Admits x r)
    {call call' : Expr → Scope → Reading}
    (hcall : ∀ body σ σ', body.uses ⊆ whole.uses → Inlines whole x r w base σ σ' →
      R (call body σ) (call' (body.put x r) σ'))
    (hr : ∀ σ', (∀ y, r.Names y → σ'.lookup y = base.lookup y) →
      R (.ok w) (r.evalWith call' σ'))
    {e : Expr} (hpart : e.uses ⊆ whole.uses) (hσ : Inlines whole x r w base σ σ') :
    R (e.evalWith call σ) ((e.put x r).evalWith call' σ') := by
  induction e generalizing σ σ' with
  | ident y =>
      by_cases hy : y = x
      · subst hy
        simp only [put, if_true, evalWith, hσ.name]
        exact hr σ' hσ.replacement
      · have hread : (.read, y) ∈ whole.uses := hpart List.mem_cons_self
        have hlabel : ¬whole.IsLabel y := fun hl => (hadmits.labels y hl).2.1 hread
        simp only [put, if_neg hy, evalWith, hσ.others y hy hlabel]
        exact hR.refl _
  | prop target name ih =>
      apply hR.bind (ih hpart hσ)
      intro v
      exact hR.refl _
  | elem target index iht ihi =>
      obtain ⟨ht, hi⟩ := List.append_subset.1 hpart
      apply hR.bind (iht ht hσ)
      intro v
      apply hR.bind (ihi hi hσ)
      intro key
      exact hR.refl _
  | const value => exact hR.refl _
  | typeOf operand ih =>
      apply hR.bind (ih hpart hσ)
      intro v
      exact hR.refl _
  | eq left right ihl ihr | ne left right ihl ihr =>
      obtain ⟨hl, hr⟩ := List.append_subset.1 hpart
      apply hR.bind (ihl hl hσ)
      intro v
      apply hR.bind (ihr hr hσ)
      intro u
      exact hR.refl _
  | and left right ihl ihr =>
      obtain ⟨hl, hr⟩ := List.append_subset.1 hpart
      apply hR.bind (ihl hl hσ)
      intro v
      split
      · exact ihr hr hσ
      · exact hR.refl _
  | or left right ihl ihr =>
      obtain ⟨hl, hr⟩ := List.append_subset.1 hpart
      apply hR.bind (ihl hl hσ)
      intro v
      split
      · exact hR.refl _
      · exact ihr hr hσ
  | recur label argument ih =>
      obtain ⟨hlabel, ha⟩ := List.cons_subset.1 hpart
      rcases hσ.labels label (.inr hlabel) with ⟨hl, hl'⟩ | ⟨k, y, body, a, hcode, hl, hl'⟩
      · simp only [put, evalWith, hl, hl']
        exact hR.refl _
      · simp only [put, evalWith, hl, hl']
        apply hR.bind (ih ha hσ)
        intro v
        simp only [uses, List.cons_subset, List.append_subset] at hcode
        obtain ⟨_, hy, hb, _⟩ := hcode
        exact hcall body _ _ hb (hσ.parameter hadmits hy v)
  | fix label y body argument ihb iha =>
      have hparts := hpart
      simp only [uses, List.cons_subset, List.append_subset] at hparts
      obtain ⟨_, hy, hb, ha⟩ := hparts
      apply hR.bind (iha ha hσ)
      intro v
      exact ihb hb ((hσ.label hadmits hpart).parameter hadmits hy v)

theorem eval_put {R : Reading → Reading → Prop} (hR : Carries R) (hadmits : whole.Admits x r)
    {d : Nat} (shift : Nat) (hstart : ∀ f g σ σ', R (callAt 0 f σ) (callAt shift g σ'))
    (hr : ∀ d σ', (∀ y, r.Names y → σ'.lookup y = base.lookup y) →
      R (.ok w) (r.eval (d + shift) σ'))
    {e : Expr} (hpart : e.uses ⊆ whole.uses) (hσ : Inlines whole x r w base σ σ') :
    R (e.eval d σ) ((e.put x r).eval (d + shift) σ') := by
  induction d generalizing e σ σ' with
  | zero =>
      have hr := hr 0
      rw [Nat.zero_add, eval_eq_evalWith shift] at hr ⊢
      exact evalWith_put hR hadmits (fun body σ _ _ _ => hstart body _ σ _) hr hpart hσ
  | succ d ih =>
      have hr := hr (d + 1)
      rw [Nat.add_right_comm] at hr ⊢
      exact evalWith_put hR hadmits (fun body _ _ hbody hσ => ih hbody hσ) hr hpart hσ

theorem agree_of_isPlain (hplain : ∀ y v, base.lookup y = some v → v.isPlain = true)
    (h : ∀ y, r.Names y → σ.lookup y = base.lookup y) :
    Agree r.Names base σ ∧ Agree r.Names σ base := by
  refine ⟨fun y hy => ⟨(h y hy).symm, ?_⟩, fun y hy => ⟨h y hy, ?_⟩⟩
  · intro v hv
    exact .of_isPlain (hplain y v hv)
  · intro v hv
    rw [h y hy] at hv
    exact .of_isPlain (hplain y v hv)

theorem within_names (e : Expr) : e.Within e.Names :=
  fun use huse => ⟨use.1, huse⟩

end Inlining

/-- Two expressions come to the same where each reading of one is approached by one of the other. -/
theorem comesTo_congr {e e' : Expr} {σ σ' : Scope} {I : Value → Prop}
    (h : ∀ d, ∃ d', Approaches I (e.eval d σ) (e'.eval d' σ'))
    (h' : ∀ d, ∃ d', Approaches I (e'.eval d σ') (e.eval d' σ)) (outcome : Option Reading) :
    e.ComesTo σ outcome ↔ e'.ComesTo σ' outcome := by
  have hsome : ∀ {e e' : Expr} {σ σ' : Scope},
      (∀ d, ∃ d', Approaches I (e.eval d σ) (e'.eval d' σ')) →
      ∀ r, e.ComesTo σ (some r) → e'.ComesTo σ' (some r) := by
    rintro e e' σ σ' h r ⟨hne, d, rfl⟩
    obtain ⟨d', hd'⟩ := h d
    exact ⟨hne, d', (hd'.eq hne).symm⟩
  have hnone : ∀ {e e' : Expr} {σ σ' : Scope},
      (∀ d, ∃ d', Approaches I (e'.eval d σ') (e.eval d' σ)) →
      e.ComesTo σ none → e'.ComesTo σ' none := by
    intro e e' σ σ' h hend d
    obtain ⟨d', hd'⟩ := h d
    by_contra hne
    exact hne ((hd'.eq hne).trans (hend d'))
  cases outcome with
  | none => exact ⟨hnone h', hnone h⟩
  | some r => exact ⟨hsome h r, hsome h' r⟩

/-- Inlining keeps the meaning: an expression with another in the place of a name comes to what it
comes to where the name is bound to the value of that other. -/
theorem replace_keeps_meaning {e r : Expr} {x : Ident} {σ : Scope} {w : Value}
    (hplain : ∀ y v, σ.lookup y = some v → v.isPlain = true) (hr : r.ComesTo σ (some (.ok w)))
    (hadmits : e.Admits x r) (hunbound : ∀ l, e.IsLabel l → σ.lookup l = none) :
    ∃ e', e.replace x r = .ok e' ∧
      ∀ outcome, e'.ComesTo σ outcome ↔ e.ComesTo ((x, w) :: σ) outcome := by
  obtain ⟨hne, k, hk⟩ := hr
  refine ⟨e.put x r, replace_eq_ok.2 ⟨hadmits.fresh, rfl⟩, comesTo_congr (I := fun _ => True) ?_ ?_⟩
  · -- The replacement may come short of its value, and then so does the whole.
    intro d
    refine ⟨d, eval_put carries_approaches_flip hadmits 0 (fun _ _ _ _ => .exhausted _)
      (fun d σ' hσ' => ?_) (List.Subset.refl _) (.start hadmits hunbound)⟩
    have heval : r.eval (max d k) σ = .ok w :=
      (eval_of_le (Nat.le_max_right d k) (hk ▸ hne)).trans hk
    have hshort := eval_local (Nat.le_max_left d k) r.within_names (agree_of_isPlain hplain hσ').2
    rw [heval] at hshort
    exact hshort.mono fun _ _ => trivial
  · -- Calls inside the replacement nest at most `k` deep wherever it is put.
    intro d
    refine ⟨d + k, eval_put carries_approaches hadmits k (fun _ _ _ _ => .exhausted _)
      (fun d σ' hσ' => ?_) (List.Subset.refl _) (.start hadmits hunbound)⟩
    have heval := (eval_local (Nat.le_add_left k d) r.within_names
      (agree_of_isPlain hplain hσ').1).eq (hk ▸ hne)
    rw [← heval, hk]
    exact .ok trivial

/-- Looks for a value along a chain of links. -/
def seek : Expr :=
  fix (.named "find") (.named "here")
    (or (eq (named "here") (named "wanted"))
      (recur (.named "find") (elem (named "here") (const (.str "next")))))
    (named "chain")

/-- The value that is looked for is two links down. -/
def seekScope : Scope :=
  [(.named "chain", .dict [(.str "next", .dict [(.str "next", .int 5)])]),
    (.named "query", .dict [(.str "key", .int 5)])]

theorem replace_keeps_meaning_seek : ∃ e,
    seek.replace (.named "wanted") (prop (named "query") "key") = .ok e ∧
      e.ComesTo seekScope (some (.ok (.bool true))) := by
  have hplain : ∀ y v, seekScope.lookup y = some v → v.isPlain = true := by
    have hall : ∀ binding ∈ seekScope, binding.2.isPlain = true := by decide
    intro y v h
    obtain ⟨before, after, heq, _⟩ := List.lookup_eq_some_iff.1 h
    exact hall (y, v) (heq ▸ List.mem_append_right before List.mem_cons_self)
  have hadmits : seek.Admits (.named "wanted") (prop (named "query") "key") := by
    constructor
    · simp [seek, named, uses, Names]
    · simp [seek, named, uses, IsLabel]
  have hunbound : ∀ l, seek.IsLabel l → seekScope.lookup l = none := by
    simp [seek, named, uses, IsLabel, seekScope]
  have hkey : (prop (named "query") "key").ComesTo seekScope (some (.ok (.int 5))) :=
    ⟨nofun, 0, eq_ok_of_toOption (by decide +kernel)⟩
  obtain ⟨e, he, hmeaning⟩ := replace_keeps_meaning hplain hkey hadmits hunbound
  exact ⟨e, he, (hmeaning _).2 ⟨nofun, 2, eq_ok_of_toOption (by decide +kernel)⟩⟩

end Expr

end TypeGuard
