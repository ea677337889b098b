import TypeGuard.Proofs.Decision
import TypeGuard.Proofs.History
import TypeGuard.Proofs.Runs
import TypeGuard.Proofs.TwinGuards

/-! A verdict does not depend on what was numbered before. An input may be built at any time, among
any other types; what it comes to is the same but for the numbers in the guard. -/

namespace TypeGuard

/-! Guards that differ in their numbers only. -/

/-- No number has two twins, and no two numbers have the same. -/
structure IsMatching (R : Nat → Nat → Prop) : Prop where
  left : ∀ {n m k : Nat}, R n k → R m k → n = m
  right : ∀ {n m k : Nat}, R n m → R n k → m = k

namespace Expr

theorem Twin.eq_mapNumbers {R : Nat → Nat → Prop} {f : Nat → Nat} {e e' : Expr} (h : e.Twin R e')
    (hf : ∀ n m, R n m → m ∈ e'.numbers → f n = m) : e' = e.mapNumbers f := by
  have hident : ∀ {i i' : Ident}, i.Twin R i' → (∀ n m, R n m → m ∈ i'.numbers → f n = m) →
      i' = i.mapNumber f := by
    intro i i' hi hf
    cases hi with
    | named s => rfl
    | slot hn => exact congrArg Ident.slot (hf _ _ hn List.mem_cons_self).symm
    | guard s hn => exact congrArg (Ident.guard s) (hf _ _ hn List.mem_cons_self).symm
  induction h with
  | ident hi => exact congrArg Expr.ident (hident hi hf)
  | prop _ s ih => rw [mapNumbers, ← ih hf]
  | const v => rfl
  | typeOf _ ih => rw [mapNumbers, ← ih hf]
  | elem _ _ iha ihb | eq _ _ iha ihb | ne _ _ iha ihb | and _ _ iha ihb | or _ _ iha ihb =>
      rw [mapNumbers, ← iha fun n m hnm hm => hf n m hnm (List.mem_append_left _ hm),
        ← ihb fun n m hnm hm => hf n m hnm (List.mem_append_right _ hm)]
  | recur hl _ ih =>
      rw [mapNumbers, ← hident hl fun n m hnm hm => hf n m hnm (List.mem_append_left _ hm),
        ← ih fun n m hnm hm => hf n m hnm (List.mem_append_right _ hm)]
  | fix hl hx _ _ ihb iha =>
      rw [mapNumbers]
      simp only [numbers, List.mem_append] at hf
      rw [← hident hl fun n m hnm hm => hf n m hnm (.inl (.inl (.inl hm))),
        ← hident hx fun n m hnm hm => hf n m hnm (.inl (.inl (.inr hm))),
        ← ihb fun n m hnm hm => hf n m hnm (.inl (.inr hm)),
        ← iha fun n m hnm hm => hf n m hnm (.inr hm)]

theorem exists_bound (ns : List Nat) : ∃ bound, ∀ n ∈ ns, n < bound := by
  induction ns with
  | nil => exact ⟨0, by simp⟩
  | cons n rest ih =>
      obtain ⟨bound, hbound⟩ := ih
      refine ⟨bound + n + 1, List.forall_mem_cons.2 ⟨by omega, fun m hm => ?_⟩⟩
      have hlt := hbound m hm
      omega

/-- Twins are the same up to one renaming of their numbers. -/
theorem Twin.exists_mapNumbers {R : Nat → Nat → Prop} {e e' : Expr} (hR : IsMatching R)
    (h : e.Twin R e') : ∃ f : Nat → Nat, Function.Injective f ∧ e' = e.mapNumbers f := by
  classical
  -- Numbers without a twin are moved above all that are in use.
  obtain ⟨bound, hbound⟩ := exists_bound e'.numbers
  let f : Nat → Nat := fun n =>
    if hn : ∃ m, R n m ∧ m ∈ e'.numbers then hn.choose else n + bound
  have hf : ∀ n m, R n m → m ∈ e'.numbers → f n = m := by
    intro n m hnm hm
    have hn : ∃ m, R n m ∧ m ∈ e'.numbers := ⟨m, hnm, hm⟩
    simp only [f, dif_pos hn]
    exact hR.right hn.choose_spec.1 hnm
  refine ⟨f, ?_, h.eq_mapNumbers hf⟩
  intro n n' heq
  by_cases hn : ∃ m, R n m ∧ m ∈ e'.numbers
  · obtain ⟨m, hnm, hm⟩ := hn
    rw [hf n m hnm hm] at heq
    by_cases hn' : ∃ m, R n' m ∧ m ∈ e'.numbers
    · obtain ⟨m', hnm', hm'⟩ := hn'
      rw [hf n' m' hnm' hm'] at heq
      subst heq
      exact hR.left hnm hnm'
    · simp only [f, dif_neg hn'] at heq
      have hlt := hbound m hm
      omega
  · by_cases hn' : ∃ m, R n' m ∧ m ∈ e'.numbers
    · obtain ⟨m', hnm', hm'⟩ := hn'
      rw [hf n' m' hnm' hm'] at heq
      simp only [f, dif_neg hn] at heq
      have hlt := hbound m' hm'
      omega
    · simp only [f, dif_neg hn, dif_neg hn'] at heq
      omega

theorem twin_mapNumbers (f g : Nat → Nat) (e : Expr) :
    (e.mapNumbers f).Twin (fun n m => ∃ k, f k = n ∧ g k = m) (e.mapNumbers g) := by
  have hident : ∀ i : Ident, (i.mapNumber f).Twin (fun n m => ∃ k, f k = n ∧ g k = m)
      (i.mapNumber g) := by
    intro i
    cases i with
    | named s => exact .named s
    | slot k => exact .slot ⟨k, rfl, rfl⟩
    | guard s k => exact .guard s ⟨k, rfl, rfl⟩
  induction e with
  | ident i => exact .ident (hident i)
  | prop a s ih => exact .prop ih s
  | const v => exact .const v
  | typeOf a ih => exact .typeOf ih
  | elem a b iha ihb => exact .elem iha ihb
  | eq a b iha ihb => exact .eq iha ihb
  | ne a b iha ihb => exact .ne iha ihb
  | and a b iha ihb => exact .and iha ihb
  | or a b iha ihb => exact .or iha ihb
  | recur l a ih => exact .recur (hident l) ih
  | fix l x b a ihb iha => exact .fix (hident l) (hident x) ihb iha

end Expr

/-- The same guards up to a renaming of the numbers in them, the same rejections, the same
faults. -/
inductive Verdict.Alike : Except Fault Verdict → Except Fault Verdict → Prop
  | compiled {e : Expr} (f : Nat → Nat) (hf : Function.Injective f) :
      Alike (.ok (.compiled e)) (.ok (.compiled (e.mapNumbers f)))
  | rejected (r : Rejection) : Alike (.ok (.rejected r)) (.ok (.rejected r))
  | fault (f : Fault) : Alike (.error f) (.error f)

theorem Verdict.Alike.exists_mapNumbers {e : Expr} {v : Except Fault Verdict}
    (h : Verdict.Alike (.ok (.compiled e)) v) :
    ∃ f : Nat → Nat, Function.Injective f ∧ v = .ok (.compiled (e.mapNumbers f)) := by
  cases h with
  | compiled f hf => exact ⟨f, hf, rfl⟩

theorem Verdict.Alike.of_common {v v₁ v₂ : Except Fault Verdict} (h₁ : Verdict.Alike v v₁)
    (h₂ : Verdict.Alike v v₂) : Verdict.Alike v₁ v₂ := by
  cases h₁ with
  | @compiled e f hf =>
      cases h₂ with
      | compiled g hg =>
          have hmatching : IsMatching fun n m => ∃ k, f k = n ∧ g k = m := by
            constructor
            · rintro n m k ⟨i, rfl, rfl⟩ ⟨j, rfl, hj⟩
              rw [hg hj]
            · rintro n m k ⟨i, rfl, rfl⟩ ⟨j, hj, rfl⟩
              rw [hf hj]
          obtain ⟨r, hr, heq⟩ := (Expr.twin_mapNumbers f g e).exists_mapNumbers hmatching
          rw [heq]
          exact .compiled r hr
  | rejected r =>
      cases h₂
      exact .rejected r
  | fault f =>
      cases h₂
      exact .fault f

namespace Subject

variable {cat : Catalog} {subject : Subject} {accessor : Expr}

/-- The parameters of the input may be others, and the table may be any. -/
theorem compile_rename (hcat : cat.IsWritten) (hsubject : subject.IsWritten)
    (haccessor : accessor.numbers = []) (ρ : Renaming) (limit : Nat) (args : List Ty)
    (table table' : Numbering) :
    Verdict.Alike (subject.compile cat limit accessor args table).verdict
      ((subject.rename ρ).compile (cat.rename ρ) limit accessor (args.map (Ty.rename ρ))
        table').verdict := by
  have hagree : Guard.Agree ρ ⟨table, table'⟩ accessor accessor := .of_numbers haccessor
  have hends := (twin_walkWith hcat limit hsubject args hagree { numbering := table }
    { numbering := table' } ⟨rfl, rfl⟩ (.refl _)).raising cat.files
  have hjudge : ∀ {s s' : Session} {v v' : Verdict}, s.Twin ρ s' → Verdict.Alike (.ok v) (.ok v') →
      Verdict.Alike (judge s (pure v)).verdict (judge s' (pure v')).verdict := by
    intro s s' v v' htwin hv
    simp only [judge, htwin.ctx, Context.isClear_rename]
    split
    · exact hv
    · exact .fault _
  have hfiles : (cat.rename ρ).files = cat.files := rfl
  rw [compile, compile, hfiles]
  revert hends
  generalize (subject.walkWith cat limit accessor args).raising cat.files _ = r
  generalize ((subject.rename ρ).walkWith (cat.rename ρ) limit accessor _).raising _ _ = r'
  intro hends
  cases hends with
  | @ok e e' s s' htwin hext he =>
      have hmatching : IsMatching ((s.tables s').Agree ρ) :=
        ⟨Tables.Agree.left_unique, Tables.Agree.right_unique⟩
      obtain ⟨f, hf, rfl⟩ := Expr.Twin.exists_mapNumbers hmatching he
      exact hjudge htwin (.compiled f hf)
  | @error fault s s' htwin hext =>
      cases fault with
      | rejected r => exact hjudge htwin (.rejected r)
      | _ => exact .fault _

end Subject

/-! Runs over many subjects. -/

namespace Run

variable {σ : Type} {host : Host σ} {files : Files} {policy : Policy} {subject : Subject}

theorem step_eq_ok {run run' : RunState σ} {result : Option (Subject × Expr)}
    (h : step host files policy subject run = .ok result run') :
    ∃ state verdict, (host.compile subject state).verdict = .ok verdict ∧
      result = Verdict.kept (subject, verdict) := by
  cases hname : host.name subject with
  | error fault =>
      rw [step_unnamed files policy hname] at h
      cases h
  | ok name =>
      refine ⟨run.state, ?_⟩
      cases hverdict : (host.compile subject run.state).verdict with
      | error fault =>
          obtain ⟨run₁, _, hstep⟩ := step_named files policy run hname
          rw [hstep, hverdict] at h
          cases h
      | ok verdict =>
          refine ⟨verdict, rfl, ?_⟩
          cases verdict with
          | compiled guard =>
              obtain ⟨run₁, _, hstep⟩ := step_compiled files policy hname hverdict
              rw [hstep] at h
              cases h
              rfl
          | rejected r =>
              obtain ⟨run₁, _, hgo, hstop⟩ := step_rejected files policy hname hverdict
              by_cases hlets : policy.Lets run.report.limit (run.report.issues.length + 1)
              · rw [hgo hlets] at h
                cases h
                rfl
              · rw [hstop hlets] at h
                cases h

theorem mapM_step_eq_ok {subjects : List Subject} {run run' : RunState σ}
    {results : List (Option (Subject × Expr))}
    (h : subjects.mapM (step host files policy) run = .ok results run') :
    List.Forall₂ (fun subject result => ∃ run run',
      step host files policy subject run = .ok result run') subjects results := by
  induction subjects generalizing run results with
  | nil =>
      cases h
      exact .nil
  | cons subject rest ih =>
      rw [List.mapM_cons, bind_apply] at h
      cases hfirst : step host files policy subject run with
      | error stop run₁ =>
          rw [hfirst] at h
          cases h
      | ok result run₁ =>
          rw [hfirst] at h
          simp only [bind_apply] at h
          cases hrest : rest.mapM (step host files policy) run₁ with
          | error stop run₂ =>
              rw [hrest] at h
              cases h
          | ok more run₂ =>
              rw [hrest] at h
              cases h
              exact .cons ⟨run, run₁, hfirst⟩ (ih hrest)

end Run

/-- The guards that a run comes to are those of the subjects on their own, if each subject is judged
alike from every state. -/
theorem Run.compileAll_alike {σ : Type} {host : Host σ} {files : Files} {policy : Policy}
    {subjects : List Subject} {run run' : RunState σ} {results : List (Subject × Expr)}
    (view : Subject → Subject) (alone : Subject → Outcome σ)
    (halike : ∀ subject ∈ subjects, ∀ state, Verdict.Alike
      (host.compile (view subject) state).verdict (alone subject).verdict)
    (h : compileAll host files policy (subjects.map view) run = .ok results run') :
    List.Forall₂ (fun result result' => result.1 = view result'.1 ∧
        ∃ f : Nat → Nat, Function.Injective f ∧ result'.2 = result.2.mapNumbers f) results
      (subjects.filterMap fun subject => (alone subject).guard?.map (subject, ·)) := by
  rw [compileAll, bind_apply] at h
  cases hsteps : (subjects.map view).mapM (step host files policy) run with
  | error stop run₁ =>
      rw [hsteps] at h
      cases h
  | ok all run₁ =>
      rw [hsteps] at h
      cases h
      have hall := List.forall₂_map_left_iff.1 (mapM_step_eq_ok hsteps)
      clear hsteps
      induction hall with
      | nil => exact .nil
      | @cons subject result rest results hfirst _ ih =>
          rw [List.forall_mem_cons] at halike
          obtain ⟨_, _, hstep⟩ := hfirst
          obtain ⟨state, verdict, hverdict, rfl⟩ := step_eq_ok hstep
          have hsame := halike.1 state
          rw [hverdict] at hsame
          rw [List.filterMap_cons, List.filterMap_cons, Outcome.guard?]
          cases verdict with
          | compiled guard =>
              obtain ⟨f, hf, hother⟩ := hsame.exists_mapNumbers
              rw [hother]
              exact .cons ⟨rfl, f, hf, rfl⟩ (ih halike.2)
          | rejected r =>
              generalize (alone subject).verdict = other at hsame
              cases hsame
              exact ih halike.2

/-! Inputs that are built among other types. -/

/-- A history in which the parameters of an input were made, after the start and among any other
types. The list shows which parameter was made for which of the input. -/
inductive History.Builds (start : History) : History → List (TypeParam × TypeParam) → Prop
  | start : Builds start start []
  | other {h h' : History} {made : List (TypeParam × TypeParam)} (hbuilds : Builds start h made)
      (hstep : h.Step h') : Builds start h' made
  | param {h : History} {made : List (TypeParam × TypeParam)} (hbuilds : Builds start h made)
      (x : TypeParam) :
      Builds start (h.fresh x.name) ((x, (h.table.freshParam x.name).1) :: made)

namespace History.Builds

variable {start h : History} {made : List (TypeParam × TypeParam)}

theorem size_le {h h' : History} (hstep : h.Step h') : h.table.size ≤ h'.table.size := by
  have hadd : ∀ t node, h.table.size ≤ (h.add t node).table.size := fun t node =>
    (Numbering.numberNode_spec node t h.table).1.length_le
  cases hstep with
  | make hlayer => exact hadd _ _
  | param name => exact hadd _ _

theorem made_spec (hstart : start.Reached) (hbuilds : start.Builds h made) :
    h.Sound ∧ (∀ pair ∈ made, pair.2.name = pair.1.name ∧ pair.2.id < h.table.size) ∧
      (made.map fun pair => pair.2.id).Nodup := by
  induction hbuilds with
  | start => exact ⟨hstart.sound, by simp, List.nodup_nil⟩
  | other _ hstep ih =>
      obtain ⟨hs, hmade, hnodup⟩ := ih
      have hle := size_le hstep
      refine ⟨hs.step hstep, fun pair hpair => ?_, hnodup⟩
      exact ⟨(hmade pair hpair).1, Nat.lt_of_lt_of_le (hmade pair hpair).2 hle⟩
  | @param h made _ x ih =>
      obtain ⟨hs, hmade, hnodup⟩ := ih
      rw [List.map_cons, List.nodup_cons, List.forall_mem_cons, hs.size_fresh]
      refine ⟨hs.step (.param x.name), ⟨⟨rfl, Nat.lt_succ_self _⟩, fun pair hpair => ?_⟩, ?_,
        hnodup⟩
      · have hpair := hmade pair hpair
        exact ⟨hpair.1, by omega⟩
      · intro hmem
        obtain ⟨pair, hpair, hid⟩ := List.mem_map.1 hmem
        have hlt := (hmade pair hpair).2
        have hid' : pair.2.id = h.table.size := hid
        omega

/-- The parameter that was made for one of the input. Those that none was made for stay apart from
all that there are. -/
def place (h : History) (made : List (TypeParam × TypeParam)) (x : TypeParam) : TypeParam :=
  (made.lookup x).getD ⟨x.name, h.table.size + x.id⟩

theorem place_spec (h : History) (made : List (TypeParam × TypeParam)) (x : TypeParam) :
    (x, place h made x) ∈ made ∨ place h made x = ⟨x.name, h.table.size + x.id⟩ := by
  unfold place
  cases hx : made.lookup x with
  | none => exact .inr rfl
  | some y =>
      obtain ⟨before, after, rfl, _⟩ := List.lookup_eq_some_iff.1 hx
      exact .inl (List.mem_append_right before List.mem_cons_self)

/-- The parameters of an input become the ones that were made for them. -/
def placing (hbuilds : start.Builds h made) (hstart : start.Reached) : Renaming where
  map := place h made
  injective {x y} heq := by
    obtain ⟨_, hmade, hnodup⟩ := made_spec hstart hbuilds
    have hx := place_spec h made x
    rw [heq] at hx
    rcases hx with hx | hx <;> rcases place_spec h made y with hy | hy
    · exact congrArg Prod.fst (List.inj_on_of_nodup_map hnodup hx hy rfl)
    · have hlt := (hmade _ hx).2
      simp only [hy] at hlt
      omega
    · have hlt := (hmade _ hy).2
      simp only [hx] at hlt
      omega
    · rw [hx, TypeParam.mk.injEq] at hy
      have hid : x.id = y.id := by omega
      cases x
      cases y
      rw [TypeParam.mk.injEq]
      exact ⟨hy.1, hid⟩
  name x := by
    obtain ⟨_, hmade, _⟩ := made_spec hstart hbuilds
    rcases place_spec h made x with hx | hx
    · exact (hmade _ hx).1
    · rw [hx]

end History.Builds

/-- An input is judged alike wherever it is built: on its own, after what was judged before it, and
as one of many. -/
theorem Subject.verdict_is_independent {cat : Catalog} {accessor : Expr} (hcat : cat.IsWritten)
    (haccessor : accessor.numbers = []) (limit : Nat) {start start' h h' : History}
    {made made' : List (TypeParam × TypeParam)} (hstart : start.Reached) (hstart' : start'.Reached)
    (hbuilds : start.Builds h made) (hbuilds' : start'.Builds h' made') :
    let ρ := hbuilds.placing hstart
    let ρ' := hbuilds'.placing hstart'
    let alone (subject : Subject) (args : List Ty) := (subject.rename ρ').compile (cat.rename ρ')
      limit accessor (args.map (Ty.rename ρ')) h'.table
    (∀ subject args, Subject.IsWritten subject →
      Verdict.Alike ((subject.rename ρ).compile (cat.rename ρ) limit accessor
        (args.map (Ty.rename ρ)) h.table).verdict (alone subject args).verdict) ∧
    (∀ subject run, Subject.IsWritten subject → ∃ verdict run',
      Verdict.Alike verdict (alone subject []).verdict ∧
      Run.judge ((cat.rename ρ).host limit accessor) (subject.rename ρ) run =
        Run.after run' verdict) ∧
    ∀ files policy (subjects : List Subject) run results run',
      (∀ subject ∈ subjects, Subject.IsWritten subject) →
      Run.compileAll ((cat.rename ρ).host limit accessor) files policy
        (subjects.map (Subject.rename ρ)) run = .ok results run' →
      List.Forall₂ (fun result result' => result.1 = result'.1.rename ρ ∧
          ∃ f : Nat → Nat, Function.Injective f ∧ result'.2 = result.2.mapNumbers f) results
        (subjects.filterMap fun subject => (alone subject []).guard?.map (subject, ·)) := by
  intro ρ ρ' alone
  have halike : ∀ subject args table, Subject.IsWritten subject →
      Verdict.Alike ((subject.rename ρ).compile (cat.rename ρ) limit accessor
        (args.map (Ty.rename ρ)) table).verdict (alone subject args).verdict :=
    fun subject args table hsubject =>
      .of_common (Subject.compile_rename hcat hsubject haccessor ρ limit args h.table table)
        (Subject.compile_rename hcat hsubject haccessor ρ' limit args h.table h'.table)
  refine ⟨fun subject args => halike subject args h.table, fun subject run hsubject => ?_, ?_⟩
  · obtain ⟨run', hrun⟩ :=
      Run.judge_apply ((cat.rename ρ).host limit accessor) (subject.rename ρ) run
    exact ⟨_, run', halike subject [] run.state hsubject, hrun⟩
  · intro files policy subjects run results run' hsubjects hrun
    exact Run.compileAll_alike (Subject.rename ρ) (alone · [])
      (fun subject hmem table => halike subject [] table (hsubjects subject hmem)) hrun

/-- A name of the input can be the one that a number gives. In the table that one earlier type
leaves, the second interface meets its number in the name of its member; in a guard of the first,
the accessor keeps the number that it was written with. -/
theorem Subject.verdict_follows_history :
    let first := Subject.type (.object .interface (.listed "First") [])
    let second := Subject.type (.object .interface (.listed "Second") [])
    let later := ({} : History).fresh "T"
    later.Reached ∧
    ¬Verdict.Alike (second.compile .namesakes 4 (.named "x") [] {}).verdict
      (second.compile .namesakes 4 (.named "x") [] later.table).verdict ∧
    ¬Verdict.Alike (first.compile .namesakes 4 (.ident (.ofText "$0")) [] {}).verdict
      (first.compile .namesakes 4 (.ident (.ofText "$0")) [] later.table).verdict := by
  intro first second later
  refine ⟨.single (.param "T"), fun h => ?_, fun h => ?_⟩
  · cases h
  · have hfirst : ∃ label body, (first.compile .namesakes 4 (.ident (.ofText "$0")) [] {}).verdict =
        .ok (.compiled (.fix label (.slot 0) body (.ident (.slot 0)))) := ⟨_, _, rfl⟩
    have hlater : ∃ label body, (first.compile .namesakes 4 (.ident (.ofText "$0")) []
        later.table).verdict = .ok (.compiled (.fix label (.slot 1) body (.ident (.slot 0)))) :=
      ⟨_, _, rfl⟩
    obtain ⟨label, body, hfirst⟩ := hfirst
    obtain ⟨label', body', hlater⟩ := hlater
    rw [hfirst] at h
    obtain ⟨f, _, hf⟩ := h.exists_mapNumbers
    -- The number of the parameter has changed, and that of the accessor has not.
    simp only [hlater, Except.ok.injEq, Verdict.compiled.injEq, Expr.mapNumbers, Ident.mapNumber,
      Expr.fix.injEq, Expr.ident.injEq, Ident.slot.injEq] at hf
    omega

theorem Catalog.isWritten_chain : chain.IsWritten := by
  refine forall_of_entries fun entry hentry => ?_
  rw [List.mem_singleton.1 hentry]
  refine ⟨fun p hp e he => ?_, fun p hbody => by cases hbody⟩
  simp only [Declaration.members, List.mem_cons, List.not_mem_nil, or_false] at hp
  rcases hp with rfl | rfl <;> cases he <;> rfl

/-! Links, built first of all and after some other types. -/

theorem History.builds_first :
    History.Builds {} (({} : History).fresh "T") [(⟨"T", 0⟩, ⟨"T", 0⟩)] :=
  .param .start ⟨"T", 0⟩

theorem History.builds_later : zeros.Builds (zeros.fresh "T") [(⟨"T", 0⟩, ⟨"T", 6⟩)] :=
  .param .start ⟨"T", 0⟩

theorem Subject.verdict_is_independent_chain :
    let subject := Subject.type (.name "Link" [.primitive "string"])
    let ρ := History.builds_first.placing .refl
    let ρ' := History.builds_later.placing History.reached_zeros
    let guard := chainGuard.mapNumbers (· + 1)
    Catalog.chain.IsWritten ∧ subject.IsWritten ∧
    ((subject.rename ρ).compile (Catalog.chain.rename ρ) 8 (.named "x") []
      (({} : History).fresh "T").table).verdict = .ok (.compiled guard) ∧
    ∃ f : Nat → Nat, Function.Injective f ∧
      ((subject.rename ρ').compile (Catalog.chain.rename ρ') 8 (.named "x") []
        (History.zeros.fresh "T").table).verdict = .ok (.compiled (guard.mapNumbers f)) := by
  intro subject ρ ρ' guard
  have haccessor : (Expr.named "x").numbers = [] := rfl
  have hguard : ((subject.rename ρ).compile (Catalog.chain.rename ρ) 8 (.named "x") []
      (({} : History).fresh "T").table).verdict = .ok (.compiled guard) :=
    Outcome.verdict_of_guard? (by decide +kernel)
  refine ⟨Catalog.isWritten_chain, trivial, hguard, Verdict.Alike.exists_mapNumbers ?_⟩
  rw [← hguard]
  exact (Subject.verdict_is_independent Catalog.isWritten_chain haccessor 8 .refl
    History.reached_zeros History.builds_first History.builds_later).1 subject [] trivial

end TypeGuard
