import Mathlib.Data.Nat.Find
import TypeGuard.Guard.Run

/-! Runs over many subjects. A run judges its subjects one after the other; the policy decides
whether it goes on after a rejection and what it records. -/

namespace TypeGuard

namespace Report

@[simp] theorem issues_progress (line : String) (report : Report) :
    (report.progress line).issues = report.issues := by
  unfold progress
  split <;> rfl

@[simp] theorem limit_progress (line : String) (report : Report) :
    (report.progress line).limit = report.limit := by
  unfold progress
  split <;> rfl

end Report

/-- One run has come from the other: it stands at that state, and these issues are new. -/
structure RunState.Leads {σ : Type} (run run' : RunState σ) (state : σ) (issues : List Issue) :
    Prop where
  state : run'.state = state
  issues : run'.report.issues = run.report.issues ++ issues
  limit : run'.report.limit = run.report.limit

namespace RunState.Leads

variable {σ : Type} {run run' run'' : RunState σ} {state state' : σ} {issues issues' : List Issue}

theorem refl (run : RunState σ) : run.Leads run run.state [] :=
  ⟨rfl, (List.append_nil _).symm, rfl⟩

theorem trans (h : run.Leads run' state issues) (h' : run'.Leads run'' state' issues') :
    run.Leads run'' state' (issues ++ issues') where
  state := h'.state
  issues := by rw [h'.issues, h.issues, List.append_assoc]
  limit := h'.limit.trans h.limit

/-- A line of progress is no issue. -/
theorem progress (line : String)
    (h : RunState.Leads { run with report := run.report.progress line } run' state issues) :
    run.Leads run' state issues where
  state := h.state
  issues := by rw [h.issues, Report.issues_progress]
  limit := by rw [h.limit, Report.limit_progress]

end RunState.Leads

namespace Run

variable {σ α β : Type} {files : Files} {policy : Policy} {subject : Subject}
  {run run' : RunState σ}

theorem bind_apply (w : Run σ α) (f : α → Run σ β) (run : RunState σ) :
    (w >>= f) run = match w run with
      | .ok a run' => f a run'
      | .error stop run' => .error stop run' := by
  simp only [bind, EStateM.bind]
  cases w run <;> rfl

/-! One subject. -/

/-- Where a run is after a verdict: a fault stops it. -/
def after (run : RunState σ) : Except Fault Verdict → EStateM.Result Stop (RunState σ) Verdict
  | .ok verdict => .ok verdict run
  | .error fault => .error (.fault fault) run

theorem forM_info (notes : List Note) (run : RunState σ) :
    ∃ run', run.Leads run' run.state [] ∧
      (notes.forM fun note => info note.text) run = .ok () run' := by
  induction notes generalizing run with
  | nil => exact ⟨run, .refl run, rfl⟩
  | cons note rest ih =>
      obtain ⟨run', hleads, hrest⟩ := ih { run with report := run.report.progress note.text }
      exact ⟨run', hleads.progress note.text, hrest⟩

/-- Within a run, a subject is judged as it is on its own from the state that the run has come to.
The run goes on from the state that this leaves. -/
theorem judge_leads (host : Host σ) (subject : Subject) (run : RunState σ) :
    ∃ run', run.Leads run' (host.compile subject run.state).state [] ∧
      judge host subject run = after run' (host.compile subject run.state).verdict := by
  obtain ⟨run', hleads, hrun'⟩ :=
    forM_info (host.compile subject run.state).notes
      { run with state := (host.compile subject run.state).state }
  refine ⟨run', ⟨hleads.state, hleads.issues, hleads.limit⟩, ?_⟩
  have hget : (get : Run σ (RunState σ)) run = .ok run run := rfl
  have hset : ∀ later : RunState σ, (set later : Run σ Unit) run = .ok () later := fun _ => rfl
  simp only [judge, bind_apply, hget, hset, hrun']
  cases (host.compile subject run.state).verdict <;> rfl

theorem judge_apply (host : Host σ) (subject : Subject) (run : RunState σ) :
    ∃ run', judge host subject run = after run' (host.compile subject run.state).verdict := by
  obtain ⟨run', _, hjudge⟩ := judge_leads host subject run
  exact ⟨run', hjudge⟩

/-- A name that cannot be written stops a run before its subject is looked at. -/
theorem step_unnamed (files : Files) (policy : Policy) {host : Host σ} {fault : Fault}
    (h : host.name subject = .error fault) :
    step host files policy subject run = .error (.fault fault) run := by
  have hname : nameOf host subject run = .error (.fault fault) run := by
    simp only [nameOf, h]
    rfl
  simp only [step, bind_apply, hname]

end Run

/-- How a subject is called, where that can be written. -/
def Host.called {σ : Type} (host : Host σ) (subject : Subject) : String :=
  (host.name subject).toOption.getD ""

/-- The issue that a rejected subject is. -/
def Host.issueOf {σ : Type} (host : Host σ) (files : Files) (bad : Subject × Rejection) : Issue :=
  .ofRejection files (host.called bad.1) bad.2

/-- The issues that a rejection adds to a run. -/
def Policy.issues {σ : Type} (host : Host σ) (files : Files) (policy : Policy)
    (bad : Subject × Rejection) : List Issue :=
  match policy with
  | .warn => [host.issueOf files bad]
  | _ => []

/-- The run goes on after a rejection, which is the issue of that number if it is recorded. -/
def Policy.Lets (policy : Policy) (limit : Int) (count : Nat) : Prop :=
  policy = .skip ∨ policy = .warn ∧ (limit = 0 ∨ count < limit)

theorem Policy.issues_warn {σ : Type} (host : Host σ) (files : Files)
    (bad : List (Subject × Rejection)) :
    bad.flatMap (Policy.warn.issues host files) = bad.map (host.issueOf files) :=
  List.map_eq_flatMap.symm

theorem Policy.issues_of_ne {σ : Type} (host : Host σ) (files : Files) {policy : Policy}
    (h : policy ≠ .warn) (bad : List (Subject × Rejection)) :
    bad.flatMap (policy.issues host files) = [] := by
  rw [List.flatMap_eq_nil_iff]
  intro _ _
  cases policy with
  | warn => exact absurd rfl h
  | skip | abort => rfl

theorem Policy.lets_warn {limit : Int} {count : Nat} :
    Policy.warn.Lets limit count ↔ limit = 0 ∨ count < limit := by
  simp [Policy.Lets]

/-- Where the number of issues matters, every rejection has added one. -/
theorem Policy.lets_iff {σ : Type} (host : Host σ) (files : Files) (policy : Policy) (limit : Int)
    (count : Nat) (bad : List (Subject × Rejection)) (n : Nat) :
    policy.Lets limit (count + (bad.flatMap (policy.issues host files)).length + n) ↔
      policy.Lets limit (count + bad.length + n) := by
  cases policy with
  | skip => exact ⟨fun _ => .inl rfl, fun _ => .inl rfl⟩
  | abort => exact ⟨nofun, nofun⟩
  | warn => rw [issues_warn, List.length_map]

/-- How a rejection stops a run that does not go on. -/
def Policy.stop (policy : Policy) (r : Rejection) : Stop :=
  match policy with
  | .abort => .fault (.rejected r)
  | _ => .tooManyIssues

namespace Run

variable {σ : Type} {host : Host σ} {files : Files} {policy : Policy} {subject : Subject}
  {name : String} {run : RunState σ}

theorem issue_apply (it : Issue) (run : RunState σ) :
    issue it run = if (run.report.add it).isFull then
      .error .tooManyIssues { run with report := run.report.add it }
    else .ok () { run with report := run.report.add it } := by
  have hmodify : (modify fun run => { run with report := run.report.add it } : Run σ Unit) run =
      .ok () { run with report := run.report.add it } := rfl
  have hget : ∀ run : RunState σ, (get : Run σ (RunState σ)) run = .ok run run := fun _ => rfl
  simp only [issue, bind_apply, hmodify, hget]
  split <;> rfl

/-- What becomes of a verdict. -/
def conclude (host : Host σ) (files : Files) (policy : Policy) (subject : Subject) :
    Verdict → Run σ (Option (Subject × Expr))
  | .compiled guard => pure (some (subject, guard))
  | .rejected r => match policy with
      | .skip => pure none
      | .warn => do
          issue (host.issueOf files (subject, r))
          pure none
      | .abort => throw (.fault (.rejected r))

/-- Where a run is after its step on a subject that can be named. -/
theorem step_named (files : Files) (policy : Policy) (run : RunState σ)
    (hname : host.name subject = .ok name) :
    ∃ run', run.Leads run' (host.compile subject run.state).state [] ∧
      step host files policy subject run = match (host.compile subject run.state).verdict with
        | .ok verdict => conclude host files policy subject verdict run'
        | .error fault => .error (.fault fault) run' := by
  obtain rfl : host.called subject = name := by
    rw [Host.called, hname]
    rfl
  let name := host.called subject
  let run₀ : RunState σ := { run with report := run.report.progress ("Type-check for " ++ name) }
  have hnameOf : nameOf host subject run = .ok name run := by
    simp only [nameOf, hname]
    rfl
  have hinfo : info ("Type-check for " ++ name) run = .ok () run₀ := rfl
  obtain ⟨run', hleads, hjudge⟩ := judge_leads host subject run₀
  refine ⟨run', hleads.progress _, ?_⟩
  simp only [step, bind_apply, hnameOf, hinfo, hjudge]
  cases (host.compile subject run₀.state).verdict with
  | error fault => rfl
  | ok verdict => cases verdict <;> rfl

theorem step_apply (files : Files) (policy : Policy) {verdict : Verdict}
    (hname : host.name subject = .ok name)
    (h : (host.compile subject run.state).verdict = .ok verdict) :
    ∃ run', run.Leads run' (host.compile subject run.state).state [] ∧
      step host files policy subject run = conclude host files policy subject verdict run' := by
  obtain ⟨run', hleads, hstep⟩ := step_named files policy run hname
  rw [h] at hstep
  exact ⟨run', hleads, hstep⟩

theorem step_compiled (files : Files) (policy : Policy) {guard : Expr}
    (hname : host.name subject = .ok name)
    (h : (host.compile subject run.state).verdict = .ok (.compiled guard)) :
    ∃ run', run.Leads run' (host.compile subject run.state).state [] ∧
      step host files policy subject run = .ok (some (subject, guard)) run' :=
  step_apply files policy hname h

theorem step_rejected (files : Files) (policy : Policy) {r : Rejection}
    (hname : host.name subject = .ok name)
    (h : (host.compile subject run.state).verdict = .ok (.rejected r)) :
    ∃ run', run.Leads run' (host.compile subject run.state).state
        (policy.issues host files (subject, r)) ∧
      (policy.Lets run.report.limit (run.report.issues.length + 1) →
        step host files policy subject run = .ok none run') ∧
      (¬policy.Lets run.report.limit (run.report.issues.length + 1) →
        step host files policy subject run = .error (policy.stop r) run') := by
  obtain ⟨run', hleads, hstep⟩ := step_apply files policy hname h
  cases policy with
  | skip => exact ⟨run', hleads, fun _ => hstep, fun hnot => absurd (.inl rfl) hnot⟩
  | abort => exact ⟨run', hleads, nofun, fun _ => hstep⟩
  | warn =>
      let it : Issue := host.issueOf files (subject, r)
      let full : RunState σ := { run' with report := run'.report.add it }
      have hfull : (run'.report.add it).isFull = true ↔
          ¬Policy.warn.Lets run.report.limit (run.report.issues.length + 1) := by
        have hcount : (run'.report.add it).issues.length = run.report.issues.length + 1 := by
          simp only [Report.add, hleads.issues, List.append_nil, List.length_append,
            List.length_singleton]
        have hlimit : (run'.report.add it).limit = run.report.limit := hleads.limit
        simp [Report.isFull, Policy.Lets, hcount, hlimit]
      refine ⟨full, ⟨hleads.state, ?_, hleads.limit⟩, fun hlets => ?_, fun hnot => ?_⟩
      · simp only [full, Report.add, hleads.issues, List.append_nil]
        rfl
      · rw [hstep, conclude, bind_apply, issue_apply, if_neg fun h => hfull.1 h hlets]
        rfl
      · rw [hstep, conclude, bind_apply, issue_apply, if_pos (hfull.2 hnot)]
        rfl

end Run

/-! All subjects. -/

/-- The subjects can be named and are judged one after the other, each from the state that those
before it leave. -/
inductive Host.Judges {σ : Type} (host : Host σ) : σ → List (Subject × Verdict) → σ → Prop
  | nil {state : σ} : host.Judges state [] state
  | cons {state state' : σ} {subject : Subject} {name : String} {verdict : Verdict}
      {rest : List (Subject × Verdict)} (hname : host.name subject = .ok name)
      (hverdict : (host.compile subject state).verdict = .ok verdict)
      (hrest : host.Judges (host.compile subject state).state rest state') :
      host.Judges state ((subject, verdict) :: rest) state'

namespace Host.Judges

variable {σ : Type} {host : Host σ} {state mid state' : σ}
  {judged before rest : List (Subject × Verdict)}

theorem of_append (h : host.Judges state (before ++ rest) state') :
    ∃ mid, host.Judges state before mid ∧ host.Judges mid rest state' := by
  induction before generalizing state with
  | nil => exact ⟨state, .nil, h⟩
  | cons first before ih =>
      cases h with
      | cons hname hverdict hrest =>
          obtain ⟨mid, hbefore, hrest⟩ := ih hrest
          exact ⟨mid, .cons hname hverdict hbefore, hrest⟩

theorem append (h : host.Judges state before mid) (h' : host.Judges mid rest state') :
    host.Judges state (before ++ rest) state' := by
  induction h with
  | nil => exact h'
  | cons hname hverdict _ ih => exact .cons hname hverdict (ih h')

end Host.Judges

/-- The guard of a subject that has one. -/
def Verdict.kept : Subject × Verdict → Option (Subject × Expr)
  | (subject, .compiled guard) => some (subject, guard)
  | (_, .rejected _) => none

/-- The rejection of a subject that has none. -/
def Verdict.refused : Subject × Verdict → Option (Subject × Rejection)
  | (_, .compiled _) => none
  | (subject, .rejected r) => some (subject, r)

theorem Verdict.exists_refused {judged : List (Subject × Verdict)} {n : Nat}
    (h : n < (judged.filterMap refused).length) :
    ∃ before subject r rest, judged = before ++ (subject, .rejected r) :: rest ∧
      (before.filterMap refused).length = n := by
  induction judged generalizing n with
  | nil => cases h
  | cons first judged ih =>
      obtain ⟨subject, verdict⟩ := first
      cases verdict with
      | compiled guard =>
          obtain ⟨before, other, r, rest, rfl, hlength⟩ := ih h
          exact ⟨(subject, .compiled guard) :: before, other, r, rest, rfl, hlength⟩
      | rejected r =>
          cases n with
          | zero => exact ⟨[], subject, r, judged, rfl, rfl⟩
          | succ n =>
              obtain ⟨before, other, r', rest, rfl, hlength⟩ := ih (Nat.lt_of_succ_lt_succ h)
              exact ⟨(subject, .rejected r) :: before, other, r', rest, rfl,
                congrArg Nat.succ hlength⟩

namespace Run

variable {σ : Type} {host : Host σ} {files : Files} {policy : Policy} {run : RunState σ}
  {state : σ} {judged : List (Subject × Verdict)}

theorem step_goes_on (files : Files) {subject : Subject} {name : String} {verdict : Verdict}
    (hname : host.name subject = .ok name)
    (h : (host.compile subject run.state).verdict = .ok verdict)
    (hlets : 0 < ([(subject, verdict)].filterMap Verdict.refused).length →
      policy.Lets run.report.limit (run.report.issues.length + 1)) :
    ∃ run', run.Leads run' (host.compile subject run.state).state
        (([(subject, verdict)].filterMap Verdict.refused).flatMap (policy.issues host files)) ∧
      step host files policy subject run =
        .ok (Verdict.kept (subject, verdict)) run' := by
  cases verdict with
  | compiled guard => exact step_compiled files policy hname h
  | rejected r =>
      obtain ⟨run', hleads, hgo, _⟩ := step_rejected files policy hname h
      refine ⟨run', ?_, hgo (hlets (Nat.succ_pos 0))⟩
      rwa [← List.flatMap_singleton (policy.issues host files)] at hleads

/-- A run passes over subjects as long as the policy lets it go on after each rejection. -/
theorem mapM_step (files : Files) (h : host.Judges run.state judged state)
    (hlets : ∀ n < (judged.filterMap Verdict.refused).length,
      policy.Lets run.report.limit (run.report.issues.length + n + 1)) :
    ∃ run', run.Leads run' state
      ((judged.filterMap Verdict.refused).flatMap (policy.issues host files)) ∧
      (judged.map Prod.fst).mapM (step host files policy) run =
        .ok (judged.map Verdict.kept) run' := by
  induction judged generalizing run with
  | nil =>
      cases h
      exact ⟨run, .refl run, rfl⟩
  | cons first rest ih =>
      cases h with
      | @cons _ _ subject _ verdict _ hname hverdict hrest =>
          have hsplit : ((subject, verdict) :: rest).filterMap Verdict.refused =
              [(subject, verdict)].filterMap Verdict.refused ++ rest.filterMap Verdict.refused :=
            List.filterMap_append (l := [_])
          rw [hsplit, List.length_append] at hlets
          obtain ⟨run₁, hleads, hstep⟩ := step_goes_on files hname hverdict fun hpos =>
            hlets 0 (Nat.add_pos_left hpos _)
          -- Each rejection of the first subject is one issue more, if they are counted at all.
          have hmore : ∀ n < (rest.filterMap Verdict.refused).length,
              policy.Lets run₁.report.limit (run₁.report.issues.length + n + 1) := by
            intro n hn
            rw [hleads.limit, hleads.issues, List.length_append, Nat.add_assoc, Policy.lets_iff,
              ← Nat.add_assoc, Nat.add_assoc _ _ n]
            exact hlets _ (Nat.add_lt_add_left hn _)
          rw [← hleads.state] at hrest
          obtain ⟨run', hleads', hmap⟩ := ih hrest hmore
          refine ⟨run', ?_, ?_⟩
          · rw [hsplit, List.flatMap_append]
            exact hleads.trans hleads'
          · rw [List.map_cons, List.mapM_cons, bind_apply, hstep]
            simp only [bind_apply, hmap]
            rfl

theorem compileAll_passes (files : Files) (h : host.Judges run.state judged state)
    (hlets : ∀ n < (judged.filterMap Verdict.refused).length,
      policy.Lets run.report.limit (run.report.issues.length + n + 1)) :
    ∃ run', run.Leads run' state
      ((judged.filterMap Verdict.refused).flatMap (policy.issues host files)) ∧
      compileAll host files policy (judged.map Prod.fst) run =
        .ok (judged.filterMap Verdict.kept) run' := by
  obtain ⟨run', hleads, hmap⟩ := mapM_step files h hlets
  refine ⟨run', hleads, ?_⟩
  have hkept : (judged.map Verdict.kept).filterMap id = judged.filterMap Verdict.kept := by
    rw [List.filterMap_map, Function.id_comp]
  simp only [compileAll, bind_apply, hmap, ← hkept]
  rfl

/-- A run stops at a rejection after which it is not let go on, whatever comes later. -/
theorem compileAll_stops (files : Files) {before rest : List (Subject × Verdict)}
    {subject : Subject} {r : Rejection}
    (h : host.Judges run.state (before ++ (subject, .rejected r) :: rest) state)
    (hlets : ∀ n < (before.filterMap Verdict.refused).length,
      policy.Lets run.report.limit (run.report.issues.length + n + 1))
    (hstop : ¬policy.Lets run.report.limit
      (run.report.issues.length + (before.filterMap Verdict.refused).length + 1)) :
    ∃ run' state', run.Leads run' state'
        ((before.filterMap Verdict.refused ++ [(subject, r)]).flatMap (policy.issues host files)) ∧
      host.Judges run.state (before ++ [(subject, .rejected r)]) state' ∧
      ∀ later, compileAll host files policy (before.map Prod.fst ++ subject :: later) run =
        .error (policy.stop r) run' := by
  obtain ⟨mid, hbefore, hrest⟩ := h.of_append
  obtain ⟨run₁, hleads, hmap⟩ := mapM_step files hbefore hlets
  rw [← hleads.state] at hrest hbefore
  cases hrest with
  | cons hname hverdict hrest =>
      obtain ⟨run', hleads', _, hstep⟩ := step_rejected files policy hname hverdict
      refine ⟨run', _, ?_, hbefore.append (.cons hname hverdict .nil), fun later => ?_⟩
      · rw [List.flatMap_append, List.flatMap_singleton]
        exact hleads.trans hleads'
      · have hstop' : ¬policy.Lets run₁.report.limit (run₁.report.issues.length + 1) := by
          rw [hleads.limit, hleads.issues, List.length_append, Policy.lets_iff]
          exact hstop
        have hfirst : step host files policy subject run₁ = _ := hstep hstop'
        simp only [compileAll, List.mapM_append, List.mapM_cons, bind_apply, hmap, hfirst]

theorem exists_stop (run : RunState σ)
    (hstops : ∃ n < (judged.filterMap Verdict.refused).length,
      ¬policy.Lets run.report.limit (run.report.issues.length + n + 1)) :
    ∃ before subject r rest, judged = before ++ (subject, .rejected r) :: rest ∧
      (∀ n < (before.filterMap Verdict.refused).length,
        policy.Lets run.report.limit (run.report.issues.length + n + 1)) ∧
      ¬policy.Lets run.report.limit
        (run.report.issues.length + (before.filterMap Verdict.refused).length + 1) := by
  classical
  obtain ⟨hlt, hstop⟩ := Nat.find_spec hstops
  obtain ⟨before, subject, r, rest, hjudged, hlength⟩ := Verdict.exists_refused hlt
  refine ⟨before, subject, r, rest, hjudged, fun n hn => ?_, hlength ▸ hstop⟩
  rw [hlength] at hn
  by_contra hnot
  exact Nat.find_min hstops hn ⟨Nat.lt_trans hn hlt, hnot⟩

/-- The three policies agree on the subjects that have a guard. They differ in whether the run goes
on after a rejection and in what it records: nothing, an issue for each until the report is full,
or nothing but the stop. A run that stops has looked at no later subject. -/
theorem policies_agree (files : Files) (h : host.Judges run.state judged state) :
    let subjects := judged.map Prod.fst
    let good := judged.filterMap Verdict.kept
    let bad := judged.filterMap Verdict.refused
    let count := run.report.issues.length
    let room := run.report.limit = 0 ∨ bad = [] ∨ ↑(count + bad.length) < run.report.limit
    (∃ run', compileAll host files .skip subjects run = .ok good run' ∧
      run.Leads run' state []) ∧
    (room → ∃ run', compileAll host files .warn subjects run = .ok good run' ∧
      run.Leads run' state (bad.map (host.issueOf files))) ∧
    (¬room → ∃ before subject r rest run' state',
      judged = before ++ (subject, .rejected r) :: rest ∧
      (∀ n < (before.filterMap Verdict.refused).length, ↑(count + n + 1) < run.report.limit) ∧
      run.report.limit ≤ ↑(count + (before.filterMap Verdict.refused).length + 1) ∧
      host.Judges run.state (before ++ [(subject, .rejected r)]) state' ∧
      run.Leads run' state'
        ((before.filterMap Verdict.refused ++ [(subject, r)]).map (host.issueOf files)) ∧
      ∀ later, compileAll host files .warn (before.map Prod.fst ++ subject :: later) run =
        .error .tooManyIssues run') ∧
    (bad = [] → ∃ run', compileAll host files .abort subjects run = .ok good run' ∧
      run.Leads run' state []) ∧
    (bad ≠ [] → ∃ before subject r rest run' state',
      judged = before ++ (subject, .rejected r) :: rest ∧
      before.filterMap Verdict.refused = [] ∧
      host.Judges run.state (before ++ [(subject, .rejected r)]) state' ∧
      run.Leads run' state' [] ∧
      ∀ later, compileAll host files .abort (before.map Prod.fst ++ subject :: later) run =
        .error (.fault (.rejected r)) run') := by
  intro subjects good bad count room
  refine ⟨?_, fun hroom => ?_, fun hfull => ?_, fun hbad => ?_, fun hbad => ?_⟩
  · have hlets : ∀ n < bad.length, Policy.skip.Lets run.report.limit (count + n + 1) :=
      fun _ _ => .inl rfl
    obtain ⟨run', hleads, hrun⟩ := compileAll_passes files h hlets
    rw [Policy.issues_of_ne host files (by simp)] at hleads
    exact ⟨run', hrun, hleads⟩
  · have hlets : ∀ n < bad.length, Policy.warn.Lets run.report.limit (count + n + 1) := by
      intro n hn
      rw [Policy.lets_warn]
      rcases hroom with hzero | hnil | hlt
      · exact .inl hzero
      · rw [hnil] at hn
        cases hn
      · exact .inr (by omega)
    obtain ⟨run', hleads, hrun⟩ := compileAll_passes files h hlets
    rw [Policy.issues_warn] at hleads
    exact ⟨run', hrun, hleads⟩
  · simp only [room, not_or] at hfull
    obtain ⟨hlimit, hbad, hcount⟩ := hfull
    have hpos : 0 < bad.length := List.length_pos_iff.2 hbad
    -- After the last rejection the report is full, so there is a first one after which it is.
    have hlast : ¬Policy.warn.Lets run.report.limit (count + (bad.length - 1) + 1) := by
      rw [Policy.lets_warn]
      omega
    obtain ⟨before, subject, r, rest, rfl, hlets, hstop⟩ :=
      exists_stop run ⟨bad.length - 1, Nat.sub_one_lt_of_lt hpos, hlast⟩
    obtain ⟨run', state', hleads, hjudges, hrun⟩ := compileAll_stops files h hlets hstop
    rw [Policy.issues_warn] at hleads
    refine ⟨before, subject, r, rest, run', state', rfl, fun n hn => ?_, ?_, hjudges, hleads, hrun⟩
    · exact (Policy.lets_warn.1 (hlets n hn)).resolve_left hlimit
    · rw [Policy.lets_warn] at hstop
      omega
  · have hlets : ∀ n < bad.length, Policy.abort.Lets run.report.limit (count + n + 1) := by
      intro n hn
      rw [hbad] at hn
      cases hn
    obtain ⟨run', hleads, hrun⟩ := compileAll_passes files h hlets
    rw [Policy.issues_of_ne host files (by simp)] at hleads
    exact ⟨run', hrun, hleads⟩
  · have hfirst : ¬Policy.abort.Lets run.report.limit (count + 0 + 1) := nofun
    obtain ⟨before, subject, r, rest, rfl, hlets, hstop⟩ :=
      exists_stop run ⟨0, List.length_pos_iff.2 hbad, hfirst⟩
    obtain ⟨run', state', hleads, hjudges, hrun⟩ := compileAll_stops files h hlets hstop
    rw [Policy.issues_of_ne host files (by simp)] at hleads
    refine ⟨before, subject, r, rest, run', state', rfl, ?_, hjudges, hleads, hrun⟩
    rw [← List.length_eq_zero_iff]
    exact Nat.eq_zero_of_not_pos fun hpos => nomatch hlets 0 hpos

/-- Between two types that have a guard stands one that has none. -/
def mixture : List (Subject × Verdict) :=
  [(.type (.primitive "number"), .compiled (.hasTypeOf (.named "x") "number")),
    (.type (.primitive "symbol"), .rejected ⟨.unsupported, "primitive " ++ "symbol", none, ""⟩),
    (.type (.primitive "string"), .compiled (.hasTypeOf (.named "x") "string"))]

theorem policies_agree_mixture :
    let host := Catalog.host {} 1 (.named "x")
    let number := Subject.type (.primitive "number")
    let symbol := Subject.type (.primitive "symbol")
    let string := Subject.type (.primitive "string")
    let run : RunState Numbering := ⟨{ limit := 1 }, {}⟩
    host.Judges run.state mixture {} ∧
    (∃ run', compileAll host [] .skip [number, symbol, string] run =
      .ok [(number, .hasTypeOf (.named "x") "number"), (string, .hasTypeOf (.named "x") "string")]
        run' ∧ run.Leads run' {} []) ∧
    ∃ before subject r rest run', mixture = before ++ (subject, .rejected r) :: rest ∧
      ∀ later, compileAll host [] .warn (before.map Prod.fst ++ subject :: later) run =
        .error .tooManyIssues run' := by
  intro host number symbol string run
  have hjudges : host.Judges run.state mixture {} :=
    .cons rfl rfl (.cons rfl rfl (.cons rfl rfl .nil))
  have hfull : ¬(run.report.limit = 0 ∨ mixture.filterMap Verdict.refused = [] ∨
      ↑(run.report.issues.length + (mixture.filterMap Verdict.refused).length) <
        run.report.limit) := by
    have hbad : mixture.filterMap Verdict.refused =
        [(symbol, ⟨.unsupported, "primitive " ++ "symbol", none, ""⟩)] := rfl
    simp [run, hbad]
  obtain ⟨hskip, _, hwarn, _⟩ := policies_agree [] hjudges
  obtain ⟨before, subject, r, rest, run', _, hmixture, _, _, _, _, hstop⟩ := hwarn hfull
  exact ⟨hjudges, hskip, before, subject, r, rest, run', hmixture, hstop⟩

end Run

/-- A literal with more digits than can be written. -/
def Subject.boundless : Subject :=
  .type (.literal (.scalar (.int (Int.pow 10 4300))))

theorem Subject.name_boundless : boundless.name = .error .overlong := by
  have hshown : Value.shown (.scalar (.int (Int.pow 10 4300))) = .error .overlong :=
    if_neg (by decide +kernel)
  rw [boundless, name, Ty.render, hshown]
  exact fun _ h => by cases h

/-- Two interfaces, the first of which holds itself. In the second the name of a member is a
condition of its own, and what that condition takes is called as the value under test is while the
second type ever met is expanded. -/
def Catalog.namesakes : Catalog where
  entries := [
    (.listed "First", {
      name := "First"
      body := .interface [] [{
        key := .str "next"
        type? := some (.name "First" [])
        optional := false
        site := none
        owner := .listed "First" }] }),
    (.listed "Second", {
      name := "Second"
      body := .interface [] [{
        key := .computed
          (.expr (.fix (.named "f") (.ofText "$1") (.const (.bool true)) (.const .null)))
        type? := some (.primitive "string")
        optional := false
        site := none
        owner := .listed "Second" }] })]

namespace Run

/-- A run can stop where each of its subjects has a verdict: at a name that cannot be written, and
at a type that meets its own number in a name of the input because of the types before it. -/
theorem stops_at_judged :
    let host := Catalog.namesakes.host 4 (.named "x")
    let first := Subject.type (.object .interface (.listed "First") [])
    let second := Subject.type (.object .interface (.listed "Second") [])
    (∃ guard, (host.compile .boundless {}).verdict = .ok (.compiled guard)) ∧
    (∃ guard, (host.compile first {}).verdict = .ok (.compiled guard)) ∧
    (∃ guard, (host.compile second {}).verdict = .ok (.compiled guard)) ∧
    ∀ policy, (∃ run, compileAll host [] policy [.boundless] ⟨{}, {}⟩ =
        .error (.fault .overlong) run) ∧
      ∃ run, compileAll host [] policy [first, second] ⟨{}, {}⟩ =
        .error (.fault (.broken .freshParameter)) run := by
  intro host first second
  have hname : host.name .boundless = .error .overlong := by
    simp only [host, Catalog.host, Subject.name_boundless]
  refine ⟨⟨_, rfl⟩, ⟨_, rfl⟩, ⟨_, rfl⟩, fun policy => ⟨⟨⟨{}, {}⟩, ?_⟩, ?_⟩⟩
  · rw [compileAll, List.mapM_cons, bind_apply, bind_apply, step_unnamed [] policy hname]
  · cases policy <;> exact ⟨_, rfl⟩

end Run

end TypeGuard
