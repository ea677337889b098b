import TypeGuard.Proofs.Answers
import TypeGuard.Proofs.Keyed
import TypeGuard.Proofs.WalkSubject

/-! Guards are safe: whatever value they are tried on, they come to a truth value, or stumble over a
numeral that is none. No part is read of what has none, no name is unbound, and calls end. -/

namespace TypeGuard

namespace Guard

theorem labelText_key (t : Ty) : labelText t.key = labelText t := by
  cases t with
  | ref target args => cases target <;> rfl
  | _ => rfl

theorem label_congr {t u : Ty} (h : t.key = u.key) (n : Nat) : label t n = label u n := by
  rw [label, label, ← labelText_key t, h, labelText_key]

end Guard

/-- There is a check for every live type, with what is known about it. -/
def Stands (table : Numbering) (M : Ty → Value → Bool → Prop) (live : List Ty)
    (cs : List Check) : Prop :=
  List.Forall₂ (fun t c => c.subject = t ∧ table.number? t = some c.number ∧
    ∀ v b, c.accepts v b → M t v b) live cs

namespace Stands

variable {table : Numbering} {M : Ty → Value → Bool → Prop} {live : List Ty} {cs : List Check}

theorem exists_check {t : Ty} {n : Nat} (h : Stands table M live cs) (hlive : t.IsOn live)
    (hn : table.number? t = some n) :
    ∃ c ∈ cs, c.label = Guard.label t n ∧
      ∃ u, u.key = t.key ∧ u ∈ live ∧ ∀ v b, c.accepts v b → M u v b := by
  induction h with
  | nil => cases hlive
  | cons hfirst _ ih =>
      obtain ⟨rfl, hnumber, haccepts⟩ := hfirst
      rcases Ty.isOn_cons.1 hlive with hkey | hlive
      · rw [← Numbering.number?_congr hkey, hnumber] at hn
        cases hn
        exact ⟨_, List.mem_cons_self, Guard.label_congr hkey _, _, hkey,
          List.mem_cons_self, haccepts⟩
      · obtain ⟨c, hc, hlabel, u, hkey, hu, haccepts⟩ := ih hlive
        exact ⟨c, List.mem_cons_of_mem _ hc, hlabel, u, hkey, List.mem_cons_of_mem _ hu, haccepts⟩

theorem fresh {t : Ty} {n : Nat} (h : Stands table M live cs) (hoff : ¬t.IsOn live)
    (hn : table.number? t = some n) : ∀ c ∈ cs, c.label ≠ Guard.label t n := by
  intro c hc hlabel
  obtain ⟨u, hu, rfl, hnumber, _⟩ := exists_of_forall₂_right h hc
  rw [← Guard.label_injective hlabel] at hn
  exact hoff (Ty.isOn_iff.2 ⟨_, hu, Numbering.number?_faithful hnumber hn⟩)

end Stands

/-- A check of a declaration may be called on the value itself. -/
def Task.slack (task : Task) : Nat :=
  if task.declared then 1 else 0

theorem Answers.slack {task : Task} {cs : List Check} {e : Expr} {Φ : Reading → Bool → Prop}
    (h : Answers 1 cs task.accessor e Φ) : Answers task.slack cs task.accessor e Φ := by
  unfold Task.slack
  split
  · exact h
  · exact h.tighten

/-- Every guard comes to a truth value, if the checks around it do. -/
theorem Guards.safe {cat : Catalog} {table : Numbering} {live path : List Ty}
    {task : Task} {e : Expr} (h : Guards cat table live path task e) {cs : List Check}
    (hcs : Stands table (fun _ _ _ => True) live cs) :
    Answers task.slack cs task.accessor e fun _ _ => True := by
  induction h generalizing cs with
  | test => exact (Answers.test _).mono fun _ _ _ => trivial
  | follow _ _ ih => exact ih hcs
  | target _ _ ih => exact ih hcs
  | union hlength _ ih =>
      exact (Answers.anyOf hlength fun t e hmem => ih t e hmem hcs).mono fun _ _ _ => trivial
  | inter hlength _ ih =>
      exact (Answers.allOf hlength fun t e hmem => ih t e hmem hcs).mono fun _ _ _ => trivial
  | again hknot hlive hnumber =>
      obtain ⟨c, hc, hlabel, _⟩ := hcs.exists_check hlive hnumber
      rw [← hlabel]
      exact (Answers.recur hc).mono fun _ _ _ => trivial
  | @fix _ _ task t n parts es hknot hoff hnumber _ hplain hlength _ ih =>
      let c : Check := ⟨t, n, Guard.whole (.ident (.slot n)) es, fun _ _ => True⟩
      have hbody : Answers 1 (c :: cs) (.ident c.slot) c.body fun _ _ => True :=
        (Answers.whole hplain hlength fun part e hmem =>
          ih part e hmem (.cons ⟨rfl, hnumber, fun _ _ => id⟩ hcs)).mono fun _ _ _ => trivial
      have hfix := Answers.fix (a := task.accessor) (hcs.fresh hoff hnumber)
        (hbody.mono fun _ _ _ _ _ => trivial)
      exact (hfix.mono fun _ _ _ => trivial).slack
  | inline _ _ hplain hlength _ ih =>
      have hwhole := Answers.whole hplain hlength fun part e hmem => ih part e hmem hcs
      exact (hwhole.mono fun _ _ _ => trivial).slack
  | mapped _ hlength _ ih =>
      have hwhole := Answers.whole (fun part => Part.plain_ofKeys)
        ((Part.length_ofKeys ..).trans hlength) fun part e hmem => ih part e hmem hcs
      exact (hwhole.mono fun _ _ _ => trivial).tighten
  | index _ _ _ _ hlength _ ih =>
      exact (Answers.anyOf hlength fun t e hmem => ih t e hmem hcs).mono fun _ _ _ => trivial
  | @keyOf _ _ _ _ accessor keys _ =>
      have hlength : keys.toList.length =
          (keys.toList.map fun key => Expr.equalTo accessor (.str key)).length :=
        (List.length_map _).symm
      refine (Answers.anyOf (Ψ := fun _ _ _ => True) hlength fun key e hmem => ?_).mono
        fun _ _ _ => trivial
      obtain ⟨key, _, rfl⟩ := List.mem_map.1 (List.of_mem_zip hmem).2
      exact (Answers.test (.equals (.str key))).mono fun _ _ _ => trivial

theorem Guards.safe_on {cat : Catalog} {table : Numbering} {path : List Ty}
    {task : Task} {e : Expr} {x : Ident} (h : Guards cat table [] path task e)
    (haccessor : task.accessor = .ident x) (v : Value) {depth : Nat} (hdepth : v.height < depth) :
    Accepts (fun _ => True) (e.eval depth [(x, v)]) := by
  have hread : task.accessor.eval depth [(x, v)] = .ok v := by
    rw [haccessor]
    exact Expr.eval_ident (by rw [List.lookup_cons, beq_self_eq_true])
  refine h.safe .nil depth depth [(x, v)] trivial (fun c hc => by cases hc) (Nat.le_refl _) ?_
  rw [hread]
  exact .inr ⟨v, rfl, by omega⟩

/-- Whatever is compiled comes to a truth value on every value, unless it reads a list or a tuple
by a run of digits that stands for no number. -/
theorem Subject.compiled_answers {cat : Catalog} {subject : Subject} {args : List Ty} {limit : Nat}
    {x : String} {numbering : Numbering} {guard : Expr} (hcat : cat.Plain) (hnamed : cat.Named)
    (hup : cat.Upholds cat.Declares) (hsubject : subject.IsWhole cat)
    (hargs : ∀ t ∈ args, t.Every cat.Declares)
    (h : (subject.compile cat limit (.named x) args numbering).verdict = .ok (.compiled guard))
    (v : Value) {depth : Nat} (hdepth : v.height < depth) :
    (∃ b, guard.eval depth [(.named x, v)] = .ok (.bool b) ∧
      guard.holds depth [(.named x, v)] = .ok b) ∨
    (guard.eval depth [(.named x, v)] = .error .badNumeral ∧ v.Stumbles fun s =>
      guard.HasKey s) := by
  obtain ⟨table, path, task, haccessor, hguards⟩ :=
    exists_guards hcat hnamed hup hsubject hargs rfl h
  rcases hguards.safe_on haccessor v hdepth with hbad | ⟨b, hb, _⟩
  · exact .inr ⟨hbad, hguards.stumbles haccessor rfl hbad⟩
  · refine .inl ⟨b, hb, ?_⟩
    rw [Expr.holds, hb]
    rfl

/-- An interface of one property. -/
def boxOf (key : String) (t : Ty) : Declaration where
  name := "Box"
  body := .interface [] [⟨.str key, some t, false, none, .listed "Box"⟩]

namespace Catalog

def ofBox (key : String) (t : Ty) : Catalog :=
  { entries := [(.listed "Box", boxOf key t)] }

theorem plain_ofBox (key : String) (t : Ty) : (ofBox key t).Plain := by
  refine forall_of_entries fun entry hentry => ?_
  rw [List.mem_singleton.1 hentry]
  simp [boxOf, Declaration.members]

theorem named_ofBox (key : String) (t : Ty) : (ofBox key t).Named := by
  refine forall_of_entries fun entry hentry => ?_
  rw [List.mem_singleton.1 hentry]
  rfl

theorem upholds_ofBox {P : Ty → Prop} {key : String} {t : Ty} (h : t.Every P) :
    (ofBox key t).Upholds P := by
  intro s d u hfind
  refine forall_of_entries (P := fun _ d => d.Lists u → u.Every P)
    (fun entry hentry hlists => ?_) s d hfind
  rw [List.mem_singleton.1 hentry] at hlists
  cases hlists with
  | body hbody => cases hbody
  | argument hheritage _ => cases hheritage
  | member hmember htype =>
      rw [List.mem_singleton.1 hmember] at htype
      cases htype
      exact h

end Catalog

theorem Subject.isWhole_box (key : String) (t : Ty) :
    (Subject.decl (boxOf key t)).IsWhole (.ofBox key t) :=
  ⟨rfl, .inl ⟨_, _, rfl⟩⟩

/-- A box that may hold another one. -/
def nextBox : Ty :=
  .union [.primitive "null", .name "Box" []]

def nextBoxGuard : Expr :=
  let slot := Ident.slot 0
  let label := Guard.label (.object .interface (.listed "Box") []) 0
  let next := Expr.elem (.ident slot) (.const (.str "next"))
  .fix label slot (Guard.whole (.ident slot) [.anyOf [.equalTo next .null, .recur label next]])
    (.named "x")

theorem compile_nextBox : ((Subject.decl (boxOf "next" nextBox)).compile (.ofBox "next" nextBox) 6
    (.named "x") [] {}).verdict = .ok (.compiled nextBoxGuard) := rfl

theorem Subject.compiled_answers_nextBox :
    let v : Value := .dict [(.str "next", .dict [(.str "next", .null)])]
    (∃ b, nextBoxGuard.eval 3 [(.named "x", v)] = .ok (.bool b) ∧
      nextBoxGuard.holds 3 [(.named "x", v)] = .ok b) ∨
    (nextBoxGuard.eval 3 [(.named "x", v)] = .error .badNumeral ∧
      v.Stumbles fun s => nextBoxGuard.HasKey s) := by
  have hdeclares : nextBox.Every (Catalog.ofBox "next" nextBox).Declares := by
    simp [nextBox, Ty.Every, Ty.Inside, Catalog.Declares]
  exact Subject.compiled_answers (Catalog.plain_ofBox _ _) (Catalog.named_ofBox _ _)
    (Catalog.upholds_ofBox hdeclares) (Subject.isWhole_box _ _)
    (fun _ hmem => absurd hmem List.not_mem_nil) compile_nextBox _ (by decide)

theorem long_numeral_stumbles :
    ∃ (cat : Catalog) (subject : Subject) (guard : Expr), cat.Plain ∧ cat.Named ∧
      cat.Upholds cat.Declares ∧ subject.IsWhole cat ∧
      (subject.compile cat 3 (.named "x") [] {}).verdict = .ok (.compiled guard) ∧
      (∀ s, guard.HasKey s → ∀ c ∈ s.toList, (Text.decimalValue? c).isSome = true) ∧
      guard.eval 1 [(.named "x", .list [])] = .error .badNumeral := by
  obtain ⟨key, hkey⟩ : ∃ key : String, key.toList = List.replicate 4301 '1' :=
    ⟨String.ofList (List.replicate 4301 '1'), String.toList_ofList⟩
  refine ⟨.ofBox key (.primitive "number"), .decl (boxOf key (.primitive "number")),
    Guard.whole (.named "x") [.hasTypeOf (.elem (.named "x") (.const (.str key))) "number"],
    Catalog.plain_ofBox _ _, Catalog.named_ofBox _ _, Catalog.upholds_ofBox ?_,
    Subject.isWhole_box _ _, rfl, fun s hs c hc => ?_, ?_⟩
  · simp [Ty.Every, Ty.Inside, Catalog.Declares]
  · have heq : key = s := by
      simpa [Guard.whole, Expr.allOf, Expr.objectTests, Expr.hasTypeOf, Expr.nonNull, Expr.named,
        Expr.HasKey] using hs
    rw [← heq, hkey] at hc
    rw [List.eq_of_mem_replicate hc]
    decide
  · have hread : (Expr.named "x").eval 1 [(.named "x", .list [])] = .ok (.list []) :=
      Expr.eval_ident rfl
    have hdigits : Text.isDigits key.toList = true := by
      rw [hkey, Text.isDigits, List.all_replicate]
      decide
    have hnone : Text.readNumeral? key.toList = none := by
      rw [hkey]
      exact Text.readNumeral?_eq_none.2 (.inr (by rw [List.length_replicate]; decide))
    have hbad : (Expr.elem (.named "x") (.const (.str key))).eval 1 [(.named "x", .list [])] =
        .error .badNumeral := by
      rw [Expr.eval_elem_const, hread]
      simp only [Except.bind, Value.read, Value.item, hdigits, hnone, if_true]
      rfl
    rw [Guard.whole, Expr.objectTests]
    simp only [List.cons_append, List.nil_append, Expr.allOf, List.foldl_cons, List.foldl_nil]
    have hobject : (Value.list []).isObject = true := by
      simp [Value.isObject, Value.typeOf, Value.strictEqual, Value.equal]
    rw [Expr.eval_and, Answers.eval_objectTests hread, hobject]
    exact Answers.eval_hasTypeOf_error "number" hbad

/-- A check that is called on the value itself does not end where nothing before the call accepts
it. -/
theorem Expr.eval_exhausted {l x : Ident} {test b : Expr} {v : Value} (hne : l ≠ x)
    (htest : ∀ d σ, σ.lookup x = some v → test.eval d σ = .ok (.bool false))
    (depth : Nat) (σ : Scope)
    (hlabel : σ.lookup l = some (.code (fix l x (or test (recur l (ident x))) b)))
    (hvalue : σ.lookup x = some v) :
    (or test (recur l (ident x))).eval depth σ = .error .exhausted := by
  induction depth generalizing σ with
  | zero =>
      rw [eval_or, htest _ _ hvalue]
      simp only [Except.bind, Value.truthy, Scalar.truthy, eval, evalWith, hlabel, hvalue]
      rfl
  | succ depth ih =>
      have hcall : (recur l (ident x)).eval (depth + 1) σ = .error .exhausted := by
        rw [eval_recur hlabel, eval_ident hvalue]
        apply ih
        · rw [List.lookup_cons, beq_false_of_ne hne]
          exact hlabel
        · rw [List.lookup_cons, beq_self_eq_true]
      rw [eval_or, htest _ _ hvalue]
      exact hcall

/-- An alias that is met again as an object, on the way through another one. -/
def maybe : Declaration where
  name := "Maybe"
  params := [⟨"T", 0⟩]
  body := .alias (some (.union [.primitive "null", .name "Again" []]))

def again : Declaration where
  name := "Again"
  body := .alias (some (.ref (.object .interface (.listed "Maybe") []) [.primitive "string"]))

def Catalog.looped : Catalog :=
  { entries := [(.listed "Maybe", maybe), (.listed "Again", again)] }

def maybeGuard : Expr :=
  let slot := Ident.slot 2
  let label := Guard.label (.ref (.object .interface (.listed "Maybe") []) [.primitive "string"]) 2
  .fix label slot (.anyOf [.equalTo (.ident slot) .null, .recur label (.ident slot)]) (.named "x")

theorem compile_maybe : ((Subject.decl maybe).compile .looped 8 (.named "x") [.primitive "string"]
    {}).verdict = .ok (.compiled maybeGuard) := rfl

theorem eval_maybeGuard (depth : Nat) (s : String) :
    maybeGuard.eval depth [(.named "x", .str s)] = .error .exhausted := by
  have hread : (Expr.named "x").eval depth [(.named "x", .str s)] = .ok (.str s) :=
    Expr.eval_ident rfl
  unfold maybeGuard
  generalize hlabel : Guard.label _ 2 = label
  have hne : label ≠ .slot 2 := by
    rw [← hlabel]
    decide
  rw [Expr.eval_fix, hread]
  refine Expr.eval_exhausted (b := .named "x") (v := .str s) hne
    (fun d σ hlookup => ?_) depth _ ?_ rfl
  · rw [Answers.eval_equalTo _ (Expr.eval_ident hlookup)]
    rfl
  · rw [List.lookup_cons, beq_false_of_ne hne, List.lookup_cons, beq_self_eq_true]
    rfl

/-- A key of digits can be too long for a number; and where an alias is met as an object, a check
can be called on the whole value again and again. -/
theorem Subject.compiled_without_answer :
    (∃ (cat : Catalog) (subject : Subject) (guard : Expr), cat.Plain ∧ cat.Named ∧
      cat.Upholds cat.Declares ∧ subject.IsWhole cat ∧
      (subject.compile cat 3 (.named "x") [] {}).verdict = .ok (.compiled guard) ∧
      (∀ s, guard.HasKey s → ∀ c ∈ s.toList, (Text.decimalValue? c).isSome = true) ∧
      guard.eval 1 [(.named "x", .list [])] = .error .badNumeral) ∧
    ∃ (cat : Catalog) (subject : Subject) (args : List Ty) (guard : Expr) (v : Value),
      cat.Plain ∧ cat.Named ∧ subject.IsWhole cat ∧ (∀ t ∈ args, t.Every cat.Declares) ∧
      (subject.compile cat 8 (.named "x") args {}).verdict = .ok (.compiled guard) ∧
      ∀ depth, guard.eval depth [(.named "x", v)] = .error .exhausted := by
  refine ⟨long_numeral_stumbles, .looped, .decl maybe, [.primitive "string"],
    maybeGuard, .str "a", ?_,
    ?_, ⟨rfl, .inr ⟨_, rfl⟩⟩, ?_, compile_maybe, fun depth => eval_maybeGuard depth "a"⟩
  · refine Catalog.forall_of_entries ?_
    simp [Catalog.looped, maybe, again, Declaration.members]
  · refine Catalog.forall_of_entries ?_
    decide
  · intro t ht
    rw [List.mem_singleton.1 ht]
    exact ⟨trivial, trivial⟩

end TypeGuard
