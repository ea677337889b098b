import TypeGuard.Proofs.Guards
import TypeGuard.Proofs.Heritage

/-! Whatever is compiled is a guard: the marks tell which conditions are called, and a condition
that is moved to where it is used is a guard there. -/

namespace TypeGuard

theorem PropertyKey.index_of_plain {key : PropertyKey} (h : ∀ c, key ≠ .computed c) :
    key.index = .ok (.const (.str key.name.text)) := by
  unfold index
  split
  · next e => exact absurd rfl (h _)
  · next v => exact absurd rfl (h _)
  · rfl

namespace Catalog

/-- No property has a computed name. -/
def Plain (cat : Catalog) : Prop :=
  ∀ i d, cat.declared? i = some d → ∀ p ∈ d.members, ∀ c, p.key ≠ .computed c

variable {cat : Catalog}

theorem Plain.index {i : DeclId} {d : Declaration} {p : Property} {index : Expr} (hcat : cat.Plain)
    (hfind : cat.declared? i = some d) (hp : p ∈ d.members) (h : p.key.index = .ok index) :
    index = .const (.str p.name.text) := by
  rw [PropertyKey.index_of_plain (hcat i d hfind p hp)] at h
  cases h
  rfl

theorem Plain.of_mem_properties {t : Ty} {properties : List Property} {p : Property}
    (hcat : cat.Plain) (h : cat.properties t = .ok properties) (hp : p ∈ properties) :
    ∀ c, p.key ≠ .computed c := by
  obtain ⟨_, _, _, _, _, _, hmem⟩ := mem_properties h hp
  obtain ⟨d, hfind, hmember⟩ := mem_membersOf hmem
  exact hcat _ d hfind p hmember

end Catalog

theorem Parts.plain {cat : Catalog} {env : Bindings} {path : List Ty}
    {declared : Bool} {t : Ty} {parts : List Part} (hcat : cat.Plain)
    (h : Parts cat env path declared t parts) {part : Part} (hpart : part ∈ parts) :
    part.Plain := by
  have hmember : ∀ {inner i d p}, cat.declared? i = some d → p ∈ d.members →
      Part.OfProperty inner p part → part.Plain := by
    rintro inner i d p hfind hp ⟨u, index, _, hindex, rfl⟩
    exact .inr ⟨rfl, p.name.text, congrArg some (hcat.index hfind hp hindex)⟩
  cases h with
  | properties _ _ hproperties hparts =>
      obtain ⟨p, hp, hof⟩ := exists_of_forall₂_right hparts hpart
      obtain ⟨_, _, head, _, _, _, hmem⟩ := Catalog.mem_properties hproperties hp
      obtain ⟨d, hfind, hp⟩ := Catalog.mem_membersOf hmem
      exact hmember hfind hp hof
  | keys => exact Part.plain_ofKeys hpart
  | @declared _ _ _ d _ members _ _ _ hfind hbody _ hparts =>
      rcases List.mem_append.1 hpart with hbase | hown
      · obtain ⟨base, _, rfl⟩ := List.mem_map.1 hbase
        exact .inl ⟨rfl, rfl⟩
      · obtain ⟨p, hp, hof⟩ := exists_of_forall₂_right hparts hown
        have hmembers : p ∈ d.members := by rw [Declaration.members, hbody]; exact hp
        exact hmember hfind hmembers hof

theorem Part.isPath_tasks {parts : List Part} {whole : Expr} (hplain : ∀ part ∈ parts, part.Plain)
    (hwhole : whole.isPath = true) :
      ∀ task ∈ parts.map (Part.task whole), task.accessor.isPath = true :=
  List.forall_mem_map.2 fun part hpart => Part.isPath_accessor (hplain part hpart) hwhole

namespace Guard

theorem label_injective {t u : Ty} {n k : Nat} (h : label t n = label u k) : n = k :=
  (Ident.guard.inj h).2

end Guard

namespace Progress

theorem isMarked_leave {p : Progress} {t u : Ty} :
    (p.leave t).isMarked u = true ↔ p.isMarked u = true ∧ u.key ≠ t.key := by
  simp only [isMarked, leave, List.any_eq_true, List.mem_filter, Ty.same_iff, Bool.not_eq_true']
  constructor
  · rintro ⟨v, ⟨hv, hne⟩, hkey⟩
    refine ⟨⟨v, hv, hkey⟩, fun heq => ?_⟩
    rw [Ty.same_iff.2 (hkey.trans heq)] at hne
    cases hne
  · rintro ⟨⟨v, hv, hkey⟩, hne⟩
    refine ⟨v, ⟨hv, ?_⟩, hkey⟩
    cases hsame : v.same t with
    | false => rfl
    | true => exact absurd (hkey.symm.trans (Ty.same_iff.1 hsame)) hne

theorem number_spec (p : Progress) (t : Ty) :
    p.numbering.Extends (p.number t).2.numbering ∧
      (p.number t).2.numbering.number? t = some (p.number t).1 :=
  Numbering.number_spec t p.numbering

end Progress

namespace Compiles

variable {cat : Catalog} {path : List Ty} {tasks : List Task} {p p' : Progress}
  {es : List Expr}

theorem length (h : Compiles cat path tasks p es p') : tasks.length = es.length := by
  induction h with
  | cons _ _ _ ih => exact congrArg Nat.succ ih
  | _ => rfl

theorem numbering_extends (h : Compiles cat path tasks p es p') :
    p.numbering.Extends p'.numbering := by
  induction h with
  | nil => exact .refl _
  | cons _ _ ihfirst ihrest => exact ihfirst.trans ihrest
  | test => exact .refl _
  | again => exact (Progress.number_spec _ _).1
  | knot _ _ _ _ _ ih => exact (Progress.number_spec _ _).1.trans ih
  | keyOf => exact .refl _
  | follow _ _ ih | target _ _ ih | union _ ih | inter _ ih | mapped _ _ ih | index _ _ _ _ _ ih =>
      exact ih

/-- Among the types being expanded, those that the checks call are marked in the end, and marks are
kept. -/
def Marks (table : Numbering) (path : List Ty) (p : Progress) (es : List Expr) (p' : Progress) :
    Prop :=
  ∀ u, u.IsOn path → (p.isMarked u = true → p'.isMarked u = true) ∧
    ∀ n, table.number? u = some n → ∀ e ∈ es, e.Calls (Guard.label u n) → p'.isMarked u = true

theorem Marks.of_calls {table : Numbering} {es' : List Expr} (h : Marks table path p es p')
    (hcalls : ∀ l, (∃ e ∈ es', e.Calls l) → ∃ e ∈ es, e.Calls l) : Marks table path p es' p' := by
  intro u hu
  refine ⟨(h u hu).1, fun n hn e he hl => ?_⟩
  obtain ⟨e', he', hl'⟩ := hcalls _ ⟨e, he, hl⟩
  exact (h u hu).2 n hn e' he' hl'

theorem Marks.of_not_calls {table : Numbering} {e : Expr} (h : ∀ l, ¬e.Calls l) :
    Marks table path p [e] p := by
  refine fun u _ => ⟨id, fun n _ e' he' hl => ?_⟩
  rw [List.mem_singleton.1 he'] at hl
  exact absurd hl (h _)

theorem calls_tie {recursive : Bool} {label slot l : Ident} {es : List Expr} {accessor e : Expr}
    (haccessor : accessor.isPath = true)
    (htie : Guard.tie recursive label slot (Guard.whole (.ident slot) es) accessor = .ok e) :
    e.Calls l ↔ ∃ e ∈ es, e.Calls l := by
  have hnot := Expr.not_calls_of_isPath (l := l) haccessor
  have hwhole : (Guard.whole (.ident slot) es).Calls l ↔ ∃ e ∈ es, e.Calls l := by
    rw [Guard.calls_whole]
    exact or_iff_right id
  cases recursive with
  | true =>
      cases htie
      exact (or_iff_left hnot).trans hwhole
  | false =>
      obtain ⟨_, rfl⟩ := Expr.replace_eq_ok.1 htie
      rw [← hwhole]
      exact ⟨Expr.calls_of_calls_put hnot, Expr.calls_put_of_calls accessor⟩

theorem marks {table : Numbering} (hcat : cat.Plain) (h : Compiles cat path tasks p es p')
    (hpaths : ∀ task ∈ tasks, task.accessor.isPath = true)
    (htable : p'.numbering.Extends table) : Marks table path p es p' := by
  induction h with
  | nil => exact fun u _ => ⟨id, fun _ _ e he => by cases he⟩
  | cons _ hrest ihfirst ihrest =>
      rw [List.forall_mem_cons] at hpaths
      have hfirst := ihfirst (List.forall_mem_singleton.2 hpaths.1)
        (hrest.numbering_extends.trans htable)
      have hrest := ihrest hpaths.2 htable
      refine fun u hu => ⟨(hrest u hu).1 ∘ (hfirst u hu).1, fun n hn e he hl => ?_⟩
      rcases List.mem_cons.1 he with rfl | he
      · exact (hrest u hu).1 ((hfirst u hu).2 n hn e (List.mem_singleton.2 rfl) hl)
      · exact (hrest u hu).2 n hn e he hl
  | test =>
      have haccessor := hpaths _ List.mem_cons_self
      exact .of_not_calls fun l => Test.not_calls_expr (Expr.not_calls_of_isPath haccessor)
  | follow _ _ ih | target _ _ ih =>
      have haccessor := hpaths _ List.mem_cons_self
      exact ih (List.forall_mem_singleton.2 haccessor) htable
  | union _ ih =>
      have haccessor := hpaths _ List.mem_cons_self
      exact (ih (List.forall_mem_map.2 fun _ _ => haccessor) htable).of_calls fun l => by simp
  | inter _ ih =>
      have haccessor := hpaths _ List.mem_cons_self
      exact (ih (List.forall_mem_map.2 fun _ _ => haccessor) htable).of_calls fun l => by simp
  | @again _ env t accessor p hknot hon =>
      have haccessor := hpaths _ List.mem_cons_self
      obtain ⟨_, hnumber⟩ := Progress.number_spec p (t.knot env)
      have hnumber := Numbering.number?_extends htable hnumber
      refine fun u hu => ⟨fun hmarked => ?_, fun n hn e he hl => ?_⟩
      · exact Ty.isOn_cons.2 (.inr hmarked)
      · rw [List.mem_singleton.1 he] at hl
        rcases hl with hlabel | hl
        · rw [← Guard.label_injective hlabel] at hn
          exact Ty.isOn_cons.2 (.inl (Numbering.number?_faithful hnumber hn))
        · exact absurd hl (Expr.not_calls_of_isPath haccessor)
  | @knot path task t parts p p'' es e hknot hoff hparts hchecks htie ih =>
      have haccessor := hpaths _ List.mem_cons_self
      have hinner := ih (Part.isPath_tasks (fun _ => hparts.plain hcat) rfl) htable
      intro u hu
      have hne : u.key ≠ t.key := fun heq => hoff ((Ty.isOn_congr heq path).1 hu)
      obtain ⟨hkept, hcalled⟩ := hinner u (Ty.isOn_cons.2 (.inr hu))
      refine ⟨fun hmarked => Progress.isMarked_leave.2 ⟨hkept hmarked, hne⟩, ?_⟩
      intro n hn e' he' hl
      rw [List.mem_singleton.1 he', calls_tie haccessor htie] at hl
      obtain ⟨e'', he'', hl⟩ := hl
      exact Progress.isMarked_leave.2 ⟨hcalled n hn e'' he'' hl, hne⟩
  | mapped _ _ ih =>
      have haccessor := hpaths _ List.mem_cons_self
      refine (ih (Part.isPath_tasks (fun _ => Part.plain_ofKeys) haccessor) htable).of_calls
        fun l => ?_
      rintro ⟨e, he, hl⟩
      rw [List.mem_singleton.1 he, Guard.calls_whole] at hl
      exact hl.resolve_left (Expr.not_calls_of_isPath haccessor)
  | index _ _ _ _ _ ih =>
      have haccessor := hpaths _ List.mem_cons_self
      exact (ih (List.forall_mem_map.2 fun _ _ => haccessor) htable).of_calls fun l => by simp
  | keyOf =>
      have haccessor := hpaths _ List.mem_cons_self
      refine .of_not_calls fun l hl => ?_
      obtain ⟨e, he, hl⟩ := Expr.calls_anyOf.1 hl
      obtain ⟨key, _, rfl⟩ := List.mem_map.1 he
      exact Expr.not_calls_of_isPath haccessor (hl.resolve_right id)

/-- Every type on the path that the checks call is live. -/
def Covers (table : Numbering) (path live : List Ty) (es : List Expr) : Prop :=
  ∀ u n, u.IsOn path → table.number? u = some n → (∃ e ∈ es, e.Calls (Guard.label u n)) →
    u.IsOn live

theorem Covers.of_calls {table : Numbering} {live : List Ty} {es es' : List Expr}
    (h : Covers table path live es)
    (hcalls : ∀ l, (∃ e ∈ es', e.Calls l) → ∃ e ∈ es, e.Calls l) : Covers table path live es' :=
  fun u n hu hn hl => h u n hu hn (hcalls _ hl)

theorem Covers.tie {table : Numbering} {live : List Ty} {es : List Expr} {recursive : Bool}
    {t : Ty} {label slot : Ident} {accessor e : Expr} (haccessor : accessor.isPath = true)
    (htie : Guard.tie recursive label slot (Guard.whole (.ident slot) es) accessor = .ok e)
    (h : Covers table path live [e])
    (hself : ∀ u n, u.key = t.key → table.number? u = some n →
      (∃ e ∈ es, e.Calls (Guard.label u n)) → u.IsOn live) :
    Covers table (t :: path) live es := by
  intro u n hu hn hl
  rcases Ty.isOn_cons.1 hu with hkey | hu
  · exact hself u n hkey.symm hn hl
  · exact h u n hu hn ⟨e, List.mem_singleton.2 rfl, (calls_tie haccessor htie).2 hl⟩

/-- A condition that calls itself makes its own type live. -/
theorem Covers.fix {table : Numbering} {live : List Ty} {es : List Expr} {t : Ty}
    {label slot : Ident} {accessor e : Expr} (h : Covers table path live [e])
    (haccessor : accessor.isPath = true)
    (htie : Guard.tie true label slot (Guard.whole (.ident slot) es) accessor = .ok e) :
    Covers table (t :: path) (t :: live) es := by
  have hmore : Covers table path (t :: live) [e] :=
    fun u n hu hn hl => Ty.isOn_cons.2 (.inr (h u n hu hn hl))
  exact hmore.tie haccessor htie fun u n hkey _ _ => Ty.isOn_cons.2 (.inl hkey.symm)

/-- A condition whose type is not marked does not call itself. -/
theorem Covers.inline {table : Numbering} {live : List Ty} {es : List Expr} {t : Ty}
    {label slot : Ident} {accessor e : Expr} (h : Covers table path live [e])
    (haccessor : accessor.isPath = true)
    (htie : Guard.tie false label slot (Guard.whole (.ident slot) es) accessor = .ok e)
    (hmarks : Marks table (t :: path) p es p') (hunmarked : p'.isMarked t = false) :
    Covers table (t :: path) live es := by
  refine h.tie haccessor htie fun u n hkey hn hl => ?_
  obtain ⟨e, he, hl⟩ := hl
  have hmarked := (hmarks u (Ty.isOn_cons.2 (.inl hkey.symm))).2 n hn e he hl
  have ht : p'.isMarked t = true := (Ty.isOn_congr hkey _).1 hmarked
  rw [ht] at hunmarked
  cases hunmarked

end Compiles

theorem Guards.of_tie {cat : Catalog} {table : Numbering} {live path : List Ty}
    {task : Task} {t : Ty}
    {parts : List Part} {es : List Expr} {label : Ident} {n : Nat} {e : Expr}
    (hknots : Knots task t)
    (hparts : Parts cat task.env path task.declared t parts) (hplain : ∀ part ∈ parts, part.Plain)
    (hlength : parts.length = es.length)
    (hguards : ∀ part e, (part, e) ∈ parts.zip es →
      Guards cat table live (t :: path) (part.task (.ident (.slot n))) e)
    (htie : Guard.tie false label (.slot n) (Guard.whole (.ident (.slot n)) es) task.accessor =
      .ok e) :
    Guards cat table live path task e := by
  obtain ⟨hfresh, rfl⟩ := Expr.replace_eq_ok.1 htie
  rw [Guard.fresh_whole] at hfresh
  have hslot : (Expr.ident (.slot n)).put (.slot n) task.accessor = task.accessor := if_pos rfl
  rw [Guard.put_whole, hslot]
  refine .inline hknots hparts hplain (by rw [hlength, List.length_map]) fun part e' hmem => ?_
  obtain ⟨e, hzip, rfl⟩ := mem_zip_map_right hmem
  have hmoved := (hguards part e hzip).put task.accessor (hfresh.2 e (List.of_mem_zip hzip).2)
  rw [Part.task, Part.put_accessor (hplain part (List.of_mem_zip hzip).1), hslot] at hmoved
  exact hmoved

/-- Whatever is compiled is a guard for its task. -/
theorem Compiles.guards {cat : Catalog} {path : List Ty} {tasks : List Task} {p p' : Progress}
    {es : List Expr} {table : Numbering} {live : List Ty} (hcat : cat.Plain)
    (h : Compiles cat path tasks p es p')
    (hpaths : ∀ task ∈ tasks, task.accessor.isPath = true)
    (htable : p'.numbering.Extends table) (hlive : ∀ u ∈ live, u.IsOn path)
    (hcovers : Covers table path live es) :
    ∀ task e, (task, e) ∈ tasks.zip es → Guards cat table live path task e := by
  have hsingle : ∀ {path live task e}, Guards cat table live path task e →
      ∀ task' e', (task', e') ∈ [task].zip [e] → Guards cat table live path task' e' := by
    intro path live task e hguards task' e' hmem
    cases List.mem_singleton.1 hmem
    exact hguards
  induction h generalizing live with
  | nil => exact fun _ _ hmem => by cases hmem
  | cons _ hrest ihfirst ihrest =>
      rw [List.forall_mem_cons] at hpaths
      intro task e hmem
      rcases List.mem_cons.1 hmem with heq | hmem
      · cases heq
        refine ihfirst (List.forall_mem_singleton.2 hpaths.1)
          (hrest.numbering_extends.trans htable) hlive (hcovers.of_calls fun l => ?_) _ _
          List.mem_cons_self
        rintro ⟨e, he, hl⟩
        exact ⟨e, List.mem_cons.2 (.inl (List.mem_singleton.1 he)), hl⟩
      · refine ihrest hpaths.2 htable hlive (hcovers.of_calls fun l => ?_) task e hmem
        rintro ⟨e, he, hl⟩
        exact ⟨e, List.mem_cons_of_mem _ he, hl⟩
  | test htest => exact hsingle (.test htest)
  | follow hfollow _ ih =>
      have haccessor := hpaths _ List.mem_cons_self
      have hcheck := ih (List.forall_mem_singleton.2 haccessor) htable hlive hcovers
      exact hsingle (.follow hfollow (hcheck _ _ List.mem_cons_self))
  | target hodd _ ih =>
      have haccessor := hpaths _ List.mem_cons_self
      have hcheck := ih (List.forall_mem_singleton.2 haccessor) htable hlive hcovers
      exact hsingle (.target hodd (hcheck _ _ List.mem_cons_self))
  | union hmembers ih =>
      have haccessor := hpaths _ List.mem_cons_self
      have hlength := hmembers.length
      rw [List.length_map] at hlength
      have hchecks := ih (List.forall_mem_map.2 fun _ _ => haccessor) htable hlive
        (hcovers.of_calls fun l => by simp)
      exact hsingle (.union hlength fun t e hmem => hchecks _ e (mem_zip_map_left hmem))
  | inter hmembers ih =>
      have haccessor := hpaths _ List.mem_cons_self
      have hlength := hmembers.length
      rw [List.length_map] at hlength
      have hchecks := ih (List.forall_mem_map.2 fun _ _ => haccessor) htable hlive
        (hcovers.of_calls fun l => by simp)
      exact hsingle (.inter hlength fun t e hmem => hchecks _ e (mem_zip_map_left hmem))
  | @again _ env t accessor p hknot hon =>
      obtain ⟨_, hnumber⟩ := Progress.number_spec p (t.knot env)
      have hnumber := Numbering.number?_extends htable hnumber
      have hlive := hcovers (t.knot env) _ hon hnumber
        ⟨_, List.mem_singleton.2 rfl, .inl rfl⟩
      exact hsingle (.again hknot hlive hnumber)
  | @knot path task t parts p p'' es e hknot hoff hparts hchecks htie ih =>
      have haccessor := hpaths _ List.mem_cons_self
      have hplain : ∀ part ∈ parts, part.Plain := fun part hpart => hparts.plain hcat hpart
      have hinner : ∀ task ∈ parts.map (Part.task (.ident (.slot (p.number t).1))),
          task.accessor.isPath = true := Part.isPath_tasks hplain rfl
      have hnumber := Numbering.number?_extends (hchecks.numbering_extends.trans htable)
        (Progress.number_spec p t).2
      have hlength : parts.length = es.length := by
        rw [← hchecks.length, List.length_map]
      have hlive' : ∀ u ∈ live, u.IsOn (t :: path) :=
        fun u hu => Ty.isOn_cons.2 (.inr (hlive u hu))
      -- With a mark, the body calls itself and its type is live inside; without one nothing calls
      -- it.
      cases hmarked : p''.isMarked t with
      | true =>
          rw [hmarked] at htie
          have hguards := ih hinner htable
            (List.forall_mem_cons.2 ⟨Ty.isOn_cons.2 (.inl rfl), hlive'⟩)
              (hcovers.fix haccessor htie)
          cases htie
          have hofflive : ¬t.IsOn live := by
            intro hon
            obtain ⟨u, hu, hkey⟩ := Ty.isOn_iff.1 hon
            exact hoff ((Ty.isOn_congr hkey path).1 (hlive u hu))
          refine hsingle (.fix hknot hofflive hnumber hparts hplain hlength ?_)
          exact fun part e hmem => hguards _ _ (mem_zip_map_left hmem)
      | false =>
          rw [hmarked] at htie
          have hmarks := hchecks.marks hcat hinner htable
          have hguards := ih hinner htable hlive' (hcovers.inline haccessor htie hmarks hmarked)
          refine hsingle (.of_tie hknot hparts hplain hlength ?_ htie)
          exact fun part e hmem => hguards _ _ (mem_zip_map_left hmem)
  | mapped hkeys hchecks ih =>
      have haccessor := hpaths _ List.mem_cons_self
      have hlength := hchecks.length
      rw [List.length_map, Part.length_ofKeys] at hlength
      have hchecks := ih (Part.isPath_tasks (fun _ => Part.plain_ofKeys) haccessor) htable hlive
        (hcovers.of_calls fun l hl => ⟨_, List.mem_singleton.2 rfl, Guard.calls_whole.2 (.inr hl)⟩)
      exact hsingle (.mapped hkeys hlength fun part e hmem => hchecks _ e (mem_zip_map_left hmem))
  | index hobject hkeys htypes hbindings hchecks ih =>
      have haccessor := hpaths _ List.mem_cons_self
      have hlength := hchecks.length
      rw [List.length_map] at hlength
      have hchecks := ih (List.forall_mem_map.2 fun _ _ => haccessor) htable hlive
        (hcovers.of_calls fun l => by simp)
      refine hsingle (.index hobject hkeys htypes hbindings hlength fun t e hmem => hchecks _ e ?_)
      exact mem_zip_map_left (f := fun t => (⟨false, _, t, _⟩ : Task)) hmem
  | keyOf hkeys => exact hsingle (.keyOf hkeys)

end TypeGuard
