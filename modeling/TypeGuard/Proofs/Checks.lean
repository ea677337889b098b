import TypeGuard.Proofs.Demands
import TypeGuard.Proofs.Inlining
import TypeGuard.Proofs.TwinGuards

/-! Guards as checks of what types ask for, with any expressions that someone wrote for the names
of properties. A check is made for a type among bindings; it holds for all types that come to the
same. -/

namespace TypeGuard

namespace Expr

variable {e : Expr}

theorem within_of_numbers (h : e.numbers = []) : e.Within fun y => y.numbers = [] := by
  induction e with
  | ident y =>
      intro use huse
      rw [List.mem_singleton.1 huse]
      exact h
  | const value => exact fun use huse => absurd huse List.not_mem_nil
  | prop target name ih | typeOf target ih => exact ih h
  | elem left right ihl ihr | eq left right ihl ihr | ne left right ihl ihr
  | and left right ihl ihr | or left right ihl ihr =>
      obtain ⟨hl, hr⟩ := List.append_eq_nil_iff.1 h
      exact List.forall_mem_append.2 ⟨ihl hl, ihr hr⟩
  | recur label argument ih =>
      obtain ⟨hl, ha⟩ := List.append_eq_nil_iff.1 h
      exact List.forall_mem_cons.2 ⟨hl, ih ha⟩
  | fix label parameter body argument ihb iha =>
      simp only [numbers, List.append_eq_nil_iff] at h
      obtain ⟨⟨⟨hl, hp⟩, hb⟩, ha⟩ := h
      exact List.forall_mem_cons.2 ⟨hl, List.forall_mem_cons.2 ⟨hp,
        List.forall_mem_append.2 ⟨ihb hb, iha ha⟩⟩⟩

theorem mem_uses_of_reads {x : Ident} (h : e.Reads x) : (.read, x) ∈ e.uses := by
  induction e with
  | ident y => exact List.mem_singleton.2 (by rw [show y = x from h])
  | const value => cases h
  | prop target name ih | typeOf target ih => exact ih h
  | recur label argument ih => exact List.mem_cons_of_mem _ (ih h)
  | elem left right ihl ihr | eq left right ihl ihr | ne left right ihl ihr
  | and left right ihl ihr | or left right ihl ihr =>
      exact List.mem_append.2 (h.imp ihl ihr)
  | fix label parameter body argument ihb iha =>
      have hparts : (.read, x) ∈ body.uses ++ argument.uses :=
        List.mem_append.2 (h.imp (fun hb => ihb hb.2) iha)
      exact List.mem_cons_of_mem _ (List.mem_cons_of_mem _ hparts)

theorem not_reads_slot (h : e.numbers = []) (n : Nat) : ¬e.Reads (.slot n) := by
  intro hreads
  cases within_of_numbers h _ (mem_uses_of_reads hreads)

theorem fresh_slot (h : e.numbers = []) (n : Nat) : e.Fresh (.slot n) := by
  apply fresh_of_uses
  intro hparameter
  cases within_of_numbers h _ hparameter

end Expr

namespace Part

/-- The part is read by an expression that has no name in it that is made for a type. -/
def IsWritten (part : Part) : Prop :=
  ∀ index, part.index? = some index → index.numbers = []

variable {part : Part} {a : Expr} {n : Nat}

theorem IsWritten.reads_slot (h : part.IsWritten) (hreads : (part.accessor a).Reads (.slot n)) :
    a.Reads (.slot n) := by
  unfold accessor at hreads
  split at hreads
  · exact hreads
  · next index hindex =>
      exact hreads.resolve_right (Expr.not_reads_slot (h index hindex) n)

theorem IsWritten.put_slot (h : part.IsWritten) (r : Expr) :
    (part.accessor a).put (.slot n) r = part.accessor (a.put (.slot n) r) := by
  unfold accessor
  split
  · rfl
  · next index hindex =>
      have hindex := h index hindex
      rw [Expr.put, Expr.put_eq_self r (Expr.fresh_slot hindex n) (Expr.not_reads_slot hindex n)]

end Part

namespace Catalog

/-- All properties are read by expressions of this kind. -/
def Indexed (cat : Catalog) (I : Expr → Prop) : Prop :=
  ∀ i d, cat.declared? i = some d → ∀ p ∈ d.members, ∀ index, p.key.index = .ok index → I index

variable {cat : Catalog} {I : Expr → Prop}

theorem Plain.indexed (h : cat.Plain) (hconst : ∀ s, I (.const (.str s))) : cat.Indexed I := by
  intro i d hfind p hp index hindex
  rw [h.index hfind hp hindex]
  exact hconst _

theorem Demands.indexed {env : Bindings} {t : Ty} {parts : List Part} {part : Part}
    (hcat : cat.Indexed I) (hconst : ∀ s, I (.const (.str s)))
    (h : cat.Demands env t (.object parts)) (hpart : part ∈ parts) {index : Expr}
    (hindex : part.index? = some index) : I index := by
  cases h with
  | properties _ _ _ hproperties hparts =>
      obtain ⟨p, hp, u, _, _, hkey, rfl⟩ := exists_of_forall₂_right hparts hpart
      cases hindex
      obtain ⟨_, _, _, _, _, _, hmem⟩ := mem_properties hproperties hp
      obtain ⟨d, hfind, hmember⟩ := mem_membersOf hmem
      exact hcat _ d hfind p hmember index hkey
  | mapped _ =>
      obtain ⟨key, _, rfl⟩ := List.mem_map.1 hpart
      cases hindex
      exact hconst key

/-- All properties are read by expressions that have no name in them that is made for a type. -/
abbrev WritesNames (cat : Catalog) : Prop :=
  cat.Indexed fun index => index.numbers = []

theorem Demands.isWritten {env : Bindings} {t : Ty} {parts : List Part} {part : Part}
    (hcat : cat.WritesNames) (h : cat.Demands env t (.object parts)) (hpart : part ∈ parts) :
    part.IsWritten :=
  fun _ hindex => h.indexed hcat (fun _ => rfl) hpart hindex

end Catalog

/-- The expression is a check, with this accessor, for a type among bindings. -/
inductive Checks (cat : Catalog) (marks : TypeParam → Bool) (table : Numbering) :
    Bindings → Ty → Expr → Expr → Prop
  | follow {env : Bindings} {t u : Ty} {a e : Expr} (hfollow : Follows cat env t u)
      (h : Checks cat marks table env u a e) : Checks cat marks table env t a e
  | target {env bindings : Bindings} {t : Ty} {a e : Expr} (hknot : t.isKnot = true)
      (hmapped : t.head.isMapped = true)
      (hbindings : cat.bindings (t.knot env) = .ok bindings)
      (h : Checks cat marks table [] (t.head.substitute bindings) a e) :
      Checks cat marks table env t a e
  | like {env env' : Bindings} {t t' : Ty} {a e : Expr}
      (halike : cat.Alike marks Value.literalKey env t env' t')
      (h : Checks cat marks table env t a e) : Checks cat marks table env' t' a e
  /-- An instance is checked as what it is among no bindings. -/
  | closed {env : Bindings} {t : Ty} {a e : Expr} (hknot : t.isKnot = true)
      (h : Checks cat marks table [] (t.knot env) a e) : Checks cat marks table env t a e
  | test {env : Bindings} {t : Ty} {a : Expr} {test : Test}
      (hdemands : cat.Demands env t (.test test)) : Checks cat marks table env t a (test.expr a)
  | any {env : Bindings} {t : Ty} {a : Expr} {parts : List Part} {es : List Expr}
      (hdemands : cat.Demands env t (.any parts)) (hlength : parts.length = es.length)
      (h : ∀ part e, (part, e) ∈ parts.zip es → Checks cat marks table part.env part.type a e) :
      Checks cat marks table env t a (.anyOf es)
  | all {env : Bindings} {t : Ty} {a : Expr} {parts : List Part} {es : List Expr}
      (hdemands : cat.Demands env t (.all parts)) (hlength : parts.length = es.length)
      (h : ∀ part e, (part, e) ∈ parts.zip es → Checks cat marks table part.env part.type a e) :
      Checks cat marks table env t a (.allOf es)
  | whole {env : Bindings} {t : Ty} {a : Expr} {parts : List Part} {es : List Expr}
      (hdemands : cat.Demands env t (.object parts)) (hlength : parts.length = es.length)
      (h : ∀ part e, (part, e) ∈ parts.zip es →
        Checks cat marks table part.env part.type (part.accessor a) e) :
      Checks cat marks table env t a (Guard.whole a es)
  | fix {t : Ty} {n : Nat} {a body : Expr} (hwhole : cat.Whole marks t)
      (hnumber : table.number? t = some n)
      (h : Checks cat marks table [] t (.ident (.slot n)) body) :
      Checks cat marks table [] t a (.fix (Guard.label t n) (.slot n) body a)
  | again {t : Ty} {n : Nat} {a : Expr} (hwhole : cat.Whole marks t)
      (hnumber : table.number? t = some n) :
      Checks cat marks table [] t a (.recur (Guard.label t n) a)

namespace Checks

variable {cat : Catalog} {marks : TypeParam → Bool} {table : Numbering} {env : Bindings} {t : Ty}
  {a e : Expr} {n : Nat}

theorem reads_slot (hwritten : cat.WritesNames) (h : Checks cat marks table env t a e)
    (hreads : e.Reads (.slot n)) : a.Reads (.slot n) := by
  induction h with
  | follow _ _ ih | target _ _ _ _ ih | like _ _ ih | closed _ _ ih => exact ih hreads
  | test _ => exact Test.reads_expr hreads
  | any _ hlength _ ih =>
      obtain ⟨e, he, hreads⟩ := Expr.reads_anyOf.1 hreads
      obtain ⟨part, hmem⟩ := exists_mem_zip hlength he
      exact ih part e hmem hreads
  | all _ hlength _ ih =>
      obtain ⟨e, he, hreads⟩ := Expr.reads_allOf.1 hreads
      obtain ⟨part, hmem⟩ := exists_mem_zip hlength he
      exact ih part e hmem hreads
  | whole hdemands hlength _ ih =>
      rcases Guard.reads_whole.1 hreads with hreads | ⟨e, he, hreads⟩
      · exact hreads
      · obtain ⟨part, hmem⟩ := exists_mem_zip hlength he
        have hpart := hdemands.isWritten hwritten (List.of_mem_zip hmem).1
        exact hpart.reads_slot (ih part e hmem hreads)
  | fix _ _ _ ih =>
      rcases hreads with ⟨hne, hreads⟩ | hreads
      · exact absurd (ih hreads) hne
      · exact hreads
  | again _ _ => exact hreads

theorem put (hwritten : cat.WritesNames) (r : Expr) (h : Checks cat marks table env t a e)
    (hfresh : e.Fresh (.slot n)) :
    Checks cat marks table env t (a.put (.slot n) r) (e.put (.slot n) r) := by
  induction h with
  | follow hfollow _ ih => exact .follow hfollow (ih hfresh)
  | target hknot hmapped hbindings _ ih => exact .target hknot hmapped hbindings (ih hfresh)
  | like halike _ ih => exact .like halike (ih hfresh)
  | closed hknot _ ih => exact .closed hknot (ih hfresh)
  | test hdemands =>
      rw [Test.put_expr]
      exact .test hdemands
  | any hdemands hlength _ ih =>
      rw [Expr.put_anyOf]
      rw [Expr.fresh_anyOf] at hfresh
      refine .any hdemands (by rw [hlength, List.length_map]) fun part e' hmem => ?_
      obtain ⟨e, hzip, rfl⟩ := mem_zip_map_right hmem
      exact ih part e hzip (hfresh e (List.of_mem_zip hzip).2)
  | all hdemands hlength _ ih =>
      rw [Expr.put_allOf]
      rw [Expr.fresh_allOf] at hfresh
      refine .all hdemands (by rw [hlength, List.length_map]) fun part e' hmem => ?_
      obtain ⟨e, hzip, rfl⟩ := mem_zip_map_right hmem
      exact ih part e hzip (hfresh e (List.of_mem_zip hzip).2)
  | whole hdemands hlength _ ih =>
      rw [Guard.put_whole]
      rw [Guard.fresh_whole] at hfresh
      refine .whole hdemands (by rw [hlength, List.length_map]) fun part e' hmem => ?_
      obtain ⟨e, hzip, rfl⟩ := mem_zip_map_right hmem
      have hpart := hdemands.isWritten hwritten (List.of_mem_zip hzip).1
      rw [← hpart.put_slot]
      exact ih part e hzip (hfresh.2 e (List.of_mem_zip hzip).2)
  | fix hwhole hnumber h _ =>
      -- The body reads its own slot only, so the name stands in the argument alone.
      have hbody : ¬Expr.Reads (.slot n) _ := fun hreads => hfresh.1 (h.reads_slot hwritten hreads)
      simp only [Expr.put, Expr.put_eq_self r hfresh.2.1 hbody]
      exact .fix hwhole hnumber h
  | again hwhole hnumber => exact .again hwhole hnumber

/-- A check on a slot becomes one on the accessor, whether it is called again or not. -/
theorem tie {recursive : Bool} {body : Expr} (hwritten : cat.WritesNames) (ht : cat.Whole marks t)
    (hnumber : table.number? t = some n)
    (h : Checks cat marks table [] t (.ident (.slot n)) body)
    (htie : Guard.tie recursive (Guard.label t n) (.slot n) body a = .ok e) :
    Checks cat marks table [] t a e := by
  unfold Guard.tie at htie
  split at htie
  · cases htie
    exact .fix ht hnumber h
  · obtain ⟨hfresh, rfl⟩ := Expr.replace_eq_ok.1 htie
    have hmoved := h.put hwritten a hfresh
    rwa [Expr.put, if_pos rfl] at hmoved

end Checks

theorem Parts.sits {cat : Catalog} {marks : TypeParam → Bool} {env : Bindings} {path : List Ty}
    {t : Ty} {parts : List Part} (hcat : cat.WellScoped marks)
    (h : Parts cat env path false t parts) (ht : cat.Whole marks t) (hknot : t.isKnot = true)
    (hpath : cat.Treads path) : ∀ part ∈ parts, cat.Sits marks part.env part.type := by
  intro part hpart
  obtain ⟨_, _, hlike⟩ := h.transfer hcat ht hknot hpath env
  obtain ⟨_, _, _, _, _, halike⟩ := exists_of_forall₂_right hlike.flip hpart
  exact halike.left

theorem Parts.checks {cat : Catalog} {marks : TypeParam → Bool} {table : Numbering} {env : Bindings}
    {path : List Ty} {t : Ty} {parts : List Part} {a : Expr} {es : List Expr}
    (hcat : cat.WellScoped marks) (h : Parts cat env path false t parts) (ht : cat.Whole marks t)
    (hknot : t.isKnot = true) (hpath : cat.Treads path) (hlength : parts.length = es.length)
    (hchecks : ∀ part e, (part, e) ∈ parts.zip es →
      Checks cat marks table part.env part.type (part.accessor a) e) :
    Checks cat marks table [] t a (Guard.whole a es) := by
  cases h with
  | properties hmapped hbindings hproperties hparts =>
      have hname := Ty.isName_of_isKnot hknot
      have hleaks : ¬cat.Leaks t := Catalog.not_leaks_of_isKnot hknot
      obtain ⟨parts', hparts', hmatches⟩ := exists_forall₂ hparts
        (S := Part.OfInstance _) (T := Part.Matches cat marks) (by
          intro p hp part hpart
          obtain ⟨w, index, htype, hindex, rfl⟩ := hpart
          exact ⟨_, ⟨w, index, htype, hindex, rfl⟩, rfl, .instantiate hcat ht hbindings
            (hcat.grounded_property ht hleaks hname hbindings hproperties hp htype)⟩)
      refine .whole (.properties hknot hmapped (by rwa [Ty.knot_nil])
        (by rwa [Ty.knot_nil]) hparts') (hmatches.length_eq.symm.trans hlength)
        fun part' e hmem => ?_
      obtain ⟨part, hzip, hindex, halike⟩ := exists_left_of_mem_zip hmatches hmem
      have haccessor : part.accessor a = part'.accessor a := by
        rw [Part.accessor, Part.accessor, hindex]
      rw [← haccessor]
      exact .like halike (hchecks part e hzip)
  | keys hbindings hhead hkeys =>
      have htread := Parts.treads (.keys hbindings hhead hkeys) hknot hpath
      have hmapped : t.head.isMapped = true := by
        rw [hhead]
        rfl
      have hground := hcat.grounded_head ht hknot hmapped hbindings
      have hsits := hground.sits (hcat.scoped_bindings ht hbindings) env
      have halike : cat.Alike marks Value.literalKey (_ ++ env) t.head [] (t.head.substitute _) :=
        .instantiate hcat ht hbindings hground
      refine .target hknot hmapped (by rwa [Ty.knot_nil]) (.like halike ?_)
      rw [hhead] at hsits ⊢
      exact .whole (.mapped (.of_classifies hcat hsits.constraint htread hkeys)) hlength hchecks

theorem exists_of_mem_zip_map_left {α β γ : Type} {f : α → γ} {xs : List α} {ys : List β} {z : γ}
    {y : β} (h : (z, y) ∈ (xs.map f).zip ys) : ∃ x, (x, y) ∈ xs.zip ys ∧ f x = z := by
  rw [List.zip_map_left] at h
  obtain ⟨⟨x, y'⟩, hmem, heq⟩ := List.mem_map.1 h
  cases heq
  exact ⟨x, hmem, rfl⟩

namespace Compiles

variable {cat : Catalog} {marks : TypeParam → Bool} {table : Numbering} {path : List Ty}
  {tasks : List Task} {p p' : Progress} {es : List Expr}

/-- Whatever is compiled is a check for its task. -/
theorem checks (hcat : cat.WellScoped marks) (hwritten : cat.WritesNames)
    (h : Compiles cat path tasks p es p') (hflat : ∀ task ∈ tasks, task.declared = false)
    (hsits : ∀ task ∈ tasks, cat.Sits marks task.env task.type) (hpath : cat.Treads path)
    (htable : p'.numbering.Extends table) :
    ∀ (task : Task) (e : Expr), (task, e) ∈ tasks.zip es →
      Checks cat marks table task.env task.type task.accessor e := by
  have hsingle : ∀ {task : Task} {e : Expr},
      Checks cat marks table task.env task.type task.accessor e →
      ∀ (task' : Task) (e' : Expr), (task', e') ∈ [task].zip [e] →
        Checks cat marks table task'.env task'.type task'.accessor e' := by
    intro task e hcheck task' e' hmem
    cases List.mem_singleton.1 hmem
    exact hcheck
  induction h with
  | nil => exact fun _ _ hmem => by cases hmem
  | cons _ hrest ihfirst ihrest =>
      rw [List.forall_mem_cons] at hflat hsits
      intro task e hmem
      rcases List.mem_cons.1 hmem with heq | hmem
      · cases heq
        exact ihfirst (List.forall_mem_singleton.2 hflat.1)
          (List.forall_mem_singleton.2 hsits.1) hpath
          (hrest.numbering_extends.trans htable) _ _ List.mem_cons_self
      · exact ihrest hflat.2 hsits.2 hpath htable task e hmem
  | test htest => exact hsingle (.test (.test htest))
  | follow hfollow _ ih =>
      rw [List.forall_mem_singleton] at hsits
      have hcheck := ih (List.forall_mem_singleton.2 rfl)
        (List.forall_mem_singleton.2 (hsits.follow hcat hfollow)) hpath htable
      exact hsingle (.follow hfollow (hcheck _ _ List.mem_cons_self))
  | target hodd _ _ =>
      rw [List.forall_mem_singleton] at hsits
      rw [Catalog.isApplicable_of_aims hsits.fits.1.2.2] at hodd
      cases hodd
  | union hmembers ih =>
      rw [List.forall_mem_singleton] at hsits
      have hchecks := ih (List.forall_mem_map.2 fun _ _ => rfl)
        (List.forall_mem_map.2 fun _ hmem => hsits.union hmem) hpath htable
      have hlength := hmembers.length
      rw [List.length_map] at hlength
      refine hsingle (.any .union (by rwa [List.length_map]) fun part e hmem => ?_)
      obtain ⟨m, hzip, rfl⟩ := exists_of_mem_zip_map_left hmem
      exact hchecks _ _ (mem_zip_map_left hzip)
  | inter hmembers ih =>
      rw [List.forall_mem_singleton] at hsits
      have hchecks := ih (List.forall_mem_map.2 fun _ _ => rfl)
        (List.forall_mem_map.2 fun _ hmem => hsits.inter hmem) hpath htable
      have hlength := hmembers.length
      rw [List.length_map] at hlength
      refine hsingle (.all .inter (by rwa [List.length_map]) fun part e hmem => ?_)
      obtain ⟨m, hzip, rfl⟩ := exists_of_mem_zip_map_left hmem
      exact hchecks _ _ (mem_zip_map_left hzip)
  | @again _ env t _ p hknot hon =>
      rw [List.forall_mem_singleton] at hsits
      have hwhole := hsits.whole_knot hknot
      have hnumber := Numbering.number?_extends htable (Progress.number_spec p (t.knot env)).2
      exact hsingle (.closed hknot (.again hwhole hnumber))
  | @knot path task t parts p p' es e hknots hoff hparts hchecks htie ih =>
      rw [List.forall_mem_singleton] at hflat hsits
      cases hknots with
      | declared _ => cases hflat
      | @flat env u accessor hknot =>
          have hwhole := hsits.whole_knot hknot
          have hknot' : (u.knot env).isKnot = true := Ty.isKnot_knot hknot
          have hnumber := Numbering.number?_extends (hchecks.numbering_extends.trans htable)
            (Progress.number_spec p (u.knot env)).2
          have hlength := hchecks.length
          rw [List.length_map] at hlength
          refine hsingle (.closed hknot (Checks.tie hwritten hwhole hnumber ?_ htie))
          refine hparts.checks hcat hwhole hknot' hpath hlength fun part e hmem => ?_
          exact ih (hparts.flat _) (List.forall_mem_map.2 (hparts.sits hcat hwhole hknot' hpath))
            (hparts.treads hknot' hpath) htable _ _ (mem_zip_map_left hmem)
  | mapped hkeys hchecks ih =>
      rw [List.forall_mem_singleton] at hsits
      have hlength := hchecks.length
      rw [List.length_map] at hlength
      refine hsingle (.whole (.mapped (.of_classifies hcat hsits.constraint hpath hkeys)) hlength
        fun part e hmem => ?_)
      refine ih ?_ ?_ hpath htable _ _ (mem_zip_map_left hmem)
      · simp [Part.ofKeys, Part.task]
      · refine List.forall_mem_map.2 fun part hpart => ?_
        obtain ⟨key, _, rfl⟩ := List.mem_map.1 hpart
        exact hsits.template key
  | index hobject hkeys htypes hbindings hchecks ih =>
      rw [List.forall_mem_singleton] at hsits
      have hlength := hchecks.length
      rw [List.length_map] at hlength
      refine hsingle
        (.any (.index hobject (.of_classifies hcat hsits.index_right hpath hkeys) htypes
        hbindings) (by rwa [List.length_map]) fun part e hmem => ?_)
      obtain ⟨w, hzip, rfl⟩ := exists_of_mem_zip_map_left hmem
      have halike : ∀ w ∈ _, cat.Alike marks Value.literalKey (_ ++ _) w [] (w.substitute _) :=
        fun w hw => hobject.instantiate hcat hsits htypes hbindings hw
      refine .like (halike w (List.of_mem_zip hzip).1) ?_
      exact ih (List.forall_mem_map.2 fun _ _ => rfl)
        (List.forall_mem_map.2 fun w hw => (halike w hw).left) hpath htable _ _
          (mem_zip_map_left hzip)
  | keyOf hkeys =>
      rw [List.forall_mem_singleton] at hsits
      refine hsingle
        (.any (.keyOf (.of_classifies hcat hsits hpath hkeys)) ?_ fun part e hmem => ?_)
      · rw [List.length_map, List.length_map]
      · obtain ⟨key, hzip, rfl⟩ := exists_of_mem_zip_map_left hmem
        rw [eq_of_mem_zip_map hzip]
        have hdemands : ∀ env, cat.Demands env (.literal (.str key)) (.test (.equals (.str key))) :=
          fun env => .test rfl
        exact .test (hdemands _)

end Compiles

end TypeGuard
