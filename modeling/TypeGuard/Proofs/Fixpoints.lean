import TypeGuard.Proofs.Cycles
import TypeGuard.Proofs.Discipline
import TypeGuard.Proofs.Safety
import TypeGuard.Proofs.WalkTies

/-! Recursive conditions are tied in good order. Whatever a walk builds is disciplined by the types
that are being expanded, as if each of them were a condition around it. Those that are not called go
away when they are left. -/

namespace TypeGuard

open Relation (ReflTransGen TransGen)

open Walk (Ties)

theorem Catalog.Uncomputed.plain {cat : Catalog} (h : cat.Uncomputed) : cat.Plain :=
  fun s d hfind p hp => h s d hfind p (d.mem_listed hp)

/-- What the condition for a type binds, if it becomes one. -/
def Guard.binder (t : Ty) (n : Nat) : Binder :=
  ⟨label t n, .slot n⟩

/-- The binders of the types that are being expanded. -/
structure Numbered (table : Numbering) (path : List Ty) (scope : List Binder) : Prop where
  binders : List.Forall₂ (fun t binder => ∃ n, table.number? t = some n ∧ binder = Guard.binder t n)
    path scope
  nodup : (scope.map Binder.label).Nodup

namespace Numbered

variable {table : Numbering} {path : List Ty} {scope : List Binder} {t u : Ty} {n : Nat}

theorem later {table' : Numbering} (h : Numbered table path scope) (hext : table.Extends table') :
    Numbered table' path scope := by
  refine ⟨h.binders.imp ?_, h.nodup⟩
  rintro t binder ⟨n, hn, rfl⟩
  exact ⟨n, Numbering.number?_extends hext hn, rfl⟩

theorem eq_binder (h : Numbered table path scope) {binder : Binder}
    (hmem : (u, binder) ∈ path.zip scope) :
    ∃ n, table.number? u = some n ∧ binder = Guard.binder u n :=
  (List.forall₂_iff_zip.1 h.binders).2 hmem

theorem apart (h : Numbered table path scope) (hoff : ¬t.IsOn path)
    (hn : table.number? t = some n) :
    ∀ binder ∈ scope, binder.label ≠ Guard.label t n ∧ binder.parameter ≠ .slot n := by
  intro binder hbinder
  obtain ⟨u, hu, k, hk, rfl⟩ := exists_of_forall₂_right h.binders hbinder
  have hne : k ≠ n := by
    rintro rfl
    exact hoff (Ty.isOn_iff.2 ⟨u, hu, Numbering.number?_faithful hk hn⟩)
  refine ⟨fun hlabel => hne (Guard.label_injective hlabel), fun hslot => hne ?_⟩
  exact Ident.slot.inj hslot

theorem enter (h : Numbered table path scope) (hoff : ¬t.IsOn path)
    (hn : table.number? t = some n) : Numbered table (t :: path) (Guard.binder t n :: scope) := by
  refine ⟨.cons ⟨n, hn, rfl⟩ h.binders, List.nodup_cons.2 ⟨fun hmem => ?_, h.nodup⟩⟩
  obtain ⟨binder, hbinder, hlabel⟩ := List.mem_map.1 hmem
  exact (h.apart hoff hn binder hbinder).1 hlabel

theorem count_label (h : Numbered table path scope) (hu : u ∈ path) (hkey : u.key = t.key)
    (hn : table.number? t = some n) : (scope.map Binder.label).count (Guard.label t n) = 1 := by
  obtain ⟨binder, hbinder, k, hk, rfl⟩ := exists_of_forall₂_right h.binders.flip hu
  rw [Numbering.number?_congr hkey, hn] at hk
  cases hk
  refine List.count_eq_one_of_mem h.nodup (List.mem_map.2 ⟨_, hbinder, ?_⟩)
  exact Guard.label_congr hkey n

end Numbered

section Yields

variable (cat : Catalog) (root : Site) (least : Nat)

/-- What walks build, one after the other, while these types are being expanded. -/
structure Yields (path : List Ty) (scope : List Binder) (p : Progress) (es : List Expr)
    (p' : Progress) : Prop where
  later : p.numbering.Extends p'.numbering
  disciplined : ∀ e ∈ es, e.Disciplined least scope
  marks : ∀ u binder, (u, binder) ∈ path.zip scope → (p'.isMarked u = true ↔
    p.isMarked u = true ∨ ∃ e ∈ es, e.Calls binder.label)
  cyclic : (∃ e ∈ es, e.isFlat = false) →
    ∃ τ, ReflTransGen (Site.Step cat) root τ ∧ τ.IsCyclic cat

variable {cat root least} {path : List Ty} {scope : List Binder} {p p' p'' : Progress} {e : Expr}
  {es : List Expr}

namespace Yields

theorem of_flat (hdisciplined : ∀ e ∈ es, e.Disciplined least scope)
    (hflat : ∀ e ∈ es, e.isFlat = true) : Yields cat root least path scope p es p := by
  refine ⟨.refl _, hdisciplined, fun u binder _ => ?_, ?_⟩
  · refine ⟨.inl, fun h => h.resolve_right ?_⟩
    rintro ⟨e, he, hcalls⟩
    exact Expr.not_calls_of_isFlat (hflat e he) _ hcalls
  · rintro ⟨e, he, hrecursive⟩
    rw [hflat e he] at hrecursive
    cases hrecursive

theorem nil : Yields cat root least path scope p [] p :=
  of_flat (by simp) (by simp)

theorem flat (hdisciplined : e.Disciplined least scope) (hflat : e.isFlat = true) :
    Yields cat root least path scope p [e] p :=
  of_flat (List.forall_mem_singleton.2 hdisciplined) (List.forall_mem_singleton.2 hflat)

theorem append {es' : List Expr} (h : Yields cat root least path scope p es p')
    (h' : Yields cat root least path scope p' es' p'') :
    Yields cat root least path scope p (es ++ es') p'' := by
  refine ⟨h.later.trans h'.later, ?_, fun u binder hmem => ?_, ?_⟩
  · exact List.forall_mem_append.2 ⟨h.disciplined, h'.disciplined⟩
  · rw [h'.marks u binder hmem, h.marks u binder hmem, or_assoc]
    simp only [List.mem_append, or_and_right, exists_or]
  · rintro ⟨e, he, hflat⟩
    rcases List.mem_append.1 he with he | he
    · exact h.cyclic ⟨e, he, hflat⟩
    · exact h'.cyclic ⟨e, he, hflat⟩

theorem combine (h : Yields cat root least path scope p es p')
    (hdisciplined : e.Disciplined least scope)
    (hcalls : ∀ l, e.Calls l ↔ ∃ e ∈ es, e.Calls l)
    (hflat : (∀ e ∈ es, e.isFlat = true) → e.isFlat = true) :
    Yields cat root least path scope p [e] p' := by
  refine ⟨h.later, List.forall_mem_singleton.2 hdisciplined, fun u binder hmem => ?_, ?_⟩
  · rw [h.marks u binder hmem]
    simp only [List.mem_singleton, exists_eq_left, hcalls]
  · rintro ⟨e', he', hrecursive⟩
    rw [List.mem_singleton.1 he'] at hrecursive
    apply h.cyclic
    by_contra hnone
    simp only [not_exists, not_and, Bool.not_eq_false] at hnone
    rw [hflat hnone] at hrecursive
    cases hrecursive

theorem anyOf (h : Yields cat root least path scope p es p') :
    Yields cat root least path scope p [.anyOf es] p' :=
  h.combine (Expr.disciplined_anyOf.2 h.disciplined) (fun _ => Expr.calls_anyOf) Expr.isFlat_anyOf.2

theorem allOf (h : Yields cat root least path scope p es p') :
    Yields cat root least path scope p [.allOf es] p' :=
  h.combine (Expr.disciplined_allOf.2 h.disciplined) (fun _ => Expr.calls_allOf) Expr.isFlat_allOf.2

end Yields

variable {σ : Site} {t : Ty} {n : Nat} {a body : Expr}

theorem yields_recur (htrace : root.Trace cat path σ) (hfor : σ.IsFor t) (hon : t.IsOn path)
    (hnumbered : Numbered p.numbering path scope) (hcalls : a.Accesses least scope) :
    Yields cat root least path scope p [.recur (Guard.label t (p.number t).1) a]
      ((p.number t).2.mark t) := by
  obtain ⟨hext, hn⟩ := p.number_spec t
  have hnumbered := hnumbered.later hext
  obtain ⟨w, hw, hkey, _, hcyclic⟩ := htrace.cyclic hfor hon
  refine ⟨hext, List.forall_mem_singleton.2 ⟨hnumbered.count_label hw hkey hn, hcalls⟩, ?_,
    fun _ => hcyclic⟩
  intro u binder hmem
  obtain ⟨k, hk, rfl⟩ := hnumbered.eq_binder hmem
  have hcalled : (Expr.recur (Guard.label t (p.number t).1) a).Calls (Guard.label u k) ↔
      t.key = u.key := by
    constructor
    · rintro (hlabel | hargument)
      · rw [← Guard.label_injective hlabel] at hk
        exact Numbering.number?_faithful hn hk
      · exact absurd hargument (Expr.not_calls_of_isFlat hcalls.isFlat _)
    · intro hkey
      rw [← Numbering.number?_congr hkey, hn] at hk
      cases hk
      exact .inl (Guard.label_congr hkey _)
  simp only [List.mem_singleton, exists_eq_left]
  exact (Ty.isOn_cons (t := u)).trans (or_comm.trans (or_congr_right hcalled.symm))

/-- What is left when a type is: the numbers and the marks of the others. -/
theorem Yields.leave (hoff : ¬t.IsOn path) (hext : p.numbering.Extends p'.numbering)
    (hmarked : p'.marked = p.marked) {binder : Binder}
    (hbody : Yields cat root least (t :: path) (binder :: scope) p' [body] p'')
    (hdisciplined : e.Disciplined least scope) (hcalls : ∀ l, e.Calls l ↔ body.Calls l)
    (hflat : e.isFlat = false → body.isFlat = false) :
    Yields cat root least path scope p [e] (p''.leave t) := by
  refine ⟨hext.trans hbody.later, List.forall_mem_singleton.2 hdisciplined, ?_, ?_⟩
  · intro u other hmem
    have hne : u.key ≠ t.key := by
      intro hkey
      exact hoff (Ty.isOn_iff.2 ⟨u, (List.of_mem_zip hmem).1, hkey⟩)
    have hstart : p'.isMarked u = p.isMarked u := by simp only [Progress.isMarked, hmarked]
    rw [Progress.isMarked_leave, and_iff_left hne,
      hbody.marks u other (List.mem_cons_of_mem _ hmem), hstart]
    simp only [List.mem_singleton, exists_eq_left, hcalls]
  · rintro ⟨e', he', hrecursive⟩
    rw [List.mem_singleton.1 he'] at hrecursive
    exact hbody.cyclic ⟨body, List.mem_cons_self, hflat hrecursive⟩

theorem Yields.isMarked_self (htidy : p.Tidy path) (hoff : ¬t.IsOn path)
    (hbody :
      Yields cat root least (t :: path) (Guard.binder t n :: scope) (p.number t).2 [body] p') :
    p'.isMarked t = true ↔ body.Calls (Guard.label t n) := by
  have hunmarked : ¬(p.number t).2.isMarked t = true := by
    intro hmarked
    obtain ⟨u, hu, hsame⟩ := List.any_eq_true.1 hmarked
    exact hoff ((Ty.isOn_congr (Ty.same_iff.1 hsame) path).1 (htidy u hu))
  rw [hbody.marks t _ List.mem_cons_self, or_iff_right hunmarked]
  simp only [List.mem_singleton, exists_eq_left]
  rfl

end Yields

namespace Guard

variable {cat : Catalog} {root σ : Site} {least : Nat} {env : Bindings} {path : List Ty}
  {scope : List Binder} {p : Progress} {t : Ty} {a : Expr}

theorem ties_knot {build : Expr → Walk Expr} (htrace : root.Trace cat path σ) (hfor : σ.IsFor t)
    (hnumbered : Numbered p.numbering path scope) (hreads : a.Accesses 0 scope)
    (hcalls : t.IsOn path → a.Accesses least scope)
    (hbuild : ∀ n p, ¬t.IsOn path → Numbered p.numbering (t :: path) (binder t n :: scope) →
      Ties (build (.ident (.slot n))) env (t :: path) p fun body p' =>
        Yields cat root least (t :: path) (binder t n :: scope) p [body] p') :
    Ties (knot t a build) env path p fun e p' =>
      Yields cat root least path scope p [e] p' := by
  refine .of_tidy fun htidy => ?_
  obtain ⟨hext, hn⟩ := p.number_spec t
  refine .bind (.of_total (.numberOf (.bind (.of_total (.isActive ?_)))))
  by_cases hon : t.IsOn path
  · rw [if_pos hon]
    refine .bind (.of_total (.mark hon (.pure ?_)))
    exact yields_recur htrace hfor hon hnumbered (hcalls hon)
  · rw [if_neg hon]
    have hapart := (hnumbered.later hext).apart hon hn
    have hinner := (hnumbered.later hext).enter hon hn
    refine .bind (.entering hon (.bind ((hbuild _ _ hon hinner).mono fun body p' hbody => ?_)))
    refine .bind (.of_total (.isMarked (.pure ?_)))
    -- The own mark tells whether the body calls itself, and only then is there a condition.
    have hself := hbody.isMarked_self htidy hon
    have hflat := hreads.isFlat
    have hdisciplined := hbody.disciplined body List.mem_cons_self
    simp only
    cases hmarked : p'.isMarked t with
    | true =>
        have hcalled := hself.1 hmarked
        refine .pure
          (hbody.leave hon hext rfl ⟨hcalled, hapart, hdisciplined, hreads⟩ (fun l => ?_) ?_)
        · exact or_iff_left (Expr.not_calls_of_isFlat hflat l)
        · intro _
          by_contra hbodyFlat
          exact Expr.not_calls_of_isFlat (Bool.not_eq_false _ ▸ hbodyFlat) _ hcalled
    | false =>
        have hnot : ¬body.Calls (label t (p.number t).1) := by
          rw [← hself, hmarked]
          exact Bool.false_ne_true
        have hreplace : body.replace (.slot (p.number t).1) a =
            .ok (body.put (.slot (p.number t).1) a) :=
          Expr.replace_eq_ok.2 ⟨hdisciplined.fresh List.mem_cons_self, rfl⟩
        simp only [Bool.false_eq_true, if_false, hreplace]
        refine .pure (hbody.leave hon hext rfl ?_ (fun l => ?_) ?_)
        · rw [← List.nil_append (binder t _ :: scope)] at hdisciplined
          exact hdisciplined.put hnot hreads (by simp)
        · exact ⟨Expr.calls_of_calls_put (Expr.not_calls_of_isFlat hflat l),
            Expr.calls_put_of_calls a⟩
        · rw [Expr.isFlat_put hflat]
          exact id

theorem ties_mapM {α : Type} {f : α → Walk Expr} {xs : List α}
    (h : ∀ x ∈ xs, ∀ p', p.numbering.Extends p'.numbering → Ties (f x) env path p' fun e p'' =>
      Yields cat root least path scope p' [e] p'') :
    Ties (xs.mapM f) env path p fun es p' => Yields cat root least path scope p es p' := by
  induction xs generalizing p with
  | nil => exact .pure .nil
  | cons x rest ih =>
      rw [List.mapM_cons]
      rw [List.forall_mem_cons] at h
      refine .bind ((h.1 p (.refl _)).mono fun e p' hfirst => ?_)
      have hrest := ih fun x hx p'' hext => h.2 x hx p'' (hfirst.later.trans hext)
      refine .bind (hrest.mono fun es p'' hes => .pure ?_)
      exact hfirst.append hes

variable (cat root least) in
/-- Where a walk is let loose on an accessor. If anything that is being expanded is met again, the
accessor is deep enough for a call. -/
structure Placed (table : Numbering) (path : List Ty) (scope : List Binder) (a : Expr) : Prop where
  numbered : Numbered table path scope
  reads : a.Accesses 0 scope
  calls : ∀ t ∈ path, root.Meets cat t → a.Accesses least scope

namespace Placed

variable {table table' : Numbering}

theorem later (h : Placed cat root least table path scope a) (hext : table.Extends table') :
    Placed cat root least table' path scope a :=
  ⟨h.numbered.later hext, h.reads, h.calls⟩

theorem part (hleast : least ≤ 1) (hnumbered : Numbered table path scope)
    (hreads : a.Accesses 0 scope) (key : String) :
    Placed cat root least table path scope (.elem a (.const (.str key))) :=
  ⟨hnumbered, (hreads.part key).mono (Nat.zero_le 1), fun _ _ _ => (hreads.part key).mono hleast⟩

end Placed

variable (cat root least) in
def TiesVisit (visit : Visit) : Prop :=
  ∀ env path scope p t a, root.Trace cat path (.type env t) →
    Placed cat root least p.numbering path scope a →
      Ties (visit t a) env path p fun e p' => Yields cat root least path scope p [e] p'

theorem yields_whole {es : List Expr} {p' : Progress} (hreads : a.Accesses 0 scope)
    (h : Yields cat root least path scope p es p') :
    Yields cat root least path scope p [.allOf (Expr.objectTests a ++ es)] p' := by
  have hflat := hreads.isFlat
  have hdisciplined := hreads.disciplined least
  have htype : Yields cat root least path scope p [.hasTypeOf a "object"] p :=
    .flat ⟨hdisciplined, trivial⟩ (by simp only [Expr.hasTypeOf, Expr.isFlat, hflat, Bool.and_self])
  have hnull : Yields cat root least path scope p [.nonNull a] p :=
    .flat ⟨hdisciplined, trivial⟩ (by simp only [Expr.nonNull, Expr.isFlat, hflat, Bool.and_self])
  exact .allOf (htype.append (hnull.append h))

theorem yields_test (hreads : a.Accesses 0 scope) (test : Test) :
    Yields cat root least path scope p [test.expr a] p := by
  have hflat := hreads.isFlat
  have hdisciplined := hreads.disciplined least
  cases test with
  | always | never => exact .flat trivial rfl
  | object => exact yields_whole hreads .nil
  | typeOf name =>
      refine .flat ⟨hdisciplined, trivial⟩ ?_
      simp only [Test.expr, Expr.hasTypeOf, Expr.isFlat, hflat, Bool.and_self]
  | equals value =>
      refine .flat ⟨hdisciplined, trivial⟩ ?_
      simp only [Test.expr, Expr.equalTo, Expr.isFlat, hflat, Bool.and_self]

variable {visit : Visit}

theorem ties_property {q : Property} (hleast : least ≤ 1) (hvisit : TiesVisit cat root least visit)
    (hplain : ∀ c, q.key ≠ .computed c)
    (htrace : ∀ u, q.type? = some u → root.Trace cat path (.type env u))
    (hnumbered : Numbered p.numbering path scope) (hreads : a.Accesses 0 scope) :
    Ties (ofProperty cat visit q a) env path p fun e p' =>
      Yields cat root least path scope p [e] p' := by
  unfold ofProperty
  cases htype : q.type? with
  | none => exact .throw (by simp)
  | some t =>
      have hrest : Ties (do
          let index ← Walk.ofExcept q.key.index
          visit t (.elem a index)) env path p fun e p' =>
            Yields cat root least path scope p [e] p' := by
        rw [PropertyKey.index_of_plain hplain]
        refine .bind (.pure ?_)
        exact hvisit env path scope p t _ (htrace t htype) (.part hleast hnumbered hreads _)
      by_cases hoptional : q.optional = true
      · simp only [hoptional, if_true]
        exact .bind (.of_total (.note hrest))
      · simp only [hoptional]
        exact hrest

theorem ties_properties {qs : List Property} (hleast : least ≤ 1)
    (hvisit : TiesVisit cat root least visit) (hplain : ∀ q ∈ qs, ∀ c, q.key ≠ .computed c)
    (htrace : ∀ q ∈ qs, ∀ u, q.type? = some u → root.Trace cat path (.type env u))
    (hnumbered : Numbered p.numbering path scope) (hreads : a.Accesses 0 scope) :
    Ties (qs.mapM fun q => ofProperty cat visit q a) env path p fun es p' =>
      Yields cat root least path scope p es p' :=
  ties_mapM fun q hq _ hext =>
    ties_property hleast hvisit (hplain q hq) (htrace q hq) (hnumbered.later hext) hreads

theorem ties_shape (limit : Nat) (t : Ty) :
    Ties (Shape.ofType cat limit t) env path p fun shape p' =>
      p = p' ∧ Classifies cat .strings env path t shape :=
  .of_misses ((Query.walk_sound limit .strings env path p t).mono fun _ _ h => ⟨h.1.symm, h.2⟩)
    ((Shape.combined Walk.Misses.combines limit).1 t)

theorem ties_mapped {limit : Nat} {x : TypeParam} {constraint template : Ty}
    {params : List TypeParam} (hleast : least ≤ 1) (hvisit : TiesVisit cat root least visit)
    (htrace : ∀ key, cat.IsKey env constraint key →
      root.Trace cat path (.type ((x, .literal (.str key)) :: env) template))
    (hnumbered : Numbered p.numbering path scope) (hreads : a.Accesses 0 scope) :
    Ties (ofMapped cat limit visit x constraint template params a) env path p fun e p' =>
      Yields cat root least path scope p [e] p' := by
  refine .bind ((ties_shape limit constraint).mono ?_)
  rintro shape _ ⟨rfl, hshape⟩
  cases shape with
  | always | never => exact .throw_shown (.mapped x constraint template params) fun _ => rfl
  | exact keys =>
      have hkeys : ∀ key ∈ keys.toList, ∀ p', p.numbering.Extends p'.numbering →
          Ties (Walk.withFrame [(x, .literal (.str key))]
            (visit template (.elem a (.const (.str key))))) env path p' fun e p'' =>
              Yields cat root least path scope p' [e] p'' :=
        fun key hkey p' hext => .withFrame (hvisit _ path scope p' template _
          (htrace key ⟨path, keys, hshape, hkey⟩) (.part hleast (hnumbered.later hext) hreads key))
      exact .bind ((ties_mapM hkeys).mono fun es p' hes => .pure (yields_whole hreads hes))

theorem ties_parts {limit : Nat} {t : Ty} (hcat : cat.Plain) (hleast : least ≤ 1)
    (hvisit : TiesVisit cat root least visit) (hknot : t.isKnot = true)
    (htrace : ∀ τ, Site.Step cat (.type env t) τ → root.Trace cat path τ)
    (hnumbered : Numbered p.numbering path scope) (hreads : a.Accesses 0 scope) :
    Ties (ofParts cat limit visit (t.knot env) a) env path p fun e p' =>
      Yields cat root least path scope p [e] p' := by
  refine .bind
    (.ofExcept (fun bindings hbindings => ?_) (cat.stops_bindings (fun _ => id) _).ne_fresh)
  refine .withFrame ?_
  split
  · next x constraint template params hhead =>
      exact ties_mapped hleast hvisit (fun key hkey => htrace _ (.keyed hknot hbindings hhead hkey))
        hnumbered hreads
  · refine .bind (.ofExcept (fun properties hproperties => ?_)
      (cat.stops_properties (fun _ => id) _).ne_fresh)
    refine .bind ((ties_properties hleast hvisit ?_ ?_ hnumbered hreads).mono fun es p' hes => ?_)
    · exact fun q hq => hcat.of_mem_properties hproperties hq
    · exact fun q hq u htype => htrace _ (.property hknot hbindings hproperties hq htype)
    · exact .pure (yields_whole hreads hes)

theorem ties_object {limit : Nat} {t : Ty} (hcat : cat.Plain) (hleast : least ≤ 1)
    (hvisit : TiesVisit cat root least visit) (hknot : t.isKnot = true)
    (htrace : root.Trace cat path (.type env t))
    (hplaced : Placed cat root least p.numbering path scope a) :
    Ties (ofObject cat limit visit (t.knot env) a) env path p fun e p' =>
      Yields cat root least path scope p [e] p' := by
  refine ties_knot htrace (.type hknot) hplaced.numbered hplaced.reads (fun hon => ?_) ?_
  · obtain ⟨u, hu, _, hmeets, _⟩ := htrace.cyclic (.type hknot) hon
    exact hplaced.calls u hu hmeets
  · intro n p' _ hnumbered
    exact ties_parts hcat hleast hvisit hknot (fun τ hstep => htrace.enter (.type hknot) hstep)
      hnumbered (.slot _ _)

theorem ties_members {ts : List Ty} (hvisit : TiesVisit cat root least visit)
    (htrace : ∀ t ∈ ts, root.Trace cat path (.type env t))
    (hplaced : Placed cat root least p.numbering path scope a) :
    Ties (ts.mapM fun t => visit t a) env path p fun es p' =>
      Yields cat root least path scope p es p' :=
  ties_mapM fun t ht p' hext => hvisit env path scope p' t a (htrace t ht) (hplaced.later hext)

theorem ties_index {limit : Nat} {object key : Ty} (hvisit : TiesVisit cat root least visit)
    (htrace : root.Trace cat path (.type env (.index object key)))
    (hplaced : Placed cat root least p.numbering path scope a) :
    Ties (do
        let object ← Walk.expose cat limit object
        let keys ← Shape.ofType cat limit key
        let types ← Walk.ofExcept (cat.propertyTypes object key keys)
        let bindings ← Walk.ofExcept (cat.bindings object)
        Walk.withFrame bindings do
          let conditions ← types.mapM fun t => visit t a
          pure (.anyOf conditions)) env path p fun e p' =>
      Yields cat root least path scope p [e] p' := by
  have hexpose : Ties (Walk.expose cat limit object) env path p fun o p' =>
      p' = p ∧ Exposes cat env object o :=
    .of_misses (Walk.expose_sound cat limit object) (Walk.Misses.combines.expose cat limit object)
  refine .bind (hexpose.mono ?_)
  rintro o _ ⟨rfl, hobject⟩
  refine .bind ((ties_shape limit key).mono ?_)
  rintro shape _ ⟨rfl, hshape⟩
  refine .bind (.ofExcept (fun types htypes => ?_)
    (cat.stops_propertyTypes (fun _ => id) _ _ _).ne_fresh)
  refine .bind
    (.ofExcept (fun bindings hbindings => ?_) (cat.stops_bindings (fun _ => id) _).ne_fresh)
  obtain ⟨keys, rfl, htypes⟩ := Catalog.propertyTypes_eq_ok htypes
  have hmembers : ∀ t ∈ types, root.Trace cat path (.type (bindings ++ env) t) := by
    intro t ht
    obtain ⟨name, hname, htype⟩ := exists_of_forall₂_right (mapM_eq_ok.1 htypes) ht
    exact htrace.step (.index hobject ⟨path, keys, hshape, hname⟩ hbindings htype)
  have hall := ties_members hvisit hmembers hplaced
  exact .withFrame (.bind (hall.mono fun es p' hes => .pure hes.anyOf))

theorem ties_keyOf {limit : Nat} {operand : Ty} (hreads : a.Accesses 0 scope) :
    Ties (do
        match ← Shape.ofType cat limit (.keyOf operand) with
        | .exact keys => pure (.anyOf (keys.toList.map fun key => .equalTo a (.str key)))
        | _ => throw (.ofText (Ty.keyOf operand).render fun text =>
            .unsupported text none "keyof with no finite set of string keys")) env path p
              fun e p' =>
      Yields cat root least path scope p [e] p' := by
  refine .bind ((ties_shape limit (.keyOf operand)).mono ?_)
  rintro shape _ ⟨rfl, _⟩
  cases shape with
  | always | never => exact .throw_shown (.keyOf operand) fun _ => rfl
  | exact keys =>
      refine .pure (.anyOf (.of_flat ?_ ?_))
      · simp only [List.forall_mem_map]
        exact fun key _ => ⟨hreads.disciplined least, trivial⟩
      · simp only [List.forall_mem_map, Expr.equalTo, Expr.isFlat, hreads.isFlat, Bool.and_self,
          implies_true]

theorem ties_ofType (root : Site) (hcat : cat.Plain) (hleast : least ≤ 1) (limit : Nat) :
    TiesVisit cat root least (ofType cat limit) := by
  induction limit with
  | zero => exact fun _ _ _ _ _ _ _ _ => .throw (by simp)
  | succ limit ih =>
      intro env path scope p t a htrace hplaced
      cases t with
      | primitive s =>
          refine .ofExcept (fun e he => ?_) (stops_ofPrimitive s a).ne_fresh
          obtain ⟨test, _, rfl⟩ := Test.ofPrimitive_eq_ok.1 he
          exact yields_test hplaced.reads test
      | literal v =>
          refine .ofExcept (fun e he => ?_) (stops_ofLiteral v a).ne_fresh
          obtain ⟨test, _, rfl⟩ := Test.ofLiteral_eq_ok.1 he
          exact yields_test hplaced.reads test
      | boolean b => exact .pure (yields_test hplaced.reads (.equals (.bool b)))
      | union members =>
          have hall := ties_members ih (fun t ht => htrace.step (.union ht)) hplaced
          exact .bind (hall.mono fun es p' hes => .pure hes.anyOf)
      | inter members =>
          have hall := ties_members ih (fun t ht => htrace.step (.inter ht)) hplaced
          exact .bind (hall.mono fun es p' hes => .pure hes.allOf)
      | name s args =>
          refine .bind (.ofExcept (fun t ht => ?_) (cat.stops_resolve _).ne_fresh)
          exact ih env path scope p t a (htrace.step (.follow (.name ht))) hplaced
      | param x =>
          refine .bind (.bound fun t ht => ?_)
          exact ih env path scope p t a (htrace.step (.follow (.param ht))) hplaced
      | object kind decl elements =>
          cases kind with
          | interface =>
              exact ties_object (t := .object .interface decl elements) hcat hleast ih
                rfl htrace hplaced
          | nominal => exact .throw (by simp [Fault.nominal, Fault.unsupported])
      | sequence kind elements => exact .throw_shown (.sequence kind elements) fun _ => rfl
      | ref target args =>
          refine .bind (.of_total (.instantiate ?_))
          cases target with
          | object kind decl elements =>
              cases kind with
              | interface => exact ties_object hcat hleast ih rfl htrace hplaced
              | nominal => exact ih env path scope p _ a (htrace.step (.target rfl)) hplaced
          | mapped x constraint template params =>
              exact ties_object hcat hleast ih rfl htrace hplaced
          | _ => exact ih env path scope p _ a (htrace.step (.target rfl)) hplaced
      | mapped x constraint template params =>
          exact ties_mapped hleast ih (fun key hkey => htrace.step (.mapped hkey)) hplaced.numbered
            hplaced.reads
      | index object key => exact ties_index ih htrace hplaced
      | keyOf operand => exact ties_keyOf hplaced.reads

theorem ties_base {declared : Declaration → Expr → Walk Expr} {heir : Declaration} {base : Ty}
    (hnumbered : Numbered p.numbering path scope) (hreads : a.Accesses 0 scope)
    (htrace : ∀ decl elements d, base.head = .object .interface decl elements →
      cat.declared? decl = some d →
      root.Trace cat path (.declared (.ofPairs (d.params.zip base.args) ++ env) base d))
    (hdeclared : ∀ decl elements d, base.head = .object .interface decl elements →
      cat.declared? decl = some d → ∀ n p,
      Numbered p.numbering (base :: path) (binder base n :: scope) →
        Ties (declared d (.ident (.slot n))) (.ofPairs (d.params.zip base.args) ++ env)
          (base :: path) p
          fun e p' => Yields cat root least (base :: path) (binder base n :: scope) p [e] p') :
    Ties (ofBase cat declared heir base a) env path p fun e p' =>
      Yields cat root least path scope p [e] p' := by
  unfold ofBase
  split
  · next decl elements hhead =>
      refine .bind (.of_total (.isActive ?_))
      by_cases hon : base.IsOn path
      · simp only [hon, if_true]
        exact .throw_shown base fun _ => rfl
      · simp only [hon, if_false]
        cases hfind : cat.declared? decl with
        | none => exact .throw (by simp)
        | some d =>
            exact .withFrame (ties_knot (htrace decl elements d hhead hfind) .declared hnumbered
              hreads (absurd · hon) fun n p' _ => hdeclared decl elements d hhead hfind n p')
  · exact .throw_shown base fun _ => rfl

theorem ties_ofDeclaration (hcat : cat.Uncomputed) (hleast : least ≤ 1)
    (hstrict : least = 0 ∨ root.MeetsNoAlias cat) (limit : Nat) {d : Declaration}
    (hplain : d.Plain) (hreached : ReflTransGen (Site.Step cat) root (.declared env t d))
    (htrace : ∀ τ, Site.Step cat (.declared env t d) τ → root.Trace cat path τ)
    (hnumbered : Numbered p.numbering path scope) (hreads : a.Accesses 0 scope)
    (hcalls : ∀ type?, d.body = .alias type? → ∀ u ∈ path, root.Meets cat u →
      a.Accesses least scope) :
    Ties (ofDeclaration cat limit d a) env path p fun e p' =>
      Yields cat root least path scope p [e] p' := by
  induction limit generalizing d env t path scope p a with
  | zero => exact .throw (by simp)
  | succ limit ih =>
      have hvisit := ties_ofType root hcat.plain hleast limit
      unfold ofDeclaration
      cases hbody : d.body with
      | interface heritage members =>
          have hlisted : d.listed = members := by
            simp only [Declaration.listed, hbody, Declaration.members]
          refine .bind (.of_total (.note ?_))
          refine .bind (.ofExcept (fun bases hbases => ?_) (cat.stops_basesOf d).ne_fresh)
          have hinherited : ∀ base ∈ bases, ∀ p', p.numbering.Extends p'.numbering → Ties (do
              let base ← Walk.instantiate base
              ofBase cat (ofDeclaration cat limit) d base a) env path p' fun e p'' =>
                Yields cat root least path scope p' [e] p'' := by
            intro base hbase p' hext
            refine .bind (.of_total (.instantiate ?_))
            refine ties_base (hnumbered.later hext) hreads ?_ ?_
            · exact fun decl _ d' hhead hfind => htrace _ (.base hbases hbase hhead hfind)
            · intro decl elements d' hhead hfind n p₁ hinner
              have hstep := Site.Step.base (t := t) hbases hbase hhead hfind
              refine ih (hcat decl d' hfind) (hreached.tail hstep) ?_ hinner (.slot _ _) ?_
              · exact fun τ hbelow => (htrace _ hstep).enter .declared hbelow
              · -- Members are deep enough for calls; the body of an alias is at the slot itself.
                intro type? halias _ _ _
                rcases hstrict with rfl | hnone
                · exact .slot _ _
                · exact absurd ⟨decl, d', type?, ⟨_, elements, hhead⟩, hfind, halias⟩
                    (hnone _ _ (.tail' hreached hstep) .declared)
          refine .bind ((ties_mapM hinherited).mono fun es p' hes => ?_)
          refine .bind ((ties_properties hleast hvisit (hlisted ▸ hplain) ?_
            (hnumbered.later hes.later) hreads).mono fun es' p'' hes' => .pure ?_)
          · exact fun q hq u htype => htrace _ (.member (hlisted ▸ hq) htype)
          rw [List.append_assoc]
          exact yields_whole hreads (hes.append hes')
      | nominal _ _ => exact .throw (by simp [Fault.nominal, Fault.unsupported])
      | «alias» type? =>
          cases type? with
          | none => exact .throw (by simp)
          | some u =>
              exact hvisit env path scope p u a (htrace _ (.body hbody))
                ⟨hnumbered, hreads, hcalls _ hbody⟩
      | property q =>
          have hlisted : d.listed = [q] := by simp only [Declaration.listed, hbody]
          have hq : q ∈ d.listed := hlisted ▸ List.mem_cons_self
          exact ties_property hleast hvisit (hplain q hq)
            (fun u htype => htrace _ (.member hq htype)) hnumbered hreads
      | bare => exact .throw (by simp)

theorem ties_ofInstance {limit : Nat} {d : Declaration} {args : List Ty}
    {Q : Expr → Progress → Prop}
    (h : Ties (knot (instanceType d args) a (ofDeclaration cat limit d))
      (.ofPairs (d.params.zip args)) [] p Q) :
    Ties (ofInstance cat limit d args a) [] [] p Q := by
  rw [← List.append_nil (Bindings.ofPairs _)] at h
  have hframe := Ties.withFrame h
  unfold ofInstance
  by_cases harity : (args.isEmpty || decide (args.length = d.arity)) = true
  · simp only [harity, if_true]
    refine .bind (.pure ?_)
    split
    · exact .throw (by simp [Fault.nominal, Fault.unsupported])
    · unfold instanceType at hframe
      split
      · next hempty =>
          rw [if_pos hempty] at hframe
          exact .bind (.pure hframe)
      · next hempty =>
          rw [if_neg hempty] at hframe
          refine .bind (.of_total (.instantiate ?_))
          rw [Ty.substitute_nil]
          exact hframe
  · simp only [harity, Bool.false_eq_true, if_false]
    exact .bind (.throw (by simp [arityFault, Fault.unsupported]))

theorem ties_instance (hcat : cat.Uncomputed) (hleast : least ≤ 1)
    (limit : Nat) {d : Declaration} {args : List Ty} (hplain : d.Plain)
    (haccessor : a.isFlat = true)
    (hroot : root = .declared (.ofPairs (d.params.zip args)) (instanceType d args) d)
    (hstrict : least = 0 ∨ cat.declared? d.id = some d ∧ root.MeetsNoAlias cat) :
    Ties (ofInstance cat limit d args a) [] [] p fun e p' =>
      Yields cat root least [] [] p [e] p' := by
  subst hroot
  refine ties_ofInstance (ties_knot .root .declared ⟨.nil, List.nodup_nil⟩ haccessor
    (fun hon => by cases hon) fun n p' _ hnumbered => ?_)
  refine ties_ofDeclaration hcat hleast (hstrict.imp_right And.right) limit hplain .refl
    (fun τ hstep => .enter .root .declared hstep) hnumbered (.slot _ _) ?_
  intro type? halias u hu hmeets
  rcases hstrict with rfl | ⟨hfind, hnone⟩
  · exact .slot _ _
  · obtain ⟨σ, w, hbelow, hfor, hkey⟩ := hmeets
    rw [List.mem_singleton.1 hu] at hkey
    refine absurd ((Catalog.isAlias_congr hkey).2 ?_) (hnone σ w hbelow hfor)
    exact ⟨_, d, type?, ⟨_, _, head_instanceType d args⟩, hfind, halias⟩

end Guard

end TypeGuard
