import TypeGuard.Proofs.Monomorphic
import TypeGuard.Proofs.Restoration
import TypeGuard.Proofs.WalkDeclaration

/-! Walks end where there are no type arguments, whatever circles the declarations are in.
Expanding an object uses up one of finitely many; in between, types get smaller and aliases come to
an end. -/

namespace TypeGuard

open Filter

namespace Catalog

variable {cat : Catalog}

/-- The objects that a walk can expand. -/
def knots (cat : Catalog) : List Ty :=
  cat.entries.flatMap fun entry =>
    [.object .interface entry.1 [], .ref (.object .interface entry.1 []) []]

theorem mem_knots {t : Ty} {decl : DeclId} {elements : List Ty} {d : Declaration}
    (ht : t.isMonomorphic = true) (hhead : t.head = .object .interface decl elements)
    (hfind : cat.declared? decl = some d) : t ∈ cat.knots := by
  refine List.mem_flatMap.2 ⟨(decl, d), mem_entries_of_declared? hfind, ?_⟩
  cases Ty.elements_of_isMonomorphic ht hhead
  cases t with
  | object kind name _ =>
      cases hhead
      exact List.mem_cons_self
  | ref target args =>
      cases hhead
      cases (Ty.ref_of_isMonomorphic ht).1
      exact List.mem_cons_of_mem _ List.mem_cons_self
  | _ => cases hhead

/-- The objects that are not being expanded. -/
def knotsLeft (cat : Catalog) (path : List Ty) : Finset Ty :=
  cat.knots.toFinset.filter fun t => ¬t.IsOn path

theorem knotsLeft_cons_subset (t : Ty) (path : List Ty) :
    cat.knotsLeft (t :: path) ⊆ cat.knotsLeft path := by
  intro u hu
  obtain ⟨hmem, hoff⟩ := Finset.mem_filter.1 hu
  exact Finset.mem_filter.2 ⟨hmem, fun hon => hoff (Ty.isOn_cons.2 (.inr hon))⟩

theorem card_knotsLeft_cons_lt {t : Ty} {path : List Ty} (ht : t ∈ cat.knots)
    (hoff : ¬t.IsOn path) :
    (cat.knotsLeft (t :: path)).card < (cat.knotsLeft path).card := by
  apply Finset.card_lt_card
  refine ⟨knotsLeft_cons_subset t path, fun hsubset => ?_⟩
  have hmem := hsubset (Finset.mem_filter.2 ⟨List.mem_toFinset.2 ht, hoff⟩)
  exact (Finset.mem_filter.1 hmem).2 (Ty.isOn_cons.2 (.inl rfl))

/-- No more than so many objects are left to expand, and parameters stand for literals. -/
structure Within (cat : Catalog) (n : Nat) (ctx : Context) : Prop where
  tidy : ctx.Tidy
  literal : ∀ binding ∈ ctx.bindings, ∃ v, binding.2 = .literal v
  left : (cat.knotsLeft ctx.path).card ≤ n

namespace Within

variable {n : Nat} {s s' : Session} {ctx : Context} {t : Ty}

theorem kept (h : cat.Within n s.ctx) (hkept : s.Kept s') : cat.Within n s'.ctx := by
  refine ⟨hkept.tidy h.tidy, ?_, ?_⟩
  · rw [Context.bindings, hkept.frames]
    exact h.literal
  · rw [hkept.path]
    exact h.left

theorem push {bindings : Bindings} (h : cat.Within n ctx)
    (hbindings : ∀ binding ∈ bindings, ∃ v, binding.2 = .literal v) :
    cat.Within n (ctx.push bindings).2 := by
  refine ⟨h.tidy.push bindings, fun binding hmem => ?_, h.left⟩
  rw [Context.bindings, Context.push, List.flatMap_cons, List.mem_append] at hmem
  exact hmem.elim (hbindings binding) (h.literal binding)

theorem enter (h : cat.Within n ctx) (hoff : ctx.isActive t = false) :
    cat.Within n (ctx.inside t) where
  tidy := h.tidy.inside hoff
  literal := h.literal
  left := Nat.le_trans (Finset.card_le_card (knotsLeft_cons_subset t ctx.path)) h.left

theorem enter_knot (h : cat.Within n ctx) (ht : t ∈ cat.knots) (hoff : ctx.isActive t = false) :
    0 < n ∧ cat.Within (n - 1) (ctx.inside t) := by
  have hnew : ¬t.IsOn ctx.path := Bool.eq_false_iff.1 (h.tidy.sound.isActive t ▸ hoff)
  have hless := Nat.lt_of_lt_of_le (card_knotsLeft_cons_lt ht hnew) h.left
  exact ⟨Nat.zero_lt_of_lt hless, (h.enter hoff).tidy, h.literal, Nat.le_sub_one_of_lt hless⟩

end Within

end Catalog

namespace Walk

variable {α β : Type} {cat : Catalog} {n : Nat} {s : Session}

/-- The walk does not run into its limit. -/
def Ends (w : Walk α) (s : Session) : Prop :=
  ∀ s', w s ≠ .error .exhausted s'

/-- It does so wherever no more than so many objects are left to expand. -/
def Halts (cat : Catalog) (n : Nat) (w : Walk α) : Prop :=
  ∀ s : Session, cat.Within n s.ctx → Ends w s

theorem Ends.withFrame {w : Walk α} {bindings : Bindings} (hrestores : IsRestoring w)
    (htidy : s.ctx.Tidy) (hw : Ends w { s with ctx := (s.ctx.push bindings).2 }) :
    Ends (Walk.withFrame bindings w) s := by
  intro s'' hrun''
  have hkept := hrestores { s with ctx := (s.ctx.push bindings).2 } (htidy.push bindings)
  cases hrun : w { s with ctx := (s.ctx.push bindings).2 } with
  | ok a s' =>
      have hkept' := hkept.ok a s' hrun
      have hdepth := (hkept'.tidy (htidy.push bindings)).sound.depth
      rw [withFrame_apply_ok hrun hdepth hkept'.frames] at hrun''
      cases hrun''
  | error fault s' =>
      have hkept' := (hkept.error fault s' hrun).1
      have hdepth := (hkept'.tidy (htidy.push bindings)).sound.depth
      rw [withFrame_apply_fault hrun hdepth hkept'.frames] at hrun''
      cases hrun''
      exact hw s' hrun

theorem Ends.entering {w : Walk α} {t : Ty} (hrestores : IsRestoring w) (htidy : s.ctx.Tidy)
    (hoff : s.ctx.isActive t = false)
    (hw : Ends w { s with ctx := s.ctx.inside t }) :
    Ends (Walk.entering t w) s := by
  intro s'' hrun''
  have hkept := hrestores { s with ctx := s.ctx.inside t } (htidy.inside hoff)
  cases hrun : w { s with ctx := s.ctx.inside t } with
  | ok a s' =>
      rw [entering_apply_ok hoff hrun (hkept.ok a s' hrun).path] at hrun''
      cases hrun''
  | error fault s' =>
      rw [entering_apply_fault hoff hrun (hkept.error fault s' hrun).1.path] at hrun''
      cases hrun''
      exact hw s' hrun

theorem Ends.bind {w : Walk α} {f : α → Walk β} (hrestores : Restores w s)
    (hs : cat.Within n s.ctx) (hw : Ends w s)
    (hf : ∀ a s', w s = .ok a s' → cat.Within n s'.ctx → Ends (f a) s') : Ends (w >>= f) s := by
  intro s'' hrun''
  cases hrun : w s with
  | ok a s' =>
      rw [bind_apply, hrun] at hrun''
      exact hf a s' hrun (hs.kept (hrestores.ok a s' hrun)) s'' hrun''
  | error fault s' =>
      rw [bind_apply, hrun] at hrun''
      cases hrun''
      exact hw _ hrun

theorem bound_apply_some {x : TypeParam} {t : Ty} (hint : String) (h : s.ctx.resolve x = some t) :
    Walk.bound x hint s = .ok t s := by
  have hctx : context s = .ok s.ctx s := rfl
  simp only [bound, bind_apply, hctx, h]
  rfl

theorem bound_apply_none {x : TypeParam} (hint : String) (h : s.ctx.resolve x = none) :
    Walk.bound x hint s = .error (.rejected ⟨.unboundParameter, x.name, none, hint⟩) s := by
  have hctx : context s = .ok s.ctx s := rfl
  simp only [bound, bind_apply, hctx, h]
  rfl

namespace Halts

theorem pure (a : α) : Halts cat n (Pure.pure a) := by
  intro s _ s' h
  cases h

theorem throw {fault : Fault} (h : fault.isLocal = true) :
    Halts cat n (MonadExcept.throw fault : Walk α) := by
  intro s _ s' h'
  cases h'
  cases h

theorem throw_shown (t : Ty) {fault : String → Fault} (h : ∀ text, (fault text).isLocal = true) :
    Halts cat n (MonadExcept.throw (.ofText t.render fault) : Walk α) :=
  throw (t.render_stops_locally.ofText h)

theorem ofExcept {x : Except Fault α} (h : StopsLocally x) : Halts cat n (Walk.ofExcept x) := by
  cases x with
  | ok a => exact pure a
  | error fault => exact throw (h fault rfl)

theorem replace (e : Expr) (x : Ident) (r : Expr) :
    Halts cat n (Walk.ofExcept (e.replace x r)) := by
  intro s _ s' hrun
  cases hreplace : e.replace x r with
  | ok e' =>
      rw [hreplace] at hrun
      cases hrun
  | error fault =>
      rw [hreplace, Expr.stops_replace e x r fault hreplace] at hrun
      cases hrun

theorem of_ctx {w : Walk α} (h : ∀ s, ∃ a s', w s = .ok a s' ∧ s'.ctx = s.ctx) : Halts cat n w := by
  intro s _ s' hrun
  obtain ⟨a, s'', hok, _⟩ := h s
  rw [hok] at hrun
  cases hrun

theorem bind_of {w : Walk α} {f : α → Walk β} {P : α → Prop} (hrestores : IsRestoring w)
    (hw : Halts cat n w) (hP : ∀ s a s', cat.Within n s.ctx → w s = .ok a s' → P a)
    (hf : ∀ a, P a → Halts cat n (f a)) : Halts cat n (w >>= f) :=
  fun s hs => .bind (hrestores s hs.tidy) hs (hw s hs) fun a s' hrun hs' =>
    hf a (hP s a s' hs hrun) s' hs'

theorem bind {w : Walk α} {f : α → Walk β} (hrestores : IsRestoring w) (hw : Halts cat n w)
    (hf : ∀ a, Halts cat n (f a)) : Halts cat n (w >>= f) :=
  bind_of (P := fun _ => True) hrestores hw (fun _ _ _ _ _ => trivial) fun a _ => hf a

theorem ofExcept_bind {x : Except Fault α} {f : α → Walk β} (h : StopsLocally x)
    (hf : ∀ a, x = .ok a → Halts cat n (f a)) : Halts cat n (Walk.ofExcept x >>= f) := by
  refine bind_of (.ofExcept_local h) (ofExcept h) (fun s a s' _ hrun => ?_) hf
  cases x with
  | ok b =>
      cases hrun
      rfl
  | error fault => cases hrun

theorem mapM {f : α → Walk β} {xs : List α} (hrestores : ∀ a, IsRestoring (f a))
    (hf : ∀ a ∈ xs, Halts cat n (f a)) : Halts cat n (xs.mapM f) := by
  induction xs with
  | nil => exact pure []
  | cons a rest ih =>
      rw [List.forall_mem_cons] at hf
      rw [List.mapM_cons]
      refine bind (hrestores a) hf.1 fun b => ?_
      exact bind (.mapM hrestores rest) (ih hf.2) fun bs => pure _

theorem mapM_bind {γ : Type} {f : α → Walk β} {g : List β → Walk γ} {xs : List α}
    (hrestores : ∀ a, IsRestoring (f a)) (hf : ∀ a ∈ xs, Halts cat n (f a))
    (hg : ∀ bs, Halts cat n (g bs)) : Halts cat n (xs.mapM f >>= g) :=
  bind (.mapM hrestores xs) (mapM hrestores hf) hg

theorem withFrame {w : Walk α} {bindings : Bindings} (hrestores : IsRestoring w)
    (hbindings : ∀ binding ∈ bindings, ∃ v, binding.2 = .literal v) (hw : Halts cat n w) :
    Halts cat n (Walk.withFrame bindings w) :=
  fun _ hs => .withFrame hrestores hs.tidy (hw _ (hs.push hbindings))

theorem bound_bind {x : TypeParam} {hint : String} {f : Ty → Walk β}
    (hf : ∀ v, Halts cat n (f (.literal v))) : Halts cat n (Walk.bound x hint >>= f) := by
  intro s hs
  cases hx : s.ctx.resolve x with
  | none =>
      refine .bind (IsRestoring.bound x hint s hs.tidy) hs ?_ fun a s' hrun _ => ?_
      · intro s' hrun
        rw [bound_apply_none hint hx] at hrun
        cases hrun
      · rw [bound_apply_none hint hx] at hrun
        cases hrun
  | some t =>
      obtain ⟨v, rfl⟩ : ∃ v, t = .literal v := hs.literal _ (Bindings.mem_of_lookup hx)
      refine .bind (IsRestoring.bound x hint s hs.tidy) hs ?_ fun a s' hrun hs' => ?_
      · intro s' hrun
        rw [bound_apply_some hint hx] at hrun
        cases hrun
      · rw [bound_apply_some hint hx] at hrun
        cases hrun
        exact hf v s hs'

theorem ifActive {t : Ty} {w w' : Walk α}
    (hw : ∀ s : Session, cat.Within n s.ctx → s.ctx.isActive t = true → Ends w s)
    (hw' : ∀ s : Session, cat.Within n s.ctx → s.ctx.isActive t = false → Ends w' s) :
    Halts cat n (do if ← Walk.isActive t then w else w') := by
  intro s hs
  have hrun : Walk.isActive t s = .ok (s.ctx.isActive t) s := rfl
  have hrestores : IsRestoring (Walk.isActive t) := .of_ctx fun s => ⟨_, s, rfl, rfl⟩
  refine .bind (hrestores s hs.tidy) hs (of_ctx (fun s => ⟨_, s, rfl, rfl⟩) s hs) ?_
  intro active s' h _
  rw [hrun] at h
  cases h
  cases hactive : s.ctx.isActive t with
  | true => exact hw s hs hactive
  | false => exact hw' s hs hactive

end Halts

end Walk

theorem eventually_of_ok {α : Type} {x : Except Fault α} {P : Nat → α → Prop}
    (h : ∀ a, x = .ok a → ∀ᶠ limit in atTop, P limit a) :
    ∀ᶠ limit in atTop, ∀ a, x = .ok a → P limit a := by
  cases x with
  | ok a =>
      refine (h a rfl).mono fun limit hlimit b hb => ?_
      cases hb
      exact hlimit
  | error fault => exact Eventually.of_forall fun _ _ h => by cases h

theorem eventually_succ {P : Nat → Prop} (h : ∀ limit, P (limit + 1)) :
    ∀ᶠ limit in atTop, P limit :=
  eventually_of_succ (P := fun _ => True) (Eventually.of_forall fun _ => trivial)
    fun limit _ => h limit

open Walk

theorem Walk.Halts.instantiate_bind {β : Type} {cat : Catalog} {n : Nat} {target : Ty}
    {f : Ty → Walk β} (hf : Halts cat n (f (.ref target []))) :
    Halts cat n (Walk.instantiate (.ref target []) >>= f) := by
  refine bind_of (P := fun r => r = .ref target []) (.instantiate _)
    (of_ctx fun s => ⟨_, s, rfl, rfl⟩) (fun s r s' _ hrun => ?_) ?_
  · cases hrun
    rfl
  · rintro _ rfl
    exact hf

namespace Shape

variable {cat : Catalog}

/-- The limit is enough for the strings and for the names of a type. -/
abbrev Settled (cat : Catalog) (limit : Nat) (t : Ty) : Prop :=
  ∀ n, Halts cat n (ofType cat limit t) ∧ Halts cat n (ofKeys cat limit t)

theorem settled_object (limit : Nat) (kind : ObjectKind) (decl : DeclId) (elements : List Ty) :
    Settled cat (limit + 1) (.object kind decl elements) := by
  intro n
  cases kind with
  | interface =>
      refine ⟨.pure _, .ofExcept_bind (Catalog.stopsLocally_properties _) fun properties _ => ?_⟩
      exact .ofExcept (stops_ofProperties properties)
  | nominal => exact ⟨.throw rfl, .throw rfl⟩

theorem settled_literal (limit : Nat) (v : Value) : Settled cat (limit + 1) (.literal v) :=
  fun _ => ⟨.ofExcept (stops_ofLiteral v), .throw_shown _ fun _ => rfl⟩

theorem settled_primitive (limit : Nat) (s : String) : Settled cat (limit + 1) (.primitive s) := by
  intro n
  refine ⟨.ofExcept (stops_ofPrimitive s), ?_⟩
  by_cases hany : s = "any"
  · subst hany
    exact .pure _
  by_cases hnever : s = "never"
  · subst hnever
    exact .pure _
  simp only [ofKeys]
  exact .throw_shown _ fun _ => rfl

theorem settled_ref (hcat : cat.Monomorphic) {limit : Nat} {target : Ty}
    (ht : (Ty.ref target []).isMonomorphic = true) (h : Settled cat limit target) :
    Settled cat (limit + 1) (.ref target []) := by
  have hframe : ∀ {α : Type} {n : Nat} {w : Walk α}, IsRestoring w → Halts cat n w →
      Halts cat n (do
        let bindings ← Walk.ofExcept (cat.bindings (.ref target []))
        Walk.withFrame bindings w) := by
    intro α n w hrestores hw
    refine .ofExcept_bind (Catalog.stopsLocally_bindings _) fun bindings hbindings => ?_
    rw [hcat.bindings_eq_nil ht hbindings]
    exact .withFrame hrestores (fun _ hmem => absurd hmem List.not_mem_nil) hw
  intro n
  constructor
  · refine .instantiate_bind (.ifActive (fun s hs _ => Halts.pure _ s hs) fun s hs hoff => ?_)
    refine Ends.entering ?_ hs.tidy hoff ?_
    · exact .bind (.ofExcept_local (Catalog.stopsLocally_bindings _)) fun bindings =>
        ((restores limit).1 target).withFrame bindings
    · exact hframe ((restores limit).1 target) (h n).1 _ (hs.enter hoff)
  · refine .instantiate_bind ?_
    cases target with
    | mapped x constraint template params => exact hframe ((restores limit).2 _) (h n).2
    | _ => exact (h n).2

theorem eventually_settled (hcat : cat.Monomorphic) {t : Ty} (ht : t.Monomorphic) :
    ∀ᶠ limit in atTop, Settled cat limit t := by
  revert ht
  refine hcat.alias_induction (motive := fun t => t.Monomorphic →
    ∀ᶠ limit in atTop, Settled cat limit t) (fun t halias ht => ?_) t
  induction t with
  | primitive s => exact eventually_succ fun limit => settled_primitive limit s
  | literal v => exact eventually_succ fun limit => settled_literal limit v
  | boolean b => exact eventually_succ fun limit n => ⟨.pure _, .throw_shown _ fun _ => rfl⟩
  | object kind decl elements _ =>
      exact eventually_succ fun limit => settled_object limit kind decl elements
  | sequence _ _ _ => exact eventually_succ fun limit n => ⟨.pure _, .pure _⟩
  | union members ih =>
      have hall : ∀ᶠ limit in atTop, ∀ t ∈ members, Settled cat limit t :=
        eventually_forall_mem fun t htmem => ih t htmem
          (fun s hs => halias s (Ty.mem_namesList.2 ⟨t, htmem, hs⟩))
            (Ty.insideList_iff.1 ht.2 t htmem)
      refine eventually_of_succ hall fun limit hlimit n => ⟨?_, ?_⟩
      · exact .mapM_bind (restores limit).1 (fun t ht => (hlimit t ht n).1)
          fun shapes => .ofExcept (stops_union shapes)
      · exact .mapM_bind (restores limit).2 (fun t ht => (hlimit t ht n).2)
          fun shapes => .ofExcept (stops_commonNames shapes)
  | inter members ih =>
      have hall : ∀ᶠ limit in atTop, ∀ t ∈ members, Settled cat limit t :=
        eventually_forall_mem fun t htmem => ih t htmem
          (fun s hs => halias s (Ty.mem_namesList.2 ⟨t, htmem, hs⟩))
            (Ty.insideList_iff.1 ht.2 t htmem)
      refine eventually_of_succ hall fun limit hlimit n => ⟨?_, ?_⟩
      · exact .mapM_bind (restores limit).1 (fun t ht => (hlimit t ht n).1)
          fun shapes => .ofExcept (stops_inter shapes)
      · exact .mapM_bind (restores limit).2 (fun t ht => (hlimit t ht n).2)
          fun shapes => .ofExcept (stops_allNames shapes)
  | ref target args ihtarget _ =>
      cases (Ty.ref_of_isMonomorphic ht.1).1
      have htarget := ihtarget (fun s hs => halias s (List.mem_append_left _ hs)) ht.target
      exact eventually_of_succ htarget fun limit hlimit => settled_ref hcat ht.1 hlimit
  | param x =>
      have hliteral : ∀ᶠ limit in atTop, ∀ v, Settled cat limit (.literal v) :=
        eventually_succ fun limit v => settled_literal limit v
      refine eventually_of_succ hliteral fun limit hlimit n => ⟨?_, ?_⟩
      · exact .bound_bind fun v => (hlimit v n).1
      · exact .bound_bind fun v => (hlimit v n).2
  | keyOf operand ih =>
      exact eventually_of_succ (ih halias ht.2) fun limit hlimit n =>
        ⟨(hlimit n).2, .throw_shown _ fun _ => rfl⟩
  | index _ _ _ _ => cases ht.1
  | mapped x constraint template params ih _ =>
      have hconstraint := ih (fun s hs => halias s (List.mem_append_left _ hs)) ht.2.1
      exact eventually_of_succ hconstraint fun limit hlimit n => ⟨.pure _, (hlimit n).1⟩
  | name s args _ =>
      have hall : ∀ᶠ limit in atTop, ∀ t, cat.resolve (.name s args) = .ok t →
          Settled cat limit t := by
        refine eventually_of_ok fun t hresolve => ?_
        rcases hcat.resolve_cases hresolve with ⟨kind, decl, rfl⟩ | ⟨d, hfind, hbody⟩
        · exact eventually_succ fun limit => settled_object limit kind decl []
        · exact halias s List.mem_cons_self d t hfind hbody (hcat.resolve hresolve)
      refine eventually_of_succ hall fun limit hlimit n => ⟨?_, ?_⟩
      · exact .ofExcept_bind (cat.stops_resolve _) fun t ht => (hlimit t ht n).1
      · exact .ofExcept_bind (cat.stops_resolve _) fun t ht => (hlimit t ht n).2

end Shape

namespace Guard

variable {cat : Catalog} {n : Nat}

theorem halts_knot {t : Ty} {accessor : Expr} {build : Expr → Walk Expr}
    (hrestores : ∀ slot, IsRestoring (build slot))
    (hbuild : ∀ slot (s : Session), cat.Within n s.ctx → s.ctx.isActive t = false →
      Ends (build slot) { s with ctx := s.ctx.inside t }) :
    Halts cat n (knot t accessor build) := by
  refine .bind (.numberOf t) (.of_ctx fun s => ⟨_, _, rfl, rfl⟩) fun k => .ifActive ?_ ?_
  · intro s hs hon
    refine .bind (.mark hs.tidy hon) hs ?_ fun _ s' _ hs' => Halts.pure _ s' hs'
    intro s' hrun
    simp only [onContext_apply, Context.mark, if_pos hon] at hrun
    cases hrun
  · intro s hs hoff
    have hbody : IsRestoring (do
        let body ← build (.ident (.slot k))
        let recursive ← Walk.isMarked t
        Pure.pure (body, recursive)) :=
      .bind (hrestores _) fun body => .bind (.isMarked t) fun recursive => .pure _
    refine .bind (hbody.entering hs.tidy hoff) hs (.entering hbody hs.tidy hoff ?_) ?_
    · refine .bind (hrestores _ _ (hs.enter hoff).tidy) (hs.enter hoff) (hbuild _ s hs hoff) ?_
      intro body s' _ hs'
      exact Halts.bind (.isMarked t) (.of_ctx fun s => ⟨_, s, rfl, rfl⟩) (fun _ => .pure _) s' hs'
    · rintro ⟨body, recursive⟩ s' _ hs'
      cases recursive with
      | true => exact Halts.pure _ s' hs'
      | false => exact Halts.replace body _ accessor s' hs'

variable {visit : Visit} {limit : Nat}

theorem halts_property {p : Property} {accessor : Expr}
    (hvisit : ∀ t, p.type? = some t → ∀ accessor, Halts cat n (visit t accessor)) :
    Halts cat n (ofProperty cat visit p accessor) := by
  unfold ofProperty
  split
  · exact .throw rfl
  · next t htype =>
      have hindex : Halts cat n (do
          let index ← Walk.ofExcept p.key.index
          visit t (.elem accessor index)) :=
        .ofExcept_bind p.key.stops_index fun index _ => hvisit t htype _
      split
      · exact .bind (.note _) (.of_ctx fun s => ⟨_, _, rfl, rfl⟩) fun _ => hindex
      · exact hindex

theorem halts_mapped {x : TypeParam} {constraint template : Ty} {params : List TypeParam}
    {accessor : Expr} (hrestores : ∀ t accessor, IsRestoring (visit t accessor))
    (hconstraint : Halts cat n (Shape.ofType cat limit constraint))
    (hvisit : ∀ accessor, Halts cat n (visit template accessor)) :
    Halts cat n (ofMapped cat limit visit x constraint template params accessor) := by
  refine .bind ((Shape.restores limit).1 constraint) hconstraint fun shape => ?_
  cases shape with
  | exact keys =>
      refine .mapM_bind (fun key => (hrestores _ _).withFrame _) (fun key _ => ?_)
        fun conditions => .pure _
      refine .withFrame (hrestores _ _) (fun binding hmem => ?_) (hvisit _)
      rw [List.mem_singleton.1 hmem]
      exact ⟨_, rfl⟩
  | always | never => exact .throw_shown _ fun _ => rfl

theorem halts_properties (hcat : cat.Monomorphic) {t : Ty} {decl : DeclId} {elements : List Ty}
    {accessor : Expr}
    (hrestores : ∀ t accessor, IsRestoring (visit t accessor)) (ht : t.isMonomorphic = true)
    (hhead : t.head = .object .interface decl elements)
    (hvisit : ∀ properties, cat.properties t = .ok properties → ∀ p ∈ properties, ∀ u,
      p.type? = some u → ∀ accessor, Halts cat n (visit u accessor)) :
    Halts cat n (ofParts cat limit visit t accessor) := by
  refine .ofExcept_bind (Catalog.stopsLocally_bindings t) fun bindings hbindings => ?_
  rw [hcat.bindings_eq_nil ht hbindings]
  simp only [hhead]
  refine .withFrame (combined_properties IsRestoring.builds hrestores t accessor)
    (fun _ hmem => absurd hmem List.not_mem_nil) ?_
  refine .ofExcept_bind (Catalog.stopsLocally_properties t) fun properties hproperties => ?_
  refine .mapM_bind (fun p => combined_property IsRestoring.builds hrestores p accessor)
    (fun p hp => ?_) fun _ => .pure _
  exact halts_property (hvisit properties hproperties p hp)

theorem halts_mappedParts (hcat : cat.Monomorphic) {x : TypeParam} {constraint template : Ty}
    {params : List TypeParam} {accessor : Expr}
    (hrestores : ∀ t accessor, IsRestoring (visit t accessor))
    (hmapped : Halts cat n (ofMapped cat limit visit x constraint template params accessor)) :
    Halts cat n
      (ofParts cat limit visit (.ref (.mapped x constraint template params) []) accessor) := by
  refine .ofExcept_bind (Catalog.stopsLocally_bindings _) fun bindings hbindings => ?_
  rw [hcat.bindings_eq_nil rfl hbindings]
  exact .withFrame
    (combined_mapped IsRestoring.builds hrestores limit x constraint template params accessor)
    (fun _ hmem => absurd hmem List.not_mem_nil) hmapped

/-- The limit is enough for a type, wherever no more than so many objects are left. -/
abbrev Settled (cat : Catalog) (n limit : Nat) (t : Ty) : Prop :=
  ∀ accessor, Halts cat n (ofType cat limit t accessor)

section

variable (hcat : cat.Monomorphic)
  (hbelow : 0 < n → ∀ t : Ty, t.Monomorphic → ∀ᶠ limit in atTop, Settled cat (n - 1) limit t)

include hcat hbelow

/-- Expanding an object leaves one less, unless it has no properties at all. -/
theorem eventually_object {t : Ty} {decl : DeclId} {elements : List Ty}
    (ht : t.isMonomorphic = true) (hhead : t.head = .object .interface decl elements) :
      ∀ᶠ limit in atTop, ∀ accessor,
      Halts cat n (ofObject cat limit (ofType cat limit) t accessor) := by
  have hrestores : ∀ limit slot, IsRestoring (ofParts cat limit (ofType cat limit) t slot) :=
    fun limit => combined_parts IsRestoring.builds (restores_ofType limit) limit t
  cases hfind : cat.declared? decl with
  | none =>
      refine Eventually.of_forall fun limit accessor => halts_knot (hrestores limit) ?_
      intro slot s hs hoff
      refine halts_properties hcat (restores_ofType limit) ht hhead ?_ _ (hs.enter hoff)
      intro properties hproperties p hp
      obtain ⟨d, hd⟩ := Catalog.declared?_of_mem_properties hhead hproperties hp
      rw [hfind] at hd
      cases hd
  | some d =>
      have hknot := Catalog.mem_knots ht hhead hfind
      have hall : ∀ᶠ limit in atTop, 0 < n → ∀ properties, cat.properties t = .ok properties →
          ∀ p ∈ properties, ∀ u, p.type? = some u → Settled cat (n - 1) limit u := by
        by_cases hn : 0 < n
        · refine (eventually_of_ok fun properties hproperties => ?_).mono
            fun limit hlimit _ => hlimit
          refine eventually_forall_mem fun p hp => ?_
          cases htype : p.type? with
          | none => exact Eventually.of_forall fun _ _ h => by cases h
          | some u =>
              obtain ⟨s, d, hfind, hlists⟩ := Catalog.lists_of_mem_properties hproperties hp htype
              refine (hbelow hn u (hcat.types s d u hfind (.lists hlists))).mono
                fun limit hlimit u' hu' => ?_
              cases hu'
              exact hlimit
        · exact Eventually.of_forall fun _ h => absurd h hn
      refine hall.mono fun limit hlimit accessor => halts_knot (hrestores limit) ?_
      intro slot s hs hoff
      obtain ⟨hn, hs'⟩ := hs.enter_knot hknot hoff
      exact halts_properties hcat (restores_ofType limit) ht hhead (hlimit hn) _ hs'

theorem eventually_settled_object (kind : ObjectKind) (decl : DeclId) :
    ∀ᶠ limit in atTop, Settled cat n limit (.object kind decl []) := by
  cases kind with
  | nominal => exact eventually_succ fun limit accessor => .throw rfl
  | interface =>
      have hobject := eventually_object hcat hbelow (t := .object .interface decl []) rfl rfl
      exact eventually_of_succ hobject fun limit hlimit => hlimit

theorem eventually_settled_ref {target : Ty} (ht : (Ty.ref target []).isMonomorphic = true)
    (htarget : ∀ᶠ limit in atTop, Settled cat n limit target) :
    ∀ᶠ limit in atTop, Settled cat n limit (.ref target []) := by
  have hother : (∀ decl elements, target ≠ .object .interface decl elements) →
      target.isMapped = false →
      ∀ᶠ limit in atTop, Settled cat n limit (.ref target []) := by
    intro hobject hmapped
    refine eventually_of_succ htarget fun limit hlimit accessor => .instantiate_bind ?_
    cases target with
    | object kind decl elements =>
        cases kind with
        | interface => exact absurd rfl (hobject decl elements)
        | nominal => exact hlimit accessor
    | mapped => cases hmapped
    | _ => exact hlimit accessor
  cases target with
  | object kind decl elements =>
      cases kind with
      | interface =>
          have hobject := eventually_object hcat hbelow ht rfl
          exact eventually_of_succ hobject fun limit hlimit accessor =>
            .instantiate_bind (hlimit accessor)
      | nominal => exact hother (fun _ _ h => by cases h) rfl
  | mapped x constraint template params =>
      -- One step up, the target is walked as a mapped type with the very same limit inside.
      have hstep := (tendsto_add_atTop_nat 1).eventually htarget
      refine eventually_of_succ hstep fun limit hlimit accessor => .instantiate_bind ?_
      refine halts_knot (combined_parts IsRestoring.builds (restores_ofType limit) limit _) ?_
      intro slot s hs hoff
      exact halts_mappedParts hcat (restores_ofType limit) (hlimit slot) _ (hs.enter hoff)
  | _ => exact hother (fun _ _ h => by cases h) rfl

theorem eventually_settled_of_below {t : Ty} (ht : t.Monomorphic) :
    ∀ᶠ limit in atTop, Settled cat n limit t := by
  revert ht
  refine hcat.alias_induction (motive := fun t => t.Monomorphic →
    ∀ᶠ limit in atTop, Settled cat n limit t) (fun t halias ht => ?_) t
  have hmembers : ∀ {members : List Ty} {join : List Expr → Expr}, (∀ᶠ limit in atTop,
      ∀ t ∈ members, Settled cat n limit t) → ∀ᶠ limit in atTop, ∀ accessor, Halts cat n (do
        let conditions ← members.mapM fun t => ofType cat limit t accessor
        Pure.pure (join conditions)) := by
    intro members join hall
    refine hall.mono fun limit hlimit accessor => ?_
    exact .mapM_bind (fun t => restores_ofType limit t accessor) (fun t ht => hlimit t ht accessor)
      fun conditions => .pure _
  induction t with
  | primitive s =>
      exact eventually_succ fun limit accessor => .ofExcept (stops_ofPrimitive s accessor)
  | literal v => exact eventually_succ fun limit accessor => .ofExcept (stops_ofLiteral v accessor)
  | boolean b => exact eventually_succ fun limit accessor => .pure _
  | object kind decl elements _ =>
      cases Ty.elements_of_isMonomorphic ht.1 rfl
      exact eventually_settled_object hcat hbelow kind decl
  | sequence _ _ _ => exact eventually_succ fun limit accessor => .throw_shown _ fun _ => rfl
  | union members ih | inter members ih =>
      refine eventually_of_succ (hmembers (eventually_forall_mem fun t htmem => ?_))
        fun limit hlimit => hlimit
      exact ih t htmem (fun s hs => halias s (Ty.mem_namesList.2 ⟨t, htmem, hs⟩))
        (Ty.insideList_iff.1 ht.2 t htmem)
  | ref target args ihtarget _ =>
      cases (Ty.ref_of_isMonomorphic ht.1).1
      refine eventually_settled_ref hcat hbelow ht.1 ?_
      exact ihtarget (fun s hs => halias s (List.mem_append_left _ hs)) ht.target
  | param x =>
      have hliteral : ∀ᶠ limit in atTop, ∀ v, Settled cat n limit (.literal v) :=
        eventually_succ fun limit v accessor => .ofExcept (stops_ofLiteral v accessor)
      exact eventually_of_succ hliteral fun limit hlimit accessor => .bound_bind fun v =>
        hlimit v accessor
  | keyOf operand _ =>
      refine eventually_of_succ (Shape.eventually_settled hcat ht) fun limit hlimit accessor => ?_
      refine .bind ((Shape.restores limit).1 _) (hlimit n).1 fun shape => ?_
      cases shape with
      | exact keys => exact .pure _
      | always | never => exact .throw_shown _ fun _ => rfl
  | index _ _ _ _ => cases ht.1
  | mapped x constraint template params _ ih =>
      have htemplate := ih (fun s hs => halias s (List.mem_append_right _ hs)) ht.2.2
      have hboth := (Shape.eventually_settled hcat ht.2.1).and htemplate
      refine eventually_of_succ hboth fun limit hlimit accessor => ?_
      exact halts_mapped (restores_ofType limit) (hlimit.1 n).1 hlimit.2
  | name s args _ =>
      have hall : ∀ᶠ limit in atTop, ∀ t, cat.resolve (.name s args) = .ok t →
          Settled cat n limit t := by
        refine eventually_of_ok fun t hresolve => ?_
        rcases hcat.resolve_cases hresolve with ⟨kind, decl, rfl⟩ | ⟨d, hfind, hbody⟩
        · exact eventually_settled_object hcat hbelow kind decl
        · exact halias s List.mem_cons_self d t hfind hbody (hcat.resolve hresolve)
      refine eventually_of_succ hall fun limit hlimit accessor => ?_
      exact .ofExcept_bind (cat.stops_resolve _) fun t ht => hlimit t ht accessor

end

theorem eventually_settled (hcat : cat.Monomorphic) (n : Nat) {t : Ty} (ht : t.Monomorphic) :
    ∀ᶠ limit in atTop, Settled cat n limit t := by
  induction n generalizing t with
  | zero => exact eventually_settled_of_below hcat (fun h => absurd h (Nat.lt_irrefl 0)) ht
  | succ n ih => exact eventually_settled_of_below hcat (n := n + 1) (fun _ _ ht => ih ht) ht

theorem isMonomorphic_instantiate {ctx : Context} (hs : cat.Within n ctx) {t : Ty}
    {kind : ObjectKind} {decl : DeclId} {elements : List Ty} (ht : t.isMonomorphic = true)
    (hhead : (ctx.instantiate t).head = .object kind decl elements) :
    (ctx.instantiate t).isMonomorphic = true := by
  cases t with
  | object _ _ _ =>
      cases Ty.elements_of_isMonomorphic ht rfl
      rfl
  | ref target args =>
      cases (Ty.ref_of_isMonomorphic ht).1
      exact ht
  | param x =>
      change (Ty.chase ctx.bindings x).head = _ at hhead
      cases hx : ctx.bindings.lookup x with
      | none =>
          rw [Ty.chase_of_none hx] at hhead
          cases hhead
      | some u =>
          obtain ⟨v, rfl⟩ : ∃ v, u = .literal v := hs.literal _ (Bindings.mem_of_lookup hx)
          rw [Ty.chase_of_some hx (fun h => by cases h)] at hhead
          cases hhead
  | _ => cases hhead

/-- The limit is enough for a declaration, wherever no more than so many objects are left. -/
abbrev Declared (cat : Catalog) (n limit : Nat) (d : Declaration) : Prop :=
  ∀ accessor, Halts cat n (ofDeclaration cat limit d accessor)

theorem halts_base (hcat : cat.Monomorphic) {heir : Declaration} {base : Ty} {accessor : Expr}
    (hbase : base.isMonomorphic = true)
    (hbelow : 0 < n → ∀ decl d, cat.declared? decl = some d → Declared cat (n - 1) limit d) :
    Halts cat n (do
      let base ← Walk.instantiate base
      ofBase cat (ofDeclaration cat limit) heir base accessor) := by
  refine .bind_of (P := fun base => ∀ kind decl elements, base.head = .object kind decl elements →
    base.isMonomorphic = true) (.instantiate base) (.of_ctx fun s => ⟨_, s, rfl, rfl⟩) ?_ ?_
  · intro s base' s' hs hrun kind decl elements hhead
    cases hrun
    exact isMonomorphic_instantiate hs hbase hhead
  · intro base hbase
    unfold ofBase
    split
    · next decl _ hhead =>
        refine .ifActive (fun s hs _ => Halts.throw_shown _ (fun _ => rfl) s hs) fun s hs _ => ?_
        cases hfind : cat.declared? decl with
        | none => exact Halts.throw rfl s hs
        | some d =>
            have hknot := Catalog.mem_knots (hbase _ _ _ hhead) hhead hfind
            simp only [hcat.params decl d hfind]
            refine Halts.withFrame (IsRestoring.knot _ _ (restores_ofDeclaration limit d))
              (fun _ hmem => absurd hmem List.not_mem_nil) ?_ s hs
            refine halts_knot (restores_ofDeclaration limit d) fun slot s hs hoff => ?_
            obtain ⟨hn, hs'⟩ := hs.enter_knot hknot hoff
            exact hbelow hn decl d hfind slot _ hs'
    · exact .throw_shown _ fun _ => rfl

/-- Declarations inherit from declarations, and each that is expanded leaves one less. -/
theorem eventually_declared_of_below (hcat : cat.Monomorphic) {d : Declaration}
    (hd : ∀ t, d.Writes t → t.Monomorphic)
    (hbelow : ∀ᶠ limit in atTop, 0 < n → ∀ decl d, cat.declared? decl = some d →
      Declared cat (n - 1) limit d) : ∀ᶠ limit in atTop, Declared cat n limit d := by
  have hproperty : ∀ p : Property, (∀ t, p.type? = some t → t.Monomorphic) →
      ∀ᶠ limit in atTop, ∀ accessor,
        Halts cat n (ofProperty cat (ofType cat limit) p accessor) := by
    intro p hp
    cases htype : p.type? with
    | none =>
        refine Eventually.of_forall fun limit accessor => halts_property fun t ht => ?_
        rw [htype] at ht
        cases ht
    | some t =>
        refine (eventually_settled hcat n (hp t htype)).mono fun limit hlimit accessor => ?_
        refine halts_property fun u hu => ?_
        rw [htype] at hu
        cases hu
        exact hlimit
  cases hbody : d.body with
  | interface heritage members =>
      have hmembers : ∀ᶠ limit in atTop, ∀ p ∈ members, ∀ accessor,
          Halts cat n (ofProperty cat (ofType cat limit) p accessor) := by
        refine eventually_forall_mem fun p hp => hproperty p fun t ht =>
          hd t (.lists (.member ?_ ht))
        rw [Declaration.members, hbody]
        exact hp
      refine eventually_of_succ (hbelow.and hmembers) fun limit hlimit accessor => ?_
      simp only [ofDeclaration, hbody]
      refine .bind (.note _) (.of_ctx fun s => ⟨_, _, rfl, rfl⟩) fun _ => ?_
      refine .ofExcept_bind (cat.stops_basesOf d) fun bases hbases => ?_
      refine .mapM_bind (fun base => ?_) (fun base hbase => ?_) fun _ => ?_
      · exact combined_ofBase IsRestoring.builds (restores_ofDeclaration limit) d base accessor
      · exact halts_base hcat (hcat.basesOf hbases hbase).1 hlimit.1
      · refine .mapM_bind (fun p => ?_) (fun p hp => hlimit.2 p hp accessor) fun own => .pure _
        exact combined_property IsRestoring.builds (restores_ofType limit) p accessor
  | nominal heritage members =>
      refine eventually_succ fun limit accessor => ?_
      simp only [ofDeclaration, hbody]
      exact .throw rfl
  | «alias» type? =>
      cases type? with
      | none =>
          refine eventually_succ fun limit accessor => ?_
          simp only [ofDeclaration, hbody]
          exact .throw rfl
      | some t =>
          refine eventually_of_succ (eventually_settled hcat n (hd t (.lists (.body hbody)))) ?_
          intro limit hlimit accessor
          simp only [ofDeclaration, hbody]
          exact hlimit accessor
  | bare =>
      refine eventually_succ fun limit accessor => ?_
      simp only [ofDeclaration, hbody]
      exact .throw rfl
  | property p =>
      refine eventually_of_succ (hproperty p fun t ht => hd t (.property hbody ht)) ?_
      intro limit hlimit accessor
      simp only [ofDeclaration, hbody]
      exact hlimit accessor

theorem eventually_declared (hcat : cat.Monomorphic) (n : Nat) {d : Declaration}
    (hd : ∀ t, d.Writes t → t.Monomorphic) : ∀ᶠ limit in atTop, Declared cat n limit d := by
  refine eventually_declared_of_below hcat hd ?_
  induction n generalizing d with
  | zero => exact Eventually.of_forall fun _ h => absurd h (Nat.lt_irrefl 0)
  | succ n ih =>
      have hall : ∀ᶠ limit in atTop, ∀ entry ∈ cat.entries, cat.declared? entry.1 = some entry.2 →
          Declared cat n limit entry.2 := by
        refine eventually_forall_mem fun entry _ => ?_
        by_cases hfind : cat.declared? entry.1 = some entry.2
        · have hentry : ∀ t, entry.2.Writes t → t.Monomorphic := fun t => hcat.types _ _ t hfind
          exact (eventually_declared_of_below hcat hentry (ih hentry)).mono fun _ h _ => h
        · exact Eventually.of_forall fun _ h => absurd h hfind
      refine hall.mono fun limit hlimit _ decl d hfind => ?_
      exact hlimit (decl, d) (Catalog.mem_entries_of_declared? hfind) hfind

theorem halts_ofInstance {d : Declaration} (hparams : d.params = []) (hd : Declared cat n limit d)
    (args : List Ty) (accessor : Expr) : Halts cat n (ofInstance cat limit d args accessor) := by
  unfold ofInstance
  cases args with
  | nil =>
      simp only [List.isEmpty_nil, Bool.true_or, if_true, List.zip_nil_right]
      split
      · exact .throw rfl
      · refine .withFrame (IsRestoring.knot _ _ (restores_ofDeclaration limit d))
          (fun _ hmem => absurd hmem List.not_mem_nil) ?_
        refine halts_knot (restores_ofDeclaration limit d) fun slot s hs hoff => ?_
        exact hd slot _ (hs.enter hoff)
  | cons t rest =>
      have harity : ((t :: rest).isEmpty || decide ((t :: rest).length = d.arity)) = false := by
        simp [Declaration.arity, hparams]
      simp only [harity, Bool.false_eq_true, if_false]
      show Halts cat n (throw (arityFault _ _ _ _))
      exact .throw rfl

end Guard

namespace Subject

variable {cat : Catalog}

/-- The subject is written without type arguments. -/
def Monomorphic : Subject → Prop
  | decl d => d.params = [] ∧ ∀ t, d.Writes t → t.Monomorphic
  | member p => ∀ t, p.type? = some t → t.Monomorphic
  | type t => t.Monomorphic

theorem eventually_halts (hcat : cat.Monomorphic) (n : Nat) {subject : Subject}
    (hsubject : subject.Monomorphic) : ∀ᶠ limit in atTop, ∀ accessor args,
      Halts cat n (subject.walkWith cat limit accessor args) := by
  cases subject with
  | decl d =>
      refine (Guard.eventually_declared hcat n hsubject.2).mono fun limit hlimit accessor args => ?_
      have hinstance := Guard.halts_ofInstance hsubject.1 hlimit
      unfold walkWith
      split
      · simp only [walk]
        split
        · exact hinstance [] accessor
        · exact hinstance [] accessor
        · exact hlimit accessor
      · exact hinstance args accessor
  | member p =>
      have htypes : ∀ᶠ limit in atTop, ∀ t, p.type? = some t → Guard.Settled cat n limit t := by
        cases htype : p.type? with
        | none => exact Eventually.of_forall fun _ _ h => by cases h
        | some t =>
            refine (Guard.eventually_settled hcat n (hsubject t htype)).mono
              fun limit hlimit u hu => ?_
            cases hu
            exact hlimit
      refine htypes.mono fun limit hlimit accessor args => ?_
      unfold walkWith
      split
      · exact Guard.halts_property hlimit
      · exact .throw rfl
  | type t =>
      refine (Guard.eventually_settled hcat n hsubject).mono fun limit hlimit accessor args => ?_
      unfold walkWith
      split
      · exact hlimit accessor
      · exact .throw rfl

theorem judge_ne_exhausted {s : Session} {verdict : Verdict} :
    (judge s (pure verdict)).verdict ≠ .error .exhausted := by
  unfold judge
  intro h
  split at h
  · cases h
  · cases h

/-- Without type arguments and indexed accesses, and with aliases that do not come back to
themselves, there is a limit that no compilation runs into, whatever circles the interfaces are
in. -/
theorem compile_ends (hcat : cat.Monomorphic) {subject : Subject} (hsubject : subject.Monomorphic) :
    ∀ᶠ limit in atTop, ∀ accessor args numbering,
      (subject.compile cat limit accessor args numbering).verdict ≠ .error .exhausted := by
  refine (eventually_halts hcat (cat.knotsLeft []).card hsubject).mono ?_
  intro limit hlimit accessor args numbering hverdict
  have hstart : cat.Within (cat.knotsLeft []).card ({} : Context) :=
    ⟨Context.tidy_start, fun _ hmem => absurd hmem List.not_mem_nil, Nat.le_refl _⟩
  have hends := hlimit accessor args { numbering := numbering } hstart
  unfold compile at hverdict
  split at hverdict
  · exact judge_ne_exhausted hverdict
  · exact judge_ne_exhausted hverdict
  · next fault s _ hrun =>
      cases hverdict
      obtain ⟨fault, hrun, hraised⟩ := raising_eq_error.1 hrun
      exact hends s (Fault.eq_of_raised hraised nofun nofun ▸ hrun)

end Subject

/-- Two interfaces that inherit from each other and go on in each other, one of them by an alias. -/
def links : Catalog :=
  { entries :=
    [(.listed "Link",
      { name := "Link", body := .alias (some (.union [.primitive "null", .name "Even" []])) }),
    (.listed "Odd", {
      name := "Odd"
      body := .interface [⟨"Even", []⟩]
        [⟨.str "next", some (.name "Link" []), false, none, .listed "Odd"⟩] }),
    (.listed "Even", {
      name := "Even"
      body := .interface [⟨"Odd", []⟩]
        [⟨.str "next", some (.name "Odd" []), false, none, .listed "Even"⟩] })] }

theorem monomorphic_links : links.Monomorphic := by
  have hentry : ∀ {decl d}, links.declared? decl = some d → (decl, d) ∈ links.entries :=
    Catalog.mem_entries_of_declared?
  simp only [links, List.mem_cons, List.not_mem_nil, or_false] at hentry
  refine ⟨fun decl d hfind => ?_, fun decl d t hfind hwrites => ?_, fun s h => ?_⟩
  · rcases hentry hfind with h | h | h <;> cases h <;> rfl
  · cases hwrites with
    | lists hlists =>
        have hmem := hlists.mem_types
        rcases hentry hfind with h | h | h
        all_goals
          cases h
          cases List.mem_singleton.1 hmem
          simp [Ty.Every, Ty.Inside, Ty.isMonomorphic]
    | property hbody _ => rcases hentry hfind with h | h | h <;> cases h <;> cases hbody
  · -- The only alias leads to an interface, where no alias begins.
    have hstep : ∀ {a b}, links.Abbreviates a b → a = "Link" ∧ b = "Even" := by
      rintro a b ⟨d, t, hfind, hbody, hmem⟩
      rcases hentry hfind with h | h | h <;> cases h <;> cases hbody
      simpa [Ty.names, Ty.namesList] using hmem
    obtain ⟨b, hfirst, hrest⟩ := Relation.TransGen.head'_iff.1 h
    obtain ⟨rfl, rfl⟩ := hstep hfirst
    rcases hrest.cases_head with h | ⟨c, hnext, _⟩
    · exact absurd h (by decide)
    · exact absurd (hstep hnext).1 (by decide)

theorem Subject.compile_ends_links : ∀ᶠ limit in atTop,
    ((Subject.type (.name "Odd" [])).compile links limit (.named "x") [] {}).verdict ≠
      .error .exhausted := by
  have hsubject : (Subject.type (.name "Odd" [])).Monomorphic := ⟨rfl, trivial⟩
  exact (Subject.compile_ends monomorphic_links hsubject).mono fun _ h => h _ _ _

end TypeGuard
