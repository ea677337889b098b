import TypeGuard.Guard.Verdict
import TypeGuard.Proofs.Heritage
import TypeGuard.Proofs.Twins

/-! Twin walks come to twin guards. What is put into a guard is the accessor, what is written in the
catalog, and names that are made for a type from its number. -/

namespace TypeGuard

/-- The index of a property is one that someone wrote: it has no name in it that is made for a
type. -/
def PropertyKey.IsWritten (key : PropertyKey) : Prop :=
  ∀ e, key.index = .ok e → e.numbers = []

structure Declaration.IsWritten (d : Declaration) : Prop where
  members : ∀ p ∈ d.members, p.key.IsWritten
  property : ∀ p, d.body = .property p → p.key.IsWritten

def Catalog.IsWritten (cat : Catalog) : Prop :=
  ∀ i d, cat.declared? i = some d → d.IsWritten

theorem Catalog.IsWritten.properties {cat : Catalog} (hcat : cat.IsWritten) {t : Ty}
    {properties : List Property} {p : Property} (h : cat.properties t = .ok properties)
    (hp : p ∈ properties) : p.key.IsWritten := by
  obtain ⟨_, _, found, _, _, _, hmem⟩ := mem_properties h hp
  obtain ⟨d, hfind, hmember⟩ := mem_membersOf hmem
  exact (hcat _ d hfind).members p hmember

open Walk (Twin)

variable {cat : Catalog} {ρ : Renaming} {N : Tables}

namespace Shape

theorem keyOfFault_rename (t : Ty) : keyOfFault (t.rename ρ) = keyOfFault t := by
  have hrender : (Ty.keyOf (t.rename ρ)).render = (Ty.keyOf t).render :=
    Ty.render_rename (.keyOf t)
  rw [keyOfFault, keyOfFault, hrender]

theorem ofProperties_rename (ps : List Property) :
    ofProperties (ps.map (Property.rename ρ)) = ofProperties ps := by
  rw [ofProperties, ofProperties, List.isEmpty_map, List.all_map, List.map_map]
  rfl

/-- The same shape for a type and for its twin, wherever it is asked for. -/
def TwinShape (ρ : Renaming) (f f' : Ty → Walk Shape) : Prop :=
  ∀ N t, Twin ρ N (f t) (f' (t.rename ρ)) fun _ shape shape' => shape' = shape

variable {f f' : Ty → Walk Shape}

theorem twin_members (hf : TwinShape ρ f f') (op : List Shape → Except Fault Shape) (ts : List Ty) :
    Twin ρ N (do let shapes ← ts.mapM f; Walk.ofExcept (op shapes))
      (do let shapes ← (ts.map (Ty.rename ρ)).mapM f'; Walk.ofExcept (op shapes))
      fun _ shape shape' => shape' = shape := by
  refine .bind (.mapM ts (fun _ h => h) fun t _ => hf N t) fun N' shapes shapes' _ hshapes => ?_
  have hsame : shapes' = shapes := by
    induction hshapes with
    | nil => rfl
    | cons hfirst _ ih => rw [hfirst, ih]
  rw [hsame]
  exact .ofExcept_self _

theorem twin_param (hf : TwinShape ρ f f') (x : TypeParam) (hint : String) :
    Twin ρ N (do let t ← Walk.bound x hint; f t) (do let t ← Walk.bound (ρ.map x) hint; f' t)
      fun _ shape shape' => shape' = shape := by
  refine .bind (.bound x hint) fun N' u u' _ hu => ?_
  rw [hu]
  exact hf N' u

theorem twin_name (hf : TwinShape ρ f f') (t : Ty) :
    Twin ρ N (do let u ← Walk.ofExcept (cat.resolve t); f u)
      (do let u ← Walk.ofExcept ((cat.rename ρ).resolve (t.rename ρ)); f' u)
      fun _ shape shape' => shape' = shape := by
  refine .bind (.ofExcept (Catalog.resolve_rename t)) fun N' u u' _ hu => ?_
  rw [hu]
  exact hf N' u

theorem twin_ofType (limit : Nat)
    (htype : TwinShape ρ (ofType cat limit) (ofType (cat.rename ρ) limit))
    (hkeys : TwinShape ρ (ofKeys cat limit) (ofKeys (cat.rename ρ) limit)) :
    TwinShape ρ (ofType cat (limit + 1)) (ofType (cat.rename ρ) (limit + 1)) := by
  intro N t
  cases t with
  | primitive s => exact .ofExcept_self _
  | literal v => exact .ofExcept_self _
  | boolean b => exact .pure fun _ _ => rfl
  | union ts =>
      simp only [Ty.rename, Ty.renames_eq, ofType]
      exact twin_members htype union ts
  | inter ts =>
      simp only [Ty.rename, Ty.renames_eq, ofType]
      exact twin_members htype inter ts
  | object kind decl elements =>
      cases kind with
      | interface => exact .pure fun _ _ => rfl
      | nominal =>
          refine .throw ?_
          rw [Catalog.shortName_rename, Catalog.siteOf_rename]
  | sequence kind ts => exact .pure fun _ _ => rfl
  | mapped x c t xs => exact .pure fun _ _ => rfl
  | ref target args =>
      refine .bind (.instantiate (.ref target args)) fun N₁ r r' _ hr => ?_
      subst hr
      refine .bind (.isActive r) fun N₂ active active' _ hactive => ?_
      subst hactive
      cases active' with
      | true => exact .pure fun _ _ => rfl
      | false =>
          refine .entering r ?_
          refine .bind (.ofExcept (Catalog.bindings_rename r)) fun N₃ γ γ' _ hγ => ?_
          subst hγ
          rw [Ty.head_rename]
          exact .withFrame γ (htype N₃ r.head)
  | param x => exact twin_param htype x _
  | name s args => exact twin_name htype (.name s args)
  | keyOf t => exact hkeys N t
  | index object key =>
      refine .bind (.expose cat limit object) fun N₁ u u' _ hu => ?_
      subst hu
      refine .bind (htype N₁ key) fun N₂ keys keys' _ hkeys => ?_
      subst hkeys
      refine .bind (.ofExcept (Catalog.propertyTypes_rename u key _)) fun N₃ ts ts' _ hts => ?_
      subst hts
      refine .bind (.ofExcept (Catalog.bindings_rename u)) fun N₄ γ γ' _ hγ => ?_
      subst hγ
      exact .withFrame γ (twin_members htype union ts)

theorem twin_ofKeys (limit : Nat)
    (htype : TwinShape ρ (ofType cat limit) (ofType (cat.rename ρ) limit))
    (hkeys : TwinShape ρ (ofKeys cat limit) (ofKeys (cat.rename ρ) limit)) :
    TwinShape ρ (ofKeys cat (limit + 1)) (ofKeys (cat.rename ρ) (limit + 1)) := by
  intro N t
  cases t with
  | object kind decl elements =>
      cases kind with
      | nominal =>
          refine .throw ?_
          rw [Catalog.shortName_rename, Catalog.siteOf_rename]
      | interface =>
          refine .bind (.ofExcept (Catalog.properties_rename (.object .interface decl elements)))
            fun N₁ ps ps' _ hps => ?_
          subst hps
          rw [ofProperties_rename]
          exact .ofExcept_self _
  | sequence kind ts => exact .pure fun _ _ => rfl
  | ref target args =>
      refine .bind (.instantiate (.ref target args)) fun N₁ r r' _ hr => ?_
      subst hr
      rw [Ty.head_rename]
      cases hhead : r.head with
      | mapped x c t xs =>
          refine .bind (.ofExcept (Catalog.bindings_rename r)) fun N₂ γ γ' _ hγ => ?_
          subst hγ
          exact .withFrame γ (hkeys N₂ (.mapped x c t xs))
      | _ => exact hkeys N₁ _
  | mapped x c t xs => exact htype N c
  | union ts =>
      simp only [Ty.rename, Ty.renames_eq, ofKeys]
      exact twin_members hkeys commonNames ts
  | inter ts =>
      simp only [Ty.rename, Ty.renames_eq, ofKeys]
      exact twin_members hkeys allNames ts
  | param x => exact twin_param hkeys x _
  | name s args => exact twin_name hkeys (.name s args)
  | primitive s =>
      by_cases hany : s = "any"
      · subst hany
        exact .pure fun _ _ => rfl
      · by_cases hnever : s = "never"
        · subst hnever
          exact .pure fun _ _ => rfl
        · simp only [Ty.rename, ofKeys]
          exact .throw rfl
  | literal v => exact .throw rfl
  | boolean b => exact .throw rfl
  | keyOf t => exact .throw (keyOfFault_rename (.keyOf t))
  | index object key => exact .throw (keyOfFault_rename (.index object key))

theorem twin (cat : Catalog) (ρ : Renaming) (limit : Nat) :
    TwinShape ρ (ofType cat limit) (ofType (cat.rename ρ) limit) ∧
      TwinShape ρ (ofKeys cat limit) (ofKeys (cat.rename ρ) limit) := by
  induction limit with
  | zero => exact ⟨fun _ _ => .throw rfl, fun _ _ => .throw rfl⟩
  | succ limit ih => exact ⟨twin_ofType limit ih.1 ih.2, twin_ofKeys limit ih.1 ih.2⟩

end Shape

namespace Guard

/-- The guards are the same up to agreeing numbers. -/
def Agree (ρ : Renaming) (N : Tables) (e e' : Expr) : Prop :=
  e.Twin (N.Agree ρ) e'

theorem Agree.later {N N' : Tables} {e e' : Expr} (hext : N.Extends N') (h : Agree ρ N e e') :
    Agree ρ N' e e' :=
  h.mono fun _ _ hnm => hnm.later hext

theorem agree_all {N N' : Tables} {es es' : List Expr} (hext : N.Extends N')
    (h : List.Forall₂ (Agree ρ N) es es') : List.Forall₂ (Expr.Twin (N'.Agree ρ)) es es' :=
  h.imp fun _ _ => Agree.later hext

/-- Both ways to check a type come to the same, wherever they are used. -/
def TwinVisit (ρ : Renaming) (visit visit' : Visit) : Prop :=
  ∀ N t a a', Agree ρ N a a' → Twin ρ N (visit t a) (visit' (t.rename ρ) a') (Agree ρ)

theorem ofText_rename (t : Ty) (fault : String → Fault) :
    Fault.ofText (t.rename ρ).render fault = .ofText t.render fault := by
  rw [Ty.render_rename]

theorem labelText_rename (t : Ty) : labelText (t.rename ρ) = labelText t := by
  rw [labelText, labelText, Ty.head_rename]
  cases t.head <;> rfl

theorem twin_knot {build build' : Expr → Walk Expr} {a a' : Expr} (t : Ty)
    (hbuild : ∀ N a a', Agree ρ N a a' → Twin ρ N (build a) (build' a') (Agree ρ))
    (ha : Agree ρ N a a') :
    Twin ρ N (knot t a build) (knot (t.rename ρ) a' build') (Agree ρ) := by
  refine .bind (.numberOf t) fun N₁ n m hext₁ hnm => ?_
  refine .bind (.isActive t) fun N₂ active active' hext₂ hactive => ?_
  subst hactive
  rw [labelText_rename]
  cases active' with
  | true =>
      refine .bind (.onContext (Context.mark_rename t)) fun N₃ _ _ hext₃ _ => ?_
      refine .pure fun N₄ hext₄ => ?_
      have hext := hext₂.trans (hext₃.trans hext₄)
      exact .recur (.guard _ (hnm.later hext)) (ha.later (hext₁.trans hext))
  | false =>
      have hwhole : Twin ρ N₂ (Walk.entering t do
            let body ← build (.ident (.slot n))
            let recursive ← Walk.isMarked t
            pure (body, recursive))
          (Walk.entering (t.rename ρ) do
            let body ← build' (.ident (.slot m))
            let recursive ← Walk.isMarked (t.rename ρ)
            pure (body, recursive))
          fun N r r' => Agree ρ N r.1 r'.1 ∧ r'.2 = r.2 := by
        refine .entering t ?_
        refine .bind (hbuild N₂ _ _ (.ident (.slot (hnm.later hext₂))))
          fun N₃ body body' _ hbody => ?_
        refine .bind (.isMarked t) fun N₄ marked marked' hext₄ hmarked => ?_
        exact .pure fun N₅ hext₅ => ⟨hbody.later (hext₄.trans hext₅), hmarked⟩
      refine .bind hwhole fun N₃ r r' hext₃ hr => ?_
      obtain ⟨body, recursive⟩ := r
      obtain ⟨body', recursive'⟩ := r'
      obtain ⟨hbody, hrecursive⟩ := hr
      simp only at hbody hrecursive
      subst hrecursive
      have hnm' : N₃.Agree ρ n m := hnm.later (hext₂.trans hext₃)
      have ha' : Agree ρ N₃ a a' := ha.later (hext₁.trans (hext₂.trans hext₃))
      cases recursive' with
      | true =>
          refine .pure fun N₄ hext₄ => ?_
          exact .fix (.guard _ (hnm'.later hext₄)) (.slot (hnm'.later hext₄)) (hbody.later hext₄)
            (ha'.later hext₄)
      | false =>
          refine (Twin.results (hbody.replace ha' hnm' (fun k hk => hk.left_unique hnm')
            fun k hk => hk.right_unique hnm')).mono fun N₄ e e' hext₄ he => ?_
          exact Agree.later hext₄ he

theorem twin_property {visit visit' : Visit} {a a' : Expr} (hvisit : TwinVisit ρ visit visit')
    {p : Property} (hp : p.key.IsWritten) (ha : Agree ρ N a a') :
    Twin ρ N (ofProperty cat visit p a) (ofProperty (cat.rename ρ) visit' (p.rename ρ) a')
      (Agree ρ) := by
  obtain ⟨key, type?, optional, site, owner⟩ := p
  cases type? with
  | none =>
      refine .throw ?_
      rw [propertySite, propertySite, Property.rename, Catalog.siteOf_rename]
      rfl
  | some t =>
      have hrest : ∀ N, Agree ρ N a a' → Twin ρ N
          (do let index ← Walk.ofExcept key.index; visit t (.elem a index))
          (do let index ← Walk.ofExcept key.index; visit' (t.rename ρ) (.elem a' index))
          (Agree ρ) := by
        intro N ha
        have hindex : TwinResults (fun i i' => i' = i ∧ i.numbers = []) key.index key.index := by
          cases h : key.index with
          | error fault => exact .error fault
          | ok i => exact .ok ⟨rfl, hp i h⟩
        refine .bind (.results hindex) fun N' i i' hext hi => ?_
        obtain ⟨rfl, hwritten⟩ := hi
        exact hvisit N' t _ _ (.elem (ha.later hext) (.of_numbers hwritten))
      cases optional with
      | true => exact .bind (.note _) fun N' _ _ hext _ => hrest N' (ha.later hext)
      | false => exact hrest N ha

theorem twin_properties {visit visit' : Visit} {a a' : Expr} (hvisit : TwinVisit ρ visit visit')
    {ps : List Property} (hps : ∀ p ∈ ps, p.key.IsWritten) (ha : Agree ρ N a a') :
    Twin ρ N (ps.mapM fun p => ofProperty cat visit p a)
      ((ps.map (Property.rename ρ)).mapM fun p => ofProperty (cat.rename ρ) visit' p a')
      fun N => List.Forall₂ (Agree ρ N) :=
  .mapM ps Agree.later fun p hp => twin_property hvisit (hps p hp) ha

theorem twin_mapped {visit visit' : Visit} {a a' : Expr} (hvisit : TwinVisit ρ visit visit')
    (limit : Nat) (x : TypeParam) (c t : Ty) (xs : List TypeParam) (ha : Agree ρ N a a') :
    Twin ρ N (ofMapped cat limit visit x c t xs a)
      (ofMapped (cat.rename ρ) limit visit' (ρ.map x) (c.rename ρ) (t.rename ρ) (xs.map ρ.map) a')
      (Agree ρ) := by
  refine .bind ((Shape.twin cat ρ limit).1 N c) fun N₁ shape shape' hext₁ hshape => ?_
  subst hshape
  cases shape' with
  | exact keys =>
      have hkeys : Twin ρ N₁
          (keys.toList.mapM fun key => Walk.withFrame [(x, .literal (.str key))]
            (visit t (.elem a (.const (.str key)))))
          ((keys.toList.map id).mapM fun key => Walk.withFrame [(ρ.map x, .literal (.str key))]
            (visit' (t.rename ρ) (.elem a' (.const (.str key)))))
          fun N => List.Forall₂ (Agree ρ N) := by
        refine .mapM keys.toList Agree.later fun key _ => ?_
        exact .withFrame [(x, .literal (.str key))]
          (hvisit N₁ t _ _ (.elem (ha.later hext₁) (.const _)))
      rw [List.map_id] at hkeys
      refine .bind hkeys fun N₂ es es' hext₂ hes => .pure fun N₃ hext₃ => ?_
      have ha' : Agree ρ N₃ a a' := ha.later (hext₁.trans (hext₂.trans hext₃))
      exact .allOf (List.rel_append (Expr.Twin.objectTests ha') (agree_all hext₃ hes))
  | always | never => exact .throw (ofText_rename (.mapped x c t xs) _)

theorem twin_parts {visit visit' : Visit} {a a' : Expr} (hcat : cat.IsWritten)
    (hvisit : TwinVisit ρ visit visit') (limit : Nat) (t : Ty) (ha : Agree ρ N a a') :
    Twin ρ N (ofParts cat limit visit t a) (ofParts (cat.rename ρ) limit visit' (t.rename ρ) a')
      (Agree ρ) := by
  refine .bind (.ofExcept (Catalog.bindings_rename t)) fun N₁ γ γ' hext₁ hγ => ?_
  subst hγ
  refine .withFrame γ ?_
  have hproperties : Twin ρ N₁
      (do
        let properties ← Walk.ofExcept (cat.properties t)
        let conditions ← properties.mapM fun p => ofProperty cat visit p a
        pure (Expr.allOf (Expr.objectTests a ++ conditions)))
      (do
        let properties ← Walk.ofExcept ((cat.rename ρ).properties (t.rename ρ))
        let conditions ← properties.mapM fun p => ofProperty (cat.rename ρ) visit' p a'
        pure (Expr.allOf (Expr.objectTests a' ++ conditions))) (Agree ρ) := by
    have hfound : TwinResults (fun ps ps' => ps' = ps.map (Property.rename ρ) ∧
        ∀ p ∈ ps, p.key.IsWritten) (cat.properties t) ((cat.rename ρ).properties (t.rename ρ)) := by
      rw [Catalog.properties_rename]
      cases h : cat.properties t with
      | error fault => exact .error fault
      | ok ps => exact .ok ⟨rfl, fun p hp => hcat.properties h hp⟩
    refine .bind (.results hfound) fun N₂ ps ps' hext₂ hps => ?_
    obtain ⟨rfl, hwritten⟩ := hps
    have ha₂ : Agree ρ N₂ a a' := ha.later (hext₁.trans hext₂)
    refine .bind (twin_properties hvisit hwritten ha₂) fun N₃ es es' hext₃ hes => ?_
    refine .pure fun N₄ hext₄ => ?_
    have ha₄ : Agree ρ N₄ a a' := ha₂.later (hext₃.trans hext₄)
    exact .allOf (List.rel_append (Expr.Twin.objectTests ha₄) (agree_all hext₄ hes))
  rw [Ty.head_rename]
  cases t.head with
  | mapped x c u xs => exact twin_mapped hvisit limit x c u xs (ha.later hext₁)
  | _ => exact hproperties

theorem twin_ofPrimitive {a a' : Expr} (s : String) (ha : Agree ρ N a a') :
    TwinResults (Agree ρ N) (ofPrimitive s a) (ofPrimitive s a') := by
  unfold ofPrimitive
  split
  case h_7 => exact .ok (.allOf (Expr.Twin.objectTests ha))
  case h_6 => exact .ok (ha.equalTo _)
  case h_8 | h_9 | h_10 => exact .ok (.const _)
  case h_11 => exact .error _
  all_goals exact .ok (ha.hasTypeOf _)

theorem twin_ofLiteral {a a' : Expr} (v : Value) (ha : Agree ρ N a a') :
    TwinResults (Agree ρ N) (ofLiteral v a) (ofLiteral v a') := by
  unfold ofLiteral
  split
  case h_4 => exact .error _
  all_goals exact .ok (ha.equalTo _)

theorem twin_ofType (hcat : cat.IsWritten) (limit : Nat) :
    TwinVisit ρ (ofType cat limit) (ofType (cat.rename ρ) limit) := by
  induction limit with
  | zero => exact fun _ _ _ _ _ => .throw rfl
  | succ limit ih =>
      intro N t a a' ha
      have hleaf : ∀ {x x' : Except Fault Expr}, TwinResults (Agree ρ N) x x' →
          Twin ρ N (Walk.ofExcept x) (Walk.ofExcept x') (Agree ρ) := fun h =>
        (Twin.results h).mono fun _ _ _ hext he => Agree.later hext he
      have hmembers : ∀ {N : Tables} (ts : List Ty), Agree ρ N a a' →
          Twin ρ N (ts.mapM fun t => ofType cat limit t a)
            ((ts.map (Ty.rename ρ)).mapM fun t => ofType (cat.rename ρ) limit t a')
            fun N => List.Forall₂ (Agree ρ N) := fun ts ha =>
        .mapM ts Agree.later fun t _ => ih _ t a a' ha
      cases t with
      | primitive s => exact hleaf (twin_ofPrimitive s ha)
      | literal v => exact hleaf (twin_ofLiteral v ha)
      | boolean b => exact .pure fun _ hext => (Agree.later hext ha).equalTo _
      | union ts =>
          simp only [Ty.rename, Ty.renames_eq, ofType]
          exact .bind (hmembers ts ha) fun N₁ es es' _ hes => .pure fun N₂ hext₂ =>
            .anyOf (agree_all hext₂ hes)
      | inter ts =>
          simp only [Ty.rename, Ty.renames_eq, ofType]
          exact .bind (hmembers ts ha) fun N₁ es es' _ hes => .pure fun N₂ hext₂ =>
            .allOf (agree_all hext₂ hes)
      | name s args =>
          refine .bind (.ofExcept (Catalog.resolve_rename (.name s args)))
            fun N₁ u u' hext₁ hu => ?_
          rw [hu]
          exact ih N₁ u a a' (ha.later hext₁)
      | param x =>
          refine .bind (.bound x _) fun N₁ u u' hext₁ hu => ?_
          rw [hu]
          exact ih N₁ u a a' (ha.later hext₁)
      | object kind decl elements =>
          cases kind with
          | interface =>
              exact twin_knot (.object .interface decl elements)
                (fun N b b' hb => twin_parts hcat ih limit _ hb) ha
          | nominal =>
              refine .throw ?_
              rw [Catalog.siteOf_rename]
      | sequence kind ts => exact .throw (ofText_rename (.sequence kind ts) _)
      | ref target args =>
          refine .bind (.instantiate (.ref target args)) fun N₁ r r' hext₁ hr => ?_
          subst hr
          have ha₁ : Agree ρ N₁ a a' := ha.later hext₁
          rw [Ty.head_rename]
          have hobject := twin_knot r (fun N b b' hb => twin_parts hcat ih limit r hb) ha₁
          cases hhead : r.head with
          | object kind decl elements =>
              cases kind with
              | interface => exact hobject
              | nominal => exact ih N₁ _ a a' ha₁
          | mapped x c u xs => exact hobject
          | _ => exact ih N₁ _ a a' ha₁
      | mapped x c u xs => exact twin_mapped ih limit x c u xs ha
      | index object key =>
          refine .bind (.expose cat limit object) fun N₁ u u' hext₁ hu => ?_
          subst hu
          refine .bind ((Shape.twin cat ρ limit).1 N₁ key) fun N₂ keys keys' hext₂ hkeys => ?_
          subst hkeys
          refine .bind (.ofExcept (Catalog.propertyTypes_rename u key _))
            fun N₃ ts ts' hext₃ hts => ?_
          subst hts
          refine .bind (.ofExcept (Catalog.bindings_rename u)) fun N₄ γ γ' hext₄ hγ => ?_
          subst hγ
          have ha₄ : Agree ρ N₄ a a' :=
            ha.later (hext₁.trans (hext₂.trans (hext₃.trans hext₄)))
          exact .withFrame γ (.bind (hmembers ts ha₄) fun N₅ es es' _ hes => .pure fun N₆ hext₆ =>
            .anyOf (agree_all hext₆ hes))
      | keyOf t =>
          refine .bind ((Shape.twin cat ρ limit).1 N (.keyOf t))
            fun N₁ shape shape' hext₁ hshape => ?_
          subst hshape
          cases shape' with
          | exact keys =>
              refine .pure fun N₂ hext₂ => .anyOf ?_
              have ha₂ : Agree ρ N₂ a a' := ha.later (hext₁.trans hext₂)
              rw [List.forall₂_map_left_iff, List.forall₂_map_right_iff]
              exact List.forall₂_same.2 fun key _ => ha₂.equalTo _
          | always | never => exact .throw (ofText_rename (.keyOf t) _)

theorem zip_params_rename (d : Declaration) (args : List Ty) :
    Bindings.ofPairs ((d.rename ρ).params.zip (args.map (Ty.rename ρ))) =
      (Bindings.ofPairs (d.params.zip args)).rename ρ := by
  rw [Bindings.ofPairs_rename, Bindings.zip_rename]
  rfl

theorem twin_base {declared declared' : Declaration → Expr → Walk Expr} {a a' : Expr}
    (hdeclared : ∀ d decl, cat.declared? decl = some d → ∀ N b b', Agree ρ N b b' →
      Twin ρ N (declared d b) (declared' (d.rename ρ) b') (Agree ρ))
    (heir : Declaration) (base : Ty) (ha : Agree ρ N a a') :
    Twin ρ N (ofBase cat declared heir base a)
      (ofBase (cat.rename ρ) declared' (heir.rename ρ) (base.rename ρ) a') (Agree ρ) := by
  have hfault : ∀ hint : String,
      heritageFault (heir.rename ρ) (base.rename ρ) hint = heritageFault heir base hint :=
    fun _ => ofText_rename base _
  unfold ofBase
  rw [Ty.head_rename]
  cases base.head with
  | object kind decl elements =>
      cases kind with
      | nominal => exact .throw (hfault _)
      | interface =>
          refine .bind (.isActive base) fun N₁ active active' hext₁ hactive => ?_
          subst hactive
          cases active' with
          | true => exact .throw (hfault _)
          | false =>
              simp only [Bool.false_eq_true, if_false, Catalog.declared?_rename]
              cases hfind : cat.declared? decl with
              | none => exact .throw rfl
              | some d =>
                  simp only [Option.map, Ty.args_rename, zip_params_rename]
                  exact .withFrame _ (twin_knot base (hdeclared d decl hfind) (ha.later hext₁))
  | _ => exact .throw (hfault _)

theorem twin_ofDeclaration (hcat : cat.IsWritten) (limit : Nat) {d : Declaration} (hd : d.IsWritten)
    {a a' : Expr} (ha : Agree ρ N a a') :
    Twin ρ N (ofDeclaration cat limit d a) (ofDeclaration (cat.rename ρ) limit (d.rename ρ) a')
      (Agree ρ) := by
  induction limit generalizing N d a a' with
  | zero => exact .throw rfl
  | succ limit ih =>
      have hrenamed : (d.rename ρ).body = d.body.rename ρ := rfl
      unfold ofDeclaration
      rw [hrenamed]
      cases hbody : d.body with
      | interface heritage members =>
          have hmembers : d.members = members := by rw [Declaration.members, hbody]
          refine .bind (.note _) fun N₁ _ _ hext₁ _ => ?_
          refine .bind (.ofExcept (Catalog.basesOf_rename d)) fun N₂ bases bases' hext₂ hbases => ?_
          subst hbases
          have ha₂ : Agree ρ N₂ a a' := ha.later (hext₁.trans hext₂)
          have hinherited : Twin ρ N₂
              (bases.mapM fun base => do
                let base ← Walk.instantiate base
                ofBase cat (ofDeclaration cat limit) d base a)
              ((bases.map (Ty.rename ρ)).mapM fun base => do
                let base ← Walk.instantiate base
                ofBase (cat.rename ρ) (ofDeclaration (cat.rename ρ) limit) (d.rename ρ) base a')
              fun N => List.Forall₂ (Agree ρ N) := by
            refine .mapM bases Agree.later fun base _ => ?_
            refine .bind (.instantiate base) fun N₃ u u' hext₃ hu => ?_
            subst hu
            exact twin_base (fun d' decl hfind N b b' hb => ih (hcat decl d' hfind) hb) d u
              (ha₂.later hext₃)
          refine .bind hinherited fun N₃ es es' hext₃ hes => ?_
          have ha₃ : Agree ρ N₃ a a' := ha₂.later hext₃
          have hwritten : ∀ p ∈ members, p.key.IsWritten := by
            rw [← hmembers]
            exact hd.members
          refine .bind (twin_properties (twin_ofType hcat limit) hwritten ha₃)
            fun N₄ own own' hext₄ hown => .pure fun N₅ hext₅ => ?_
          have ha₅ : Agree ρ N₅ a a' := ha₃.later (hext₄.trans hext₅)
          exact .allOf (List.rel_append (List.rel_append (Expr.Twin.objectTests ha₅)
            (agree_all (hext₄.trans hext₅) hes)) (agree_all hext₅ hown))
      | nominal heritage members => exact .throw rfl
      | bare => exact .throw rfl
      | property p => exact twin_property (twin_ofType hcat limit) (hd.property p hbody) ha
      | «alias» type? =>
          cases type? with
          | none => exact .throw rfl
          | some t => exact twin_ofType hcat limit N t a a' ha

theorem twin_ofInstance (hcat : cat.IsWritten) (limit : Nat) {d : Declaration} (hd : d.IsWritten)
    (args : List Ty) {a a' : Expr} (ha : Agree ρ N a a') :
    Twin ρ N (ofInstance cat limit d args a)
      (ofInstance (cat.rename ρ) limit (d.rename ρ) (args.map (Ty.rename ρ)) a') (Agree ρ) := by
  have hframe : ∀ {N : Tables} (t : Ty), Agree ρ N a a' → Twin ρ N
      (Walk.withFrame (.ofPairs (d.params.zip args)) (knot t a (ofDeclaration cat limit d)))
      (Walk.withFrame (.ofPairs ((d.rename ρ).params.zip (args.map (Ty.rename ρ))))
        (knot (t.rename ρ) a' (ofDeclaration (cat.rename ρ) limit (d.rename ρ)))) (Agree ρ) := by
    intro N t ha
    rw [zip_params_rename]
    exact .withFrame _ (twin_knot t (fun N b b' hb => twin_ofDeclaration hcat limit hd hb) ha)
  have hrenamed : (d.rename ρ).body = d.body.rename ρ := rfl
  unfold ofInstance
  rw [hrenamed]
  simp only [List.isEmpty_map, List.length_map, Declaration.arity_rename]
  by_cases harity : (args.isEmpty || decide (args.length = d.arity)) = true
  · simp only [harity, if_true, pure_bind]
    cases hbody : d.body with
    | nominal heritage members => exact .throw rfl
    | _ =>
        simp only [Declaration.Body.rename]
        split
        · exact hframe _ ha
        · rw [← Ty.renames_eq]
          refine .bind (.instantiate (.ref (.object .interface d.id []) args))
            fun N₁ t t' hext₁ ht => ?_
          subst ht
          rw [Ty.renames_eq]
          exact hframe t (ha.later hext₁)
  · simp only [harity, Bool.false_eq_true, if_false]
    exact .bind (Q := fun _ _ _ => False) (.throw rfl) fun _ _ _ _ h => h.elim

end Guard

namespace Subject

def rename (ρ : Renaming) : Subject → Subject
  | decl d => decl (d.rename ρ)
  | member p => member (p.rename ρ)
  | type t => type (t.rename ρ)

/-- What the subject itself puts into a guard is written. -/
def IsWritten : Subject → Prop
  | decl d => d.IsWritten
  | member p => p.key.IsWritten
  | type _ => True

theorem twin_walk (hcat : cat.IsWritten) (limit : Nat) {a a' : Expr} {subject : Subject}
    (hsubject : subject.IsWritten) (ha : Guard.Agree ρ N a a') :
    Twin ρ N (subject.walk cat limit a) ((subject.rename ρ).walk (cat.rename ρ) limit a')
      (Guard.Agree ρ) := by
  cases subject with
  | decl d =>
      have hrenamed : (d.rename ρ).body = d.body.rename ρ := rfl
      simp only [rename, walk, hrenamed]
      cases d.body with
      | interface heritage members => exact Guard.twin_ofInstance hcat limit hsubject [] ha
      | nominal heritage members => exact Guard.twin_ofInstance hcat limit hsubject [] ha
      | _ => exact Guard.twin_ofDeclaration hcat limit hsubject ha
  | member p => exact Guard.twin_property (Guard.twin_ofType hcat limit) hsubject ha
  | type t => exact Guard.twin_ofType hcat limit N t a a' ha

theorem twin_walkWith (hcat : cat.IsWritten) (limit : Nat) {a a' : Expr} {subject : Subject}
    (hsubject : subject.IsWritten) (args : List Ty) (ha : Guard.Agree ρ N a a') :
    Twin ρ N (subject.walkWith cat limit a args)
      ((subject.rename ρ).walkWith (cat.rename ρ) limit a' (args.map (Ty.rename ρ)))
      (Guard.Agree ρ) := by
  unfold walkWith
  rw [List.isEmpty_map]
  split
  · exact twin_walk hcat limit hsubject ha
  · cases subject with
    | decl d => exact Guard.twin_ofInstance hcat limit hsubject args ha
    | member p =>
        simp only [rename, List.length_map]
        exact .throw rfl
    | type t => exact .throw rfl

end Subject

end TypeGuard
