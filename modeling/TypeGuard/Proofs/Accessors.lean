import TypeGuard.Proofs.Decision
import TypeGuard.Proofs.Lockstep

/-! Guards are uniform in what they read the value under test from: the guard for an accessor is
the guard for a name with the accessor in its place. -/

namespace TypeGuard

namespace Expr

variable {e r a : Expr} {x y : Ident}

theorem fresh_put (he : e.Fresh x) (hr : r.Fresh x) : (e.put y r).Fresh x := by
  induction e with
  | ident z =>
      simp only [put]
      split
      · exact hr
      · trivial
  | const value => trivial
  | prop target name ih | typeOf target ih | recur label target ih => exact ih he
  | elem left right ihl ihr | eq left right ihl ihr | ne left right ihl ihr
  | and left right ihl ihr | or left right ihl ihr => exact ⟨ihl he.1, ihr he.2⟩
  | fix label z body argument ihb iha => exact ⟨he.1, ihb he.2.1, iha he.2.2⟩

theorem reads_of_reads_put (h : (e.put y r).Reads x) : e.Reads x ∨ r.Reads x := by
  induction e with
  | ident z =>
      simp only [put] at h
      split at h
      · exact .inr h
      · exact .inl h
  | const value => cases h
  | prop target name ih | typeOf target ih | recur label target ih => exact ih h
  | elem left right ihl ihr | eq left right ihl ihr | ne left right ihl ihr
  | and left right ihl ihr | or left right ihl ihr =>
      rcases h with h | h
      · exact (ihl h).imp_left .inl
      · exact (ihr h).imp_left .inr
  | fix label z body argument ihb iha =>
      rcases h with ⟨hz, h⟩ | h
      · exact (ihb h).imp_left fun hbody => .inl ⟨hz, hbody⟩
      · exact (iha h).imp_left .inr

/-- A name that is not read comes in with the replacement of another only. -/
theorem put_put (hfresh : e.Fresh x) (hread : ¬e.Reads x) :
    (e.put y r).put x a = e.put y (r.put x a) := by
  induction e with
  | ident z =>
      simp only [put]
      split
      · rfl
      · exact if_neg hread
  | const value => rfl
  | prop target name ih | typeOf target ih | recur label target ih =>
      simp only [put, ih hfresh hread]
  | elem left right ihl ihr | eq left right ihl ihr | ne left right ihl ihr
  | and left right ihl ihr | or left right ihl ihr =>
      simp only [Reads, not_or] at hread
      simp only [put, ihl hfresh.1 hread.1, ihr hfresh.2 hread.2]
  | fix label z body argument ihb iha =>
      simp only [Reads, not_or, not_and] at hread
      simp only [put, ihb hfresh.2.1 (hread.1 hfresh.1), iha hfresh.2.2 hread.2]

/-- Whether a name can be replaced does not depend on what it is replaced by. -/
theorem replace_results (e : Expr) (y : Ident) (r r' : Expr) :
    TwinResults (fun f f' => f = e.put y r ∧ f' = e.put y r') (e.replace y r) (e.replace y r') := by
  cases h : e.replace y r with
  | ok f =>
      obtain ⟨hfresh, hput⟩ := replace_eq_ok.1 h
      rw [replace_eq_ok.2 ⟨hfresh, rfl⟩]
      exact .ok ⟨hput.symm, rfl⟩
  | error fault =>
      cases h' : e.replace y r' with
      | ok f' =>
          obtain ⟨hfresh, _⟩ := replace_eq_ok.1 h'
          rw [replace_eq_ok.2 ⟨hfresh, rfl⟩] at h
          cases h
      | error fault' =>
          rw [stops_replace e y r fault h, stops_replace e y r' fault' h']
          exact .error _

/-- The second expression is the first with the accessor in the place of the name, which is not
read if it is hidden. -/
structure Puts (x : Ident) (a : Expr) (hidden : Prop) (e e' : Expr) : Prop where
  fresh : e.Fresh x
  put_eq : e.put x a = e'
  unread : hidden → ¬e.Reads x

namespace Puts

variable {hidden : Prop} {e' b b' : Expr}

theorem of_unread (hfresh : e.Fresh x) (hread : ¬e.Reads x) : Puts x a hidden e e :=
  ⟨hfresh, put_eq_self a hfresh hread, fun _ => hread⟩

theorem const (value : Scalar) : Puts x a hidden (.const value) (.const value) :=
  .of_unread trivial id

theorem eq_of_hidden (h : Puts x a True e e') : e' = e :=
  h.put_eq.symm.trans (put_eq_self a h.fresh (h.unread trivial))

theorem binary {op : Expr → Expr → Expr}
    (hfresh : ∀ e b, (op e b).Fresh x = (e.Fresh x ∧ b.Fresh x))
    (hput : ∀ e b, (op e b).put x a = op (e.put x a) (b.put x a))
    (hreads : ∀ e b, (op e b).Reads x = (e.Reads x ∨ b.Reads x)) (h : Puts x a hidden e e')
    (h' : Puts x a hidden b b') : Puts x a hidden (op e b) (op e' b') where
  fresh := by
    rw [hfresh]
    exact ⟨h.fresh, h'.fresh⟩
  put_eq := by rw [hput, h.put_eq, h'.put_eq]
  unread hhidden := by
    rw [hreads, not_or]
    exact ⟨h.unread hhidden, h'.unread hhidden⟩

theorem eq (h : Puts x a hidden e e') (h' : Puts x a hidden b b') :
    Puts x a hidden (.eq e b) (.eq e' b') :=
  binary (fun _ _ => rfl) (fun _ _ => rfl) (fun _ _ => rfl) h h'

theorem ne (h : Puts x a hidden e e') (h' : Puts x a hidden b b') :
    Puts x a hidden (.ne e b) (.ne e' b') :=
  binary (fun _ _ => rfl) (fun _ _ => rfl) (fun _ _ => rfl) h h'

theorem elem (h : Puts x a hidden e e') (h' : Puts x a hidden b b') :
    Puts x a hidden (.elem e b) (.elem e' b') :=
  binary (fun _ _ => rfl) (fun _ _ => rfl) (fun _ _ => rfl) h h'

theorem typeOf (h : Puts x a hidden e e') : Puts x a hidden (.typeOf e) (.typeOf e') where
  fresh := h.fresh
  put_eq := by rw [put, h.put_eq]
  unread := h.unread

theorem recur (h : Puts x a hidden e e') (label : Ident) :
    Puts x a hidden (.recur label e) (.recur label e') where
  fresh := h.fresh
  put_eq := by rw [put, h.put_eq]
  unread := h.unread

theorem fix (h : Puts x a True b b) (h' : Puts x a hidden e e') (label : Ident) (hy : y ≠ x) :
    Puts x a hidden (.fix label y b e) (.fix label y b e') where
  fresh := ⟨hy, h.fresh, h'.fresh⟩
  put_eq := by rw [put, h.put_eq, h'.put_eq]
  unread hhidden := not_or.2 ⟨fun hread => h.unread trivial hread.2, h'.unread hhidden⟩

/-- An accessor takes the place of a slot in a condition that does not read the name. -/
theorem slot (h : Puts x a True b b) (h' : Puts x a hidden e e') (y : Ident) :
    Puts x a hidden (b.put y e) (b.put y e') where
  fresh := fresh_put h.fresh h'.fresh
  put_eq := by rw [put_put h.fresh (h.unread trivial), h'.put_eq]
  unread hhidden hread :=
    (reads_of_reads_put hread).elim (h.unread trivial) (h'.unread hhidden)

theorem hasTypeOf (h : Puts x a hidden e e') (name : String) :
    Puts x a hidden (.hasTypeOf e name) (.hasTypeOf e' name) :=
  .eq h.typeOf (.const _)

theorem equalTo (h : Puts x a hidden e e') (value : Scalar) :
    Puts x a hidden (.equalTo e value) (.equalTo e' value) :=
  .eq h (.const value)

theorem objectTests (h : Puts x a hidden e e') :
    List.Forall₂ (Puts x a hidden) (Expr.objectTests e) (Expr.objectTests e') :=
  .cons (h.hasTypeOf _) (.cons (.ne h (.const _)) .nil)

theorem of_forall₂ {es es' : List Expr} (h : List.Forall₂ (Puts x a hidden) es es') :
    (∀ e ∈ es, e.Fresh x) ∧ es.map (·.put x a) = es' ∧ (hidden → ¬∃ e ∈ es, e.Reads x) := by
  induction h with
  | nil => simp
  | cons h _ ih =>
      obtain ⟨hfresh, hput, hread⟩ := ih
      refine ⟨List.forall_mem_cons.2 ⟨h.fresh, hfresh⟩, ?_, fun hhidden => ?_⟩
      · rw [List.map_cons, h.put_eq, hput]
      · rw [List.exists_mem_cons_iff, not_or]
        exact ⟨h.unread hhidden, hread hhidden⟩

theorem allOf {es es' : List Expr} (h : List.Forall₂ (Puts x a hidden) es es') :
    Puts x a hidden (.allOf es) (.allOf es') := by
  obtain ⟨hfresh, hput, hread⟩ := of_forall₂ h
  exact ⟨fresh_allOf.2 hfresh, by rw [put_allOf, hput], fun hhidden => by
    rw [reads_allOf]
    exact hread hhidden⟩

theorem anyOf {es es' : List Expr} (h : List.Forall₂ (Puts x a hidden) es es') :
    Puts x a hidden (.anyOf es) (.anyOf es') := by
  obtain ⟨hfresh, hput, hread⟩ := of_forall₂ h
  exact ⟨fresh_anyOf.2 hfresh, by rw [put_anyOf, hput], fun hhidden => by
    rw [reads_anyOf]
    exact hread hhidden⟩

end Puts

end Expr

/-- The name does not occur in the index of a property. -/
def PropertyKey.Avoids (x : Ident) (key : PropertyKey) : Prop :=
  ∀ e, key.index = .ok e → e.Fresh x ∧ ¬e.Reads x

structure Declaration.Avoids (x : Ident) (d : Declaration) : Prop where
  members : ∀ p ∈ d.members, p.key.Avoids x
  property : ∀ p, d.body = .property p → p.key.Avoids x

def Catalog.Avoids (x : Ident) (cat : Catalog) : Prop :=
  ∀ i d, cat.declared? i = some d → d.Avoids x

def Subject.Avoids (x : Ident) : Subject → Prop
  | decl d => d.Avoids x
  | member p => p.key.Avoids x
  | type _ => True

namespace Guard

open TypeGuard.Expr (Puts)

section

variable {Rel : {α β : Type} → Walk α → Walk β → (α → β → Prop) → Prop} {cat : Catalog} {x : Ident}
  {a b b' : Expr} {hidden : Prop} {visit : Visit}

/-- A way to build checks does the same against an accessor and against what takes its place. -/
def Uniform (Rel : {α β : Type} → Walk α → Walk β → (α → β → Prop) → Prop) (x : Ident) (a : Expr)
    (build : Expr → Walk Expr) : Prop :=
  ∀ (hidden : Prop) b b', Puts x a hidden b b' → Rel (build b) (build b') (Puts x a hidden)

theorem uniform_ofPrimitive (s : String) (hb : Puts x a hidden b b') :
    TwinResults (Puts x a hidden) (ofPrimitive s b) (ofPrimitive s b') := by
  unfold ofPrimitive
  split
  case h_7 => exact .ok (.allOf hb.objectTests)
  case h_6 => exact .ok (hb.equalTo _)
  case h_8 | h_9 | h_10 => exact .ok (.const _)
  case h_11 => exact .error _
  all_goals exact .ok (hb.hasTypeOf _)

theorem uniform_ofLiteral (v : Value) (hb : Puts x a hidden b b') :
    TwinResults (Puts x a hidden) (ofLiteral v b) (ofLiteral v b') := by
  unfold ofLiteral
  split
  case h_4 => exact .error _
  all_goals exact .ok (hb.equalTo _)

variable (hRel : Walk.Lockstep Rel)

include hRel

/-- The check inside is built against a slot, so it does not read the name; the accessor is an
argument of it or takes the place of the slot. -/
theorem uniform_knot {build : Expr → Walk Expr} (hx : ∀ n, x ≠ .slot n) (t : Ty)
    (hbuild : Uniform Rel x a build) : Uniform Rel x a fun b => knot t b build := by
  intro hidden b b' hb
  apply hRel.bind_self (hRel.numberOf t)
  intro n
  apply hRel.bind_self (hRel.isActive t)
  intro active
  cases active with
  | true => exact hRel.bind_self (hRel.onContext _) fun _ => hRel.pure (hb.recur _)
  | false =>
      have hslot : Puts x a True (.ident (.slot n)) (.ident (.slot n)) :=
        .of_unread trivial fun heq => hx n heq.symm
      have hinside : Rel
          (Walk.entering t do
            let body ← build (.ident (.slot n))
            let recursive ← Walk.isMarked t
            pure (body, recursive))
          (Walk.entering t do
            let body ← build (.ident (.slot n))
            let recursive ← Walk.isMarked t
            pure (body, recursive))
          fun r r' => r' = r ∧ Puts x a True r.1 r.1 := by
        apply hRel.entering
        apply hRel.bind (hbuild True _ _ hslot)
        intro body body' hbody
        obtain rfl := hbody.eq_of_hidden
        exact hRel.bind_self (hRel.isMarked t) fun _ => hRel.pure ⟨rfl, hbody⟩
      apply hRel.bind hinside
      intro r r' hr
      obtain ⟨body, recursive⟩ := r
      obtain ⟨rfl, hbody⟩ := hr
      cases recursive with
      | true => exact hRel.pure (hbody.fix hb _ (hx n).symm)
      | false =>
          apply hRel.mono (hRel.results (body.replace_results (.slot n) b b'))
          intro e e' he
          rw [he.1, he.2]
          exact hbody.slot hb _

/-- Every type is checked uniformly. -/
def UniformVisit (Rel : {α β : Type} → Walk α → Walk β → (α → β → Prop) → Prop)
    (x : Ident) (a : Expr) (visit : Visit) : Prop :=
  ∀ t, Uniform Rel x a (visit t)

variable (hvisit : UniformVisit Rel x a visit)

include hvisit

theorem uniform_property {p : Property} (hp : p.key.Avoids x) :
    Uniform Rel x a (ofProperty cat visit p) := by
  intro hidden b b' hb
  unfold ofProperty
  cases p.type? with
  | none => exact hRel.throw _
  | some t =>
      have hrest : Rel (do let index ← Walk.ofExcept p.key.index; visit t (.elem b index))
          (do let index ← Walk.ofExcept p.key.index; visit t (.elem b' index))
          (Puts x a hidden) := by
        have hindex : TwinResults (Puts x a hidden) p.key.index p.key.index := by
          cases h : p.key.index with
          | error fault => exact .error fault
          | ok e => exact .ok (.of_unread (hp e h).1 (hp e h).2)
        apply hRel.bind (hRel.results hindex)
        intro e e' he
        exact hvisit t hidden _ _ (hb.elem he)
      cases p.optional with
      | true => exact hRel.bind_self (hRel.note _) fun _ => hrest
      | false => exact hrest

theorem uniform_properties {ps : List Property} (hps : ∀ p ∈ ps, p.key.Avoids x)
    (hb : Puts x a hidden b b') :
    Rel (ps.mapM fun p => ofProperty cat visit p b) (ps.mapM fun p => ofProperty cat visit p b')
      (List.Forall₂ (Puts x a hidden)) :=
  hRel.mapM ps fun p hp => uniform_property hRel hvisit (hps p hp) hidden b b' hb

theorem uniform_mapped (limit : Nat) (y : TypeParam) (c t : Ty) (ys : List TypeParam) :
    Uniform Rel x a (ofMapped cat limit visit y c t ys) := by
  intro hidden b b' hb
  apply hRel.bind_self ((Shape.combined hRel.combines limit).1 c)
  intro shape
  cases shape with
  | exact keys =>
      have hkeys : Rel
          (keys.toList.mapM fun key => Walk.withFrame [(y, .literal (.str key))]
            (visit t (.elem b (.const (.str key)))))
          (keys.toList.mapM fun key => Walk.withFrame [(y, .literal (.str key))]
            (visit t (.elem b' (.const (.str key)))))
          (List.Forall₂ (Puts x a hidden)) :=
        hRel.mapM keys.toList fun key _ =>
          hRel.withFrame _ (hvisit t hidden _ _ (hb.elem (.const _)))
      apply hRel.bind hkeys
      intro es es' hes
      exact hRel.pure (.allOf (List.rel_append hb.objectTests hes))
  | always | never => exact hRel.throw _

theorem uniform_parts (hcat : cat.Avoids x) (limit : Nat) (t : Ty) :
    Uniform Rel x a (ofParts cat limit visit t) := by
  intro hidden b b' hb
  apply hRel.bind_self (hRel.ofExcept _)
  intro bindings
  apply hRel.withFrame
  have hproperties : Rel
      (do
        let properties ← Walk.ofExcept (cat.properties t)
        let conditions ← properties.mapM fun p => ofProperty cat visit p b
        pure (Expr.allOf (Expr.objectTests b ++ conditions)))
      (do
        let properties ← Walk.ofExcept (cat.properties t)
        let conditions ← properties.mapM fun p => ofProperty cat visit p b'
        pure (Expr.allOf (Expr.objectTests b' ++ conditions)))
      (Puts x a hidden) := by
    have hfound : TwinResults (fun ps ps' => ps' = ps ∧ ∀ p ∈ ps, p.key.Avoids x)
        (cat.properties t) (cat.properties t) := by
      cases h : cat.properties t with
      | error fault => exact .error fault
      | ok ps =>
          refine .ok ⟨rfl, fun p hp => ?_⟩
          obtain ⟨_, _, _, _, _, _, hmem⟩ := Catalog.mem_properties h hp
          obtain ⟨d, hfind, hmember⟩ := Catalog.mem_membersOf hmem
          exact (hcat _ d hfind).members p hmember
    apply hRel.bind (hRel.results hfound)
    intro ps ps' hps
    obtain ⟨rfl, hps⟩ := hps
    apply hRel.bind (uniform_properties hRel hvisit hps hb)
    intro es es' hes
    exact hRel.pure (.allOf (List.rel_append hb.objectTests hes))
  cases t.head with
  | mapped y c u ys => exact uniform_mapped hRel hvisit limit y c u ys hidden b b' hb
  | _ => exact hproperties

end

variable {Rel : {α β : Type} → Walk α → Walk β → (α → β → Prop) → Prop} {cat : Catalog} {x : Ident}
  {a : Expr} (hRel : Walk.Lockstep Rel) (hx : ∀ n, x ≠ .slot n) (hcat : cat.Avoids x)

include hRel hx hcat

theorem uniform_ofType (limit : Nat) : UniformVisit Rel x a (ofType cat limit) := by
  induction limit with
  | zero =>
      intro t hidden b b' hb
      exact hRel.throw _
  | succ limit ih =>
      intro t hidden b b' hb
      have hmembers : ∀ ts : List Ty, Rel (ts.mapM fun t => ofType cat limit t b)
          (ts.mapM fun t => ofType cat limit t b') (List.Forall₂ (Puts x a hidden)) := fun ts =>
        hRel.mapM ts fun t _ => ih t hidden b b' hb
      have hobject : ∀ t, Rel (ofObject cat limit (ofType cat limit) t b)
          (ofObject cat limit (ofType cat limit) t b') (Puts x a hidden) := fun t =>
        uniform_knot hRel hx t (uniform_parts hRel ih hcat limit t) hidden b b' hb
      cases t with
      | primitive s => exact hRel.results (uniform_ofPrimitive s hb)
      | literal v => exact hRel.results (uniform_ofLiteral v hb)
      | boolean c => exact hRel.pure (hb.equalTo _)
      | union ts => exact hRel.bind (hmembers ts) fun es es' hes => hRel.pure (.anyOf hes)
      | inter ts => exact hRel.bind (hmembers ts) fun es es' hes => hRel.pure (.allOf hes)
      | name s args => exact hRel.bind_self (hRel.ofExcept _) fun u => ih u hidden b b' hb
      | param p => exact hRel.bind_self (hRel.bound p _) fun u => ih u hidden b b' hb
      | object kind decl elements =>
          cases kind with
          | interface => exact hobject _
          | nominal => exact hRel.throw _
      | sequence kind ts => exact hRel.throw _
      | ref target args =>
          apply hRel.bind_self (hRel.instantiate _)
          intro r
          cases r.head with
          | object kind decl elements =>
              cases kind with
              | interface => exact hobject r
              | nominal => exact ih _ hidden b b' hb
          | mapped y c u ys => exact hobject r
          | _ => exact ih _ hidden b b' hb
      | mapped y c u ys => exact uniform_mapped hRel ih limit y c u ys hidden b b' hb
      | index object key =>
          apply hRel.bind_self (hRel.combines.expose cat limit object)
          intro u
          apply hRel.bind_self ((Shape.combined hRel.combines limit).1 key)
          intro keys
          apply hRel.bind_self (hRel.ofExcept _)
          intro types
          apply hRel.bind_self (hRel.ofExcept _)
          intro bindings
          apply hRel.withFrame
          exact hRel.bind (hmembers types) fun es es' hes => hRel.pure (.anyOf hes)
      | keyOf t =>
          apply hRel.bind_self ((Shape.combined hRel.combines limit).1 (.keyOf t))
          intro shape
          cases shape with
          | exact keys =>
              apply hRel.pure
              apply Puts.anyOf
              rw [List.forall₂_map_left_iff, List.forall₂_map_right_iff]
              exact List.forall₂_same.2 fun key _ => hb.equalTo _
          | always | never => exact hRel.throw _

omit hcat in
theorem uniform_base {declared : Declaration → Expr → Walk Expr}
    (hdeclared : ∀ d decl, cat.declared? decl = some d → Uniform Rel x a (declared d))
    (heir : Declaration) (base : Ty) : Uniform Rel x a (ofBase cat declared heir base) := by
  intro hidden b b' hb
  unfold ofBase
  cases base.head with
  | object kind decl elements =>
      cases kind with
      | nominal => exact hRel.throw _
      | interface =>
          apply hRel.bind_self (hRel.isActive base)
          intro active
          cases active with
          | true => exact hRel.throw _
          | false =>
              simp only [Bool.false_eq_true, if_false]
              cases hfind : cat.declared? decl with
              | none => exact hRel.throw _
              | some d =>
                  apply hRel.withFrame
                  exact uniform_knot hRel hx base (hdeclared d decl hfind) hidden b b' hb
  | _ => exact hRel.throw _

theorem uniform_ofDeclaration (limit : Nat) {d : Declaration} (hd : d.Avoids x) :
    Uniform Rel x a (ofDeclaration cat limit d) := by
  induction limit generalizing d with
  | zero =>
      intro hidden b b' hb
      exact hRel.throw _
  | succ limit ih =>
      intro hidden b b' hb
      have htype := uniform_ofType (a := a) hRel hx hcat limit
      unfold ofDeclaration
      cases hbody : d.body with
      | interface heritage members =>
          have hmembers : d.members = members := by rw [Declaration.members, hbody]
          apply hRel.bind_self (hRel.note _)
          intro _
          apply hRel.bind_self (hRel.ofExcept _)
          intro bases
          have hinherited : Rel
              (bases.mapM fun base => do
                let base ← Walk.instantiate base
                ofBase cat (ofDeclaration cat limit) d base b)
              (bases.mapM fun base => do
                let base ← Walk.instantiate base
                ofBase cat (ofDeclaration cat limit) d base b')
              (List.Forall₂ (Puts x a hidden)) := by
            apply hRel.mapM
            intro base _
            apply hRel.bind_self (hRel.instantiate base)
            intro u
            exact uniform_base hRel hx (fun d' decl hfind => ih (hcat decl d' hfind)) d u
              hidden b b' hb
          apply hRel.bind hinherited
          intro es es' hes
          apply hRel.bind (uniform_properties hRel htype (hmembers ▸ hd.members) hb)
          intro own own' hown
          exact hRel.pure (.allOf (List.rel_append (List.rel_append hb.objectTests hes) hown))
      | nominal heritage members => exact hRel.throw _
      | bare => exact hRel.throw _
      | property p => exact uniform_property hRel htype (hd.property p hbody) hidden b b' hb
      | «alias» type? =>
          cases type? with
          | none => exact hRel.throw _
          | some t => exact htype t hidden b b' hb

theorem uniform_ofInstance (limit : Nat) {d : Declaration} (hd : d.Avoids x) (args : List Ty) :
    Uniform Rel x a (ofInstance cat limit d args) := by
  intro hidden b b' hb
  have hframe : ∀ t, Rel
      (Walk.withFrame (.ofPairs (d.params.zip args)) (knot t b (ofDeclaration cat limit d)))
      (Walk.withFrame (.ofPairs (d.params.zip args)) (knot t b' (ofDeclaration cat limit d)))
      (Puts x a hidden) := fun t =>
    hRel.withFrame _
      (uniform_knot hRel hx t (uniform_ofDeclaration hRel hx hcat limit hd) hidden b b' hb)
  unfold ofInstance
  by_cases harity : (args.isEmpty || decide (args.length = d.arity)) = true
  · simp only [harity, if_true, pure_bind]
    cases d.body with
    | nominal heritage members => exact hRel.throw _
    | _ =>
        simp only
        split
        · exact hframe _
        · exact hRel.bind_self (hRel.instantiate _) hframe
  · simp only [harity, Bool.false_eq_true, if_false]
    apply hRel.bind (P := fun _ _ => False) (hRel.throw _)
    intro _ _ h
    exact h.elim

end Guard

namespace Subject

open TypeGuard.Expr (Puts)

variable {cat : Catalog} {x : Ident} {a : Expr} {subject : Subject}

theorem uniform_walkWith {Rel : {α β : Type} → Walk α → Walk β → (α → β → Prop) → Prop}
    (hRel : Walk.Lockstep Rel) (hx : ∀ n, x ≠ .slot n) (hcat : cat.Avoids x)
    (hsubject : subject.Avoids x) (limit : Nat) (args : List Ty) :
    Guard.Uniform Rel x a fun b => subject.walkWith cat limit b args := by
  intro hidden b b' hb
  have htype := Guard.uniform_ofType (a := a) hRel hx hcat limit
  simp only [walkWith]
  split
  · cases subject with
    | decl d =>
        have hinstance := Guard.uniform_ofInstance hRel hx hcat limit hsubject [] hidden b b' hb
        simp only [walk]
        cases d.body with
        | interface heritage members => exact hinstance
        | nominal heritage members => exact hinstance
        | _ => exact Guard.uniform_ofDeclaration hRel hx hcat limit hsubject hidden b b' hb
    | member p => exact Guard.uniform_property hRel htype hsubject hidden b b' hb
    | type t => exact htype t hidden b b' hb
  · cases subject with
    | decl d => exact Guard.uniform_ofInstance hRel hx hcat limit hsubject args hidden b b' hb
    | member p => exact hRel.throw _
    | type t => exact hRel.throw _

end Subject

/-- The guards are the same up to the accessor in the place of the name; rejections and faults are
the same. -/
inductive Verdict.Replaced (x : Ident) (a : Expr) :
    Except Fault Verdict → Except Fault Verdict → Prop
  | compiled {e e' : Expr} (h : e.replace x a = .ok e') :
      Replaced x a (.ok (.compiled e)) (.ok (.compiled e'))
  | rejected (r : Rejection) : Replaced x a (.ok (.rejected r)) (.ok (.rejected r))
  | fault (f : Fault) : Replaced x a (.error f) (.error f)

namespace Subject

open TypeGuard.Expr (Puts)

variable {cat : Catalog} {x : Ident} {a : Expr} {subject : Subject}

theorem judge_replaced {s s' : Session} {v v' : Verdict} (hctx : s'.ctx = s.ctx)
    (h : Verdict.Replaced x a (.ok v) (.ok v')) :
    Verdict.Replaced x a (judge s (pure v)).verdict (judge s' (pure v')).verdict := by
  simp only [judge, hctx]
  split
  · exact h
  · exact .fault _

theorem state_compile (limit : Nat) (b : Expr) (args : List Ty) (table : Numbering) :
    (subject.compile cat limit b args table).state =
      (Walk.last (subject.walkWith cat limit b args { numbering := table })).numbering := by
  simp only [compile, Walk.raising]
  cases subject.walkWith cat limit b args { numbering := table } with
  | ok e s => rfl
  | error fault s =>
      simp only
      cases fault.raised cat.files <;> rfl

theorem compile_replaced {limit : Nat} {b b' : Expr} {args : List Ty} {table table' : Numbering}
    (h : Walk.EndsAlike (Puts x a False) (subject.walkWith cat limit b args { numbering := table })
      (subject.walkWith cat limit b' args { numbering := table' })) :
    Verdict.Replaced x a (subject.compile cat limit b args table).verdict
      (subject.compile cat limit b' args table').verdict := by
  have hraising := h.raising cat.files
  unfold compile
  revert hraising
  generalize (subject.walkWith cat limit b args).raising _ _ = r
  generalize (subject.walkWith cat limit b' args).raising _ _ = r'
  intro hraising
  cases hraising with
  | ok hputs hctx =>
      exact judge_replaced hctx (.compiled (Expr.replace_eq_ok.2 ⟨hputs.fresh, hputs.put_eq⟩))
  | error fault hctx =>
      cases fault with
      | rejected r => exact judge_replaced hctx (.rejected r)
      | _ => exact .fault _

/-- Compilation is uniform in the accessor: what is compiled against an accessor is what is
compiled against a name, with the accessor in the place of the name, whether both start from the
same numbers or one follows the other. -/
theorem compile_uniform (hx : ∀ n, x ≠ .slot n) (hcat : cat.Avoids x) (hsubject : subject.Avoids x)
    {limit : Nat} {args : List Ty} {table table' : Numbering}
    (hruns : table' = table ∨
      (subject.compile cat limit (.ident x) args table).state.Extends table' ∨
      (subject.compile cat limit a args table').state.Extends table) :
    Verdict.Replaced x a (subject.compile cat limit (.ident x) args table).verdict
      (subject.compile cat limit a args table').verdict := by
  have hname : Puts x a False (.ident x) a := ⟨trivial, if_pos rfl, False.elim⟩
  apply compile_replaced
  simp only [state_compile] at hruns
  rcases hruns with rfl | hlater | hearlier
  · have hsame := uniform_walkWith Walk.lockstep_same hx hcat hsubject limit args False _ _ hname
    exact (hsame _).ends
  · have hrepeats :=
      uniform_walkWith Walk.lockstep_repeats hx hcat hsubject limit args False _ _ hname
    exact (hrepeats.ends _ table' hlater).ends
  · have hrepeats :=
      uniform_walkWith Walk.lockstep_repeats.flip hx hcat hsubject limit args False _ _ hname
    exact (hrepeats.ends _ table hearlier).ends.flip

end Subject

/-- Links with a tag under a name that is itself read from somewhere. -/
def Catalog.tags : Catalog :=
  { entries := [(.listed "Tag", {
    name := "Tag"
    body := .interface [] [
      ⟨.computed (.expr (.prop (.named "Symbol") "tag")), some (.primitive "string"), false, none,
        .listed "Tag"⟩,
      ⟨.str "next", some (.union [.primitive "null", .name "Tag" []]), false, none,
        .listed "Tag"⟩] })] }

theorem Catalog.avoids_tags : tags.Avoids (.named "value") := by
  refine forall_of_entries fun entry hentry => ?_
  rw [List.mem_singleton.1 hentry]
  refine ⟨fun p hp e he => ?_, fun p hbody => by cases hbody⟩
  simp only [Declaration.members, List.mem_cons, List.not_mem_nil, or_false] at hp
  rcases hp with rfl | rfl
  · cases he
    simp [Expr.Fresh, Expr.Reads, Expr.named]
  · cases he
    exact ⟨trivial, id⟩

theorem Subject.compile_uniform_tags :
    let subject := Subject.type (.name "Tag" [])
    let accessor := Expr.elem (.named "items") (.const (.int 0))
    let outcome := subject.compile .tags 8 (.named "value") [] {}
    ∃ e e', outcome.verdict = .ok (.compiled e) ∧
      (subject.compile .tags 8 accessor [] outcome.state).verdict = .ok (.compiled e') ∧
      e.replace (.named "value") accessor = .ok e' := by
  intro subject accessor outcome
  have hsome : outcome.guard?.isSome = true := by decide +kernel
  obtain ⟨e, he⟩ := Option.isSome_iff_exists.1 hsome
  have hcompiled := Outcome.verdict_of_guard? he
  have hsubject : subject.Avoids (.named "value") := trivial
  have hreplaced : Verdict.Replaced (.named "value") accessor outcome.verdict
      (subject.compile .tags 8 accessor [] outcome.state).verdict :=
    Subject.compile_uniform (fun _ => Ident.noConfusion) Catalog.avoids_tags hsubject
      (.inr (.inl (.refl _)))
  rw [hcompiled] at hreplaced
  generalize (subject.compile .tags 8 accessor [] outcome.state).verdict = verdict at hreplaced
  cases hreplaced with
  | @compiled _ e' h => exact ⟨e, e', hcompiled, rfl, h⟩

end TypeGuard
