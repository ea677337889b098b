import TypeGuard.Proofs.Inheritance

/-! Which of several members of one name is the property of an object. Objects are put in an order
in which bases come before their heirs, so the last member of a name belongs to an object that
nothing below it overrides. -/

namespace TypeGuard

open Relation (ReflTransGen TransGen)

/-- The property stands in a list of members, and no later one has its name. -/
def Property.IsLast (p : Property) (members : List Property) : Prop :=
  ∃ before after, members = before ++ p :: after ∧ ∀ q ∈ after, q.name ≠ p.name

namespace Property.IsLast

variable {p q : Property} {members rest : List Property}

theorem of_cons (h : p.IsLast (q :: rest)) :
    (p = q ∧ ∀ q ∈ rest, q.name ≠ p.name) ∨ p.IsLast rest := by
  obtain ⟨before, after, heq, hafter⟩ := h
  cases before with
  | nil =>
      cases heq
      exact .inl ⟨rfl, hafter⟩
  | cons _ before =>
      cases heq
      exact .inr ⟨before, after, rfl, hafter⟩

theorem mem (h : p.IsLast members) : p ∈ members := by
  obtain ⟨before, after, rfl, _⟩ := h
  exact List.mem_append_right _ List.mem_cons_self

theorem cons (h : p.IsLast rest) (q : Property) : p.IsLast (q :: rest) := by
  obtain ⟨before, after, rfl, hafter⟩ := h
  exact ⟨q :: before, after, rfl, hafter⟩

theorem of_append (h : p.IsLast (members ++ rest)) :
    (p.IsLast members ∧ ∀ q ∈ rest, q.name ≠ p.name) ∨ p.IsLast rest := by
  induction members with
  | nil => exact .inr h
  | cons q members ih =>
      rcases of_cons h with ⟨rfl, hafter⟩ | hlater
      · have hboth := List.forall_mem_append.1 hafter
        exact .inl ⟨⟨[], members, rfl, hboth.1⟩, hboth.2⟩
      · exact (ih hlater).imp_left fun hleft => ⟨hleft.1.cons q, hleft.2⟩

/-- The last of all is the last of its group, and no later group has its name. -/
theorem of_flatMap {α : Type} {groups : List α} {f : α → List Property}
    (h : p.IsLast (groups.flatMap f)) : ∃ before group after, groups = before ++ group :: after ∧
      p.IsLast (f group) ∧ ∀ later ∈ after, ∀ q ∈ f later, q.name ≠ p.name := by
  induction groups with
  | nil =>
      obtain ⟨before, after, heq, _⟩ := h
      cases before <;> cases heq
  | cons first groups ih =>
      rw [List.flatMap_cons] at h
      rcases of_append h with ⟨hfirst, hafter⟩ | hlater
      · refine ⟨[], first, groups, rfl, hfirst, fun later hlater q hq => ?_⟩
        exact hafter q (List.mem_flatMap.2 ⟨later, hlater, hq⟩)
      · obtain ⟨before, group, after, rfl, hgroup, hafter⟩ := ih hlater
        exact ⟨first :: before, group, after, rfl, hgroup, hafter⟩

end Property.IsLast

namespace Catalog

variable {cat : Catalog} {head heir found : ObjectHead} {order : List ObjectHead}
  {line line' : Lineage}

theorem isLast_of_mem_foldl_overlay {p : Property} {found members : List Property}
    (h : p ∈ members.foldl overlay found) :
    p.IsLast members ∨ (p ∈ found ∧ ∀ q ∈ members, q.name ≠ p.name) := by
  induction members generalizing found with
  | nil => exact .inr ⟨h, by simp⟩
  | cons member rest ih =>
      rcases ih h with hlater | ⟨hmem, hrest⟩
      · exact .inl (hlater.cons member)
      · rcases List.mem_append.1 hmem with hold | hnew
        · obtain ⟨hold, hname⟩ := List.mem_filter.1 hold
          have hne : p.name ≠ member.name := of_decide_eq_true hname
          exact .inr ⟨hold, List.forall_mem_cons.2 ⟨hne.symm, hrest⟩⟩
        · rw [List.mem_singleton.1 hnew] at hrest ⊢
          exact .inl ⟨[], rest, rfl, hrest⟩

/-! Clauses before their heirs. -/

/-- Each object is listed once, after all that it extends. -/
inductive Ordered (cat : Catalog) : List ObjectHead → Prop
  | nil : Ordered cat []
  | snoc {order : List ObjectHead} {head : ObjectHead} (horder : Ordered cat order)
      (hnew : head ∉ order) (hbases : ∀ found, cat.Extends head found → found ∈ order) :
      Ordered cat (order ++ [head])

namespace Ordered

theorem nodup (h : cat.Ordered order) : order.Nodup := by
  induction h with
  | nil => exact List.nodup_nil
  | snoc _ hnew _ ih => exact List.nodup_append.2 ⟨ih, List.nodup_singleton _, by grind⟩

theorem extends_before {before after : List ObjectHead} (h : cat.Ordered (before ++ heir :: after))
    (hextends : cat.Extends heir found) : found ∈ before := by
  generalize heq : before ++ heir :: after = order at h
  induction h generalizing after with
  | nil => simp at heq
  | @snoc order last _ _ hbases ih =>
      rcases List.eq_nil_or_concat after with rfl | ⟨after', z, rfl⟩
      · obtain ⟨rfl, hlast⟩ := List.append_inj' heq rfl
        cases hlast
        exact hbases found hextends
      · rw [List.concat_eq_append, ← List.cons_append, ← List.append_assoc] at heq
        obtain ⟨horder, _⟩ := List.append_inj' heq rfl
        exact ih horder

theorem above_before {before after : List ObjectHead} (h : cat.Ordered (before ++ heir :: after))
    (habove : TransGen cat.Extends heir found) : found ∈ before := by
  induction habove with
  | single hextends => exact h.extends_before hextends
  | tail _ hlast ih =>
      obtain ⟨first, rest, rfl⟩ := List.append_of_mem ih
      rw [List.append_assoc, List.cons_append] at h
      exact List.mem_append_left _ (h.extends_before hlast)

theorem below_after {before after : List ObjectHead} (h : cat.Ordered (before ++ found :: after))
    (hheir : heir ∈ before ++ found :: after) (habove : TransGen cat.Extends heir found) :
    heir ∈ after := by
  have hnodup := h.nodup
  rcases List.mem_append.1 hheir with hbefore | hrest
  · obtain ⟨first, rest, rfl⟩ := List.append_of_mem hbefore
    rw [List.append_assoc, List.cons_append] at h
    have hfirst := h.above_before habove
    grind
  · rcases List.mem_cons.1 hrest with rfl | hafter
    · have hself := h.above_before habove
      grind
    · exact hafter

end Ordered

/-- What is met and not in order yet is still being expanded. -/
structure Lineage.Sorted (cat : Catalog) (Pending : ObjectHead → Prop) (line : Lineage) : Prop where
  order : cat.Ordered line.order
  seen : ∀ h ∈ line.order, h ∈ line.seen
  pending : ∀ h ∈ line.seen, h ∈ line.order ∨ Pending h

/-- No object inherits from itself. -/
def Acyclic (cat : Catalog) (head : ObjectHead) : Prop :=
  ∀ heir, ReflTransGen cat.Extends head heir → ¬TransGen cat.Extends heir heir

theorem Acyclic.extends (h : cat.Acyclic head) (hextends : cat.Extends head found) :
    cat.Acyclic found :=
  fun heir hheir => h heir (hheir.head hextends)

theorem foldlM_invariant {f : Lineage → ObjectHead → Except Fault Lineage} {P : Lineage → Prop}
    {heads : List ObjectHead}
    (hf : ∀ head ∈ heads, ∀ line line', P line → f line head = .ok line' → P line')
    (hP : P line) (h : heads.foldlM f line = .ok line') : P line' := by
  induction heads generalizing line with
  | nil =>
      cases h
      exact hP
  | cons head rest ih =>
      rw [List.forall_mem_cons] at hf
      rw [List.foldlM_cons] at h
      cases hfirst : f line head with
      | error fault =>
          rw [hfirst] at h
          cases h
      | ok line₁ =>
          rw [hfirst] at h
          exact ih hf.2 (hf.1 line line₁ hP hfirst) h

theorem lineage_sorted {limit : Nat} {Pending : ObjectHead → Prop} (hacyclic : cat.Acyclic head)
    (hpending : ∀ h, Pending h → TransGen cat.Extends h head)
    (hline : line.Sorted cat Pending) (h : cat.lineage limit head line = .ok line') :
    line'.Sorted cat Pending := by
  induction limit generalizing head line line' Pending with
  | zero => cases h
  | succ limit ih =>
      rcases lineage_succ_eq_ok h with ⟨_, rfl⟩ | ⟨hnew, bases, line₁, hbases, hline₁, _, rfl⟩
      · exact hline
      have hextends : ∀ first ∈ bases.filterMap objectHead?, cat.Extends head first := by
        intro first hfirst
        obtain ⟨base, hbase, hhead⟩ := List.mem_filterMap.1 hfirst
        exact ⟨bases, hbases, base, hbase, hhead⟩
      obtain ⟨hgrows, hmet⟩ := foldlM_grows (fun _ _ _ _ hstep => lineage_grows hstep) hline₁
      -- While the bases are expanded, the object itself is pending too.
      have hstart : (Lineage.mk line.order (head :: line.seen)).Sorted cat
          fun h => ReflTransGen cat.Extends h head := by
        refine ⟨hline.order, fun h hh => List.mem_cons_of_mem _ (hline.seen h hh), fun h hh => ?_⟩
        rcases List.mem_cons.1 hh with rfl | hold
        · exact .inr .refl
        · exact (hline.pending h hold).imp_right fun hh => (hpending h hh).to_reflTransGen
      have hsorted : line₁.Sorted cat fun h => ReflTransGen cat.Extends h head := by
        refine foldlM_invariant (fun first hfirst line line' hline hstep => ?_) hstart hline₁
        have hbelow := hextends first hfirst
        exact ih (hacyclic.extends hbelow) (fun h hh => .tail' hh hbelow) hline hstep
      have hfresh : head ∉ line₁.order := by
        intro hmem
        have hback := mem_order_foldlM (P := TransGen cat.Extends head head)
          (fun first hfirst line line' hstep hmem => (extends_of_mem_lineage hstep hmem).imp_right
            (.head' (hextends first hfirst))) hline₁ hmem
        rcases hback with hold | hcycle
        · exact hnew (hline.seen head hold)
        · exact hacyclic head .refl hcycle
      have hbefore : ∀ found, cat.Extends head found → found ∈ line₁.order := by
        rintro found ⟨bases', hbases', base, hbase, hfound⟩
        rw [hbases] at hbases'
        cases hbases'
        have hfirst := List.mem_filterMap.2 ⟨base, hbase, hfound⟩
        refine (hsorted.pending found (hmet found hfirst)).resolve_right fun hback => ?_
        exact hacyclic head .refl (.head' (hextends found hfirst) hback)
      refine ⟨hsorted.order.snoc hfresh hbefore, fun h hh => ?_, fun h hh => ?_⟩
      · rcases List.mem_append.1 hh with hold | hlast
        · exact hsorted.seen h hold
        · rw [List.mem_singleton.1 hlast]
          exact hgrows.seen head List.mem_cons_self
      · rcases hgrows.met h hh with hold | hmem
        · rcases List.mem_cons.1 hold with rfl | hold
          · exact .inl (List.mem_append_right _ List.mem_cons_self)
          · refine (hline.pending h hold).imp_left fun horder => ?_
            exact List.mem_append_left _ (hgrows.order h horder)
        · exact .inl (List.mem_append_left _ hmem)

/-- Where nothing inherits from itself, the lineage of an object lists bases before their heirs. -/
theorem ordered_lineage {limit : Nat} (hacyclic : cat.Acyclic head)
    (h : cat.lineage limit head {} = .ok line) : cat.Ordered line.order := by
  have hempty : (Lineage.mk [] []).Sorted cat fun _ => False :=
    ⟨.nil, fun _ hh => absurd hh List.not_mem_nil, fun _ hh => absurd hh List.not_mem_nil⟩
  exact (lineage_sorted hacyclic (fun _ hh => hh.elim) hempty h).order

/-- A property is the last member of its name of an object, and nothing below this object has a
member of that name. -/
theorem overrides_of_mem_properties {t : Ty} {properties : List Property} {p : Property}
    (hhead : objectHead? t = some head) (h : cat.properties t = .ok properties)
    (hacyclic : cat.Acyclic head) (hp : p ∈ properties) :
    ∃ owner, ReflTransGen cat.Extends head owner ∧ p.IsLast (cat.membersOf owner) ∧
      ∀ heir, ReflTransGen cat.Extends head heir → TransGen cat.Extends heir owner →
        ∀ q ∈ cat.membersOf heir, q.name ≠ p.name := by
  obtain ⟨line, hline, rfl⟩ := lineage_of_properties hhead h
  have hlast := (isLast_of_mem_foldl_overlay hp).resolve_right fun hnil =>
    List.not_mem_nil hnil.1
  obtain ⟨before, owner, after, hsplit, howner, hafter⟩ := hlast.of_flatMap
  have horder := ordered_lineage hacyclic hline
  have hmem : ∀ found, found ∈ before ++ owner :: after ↔ ReflTransGen cat.Extends head found := by
    intro found
    rw [← hsplit]
    exact mem_lineage_iff hline
  rw [hsplit] at horder
  refine ⟨owner, (hmem owner).1 (by simp), howner, fun heir hheir habove => ?_⟩
  exact hafter heir (horder.below_after ((hmem heir).2 hheir) habove)

/-- An interface type or a class type, or a reference to one. -/
def IsObject (cat : Catalog) (t : Ty) : Prop :=
  ∃ decl d kind, t.head = .object kind decl [] ∧ cat.declared? decl = some d ∧ d.kind? = some kind

/-- Every heritage clause stands for an interface type or a class type, or for a reference to
one. -/
def Lineal (cat : Catalog) : Prop :=
  ∀ i d, cat.declared? i = some d → ∀ clause ∈ d.heritage,
    ∃ base, cat.resolve clause.annotation = .ok base ∧ cat.IsObject base

/-- Members know the declaration they belong to. -/
def Owned (cat : Catalog) : Prop :=
  ∀ i d, cat.declared? i = some d → ∀ p ∈ d.members, p.owner = i

/-- The object is of the kind of its declaration, and has no element types. -/
def IsPlain (cat : Catalog) (head : ObjectHead) : Prop :=
  ∃ d, cat.declared? head.decl = some d ∧ d.kind? = some head.kind ∧ head.elements = []

theorem IsObject.isPlain {t : Ty} (h : cat.IsObject t) (hhead : objectHead? t = some head) :
    cat.IsPlain head := by
  obtain ⟨decl, d, kind, hobject, hfind, hkind⟩ := h
  rw [objectHead?_of_head hobject] at hhead
  cases hhead
  exact ⟨d, hfind, hkind, rfl⟩

/-- No declaration is met as two objects. -/
theorem IsPlain.unique (h : cat.IsPlain head) (h' : cat.IsPlain found)
    (hdecl : head.decl = found.decl) : head = found := by
  obtain ⟨d, hfind, hkind, helements⟩ := h
  obtain ⟨d', hfind', hkind', helements'⟩ := h'
  rw [hdecl, hfind'] at hfind
  cases hfind
  have hsame := Option.some.inj (hkind.symm.trans hkind')
  cases head
  cases found
  simp_all

theorem IsPlain.hasMembers (h : cat.IsPlain head) : cat.hasMembers head = true := by
  obtain ⟨d, hfind, hkind, _⟩ := h
  simp only [Catalog.hasMembers, hfind, hkind, Option.isSome_some]

namespace Lineal

theorem founded (h : cat.Lineal) : cat.Founded := by
  intro i d hfind clause hclause
  obtain ⟨base, hresolve, _⟩ := h i d hfind clause hclause
  exact ⟨base, hresolve⟩

theorem isPlain_of_extends (h : cat.Lineal) (hextends : cat.Extends heir found) :
    cat.IsPlain found := by
  obtain ⟨bases, hbases, base, hbase, hfound⟩ := hextends
  obtain ⟨_, _, _, d, clause, _, hfind, hclause, hresolve⟩ := mem_bases hbases hbase
  obtain ⟨base', hresolve', hobject⟩ := h _ d hfind clause hclause
  rw [hresolve'] at hresolve
  cases hresolve
  exact hobject.isPlain hfound

theorem isPlain (h : cat.Lineal) (hhead : cat.IsPlain head)
    (hfound : ReflTransGen cat.Extends head found) : cat.IsPlain found := by
  rcases hfound.cases_tail with rfl | ⟨heir, _, hlast⟩
  · exact hhead
  · exact h.isPlain_of_extends hlast

end Lineal

/-- The properties of an object have the names of all members above it, each name once. Each
property is the last one of its name where it was declared, and nothing below that declaration
overrides it. -/
theorem properties_flatten {t : Ty} (hlineal : cat.Lineal) (ht : cat.IsObject t) :
    ∃ head properties, objectHead? t = some head ∧ cat.properties t = .ok properties ∧
      (properties.map Property.name).Nodup ∧
      (∀ name, name ∈ properties.map Property.name ↔ ∃ found, ReflTransGen cat.Extends head found ∧
        name ∈ (cat.membersOf found).map Property.name) ∧
      (cat.Acyclic head → ∀ p ∈ properties, ∃ owner, ReflTransGen cat.Extends head owner ∧
        (cat.Owned → p.owner = owner.decl) ∧ p.IsLast (cat.membersOf owner) ∧
        ∀ heir found, ReflTransGen cat.Extends head heir → TransGen cat.Extends heir found →
          found.decl = owner.decl → p.name ∉ (cat.membersOf heir).map Property.name) := by
  obtain ⟨head, hhead⟩ : ∃ head, objectHead? t = some head := by
    obtain ⟨_, _, _, hobject, _⟩ := ht
    exact ⟨_, objectHead?_of_head hobject⟩
  have hplain : ∀ found, ReflTransGen cat.Extends head found → cat.IsPlain found :=
    fun found => hlineal.isPlain (ht.isPlain hhead)
  obtain ⟨properties, h⟩ := properties_ok_of_extends hhead fun heir hheir =>
    ⟨hlineal.founded.bases heir.type, (hplain heir hheir).hasMembers⟩
  refine ⟨head, properties, hhead, h, nodup_names_properties h,
    fun _ => mem_names_properties hhead h, fun hacyclic p hp => ?_⟩
  obtain ⟨owner, hreach, hlast, hbelow⟩ := overrides_of_mem_properties hhead h hacyclic hp
  refine ⟨owner, hreach, fun howned => ?_, hlast, fun heir found hheir habove hfound hname => ?_⟩
  · obtain ⟨d, hfind, hmember⟩ := mem_membersOf hlast.mem
    exact howned owner.decl d hfind p hmember
  · have hsame : found = owner :=
      (hplain found (hheir.trans habove.to_reflTransGen)).unique (hplain owner hreach) hfound
    obtain ⟨q, hq, hname⟩ := List.mem_map.1 hname
    rw [hsame] at habove
    exact hbelow heir hheir habove q hq hname

theorem Acyclic.of_rank (rank : DeclId → Nat)
    (h : ∀ heir found, cat.Extends heir found → rank found.decl < rank heir.decl)
    (head : ObjectHead) : cat.Acyclic head := by
  intro heir _ hcycle
  have hlt : ∀ found, TransGen cat.Extends heir found → rank found.decl < rank heir.decl := by
    intro found hfound
    induction hfound with
    | single hfirst => exact h _ _ hfirst
    | tail _ hlast ih => exact (h _ _ hlast).trans ih
  exact Nat.lt_irrefl _ (hlt heir hcycle)

/-! An heir of a class that is met twice. -/

/-- An interface extends the class, and what extends the interface extends the class as well. -/
def diamond : Catalog where
  entries := [
    (.listed "Base", { name := "Base", body := .nominal [] [text "x" "Base"] }),
    (.listed "Left", { name := "Left", body := .interface [⟨"Base", []⟩] [text "x" "Left"] }),
    (.listed "Last", { name := "Last", body := .interface [⟨"Left", []⟩, ⟨"Base", []⟩] [] })]

theorem lineal_diamond : diamond.Lineal := by
  refine forall_of_entries ?_
  simp only [diamond, List.forall_mem_cons, Declaration.heritage]
  exact ⟨by simp, ⟨⟨_, rfl, _, _, _, rfl, rfl, rfl⟩, by simp⟩,
    ⟨⟨_, rfl, _, _, _, rfl, rfl, rfl⟩, ⟨_, rfl, _, _, _, rfl, rfl, rfl⟩, by simp⟩, by simp⟩

theorem owned_diamond : diamond.Owned := by
  refine forall_of_entries ?_
  simp [diamond, Declaration.members, text]

theorem acyclic_diamond (head : ObjectHead) : diamond.Acyclic head := by
  refine .of_rank (fun i => if i = .listed "Last" then 2 else if i = .listed "Left" then 1 else 0)
    ?_ head
  rintro heir found ⟨bases, hbases, base, hbase, hfound⟩
  obtain ⟨_, decl, _, d, clause, hhead, hfind, hclause, hresolve⟩ := mem_bases hbases hbase
  cases hhead
  have hentry := mem_entries_of_declared? hfind
  simp only [diamond, List.mem_cons, Prod.mk.injEq, List.not_mem_nil, or_false] at hentry
  rcases hentry with ⟨_, rfl⟩ | ⟨hheir, rfl⟩ | ⟨hheir, rfl⟩
  · cases hclause
  · cases List.mem_singleton.1 hclause
    obtain rfl : Ty.object .nominal (.listed "Base") [] = base := Except.ok.inj hresolve
    cases hfound
    rw [hheir]
    decide
  · rcases List.mem_cons.1 hclause with rfl | hlast
    · obtain rfl : Ty.object .interface (.listed "Left") [] = base := Except.ok.inj hresolve
      cases hfound
      rw [hheir]
      decide
    · cases List.mem_singleton.1 hlast
      obtain rfl : Ty.object .nominal (.listed "Base") [] = base := Except.ok.inj hresolve
      cases hfound
      rw [hheir]
      decide

theorem properties_flatten_diamond :
    diamond.Lineal ∧ diamond.Owned ∧ (∀ head, diamond.Acyclic head) ∧
    diamond.properties (.object .interface (.listed "Last") []) = .ok [text "x" "Left"] ∧
    ∃ owner, (text "x" "Left").owner = owner.decl ∧
      (text "x" "Left").IsLast (diamond.membersOf owner) := by
  have hproperties : diamond.properties (.object .interface (.listed "Last") []) =
    .ok [text "x" "Left"] := rfl
  refine ⟨lineal_diamond, owned_diamond, acyclic_diamond, hproperties, ?_⟩
  obtain ⟨head, properties, _, h, _, _, hlast⟩ := properties_flatten lineal_diamond
    (show diamond.IsObject (.object .interface (.listed "Last") []) from ⟨_, _, _, rfl, rfl, rfl⟩)
  rw [hproperties] at h
  cases h
  obtain ⟨owner, _, howner, hlast, _⟩ := hlast (acyclic_diamond head) _ List.mem_cons_self
  exact ⟨owner, howner owned_diamond, hlast⟩

end Catalog

end TypeGuard
