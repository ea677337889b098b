import TypeGuard.Numbering
import TypeGuard.Proofs.Substitution

/-! What the numbers of a table say: a table only grows, a number once given stays, and two types
have the same number exactly when they have the same key. -/

namespace TypeGuard

namespace Ty

@[simp] theorem keys_eq (ts : List Ty) : keys ts = ts.map key := by
  induction ts with
  | nil => rfl
  | cons t rest ih => simp only [keys, List.map_cons, ih]

end Ty

namespace Numbering

/-- The later table has everything where the earlier one has it. -/
def Extends (earlier later : Numbering) : Prop :=
  earlier.entries <+: later.entries

theorem Extends.refl (table : Numbering) : table.Extends table :=
  List.prefix_refl _

theorem Extends.trans {a b c : Numbering} (hab : a.Extends b) (hbc : b.Extends c) : a.Extends c :=
  List.IsPrefix.trans hab hbc

theorem find?_get {table : Numbering} {node : Node} {n : Nat} (h : table.find? node = some n) :
    table.entries[n]?.map (·.1) = some node := by
  obtain ⟨hlt, hnode, _⟩ := List.findIdx?_eq_some_iff_getElem.1 h
  rw [List.getElem?_eq_getElem hlt]
  simpa using hnode

theorem find?_unique {table : Numbering} {a b : Node} {n : Nat} (ha : table.find? a = some n)
    (hb : table.find? b = some n) : a = b :=
  Option.some.inj ((find?_get ha).symm.trans (find?_get hb))

theorem find?_extends {earlier later : Numbering} {node : Node} {n : Nat}
    (hext : earlier.Extends later) (h : earlier.find? node = some n) :
      later.find? node = some n := by
  obtain ⟨rest, hrest⟩ := hext
  have hfind : earlier.entries.findIdx? (fun entry => entry.1 = node) = some n := h
  simp only [find?, ← hrest, List.findIdx?_append, hfind, Option.some_or]

theorem numberNode_spec (node : Node) (t : Ty) (table : Numbering) :
    table.Extends (table.numberNode node t).2 ∧
      (table.numberNode node t).2.find? node = some (table.numberNode node t).1 := by
  unfold numberNode
  cases h : table.find? node with
  | some n => exact ⟨.refl table, h⟩
  | none =>
      refine ⟨List.prefix_append _ _, ?_⟩
      have hnone : table.entries.findIdx? (fun entry => entry.1 = node) = none := h
      simp [find?, size, List.findIdx?_append, hnone]

mutual
/-- The layer of a type all of whose parts the table has numbers for. -/
def node? (table : Numbering) : Ty → Option Node
  | .primitive s => some (.primitive s)
  | .literal v => some (.literal v.literalKey)
  | .boolean b => some (.boolean b)
  | .union members => (table.numbers? members).map .union
  | .inter members => (table.numbers? members).map .inter
  | .object kind decl elements => (table.numbers? elements).map (.object kind decl)
  | .sequence kind elements => (table.numbers? elements).map (.sequence kind)
  | .ref target args =>
      ((table.node? target).bind table.find?).bind fun n =>
        (table.numbers? args).map (.ref n)
  | .param p => some (.param p)
  | .keyOf t => ((table.node? t).bind table.find?).map .keyOf
  | .index t k =>
      ((table.node? t).bind table.find?).bind fun n =>
        ((table.node? k).bind table.find?).map (.index n)
  | .mapped p constraint template params =>
      ((table.node? constraint).bind table.find?).bind fun n =>
        ((table.node? template).bind table.find?).map (.mapped p n · params)
  | .name s args => (table.numbers? args).map (.name s)

def numbers? (table : Numbering) : List Ty → Option (List Nat)
  | [] => some []
  | t :: rest =>
      ((table.node? t).bind table.find?).bind fun n => (table.numbers? rest).map (n :: ·)
end

/-- The number that the table has for a type, if it has one. -/
def number? (table : Numbering) (t : Ty) : Option Nat :=
  (table.node? t).bind table.find?

theorem numbers?_cons (table : Numbering) (t : Ty) (rest : List Ty) :
    table.numbers? (t :: rest) =
      (table.number? t).bind fun n => (table.numbers? rest).map (n :: ·) := rfl

/-! A type with a number keeps it. -/

section Growth

variable {earlier later : Numbering}

theorem number?_of_node? {t : Ty} {n : Nat} (hext : earlier.Extends later)
    (hnode : ∀ node, earlier.node? t = some node → later.node? t = some node)
    (h : earlier.number? t = some n) : later.number? t = some n := by
  obtain ⟨node, ht, hfind⟩ := Option.bind_eq_some_iff.1 h
  exact Option.bind_eq_some_iff.2 ⟨node, hnode node ht, find?_extends hext hfind⟩

theorem numbers?_of_node? {ts : List Ty} {ns : List Nat} (hext : earlier.Extends later)
    (hnode : ∀ t ∈ ts, ∀ node, earlier.node? t = some node → later.node? t = some node)
    (h : earlier.numbers? ts = some ns) : later.numbers? ts = some ns := by
  induction ts generalizing ns with
  | nil => exact h
  | cons t rest ih =>
      rw [numbers?_cons] at h ⊢
      obtain ⟨n, hn, hrest⟩ := Option.bind_eq_some_iff.1 h
      obtain ⟨ms, hms, rfl⟩ := Option.map_eq_some_iff.1 hrest
      rw [number?_of_node? hext (hnode t List.mem_cons_self) hn,
        ih (fun u hu => hnode u (List.mem_cons_of_mem _ hu)) hms]
      rfl

theorem node?_extends (hext : earlier.Extends later) {t : Ty} {node : Node}
    (h : earlier.node? t = some node) : later.node? t = some node := by
  induction t generalizing node with
  | primitive _ | literal _ | boolean _ | param _ => exact h
  | union members ih | inter members ih | object _ _ members ih | sequence _ members ih
  | name _ members ih =>
      simp only [node?] at h ⊢
      obtain ⟨ns, hns, rfl⟩ := Option.map_eq_some_iff.1 h
      rw [numbers?_of_node? hext (fun t ht _ => ih t ht) hns]
      rfl
  | keyOf t ih =>
      simp only [node?] at h ⊢
      obtain ⟨n, hn, rfl⟩ := Option.map_eq_some_iff.1 h
      exact Option.map_eq_some_iff.2 ⟨n, number?_of_node? hext (fun _ => ih) hn, rfl⟩
  | ref target args ihtarget ihargs =>
      simp only [node?] at h ⊢
      obtain ⟨n, hn, hrest⟩ := Option.bind_eq_some_iff.1 h
      obtain ⟨ns, hns, rfl⟩ := Option.map_eq_some_iff.1 hrest
      refine Option.bind_eq_some_iff.2 ⟨n, number?_of_node? hext (fun _ => ihtarget) hn, ?_⟩
      rw [numbers?_of_node? hext (fun t ht _ => ihargs t ht) hns]
      rfl
  | index t k iht ihk =>
      simp only [node?] at h ⊢
      obtain ⟨n, hn, hrest⟩ := Option.bind_eq_some_iff.1 h
      obtain ⟨m, hm, rfl⟩ := Option.map_eq_some_iff.1 hrest
      refine Option.bind_eq_some_iff.2 ⟨n, number?_of_node? hext (fun _ => iht) hn, ?_⟩
      exact Option.map_eq_some_iff.2 ⟨m, number?_of_node? hext (fun _ => ihk) hm, rfl⟩
  | mapped p c t ps ihc iht =>
      simp only [node?] at h ⊢
      obtain ⟨n, hn, hrest⟩ := Option.bind_eq_some_iff.1 h
      obtain ⟨m, hm, rfl⟩ := Option.map_eq_some_iff.1 hrest
      refine Option.bind_eq_some_iff.2 ⟨n, number?_of_node? hext (fun _ => ihc) hn, ?_⟩
      exact Option.map_eq_some_iff.2 ⟨m, number?_of_node? hext (fun _ => iht) hm, rfl⟩

theorem number?_extends (hext : earlier.Extends later) {t : Ty} {n : Nat}
    (h : earlier.number? t = some n) : later.number? t = some n :=
  number?_of_node? hext (fun _ => node?_extends hext) h

theorem numbers?_extends (hext : earlier.Extends later) {ts : List Ty} {ns : List Nat}
    (h : earlier.numbers? ts = some ns) : later.numbers? ts = some ns :=
  numbers?_of_node? hext (fun _ _ _ => node?_extends hext) h

end Growth

/-! Numbering a type puts it into the table. -/

/-- The table after numbering keeps what it had, and has the type under the number given. -/
def Numbers (table : Numbering) (t : Ty) : Prop :=
  table.Extends (table.number t).2 ∧ (table.number t).2.number? t = some (table.number t).1

theorem numbers_spec {ts : List Ty} (ih : ∀ t ∈ ts, ∀ table : Numbering, table.Numbers t)
    (table : Numbering) :
    table.Extends (table.numbers ts).2 ∧
      (table.numbers ts).2.numbers? ts = some (table.numbers ts).1 := by
  induction ts generalizing table with
  | nil => exact ⟨.refl table, rfl⟩
  | cons t rest ihrest =>
      obtain ⟨hext, ht⟩ := ih t List.mem_cons_self table
      obtain ⟨hextRest, hrest⟩ :=
        ihrest (fun u hu => ih u (List.mem_cons_of_mem _ hu)) (table.number t).2
      refine ⟨hext.trans hextRest, ?_⟩
      simp only [numbers]
      rw [numbers?_cons, number?_extends hextRest ht, hrest]
      rfl

theorem number_spec (t : Ty) (table : Numbering) : table.Numbers t := by
  unfold Numbers
  induction t generalizing table with
  | primitive _ | literal _ | boolean _ | param _ => exact numberNode_spec _ _ table
  | union members ih | inter members ih | object _ _ members ih | sequence _ members ih
  | name _ members ih =>
      obtain ⟨hext, hns⟩ := numbers_spec ih table
      obtain ⟨hextNode, hnode⟩ := numberNode_spec _ _ (table.numbers members).2
      refine ⟨hext.trans hextNode, ?_⟩
      simp only [number?, node?, number]
      rw [numbers?_extends hextNode hns]
      exact hnode
  | keyOf t ih =>
      obtain ⟨hext, hn⟩ := ih table
      obtain ⟨hextNode, hnode⟩ := numberNode_spec _ _ (table.number t).2
      refine ⟨hext.trans hextNode, ?_⟩
      have hpart := number?_extends hextNode hn
      simp only [number?, node?, number] at hpart ⊢
      rw [hpart]
      exact hnode
  | ref target args ihtarget ihargs =>
      obtain ⟨hext, hn⟩ := ihtarget table
      obtain ⟨hextArgs, hns⟩ := numbers_spec ihargs (table.number target).2
      obtain ⟨hextNode, hnode⟩ := numberNode_spec _ _ ((table.number target).2.numbers args).2
      refine ⟨hext.trans (hextArgs.trans hextNode), ?_⟩
      have hpart := number?_extends (hextArgs.trans hextNode) hn
      simp only [number?, node?, number] at hpart ⊢
      rw [hpart, numbers?_extends hextNode hns]
      exact hnode
  | index t k iht ihk =>
      obtain ⟨hext, hn⟩ := iht table
      obtain ⟨hextKey, hm⟩ := ihk (table.number t).2
      obtain ⟨hextNode, hnode⟩ := numberNode_spec _ _ ((table.number t).2.number k).2
      refine ⟨hext.trans (hextKey.trans hextNode), ?_⟩
      have hpart := number?_extends (hextKey.trans hextNode) hn
      have hkey := number?_extends hextNode hm
      simp only [number?, node?, number] at hpart hkey ⊢
      rw [hpart, hkey]
      exact hnode
  | mapped p c t ps ihc iht =>
      obtain ⟨hext, hn⟩ := ihc table
      obtain ⟨hextTemplate, hm⟩ := iht (table.number c).2
      obtain ⟨hextNode, hnode⟩ := numberNode_spec _ _ ((table.number c).2.number t).2
      refine ⟨hext.trans (hextTemplate.trans hextNode), ?_⟩
      have hpart := number?_extends (hextTemplate.trans hextNode) hn
      have htemplate := number?_extends hextNode hm
      simp only [number?, node?, number] at hpart htemplate ⊢
      rw [hpart, htemplate]
      exact hnode

/-! Numbering a type that has a number changes nothing. -/

theorem numberNode_of_find? {table : Numbering} {node : Node} {n : Nat}
    (h : table.find? node = some n) (t : Ty) : table.numberNode node t = (n, table) := by
  rw [numberNode, h]

theorem numbers_of_numbers? {table : Numbering} {ts : List Ty} {ns : List Nat}
    (ih : ∀ t ∈ ts, ∀ {n}, table.number? t = some n → table.number t = (n, table))
    (h : table.numbers? ts = some ns) : table.numbers ts = (ns, table) := by
  induction ts generalizing ns with
  | nil =>
      cases h
      rfl
  | cons t rest ihrest =>
      rw [List.forall_mem_cons] at ih
      rw [numbers?_cons] at h
      obtain ⟨n, hn, hrest⟩ := Option.bind_eq_some_iff.1 h
      obtain ⟨ms, hms, rfl⟩ := Option.map_eq_some_iff.1 hrest
      simp only [numbers, ih.1 hn, ihrest ih.2 hms]

theorem number_of_number? {table : Numbering} {t : Ty} {n : Nat} (h : table.number? t = some n) :
    table.number t = (n, table) := by
  induction t generalizing n with
  | primitive _ | literal _ | boolean _ | param _ => exact numberNode_of_find? h _
  | union members ih | inter members ih | object _ _ members ih | sequence _ members ih
  | name _ members ih =>
      obtain ⟨node, hnode, hfind⟩ := Option.bind_eq_some_iff.1 h
      obtain ⟨ns, hns, rfl⟩ := Option.map_eq_some_iff.1 hnode
      simp only [number, numbers_of_numbers? ih hns]
      exact numberNode_of_find? hfind _
  | keyOf t ih =>
      obtain ⟨node, hnode, hfind⟩ := Option.bind_eq_some_iff.1 h
      obtain ⟨m, hm, rfl⟩ := Option.map_eq_some_iff.1 hnode
      simp only [number, ih hm]
      exact numberNode_of_find? hfind _
  | ref target args ihtarget ihargs =>
      obtain ⟨node, hnode, hfind⟩ := Option.bind_eq_some_iff.1 h
      obtain ⟨m, hm, hrest⟩ := Option.bind_eq_some_iff.1 hnode
      obtain ⟨ns, hns, rfl⟩ := Option.map_eq_some_iff.1 hrest
      simp only [number, ihtarget hm, numbers_of_numbers? ihargs hns]
      exact numberNode_of_find? hfind _
  | index t k iht ihk | mapped _ t k _ iht ihk =>
      obtain ⟨node, hnode, hfind⟩ := Option.bind_eq_some_iff.1 h
      obtain ⟨m, hm, hrest⟩ := Option.bind_eq_some_iff.1 hnode
      obtain ⟨l, hl, rfl⟩ := Option.map_eq_some_iff.1 hrest
      simp only [number, iht hm, ihk hl]
      exact numberNode_of_find? hfind _

/-! The number of a type stands for its key. -/

section Key

variable {table : Numbering}

/-- What a type is like whose layer is given. -/
def Layer (table : Numbering) (u : Ty) : Node → Prop
  | .primitive s => u = .primitive s
  | .literal w => ∃ v, u = .literal v ∧ v.literalKey = w
  | .boolean b => u = .boolean b
  | .union ns => ∃ us, u = .union us ∧ table.numbers? us = some ns
  | .inter ns => ∃ us, u = .inter us ∧ table.numbers? us = some ns
  | .object kind decl ns => ∃ us, u = .object kind decl us ∧ table.numbers? us = some ns
  | .sequence kind ns => ∃ us, u = .sequence kind us ∧ table.numbers? us = some ns
  | .ref n ns => ∃ t us, u = .ref t us ∧ table.number? t = some n ∧ table.numbers? us = some ns
  | .param p => u = .param p
  | .keyOf n => ∃ t, u = .keyOf t ∧ table.number? t = some n
  | .index n m => ∃ t k, u = .index t k ∧ table.number? t = some n ∧ table.number? k = some m
  | .mapped p n m ps =>
      ∃ c t, u = .mapped p c t ps ∧ table.number? c = some n ∧ table.number? t = some m
  | .name s ns => ∃ us, u = .name s us ∧ table.numbers? us = some ns

theorem layer_of_node? {u : Ty} {node : Node} (h : table.node? u = some node) :
    table.Layer u node := by
  cases u with
  | primitive _ | boolean _ | param _ =>
      cases h
      rfl
  | literal v =>
      cases h
      exact ⟨v, rfl, rfl⟩
  | union us | inter us | object _ _ us | sequence _ us | name _ us =>
      obtain ⟨ns, hns, rfl⟩ := Option.map_eq_some_iff.1 h
      exact ⟨us, rfl, hns⟩
  | keyOf t =>
      obtain ⟨n, hn, rfl⟩ := Option.map_eq_some_iff.1 h
      exact ⟨t, rfl, hn⟩
  | ref t us =>
      obtain ⟨n, hn, hrest⟩ := Option.bind_eq_some_iff.1 h
      obtain ⟨ns, hns, rfl⟩ := Option.map_eq_some_iff.1 hrest
      exact ⟨t, us, rfl, hn, hns⟩
  | index t k =>
      obtain ⟨n, hn, hrest⟩ := Option.bind_eq_some_iff.1 h
      obtain ⟨m, hm, rfl⟩ := Option.map_eq_some_iff.1 hrest
      exact ⟨t, k, rfl, hn, hm⟩
  | mapped p c t ps =>
      obtain ⟨n, hn, hrest⟩ := Option.bind_eq_some_iff.1 h
      obtain ⟨m, hm, rfl⟩ := Option.map_eq_some_iff.1 hrest
      exact ⟨c, t, rfl, hn, hm⟩

theorem node?_of_number? {t u : Ty} {n : Nat} (ht : table.number? t = some n)
    (hu : table.number? u = some n) :
    ∃ node, table.node? t = some node ∧ table.node? u = some node := by
  obtain ⟨node, htnode, htfind⟩ := Option.bind_eq_some_iff.1 ht
  obtain ⟨other, hunode, hufind⟩ := Option.bind_eq_some_iff.1 hu
  cases find?_unique htfind hufind
  exact ⟨node, htnode, hunode⟩

theorem map_key_eq_of_numbers? {ts us : List Ty} {ns : List Nat}
    (ih : ∀ t ∈ ts, ∀ u node, table.node? t = some node → table.node? u = some node →
      t.key = u.key)
    (hts : table.numbers? ts = some ns) (hus : table.numbers? us = some ns) :
    ts.map Ty.key = us.map Ty.key := by
  induction ts generalizing us ns with
  | nil =>
      cases hts
      cases us with
      | nil => rfl
      | cons u rest =>
          rw [numbers?_cons] at hus
          obtain ⟨n, _, hrest⟩ := Option.bind_eq_some_iff.1 hus
          obtain ⟨ms, _, hms⟩ := Option.map_eq_some_iff.1 hrest
          cases hms
  | cons t rest ihrest =>
      rw [numbers?_cons] at hts
      obtain ⟨n, hn, hrest⟩ := Option.bind_eq_some_iff.1 hts
      obtain ⟨ms, hms, rfl⟩ := Option.map_eq_some_iff.1 hrest
      cases us with
      | nil => cases hus
      | cons u others =>
          rw [numbers?_cons] at hus
          obtain ⟨m, hm, hothers⟩ := Option.bind_eq_some_iff.1 hus
          obtain ⟨ks, hks, heq⟩ := Option.map_eq_some_iff.1 hothers
          cases heq
          obtain ⟨node, htnode, hunode⟩ := node?_of_number? hn hm
          rw [List.map_cons, List.map_cons, ih t List.mem_cons_self u node htnode hunode,
            ihrest (fun v hv => ih v (List.mem_cons_of_mem _ hv)) hms hks]

theorem key_eq_of_number? {t u : Ty} {n : Nat}
    (ih : ∀ u node, table.node? t = some node → table.node? u = some node → t.key = u.key)
    (ht : table.number? t = some n) (hu : table.number? u = some n) : t.key = u.key := by
  obtain ⟨node, htnode, hunode⟩ := node?_of_number? ht hu
  exact ih u node htnode hunode

theorem key_eq_of_node? {t u : Ty} {node : Node} (ht : table.node? t = some node)
    (hu : table.node? u = some node) : t.key = u.key := by
  induction t generalizing u node with
  | primitive _ | boolean _ | param _ =>
      cases ht
      cases layer_of_node? hu
      rfl
  | literal v =>
      cases ht
      obtain ⟨w, rfl, hkey⟩ := layer_of_node? hu
      simp only [Ty.key, hkey]
  | union members ih | inter members ih | object _ _ members ih | sequence _ members ih
  | name _ members ih =>
      obtain ⟨ns, hns, rfl⟩ := Option.map_eq_some_iff.1 ht
      obtain ⟨us, rfl, hus⟩ := layer_of_node? hu
      simp only [Ty.key, Ty.keys_eq]
      rw [map_key_eq_of_numbers? (fun t ht _ _ => ih t ht) hns hus]
  | keyOf t ih =>
      obtain ⟨n, hn, rfl⟩ := Option.map_eq_some_iff.1 ht
      obtain ⟨u, rfl, hpart⟩ := layer_of_node? hu
      simp only [Ty.key]
      rw [key_eq_of_number? (fun _ _ => ih) hn hpart]
  | ref target args ihtarget ihargs =>
      obtain ⟨n, hn, hrest⟩ := Option.bind_eq_some_iff.1 ht
      obtain ⟨ns, hns, rfl⟩ := Option.map_eq_some_iff.1 hrest
      obtain ⟨u, us, rfl, hpart, hus⟩ := layer_of_node? hu
      simp only [Ty.key, Ty.keys_eq]
      rw [key_eq_of_number? (fun _ _ => ihtarget) hn hpart,
        map_key_eq_of_numbers? (fun t ht _ _ => ihargs t ht) hns hus]
  | index t k iht ihk =>
      obtain ⟨n, hn, hrest⟩ := Option.bind_eq_some_iff.1 ht
      obtain ⟨m, hm, rfl⟩ := Option.map_eq_some_iff.1 hrest
      obtain ⟨u, l, rfl, hpart, hl⟩ := layer_of_node? hu
      simp only [Ty.key]
      rw [key_eq_of_number? (fun _ _ => iht) hn hpart,
        key_eq_of_number? (fun _ _ => ihk) hm hl]
  | mapped p c t ps ihc iht =>
      obtain ⟨n, hn, hrest⟩ := Option.bind_eq_some_iff.1 ht
      obtain ⟨m, hm, rfl⟩ := Option.map_eq_some_iff.1 hrest
      obtain ⟨d, u, rfl, hd, hpart⟩ := layer_of_node? hu
      simp only [Ty.key]
      rw [key_eq_of_number? (fun _ _ => ihc) hn hd,
        key_eq_of_number? (fun _ _ => iht) hm hpart]

theorem number?_faithful {t u : Ty} {n : Nat} (ht : table.number? t = some n)
    (hu : table.number? u = some n) : t.key = u.key :=
  key_eq_of_number? (fun _ _ => key_eq_of_node?) ht hu

theorem numbers?_congr {ts us : List Ty}
    (ih : ∀ t ∈ ts, ∀ u, t.key = u.key → table.node? t = table.node? u)
    (h : ts.map Ty.key = us.map Ty.key) : table.numbers? ts = table.numbers? us := by
  induction ts generalizing us with
  | nil =>
      cases us with
      | nil => rfl
      | cons _ _ => cases h
  | cons t rest ihrest =>
      cases us with
      | nil => cases h
      | cons u others =>
          simp only [List.map_cons, List.cons.injEq] at h
          simp only [numbers?, ih t List.mem_cons_self u h.1,
            ihrest (fun v hv => ih v (List.mem_cons_of_mem _ hv)) h.2]

theorem node?_congr {t u : Ty} (h : t.key = u.key) : table.node? t = table.node? u := by
  induction t generalizing u with
  | primitive _ | boolean _ | param _ =>
      cases u <;> simp_all [Ty.key]
  | literal v =>
      cases u <;> simp_all [Ty.key, node?]
  | union members ih | inter members ih =>
      cases u <;> simp only [Ty.key, Ty.keys_eq, reduceCtorEq, Ty.union.injEq, Ty.inter.injEq] at h
      simp only [node?, numbers?_congr (fun t ht _ => ih t ht) h]
  | object kind decl members ih =>
      cases u <;> simp only [Ty.key, Ty.keys_eq, reduceCtorEq, Ty.object.injEq] at h
      simp only [node?, h.1, h.2.1, numbers?_congr (fun t ht _ => ih t ht) h.2.2]
  | sequence kind members ih =>
      cases u <;> simp only [Ty.key, Ty.keys_eq, reduceCtorEq, Ty.sequence.injEq] at h
      simp only [node?, h.1, numbers?_congr (fun t ht _ => ih t ht) h.2]
  | name s members ih =>
      cases u <;> simp only [Ty.key, Ty.keys_eq, reduceCtorEq, Ty.name.injEq] at h
      simp only [node?, h.1, numbers?_congr (fun t ht _ => ih t ht) h.2]
  | keyOf t ih =>
      cases u <;> simp only [Ty.key, reduceCtorEq, Ty.keyOf.injEq] at h
      simp only [node?, ih h]
  | ref target args ihtarget ihargs =>
      cases u <;> simp only [Ty.key, Ty.keys_eq, reduceCtorEq, Ty.ref.injEq] at h
      simp only [node?, ihtarget h.1, numbers?_congr (fun t ht _ => ihargs t ht) h.2]
  | index t k iht ihk =>
      cases u <;> simp only [Ty.key, reduceCtorEq, Ty.index.injEq] at h
      simp only [node?, iht h.1, ihk h.2]
  | mapped p c t ps ihc iht =>
      cases u <;> simp only [Ty.key, reduceCtorEq, Ty.mapped.injEq] at h
      simp only [node?, h.1, ihc h.2.1, iht h.2.2.1, h.2.2.2]

theorem number?_congr {t u : Ty} (h : t.key = u.key) : table.number? t = table.number? u := by
  simp only [number?, node?_congr h]

end Key

end Numbering

end TypeGuard
