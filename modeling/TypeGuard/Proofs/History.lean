import Mathlib.Data.List.TFAE
import Mathlib.Logic.Relation
import Mathlib.Tactic.TFAE
import TypeGuard.Proofs.Identity

/-! Types that are made one after the other, each of parts that were made before. A type is
numbered when it is made, by the numbers that its parts were given then. -/

namespace TypeGuard

open Relation (ReflTransGen)

/-- A type that was made, with the layer it had and the number it was given. -/
structure Made where
  type : Ty
  layer : Node
  number : Nat

/-- The layer of a type that is put together from what was made before. Parameters are not put
together: each is made on its own. -/
inductive Made.Layers (made : List Made) : Ty → Node → Prop
  | primitive (s : String) : Layers made (.primitive s) (.primitive s)
  | literal {v : Value} (hkey : v.isKey = true) : Layers made (.literal v) (.literal v.literalKey)
  | boolean (b : Bool) : Layers made (.boolean b) (.boolean b)
  | union {parts : List Made} (hparts : ∀ m ∈ parts, m ∈ made) :
      Layers made (.union (parts.map type)) (.union (parts.map number))
  | inter {parts : List Made} (hparts : ∀ m ∈ parts, m ∈ made) :
      Layers made (.inter (parts.map type)) (.inter (parts.map number))
  | object (kind : ObjectKind) (decl : DeclId) {parts : List Made}
      (hparts : ∀ m ∈ parts, m ∈ made) :
      Layers made (.object kind decl (parts.map type)) (.object kind decl (parts.map number))
  | sequence (kind : SequenceKind) {parts : List Made} (hparts : ∀ m ∈ parts, m ∈ made) :
      Layers made (.sequence kind (parts.map type)) (.sequence kind (parts.map number))
  | ref {target : Made} {args : List Made} (htarget : target ∈ made)
      (hargs : ∀ m ∈ args, m ∈ made) :
      Layers made (.ref target.type (args.map type)) (.ref target.number (args.map number))
  | keyOf {part : Made} (hpart : part ∈ made) : Layers made (.keyOf part.type) (.keyOf part.number)
  | index {object key : Made} (hobject : object ∈ made) (hkey : key ∈ made) :
      Layers made (.index object.type key.type) (.index object.number key.number)
  | mapped {x : TypeParam} {constraint template : Made} {params : List TypeParam}
      (hx : ∀ y ∈ x :: params, ∃ m ∈ made, m.type = .param y) (hconstraint : constraint ∈ made)
      (htemplate : template ∈ made) : Layers made (.mapped x constraint.type template.type params)
        (.mapped x constraint.number template.number params)
  | name (s : String) {args : List Made} (hargs : ∀ m ∈ args, m ∈ made) :
      Layers made (.name s (args.map type)) (.name s (args.map number))

/-- What was made so far, and the table of numbers by then. -/
structure History where
  table : Numbering := {}
  made : List Made := []

namespace History

def add (t : Ty) (layer : Node) (h : History) : History where
  table := (h.table.numberNode layer t).2
  made := h.made ++ [⟨t, layer, (h.table.numberNode layer t).1⟩]

/-- Makes a parameter of the given name. -/
def fresh (name : String) (h : History) : History :=
  let p := (h.table.freshParam name).1
  h.add (.param p) (.param p)

inductive Step (h : History) : History → Prop
  | make {t : Ty} {layer : Node} (hlayer : Made.Layers h.made t layer) : Step h (h.add t layer)
  | param (name : String) : Step h (h.fresh name)

/-- The histories there are. -/
def Reached (h : History) : Prop :=
  ReflTransGen Step {} h

/-- What holds of every history: all that was made is on record, parameters are told apart by when
they were made, and an entry of the table shows the first type that got its number. -/
structure Sound (h : History) : Prop where
  layer : ∀ m ∈ h.made, h.table.node? m.type = some m.layer
  number : ∀ m ∈ h.made, h.table.find? m.layer = some m.number
  keyed : ∀ m ∈ h.made, m.type.isKeyed = true
  param : ∀ x n, h.table.find? (.param x) = some n → x.id < h.table.size
  first : ∀ n node t, h.table.entries[n]? = some (node, t) →
    h.made.find? (fun m => m.number = n) = some ⟨t, node, n⟩

theorem sound_empty : Sound {} where
  layer m hm := by cases hm
  number m hm := by cases hm
  keyed m hm := by cases hm
  param x n hfind := by cases hfind
  first n node t hget := by cases hget

theorem lt_size_of_find? {table : Numbering} {node : Node} {n : Nat}
    (h : table.find? node = some n) : n < table.size := by
  obtain ⟨hlt, _⟩ := List.findIdx?_eq_some_iff_getElem.1 h
  exact hlt

theorem find?_append {table : Numbering} {node node' : Node} {t : Ty} :
    Numbering.find? ⟨table.entries ++ [(node, t)]⟩ node' =
      (table.find? node').or (if node = node' then some table.size else none) := by
  simp [Numbering.find?, Numbering.size, List.findIdx?_append, List.findIdx?_cons]

namespace Sound

variable {h : History}

theorem number? (hs : h.Sound) {m : Made} (hm : m ∈ h.made) :
    h.table.number? m.type = some m.number :=
  Option.bind_eq_some_iff.2 ⟨m.layer, hs.layer m hm, hs.number m hm⟩

theorem numbers? (hs : h.Sound) {parts : List Made} (hparts : ∀ m ∈ parts, m ∈ h.made) :
    h.table.numbers? (parts.map Made.type) = some (parts.map Made.number) := by
  induction parts with
  | nil => rfl
  | cons m rest ih =>
      rw [List.forall_mem_cons] at hparts
      rw [List.map_cons, Numbering.numbers?_cons, hs.number? hparts.1, ih hparts.2]
      rfl

theorem areKeyed (hs : h.Sound) {parts : List Made} (hparts : ∀ m ∈ parts, m ∈ h.made) :
    Ty.areKeyed (parts.map Made.type) = true := by
  rw [Ty.areKeyed_iff]
  intro t ht
  obtain ⟨m, hm, rfl⟩ := List.mem_map.1 ht
  exact hs.keyed m (hparts m hm)

theorem node?_of_layers (hs : h.Sound) {t : Ty} {node : Node} (hlayer : Made.Layers h.made t node) :
    h.table.node? t = some node ∧ t.isKeyed = true := by
  cases hlayer with
  | primitive s | boolean b => exact ⟨rfl, rfl⟩
  | literal hkey => exact ⟨rfl, hkey⟩
  | union hparts | inter hparts | object kind decl hparts | sequence kind hparts | name s hparts =>
      simp only [Numbering.node?, hs.numbers? hparts]
      exact ⟨rfl, hs.areKeyed hparts⟩
  | keyOf hpart =>
      have hn := hs.number? hpart
      simp only [Numbering.number?] at hn
      simp only [Numbering.node?, hn]
      exact ⟨rfl, hs.keyed _ hpart⟩
  | ref htarget hargs =>
      have hn := hs.number? htarget
      simp only [Numbering.number?] at hn
      simp only [Numbering.node?, hn, hs.numbers? hargs]
      exact ⟨rfl, by simp [Ty.isKeyed, hs.keyed _ htarget, hs.areKeyed hargs]⟩
  | index hobject hkey | mapped _ hobject hkey =>
      have hn := hs.number? hobject
      have hm := hs.number? hkey
      simp only [Numbering.number?] at hn hm
      simp only [Numbering.node?, hn, hm]
      exact ⟨rfl, by simp [Ty.isKeyed, hs.keyed _ hobject, hs.keyed _ hkey]⟩

theorem param_add (hs : h.Sound) {t : Ty} {node : Node}
    (hparam : ∀ x, node = .param x → x.id ≤ h.table.size) {x : TypeParam} {n : Nat}
    (hx : (h.add t node).table.find? (.param x) = some n) : x.id < (h.add t node).table.size := by
  cases hold : h.table.find? node with
  | some k =>
      simp only [History.add, Numbering.numberNode_of_find? hold] at hx ⊢
      exact hs.param x n hx
  | none =>
      simp only [History.add, Numbering.numberNode, hold, find?_append] at hx
      simp only [History.add, Numbering.numberNode, hold, Numbering.size, List.length_append,
        List.length_singleton]
      rw [Option.or_eq_some_iff] at hx
      rcases hx with hx | ⟨_, hx⟩
      · exact Nat.lt_succ_of_lt (hs.param x n hx)
      · split at hx
        · next heq => exact Nat.lt_succ_of_le (hparam x heq)
        · cases hx

theorem find?_size (hs : h.Sound) : h.made.find? (fun m => m.number = h.table.size) = none := by
  rw [List.find?_eq_none]
  intro m hm heq
  have hlt := lt_size_of_find? (hs.number m hm)
  simp only [decide_eq_true_eq] at heq
  omega

theorem first_add (hs : h.Sound) {t t' : Ty} {node node' : Node} {n : Nat}
    (hget : (h.add t node).table.entries[n]? = some (node', t')) :
    (h.add t node).made.find? (fun m => m.number = n) = some ⟨t', node', n⟩ := by
  cases hold : h.table.find? node with
  | some k =>
      simp only [History.add, Numbering.numberNode_of_find? hold] at hget ⊢
      rw [List.find?_append, hs.first n node' t' hget]
      rfl
  | none =>
      simp only [History.add, Numbering.numberNode, hold] at hget ⊢
      rw [List.find?_append]
      by_cases hlt : n < h.table.entries.length
      · rw [List.getElem?_append_left hlt] at hget
        rw [hs.first n node' t' hget]
        rfl
      · have hn : n = h.table.size := by
          have hbound := (List.getElem?_eq_some_iff.1 hget).1
          simp only [List.length_append, List.length_singleton] at hbound
          simp only [Numbering.size]
          omega
        subst hn
        rw [hs.find?_size]
        simp [Numbering.size] at hget ⊢
        exact ⟨hget.2, hget.1⟩

theorem add (hs : h.Sound) {t : Ty} {node : Node} (hnode : h.table.node? t = some node)
    (hkeyed : t.isKeyed = true) (hparam : ∀ x, node = .param x → x.id ≤ h.table.size) :
    (h.add t node).Sound := by
  obtain ⟨hext, hfind⟩ := Numbering.numberNode_spec node t h.table
  refine ⟨?_, ?_, ?_, fun x n hx => hs.param_add hparam hx, fun n node' t' hget =>
    hs.first_add hget⟩
  all_goals refine List.forall_mem_append.2 ⟨fun m hm => ?_, List.forall_mem_singleton.2 ?_⟩
  · exact Numbering.node?_extends hext (hs.layer m hm)
  · exact Numbering.node?_extends hext hnode
  · exact Numbering.find?_extends hext (hs.number m hm)
  · exact hfind
  · exact hs.keyed m hm
  · exact hkeyed

theorem step (hs : h.Sound) {h' : History} (hstep : h.Step h') : h'.Sound := by
  cases hstep with
  | make hlayer =>
      obtain ⟨hnode, hkeyed⟩ := hs.node?_of_layers hlayer
      refine hs.add hnode hkeyed fun x hx => ?_
      rw [hx] at hlayer
      cases hlayer
  | param name =>
      refine hs.add rfl rfl fun x hx => ?_
      cases hx
      exact Nat.le_refl _

theorem find?_fresh (hs : h.Sound) (name : String) :
    h.table.find? (.param ⟨name, h.table.size⟩) = none := by
  cases hfind : h.table.find? (.param ⟨name, h.table.size⟩) with
  | none => rfl
  | some n => exact absurd (hs.param _ n hfind) (Nat.lt_irrefl _)

theorem made_fresh (hs : h.Sound) (name : String) :
    (h.fresh name).made = h.made ++
      [⟨.param ⟨name, h.table.size⟩, .param ⟨name, h.table.size⟩, h.table.size⟩] := by
  simp only [fresh, Numbering.freshParam, History.add, Numbering.numberNode, hs.find?_fresh name]

theorem size_fresh (hs : h.Sound) (name : String) :
    (h.fresh name).table.size = h.table.size + 1 := by
  simp only [fresh, Numbering.freshParam, History.add, Numbering.numberNode, hs.find?_fresh name]
  exact List.length_append

end Sound

theorem Step.grows {h h' : History} (hstep : h.Step h') : h.made <+: h'.made := by
  cases hstep with
  | make hlayer => exact List.prefix_append _ _
  | param name => exact List.prefix_append _ _

theorem sound_of_steps {h h' : History} (hs : h.Sound) (hsteps : ReflTransGen Step h h') :
    h'.Sound ∧ h.made <+: h'.made := by
  induction hsteps with
  | refl => exact ⟨hs, List.prefix_refl _⟩
  | tail _ hstep ih => exact ⟨ih.1.step hstep, ih.2.trans hstep.grows⟩

theorem Reached.sound {h : History} (hreached : h.Reached) : h.Sound :=
  (sound_of_steps sound_empty hreached).1

namespace Sound

variable {h : History}

theorem tfae_same (hs : h.Sound) {a b : Made} (ha : a ∈ h.made) (hb : b ∈ h.made) :
    [a.number = b.number, a.layer = b.layer, a.type.same b.type = true,
      a.type.identical b.type = true].TFAE := by
  have hsame : a.type.same b.type = true ↔ a.type.key = b.type.key := decide_eq_true_iff
  tfae_have 1 → 2 := fun hnumber =>
    Numbering.find?_unique (hs.number a ha) (by rw [hnumber]; exact hs.number b hb)
  tfae_have 2 → 3 := fun hlayer =>
    hsame.2 (Numbering.key_eq_of_node? (hs.layer a ha) (by rw [hlayer]; exact hs.layer b hb))
  tfae_have 3 → 4 := fun hkey =>
    (Ty.identical_iff (hs.keyed a ha) (hs.keyed b hb)).2 (hsame.1 hkey)
  tfae_have 4 → 1 := by
    intro hidentical
    have hkey := (Ty.identical_iff (hs.keyed a ha) (hs.keyed b hb)).1 hidentical
    have hnumber := hs.number? ha
    rw [Numbering.number?_congr hkey, hs.number? hb] at hnumber
    exact (Option.some.inj hnumber).symm
  tfae_finish

/-- The table shows the first type that was made among those with the number. -/
theorem representative?_number (hs : h.Sound) {a : Made} (ha : a ∈ h.made) :
    ∃ first, h.made.find? (fun b => b.number = a.number) = some first ∧
      h.table.representative? a.number = some first.type := by
  obtain ⟨⟨node, t⟩, hget, _⟩ := Option.map_eq_some_iff.1 (Numbering.find?_get (hs.number a ha))
  exact ⟨_, hs.first _ node t hget, by rw [Numbering.representative?, hget]; rfl⟩

theorem find?_identical (hs : h.Sound) {a : Made} (ha : a ∈ h.made) :
    h.made.find? (fun b => b.type.identical a.type) =
      h.made.find? (fun b => b.number = a.number) := by
  have hall : ∀ made : List Made, (∀ b ∈ made, b ∈ h.made) →
      made.find? (fun b => b.type.identical a.type) =
        made.find? (fun b => b.number = a.number) := by
    intro made hmade
    induction made with
    | nil => rfl
    | cons b rest ih =>
        rw [List.forall_mem_cons] at hmade
        have hiff := (hs.tfae_same hmade.1 ha).out 3 0
        have heq := Bool.eq_iff_iff.2 (hiff.trans decide_eq_true_iff.symm)
        rw [List.find?_cons, List.find?_cons, ih hmade.2, heq]
  exact hall h.made fun b hb => hb

end Sound

/-- Numbers tell types apart as trees, a new parameter is like no type before it, and what a number
shows is the first type that had it, then and ever after. -/
theorem numbers_are_faithful {h : History} (hreached : h.Reached) :
    (∀ a ∈ h.made, ∀ b ∈ h.made, [a.number = b.number, a.layer = b.layer,
      a.type.same b.type = true, a.type.identical b.type = true].TFAE) ∧
    (∀ name, ∃ new, (h.fresh name).made = h.made ++ [new] ∧ ∀ a ∈ h.made, a.number ≠ new.number) ∧
    (∀ a ∈ h.made, ∃ first, h.made.find? (fun b => b.type.identical a.type) = some first ∧
      ∀ later, ReflTransGen Step h later → later.table.representative? a.number = some first.type ∧
        later.table.number a.type = (a.number, later.table)) := by
  have hs := hreached.sound
  refine ⟨fun a ha b hb => hs.tfae_same ha hb, fun name => ?_, fun a ha => ?_⟩
  · refine ⟨_, hs.made_fresh name, fun a ha heq => ?_⟩
    have hlt := lt_size_of_find? (hs.number a ha)
    simp only at heq
    omega
  · obtain ⟨first, hfirst, _⟩ := hs.representative?_number ha
    refine ⟨first, by rw [hs.find?_identical ha]; exact hfirst, fun later hlater => ?_⟩
    obtain ⟨hlate, hprefix⟩ := sound_of_steps hs hlater
    have ha' := hprefix.subset ha
    obtain ⟨first', hfirst', hshown⟩ := hlate.representative?_number ha'
    obtain ⟨more, hmore⟩ := hprefix
    rw [← hmore, List.find?_append, hfirst] at hfirst'
    cases hfirst'
    exact ⟨hshown, Numbering.number_of_number? (hlate.number? ha')⟩

def addLiteral (s : Scalar) (h : History) : History :=
  h.add (.literal (.scalar s)) (.literal (Value.literalKey (.scalar s)))

def addInterface (decl : DeclId) (h : History) : History :=
  h.add (.object .interface decl []) (.object .interface decl [])

/-- Two parameters of one name, two declarations of one name, and zeros. -/
def zeros : History :=
  (({} : History).fresh "T").fresh "T" |>.addInterface ⟨"I", 0⟩ |>.addInterface ⟨"I", 1⟩
    |>.addLiteral (.float (.finite 0)) |>.addLiteral (.float .negZero) |>.addLiteral (.int 0)

theorem Reached.addLiteral {h : History} (hreached : h.Reached) (s : Scalar) :
    (h.addLiteral s).Reached :=
  hreached.tail (.make (.literal rfl))

theorem Reached.addInterface {h : History} (hreached : h.Reached) (decl : DeclId) :
    (h.addInterface decl).Reached :=
  hreached.tail (.make (@Made.Layers.object h.made .interface decl [] fun _ hm => by cases hm))

theorem reached_zeros : zeros.Reached := by
  have hparams : ((({} : History).fresh "T").fresh "T").Reached :=
    .tail (.single (.param "T")) (.param "T")
  have hinterfaces := (hparams.addInterface ⟨"I", 0⟩).addInterface ⟨"I", 1⟩
  exact ((hinterfaces.addLiteral _).addLiteral _).addLiteral _

theorem numbers_are_faithful_zeros :
    zeros.Reached ∧ zeros.made.map Made.number = [0, 1, 2, 3, 4, 4, 5] ∧
    (∀ a ∈ zeros.made, ∀ b ∈ zeros.made, [a.number = b.number, a.layer = b.layer,
      a.type.same b.type = true, a.type.identical b.type = true].TFAE) ∧
    (∀ name, ∃ new, (zeros.fresh name).made = zeros.made ++ [new] ∧
      ∀ a ∈ zeros.made, a.number ≠ new.number) :=
  have hall := numbers_are_faithful reached_zeros
  ⟨reached_zeros, rfl, hall.1, hall.2.1⟩

end History

end TypeGuard
