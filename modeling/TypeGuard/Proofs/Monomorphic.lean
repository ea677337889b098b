import Mathlib.Data.Fintype.Card
import Mathlib.Data.Fintype.EquivFin
import Mathlib.Data.Fintype.Sets
import TypeGuard.Proofs.Faults
import TypeGuard.Proofs.Heritage

/-! Catalogs without type arguments. Their aliases come to an end, and so does every search through
what an object inherits. -/

namespace TypeGuard

namespace Ty

/-- A layer without type arguments and element types that is no indexed access. -/
def isMonomorphic : Ty → Bool
  | object _ _ elements => elements.isEmpty
  | ref target args => args.isEmpty && (Catalog.isApplicable target && target.isMonomorphic)
  | name _ args => args.isEmpty
  | index _ _ => false
  | _ => true

abbrev Monomorphic (t : Ty) : Prop :=
  t.Every fun u => u.isMonomorphic = true

mutual
/-- The names that occur in a type. -/
def names : Ty → List String
  | union members => namesList members
  | inter members => namesList members
  | sequence _ elements => namesList elements
  | ref target args => target.names ++ namesList args
  | keyOf operand => operand.names
  | index t k => t.names ++ k.names
  | mapped _ constraint template _ => constraint.names ++ template.names
  | name s args => s :: namesList args
  | _ => []

def namesList : List Ty → List String
  | [] => []
  | t :: rest => t.names ++ namesList rest
end

theorem mem_namesList {s : String} {ts : List Ty} : s ∈ namesList ts ↔ ∃ t ∈ ts, s ∈ t.names := by
  induction ts with
  | nil => simp [namesList]
  | cons t rest ih => simp [namesList, ih]

theorem ref_of_isMonomorphic {target : Ty} {args : List Ty}
    (h : (ref target args).isMonomorphic = true) :
    args = [] ∧ Catalog.isApplicable target = true ∧ target.isMonomorphic = true := by
  rw [isMonomorphic, Bool.and_eq_true, Bool.and_eq_true, List.isEmpty_iff] at h
  exact h

theorem args_of_isMonomorphic {t : Ty} (h : t.isMonomorphic = true) : t.args = [] := by
  cases t with
  | ref _ _ => exact (ref_of_isMonomorphic h).1
  | _ => rfl

theorem Monomorphic.target {target : Ty} {args : List Ty} (h : (ref target args).Monomorphic) :
    target.Monomorphic :=
  ⟨(ref_of_isMonomorphic h.1).2.2, h.2.1⟩

theorem elements_of_isMonomorphic {t : Ty} {kind : ObjectKind} {decl : DeclId} {elements : List Ty}
    (h : t.isMonomorphic = true) (hhead : t.head = .object kind decl elements) : elements = [] := by
  cases t with
  | object _ _ _ =>
      cases hhead
      exact List.isEmpty_iff.1 h
  | ref _ _ =>
      cases hhead
      exact List.isEmpty_iff.1 (ref_of_isMonomorphic h).2.2
  | _ => cases hhead

end Ty

namespace Declaration

/-- The types that a declaration is written with, and the type of a property on its own. -/
inductive Writes (d : Declaration) : Ty → Prop
  | lists {t : Ty} (h : d.Lists t) : Writes d t
  | property {p : Property} {t : Ty} (hbody : d.body = .property p) (htype : p.type? = some t) :
      Writes d t

end Declaration

theorem Stops.foldlM_of {α β : Type} {F : Fault → Prop} {P : β → Prop} {f : β → α → Except Fault β}
    {xs : List α} {init : β} (hinit : P init)
    (h : ∀ b, P b → ∀ a ∈ xs, Stops F (f b a) ∧ ∀ b', f b a = .ok b' → P b') :
    Stops F (xs.foldlM f init) := by
  induction xs generalizing init with
  | nil => exact .pure init
  | cons a rest ih =>
      rw [List.foldlM_cons]
      obtain ⟨hstops, hkeeps⟩ := h init hinit a List.mem_cons_self
      refine .bind hstops fun b hb => ih (hkeeps b hb) fun b hb a ha => ?_
      exact h b hb a (List.mem_cons_of_mem _ ha)

namespace Catalog

variable {cat : Catalog}

theorem stopsLocally_lineage_succ {limit : Nat} {head : ObjectHead} {line : Lineage}
    (h : ∀ first, cat.Extends head first → ∀ line' : Lineage,
      (∀ h ∈ head :: line.seen, h ∈ line'.seen) → StopsLocally (cat.lineage limit first line')) :
    StopsLocally (cat.lineage (limit + 1) head line) := by
  rw [lineage]
  refine .ite (fun _ => .pure _) fun _ => .bind (cat.stops_bases _) fun bases hbases => ?_
  refine .bind ?_ fun _ _ => .ite (fun _ => .pure _) fun _ => .throw rfl
  refine Stops.foldlM_of (P := fun line' : Lineage => ∀ h ∈ head :: line.seen, h ∈ line'.seen)
    (fun _ h => h) fun line₁ hseen first hfirst => ⟨?_, fun line₂ hline₂ h' hh' => ?_⟩
  · obtain ⟨base, hbase, hfirst⟩ := List.mem_filterMap.1 hfirst
    exact h first ⟨bases, hbases, base, hbase, hfirst⟩ line₁ hseen
  · exact (lineage_grows hline₂).1.seen h' (hseen h' hh')

theorem stopsLocally_lineage_of_mem {limit : Nat} {head : ObjectHead} {line : Lineage}
    (hmem : head ∈ cat.clauseImages objectHead?)
    (hlimit : (cat.imagesLeft objectHead? line.seen).card < limit) :
    StopsLocally (cat.lineage limit head line) := by
  induction limit generalizing head line with
  | zero => cases hlimit
  | succ limit ih =>
      by_cases hold : head ∈ line.seen
      · rw [lineage, if_pos hold]
        exact .pure _
      refine stopsLocally_lineage_succ fun first hextends line' hseen => ?_
      have hless := card_imagesLeft_cons_lt hmem hold
      have hleft := cat.card_imagesLeft_le objectHead? hseen
      exact ih (mem_clauseImages_of_extends hextends) (by omega)

theorem stopsLocally_properties (t : Ty) : StopsLocally (cat.properties t) := by
  refine .bind (cat.stops_followNames _ _ t) fun u _ => ?_
  split
  · exact .pure _
  · refine .bind (stopsLocally_lineage_succ fun first hextends line' _ => ?_) fun _ _ => .pure _
    refine stopsLocally_lineage_of_mem (mem_clauseImages_of_extends hextends) ?_
    exact Nat.lt_succ_of_le (cat.card_imagesLeft_le_length objectHead? line'.seen)

theorem stopsLocally_ancestorsFrom {limit : Nat} {queue seen : List Ty}
    (hqueue : ∀ base ∈ queue, cat.IsBase base) (hlimit : cat.budget queue seen ≤ limit) :
    StopsLocally (cat.ancestorsFrom limit queue seen) := by
  induction limit generalizing queue seen with
  | zero =>
      cases queue with
      | nil => exact .pure _
      | cons base queue => simp [budget] at hlimit
  | succ limit ih =>
      cases queue with
      | nil => exact .pure _
      | cons base queue =>
          rw [List.forall_mem_cons] at hqueue
          have hpop : cat.budget queue seen ≤ limit := by
            simp only [budget, List.length_cons] at hlimit ⊢
            omega
          rw [ancestorsFrom]
          refine .ite (fun _ => ih hqueue.2 hpop) fun hnew => ?_
          refine .bind (cat.stops_bases _) fun more hmore => .bind (ih ?_ ?_) fun _ _ => .pure _
          · intro base' hmem
            rcases List.mem_append.1 hmem with hmem | hmem
            · exact hqueue.2 base' hmem
            · exact isBase_of_mem_bases hmore hmem
          · exact Nat.le_trans (budget_meet hqueue.1 hmore hnew) hpop

theorem stopsLocally_bindings (t : Ty) : StopsLocally (cat.bindings t) := by
  unfold Catalog.bindings
  split
  · refine .bind (.bind (cat.stops_bases _) fun bases hbases => ?_) fun _ _ => .pure _
    refine stopsLocally_ancestorsFrom (fun base => isBase_of_mem_bases hbases) ?_
    exact budget_start_le hbases _
  · exact .pure _

theorem declared?_of_mem_properties {t : Ty} {kind : ObjectKind} {decl : DeclId}
    {elements : List Ty} {properties : List Property} {p : Property}
    (hhead : t.head = .object kind decl elements) (h : cat.properties t = .ok properties)
    (hp : p ∈ properties) : ∃ d, cat.declared? decl = some d := by
  obtain ⟨u, w, found, hfollow, habove, hfound, hmem⟩ := mem_properties h hp
  rw [followNames_of_head hhead] at hfollow
  cases hfollow
  have hcases : ∀ w, cat.Above t w → w = t ∨ ∃ d, cat.declared? decl = some d := by
    intro w habove
    induction habove with
    | self => exact .inl rfl
    | base _ hbases hbase ih =>
        refine .inr (ih.elim (fun heq => ?_) id)
        obtain ⟨_, _, _, d, _, hhead', hfind, _⟩ := mem_bases hbases hbase
        rw [heq, hhead] at hhead'
        cases hhead'
        exact ⟨d, hfind⟩
  rcases hcases w habove with rfl | hfind
  · rw [objectHead?_of_head hhead] at hfound
    cases hfound
    obtain ⟨d, hfind, _⟩ := mem_membersOf hmem
    exact ⟨d, hfind⟩
  · exact hfind

/-- The names in the body of an alias. -/
def Abbreviates (cat : Catalog) (s s' : String) : Prop :=
  ∃ d t, cat.find? s = some d ∧ d.body = .alias (some t) ∧ s' ∈ t.names

/-- No declaration has parameters, no type has arguments or an indexed access, and no alias comes
back to itself. -/
structure Monomorphic (cat : Catalog) : Prop where
  params : ∀ decl d, cat.declared? decl = some d → d.params = []
  types : ∀ decl d t, cat.declared? decl = some d → d.Writes t → t.Monomorphic
  acyclic : ∀ s, ¬Relation.TransGen cat.Abbreviates s s

namespace Monomorphic

variable (hcat : cat.Monomorphic)

include hcat

/-- What holds of a type as soon as it holds of the aliases in it, holds of every type. -/
theorem alias_induction {motive : Ty → Prop}
    (hstep : ∀ t : Ty, (∀ s ∈ t.names, ∀ d body, cat.find? s = some d →
      d.body = .alias (some body) → motive body) → motive t) (t : Ty) : motive t := by
  let names : Finset String := (cat.entries.map fun entry => entry.1.qualified).toFinset
  have hmem : ∀ {s d}, cat.find? s = some d → s ∈ names := fun hfind =>
    List.mem_toFinset.2 (List.mem_map.2 ⟨_, mem_entries_of_declared? hfind, rfl⟩)
  have hwf : WellFounded fun a b : names => Relation.TransGen cat.Abbreviates b.1 a.1 := by
    have : IsTrans names fun a b => Relation.TransGen cat.Abbreviates b.1 a.1 :=
      ⟨fun _ _ _ hab hbc => hbc.trans hab⟩
    have : Std.Irrefl fun a b : names => Relation.TransGen cat.Abbreviates b.1 a.1 :=
      ⟨fun a => hcat.acyclic a.1⟩
    exact Finite.wellFounded_of_trans_of_irrefl _
  have halias : ∀ (s : names) (d : Declaration) (body : Ty), cat.find? s.1 = some d →
      d.body = .alias (some body) → motive body := by
    intro s
    induction s using hwf.induction with
    | _ s ih =>
        intro d body hfind hbody
        refine hstep body fun s' hs' d' body' hfind' hbody' => ?_
        exact ih ⟨s', hmem hfind'⟩ (.single ⟨d, body, hfind, hbody, hs'⟩) d' body' hfind' hbody'
  exact hstep t fun s _ d body hfind hbody => halias ⟨s, hmem hfind⟩ d body hfind hbody

theorem resolve_cases {s : String} {args : List Ty} {t : Ty}
    (h : cat.resolve (.name s args) = .ok t) : (∃ kind decl, t = .object kind decl []) ∨
      ∃ d, cat.find? s = some d ∧ d.body = .alias (some t) := by
  cases resolve_eq_ok.1 h with
  | object => exact .inl ⟨_, _, rfl⟩
  | body hfind hbody => exact .inr ⟨_, hfind, hbody⟩
  | objectRef hfind _ hparams | mapped hfind _ hparams | rewrite hfind _ _ hparams =>
      exact absurd (hcat.params _ _ hfind) hparams

theorem resolve {s : String} {args : List Ty} {t : Ty} (h : cat.resolve (.name s args) = .ok t) :
    t.Monomorphic := by
  rcases hcat.resolve_cases h with ⟨kind, decl, rfl⟩ | ⟨d, hfind, hbody⟩
  · exact ⟨rfl, trivial⟩
  · exact hcat.types (.listed s) d t hfind (.lists (.body hbody))

theorem basesOf {d : Declaration} {base : Ty} {bases : List Ty} (h : cat.basesOf d = .ok bases)
    (hbase : base ∈ bases) : base.Monomorphic := by
  obtain ⟨_, _, hresolve⟩ := exists_of_forall₂_right (mapM_eq_ok.1 h) hbase
  exact hcat.resolve hresolve

theorem bases {heir base : Ty} {bases : List Ty} (h : cat.bases heir = .ok bases)
    (hbase : base ∈ bases) : base.Monomorphic := by
  obtain ⟨_, _, _, _, _, _, _, _, hresolve⟩ := mem_bases h hbase
  exact hcat.resolve hresolve

theorem bindings_eq_nil {t : Ty} {bindings : Bindings} (ht : t.isMonomorphic = true)
    (h : cat.bindings t = .ok bindings) : bindings = [] := by
  refine List.eq_nil_iff_forall_not_mem.2 fun binding hmem => ?_
  obtain ⟨u, hu, hpair⟩ := mem_bindings h hmem
  have hargs : u.args = [] := by
    rcases hu with rfl | ⟨heir, bases, hbases, hbase⟩
    · exact Ty.args_of_isMonomorphic ht
    · exact Ty.args_of_isMonomorphic (hcat.bases hbases hbase).1
  rw [hargs, List.zip_nil_right] at hpair
  cases hpair

end Monomorphic

end Catalog

end TypeGuard
