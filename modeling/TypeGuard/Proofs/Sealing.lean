import TypeGuard.Proofs.Rules
import TypeGuard.Proofs.Unfolding

/-! The bindings of a class leave out what it inherits, so the types of the properties that it
inherits from a generic type stay open. Only an indexed access looks at them. -/

namespace TypeGuard

open Relation (ReflTransGen)

namespace Ty

/-- What a type comes to among bindings, up to the marked parameters. -/
def settle (keys : TypeParam → Bool) (env : Bindings) (t : Ty) : Ty :=
  t.subst fun x => if keys x then param x else chase env x

/-- Puts keys in for all marked parameters. -/
def fill (keys : TypeParam → Bool) (f : TypeParam → String) (t : Ty) : Ty :=
  t.subst fun x => if keys x then literal (.str (f x)) else param x

variable {keys : TypeParam → Bool} {env : Bindings}

@[simp] theorem settle_union (ms : List Ty) :
    (union ms).settle keys env = union (ms.map (settle keys env)) := by
  rw [settle, subst, substList_eq]
  rfl

@[simp] theorem settle_inter (ms : List Ty) :
    (inter ms).settle keys env = inter (ms.map (settle keys env)) := by
  rw [settle, subst, substList_eq]
  rfl

@[simp] theorem settle_name (s : String) (args : List Ty) :
    (name s args).settle keys env = name s (args.map (settle keys env)) := by
  rw [settle, subst, substList_eq]
  rfl

theorem settle_param_marked {x : TypeParam} (hx : keys x = true) :
    (param x).settle keys env = param x := by
  rw [settle, subst, if_pos hx]

theorem settle_param {x : TypeParam} (hx : keys x = false) :
    (param x).settle keys env = chase env x := by
  rw [settle, subst, if_neg (Bool.eq_false_iff.1 hx)]

theorem settle_congr {env' : Bindings} {t : Ty}
    (h : ∀ x ∈ t.params, keys x = false → chase env x = chase env' x) :
    t.settle keys env = t.settle keys env' := by
  apply subst_congr
  intro x hx
  by_cases hkey : keys x = true
  · rw [if_pos hkey, if_pos hkey]
  · rw [if_neg hkey, if_neg hkey, h x hx (Bool.eq_false_iff.2 hkey)]

theorem settle_eq_substitute {t : Ty} (h : ∀ x ∈ t.params, keys x = true → env.lookup x = none) :
    t.settle keys env = t.substitute env := by
  apply subst_congr
  intro x hx
  by_cases hkey : keys x = true
  · rw [if_pos hkey, chase_of_none (h x hx hkey)]
  · rw [if_neg hkey]

end Ty

namespace Catalog

variable {cat : Catalog} {keys : TypeParam → Bool} {t u : Ty}

/-- An instance of a class that has a generic ancestor. -/
def Leaks (cat : Catalog) (t : Ty) : Prop :=
  ∃ decl elements d u, t.head = .object .nominal decl elements ∧ cat.declared? decl = some d ∧
    d.kind? = some .nominal ∧ cat.Above (.object .nominal decl []) u ∧ u.args ≠ []

theorem Reveals.settle (h : cat.Reveals t u) (hname : t.isName = false) (env : Bindings) :
    cat.Reveals (t.settle keys env) (u.settle keys env) := by
  cases h with
  | union hm =>
      rw [Ty.settle_union]
      exact .union (List.mem_map_of_mem hm)
  | inter hm =>
      rw [Ty.settle_inter]
      exact .inter (List.mem_map_of_mem hm)
  | operand => exact .operand _
  | object => exact .object _ _
  | key => exact .key _ _
  | constraint => exact .constraint _ _ _ _
  | template => exact .template _ _ _ _
  | name => cases hname

/-- Whether a type leaks can be told from its head. -/
theorem Leaks.of_subst {σ τ : TypeParam → Ty} (hdirect : t.isIndirect = false)
    (h : cat.Leaks (t.subst σ)) : cat.Leaks (t.subst τ) := by
  obtain ⟨decl, elements, d, u, hhead, hfind, hkind, habove, hargs⟩ := h
  cases t with
  | ref target args => exact ⟨decl, elements, d, u, hhead, hfind, hkind, habove, hargs⟩
  | object kind i us =>
      obtain ⟨rfl, rfl, _⟩ := Ty.object.inj hhead
      exact ⟨i, _, d, u, rfl, hfind, hkind, habove, hargs⟩
  | param x => cases hdirect
  | _ => cases hhead

theorem not_leaks_of_isKnot (h : t.isKnot = true) : ¬cat.Leaks t := by
  rintro ⟨decl, elements, _, _, hhead, _⟩
  cases t with
  | ref target args =>
      cases hhead
      cases h
  | object kind decl elements =>
      cases hhead
      cases h
  | _ => cases hhead

/-- One step of a walk, among types whose parameters are replaced: into a type, or from an instance
to what it inherits from and to the types of its members. -/
inductive Unfolds (cat : Catalog) (keys : TypeParam → Bool) : Ty → Ty → Prop
  | reveal {t u : Ty} (h : cat.Reveals t u) : Unfolds cat keys t u
  | fill (f : TypeParam → String) (t : Ty) : Unfolds cat keys t (t.fill keys f)
  | base {t base : Ty} {bases : List Ty} (hbases : cat.bases t = .ok bases) (hbase : base ∈ bases) :
      Unfolds cat keys t (base.substitute (cat.ownBindings t))
  | member {t u : Ty} {kind : ObjectKind} {decl : DeclId} {elements : List Ty} {d : Declaration}
      {p : Property} (hhead : t.head = .object kind decl elements)
      (hfind : cat.declared? decl = some d) (hp : p ∈ d.members) (htype : p.type? = some u) :
      Unfolds cat keys t (u.settle keys (cat.ownBindings t))
  | target {target : Ty} (args : List Ty) (hmapped : target.isMapped = true) :
      Unfolds cat keys (.ref target args) (target.settle keys (cat.ownBindings (.ref target args)))

/-- No indexed access that can come up looks into a class that has a generic ancestor. -/
def Sealed (cat : Catalog) (keys : TypeParam → Bool) (t : Ty) : Prop :=
  ∀ object key o, ReflTransGen (cat.Unfolds keys) t (.index object key) →
    Exposes cat [] object o → ¬cat.Leaks o

theorem Sealed.unfold (h : cat.Sealed keys t) (hu : cat.Unfolds keys t u) : cat.Sealed keys u :=
  fun object key o hindex => h object key o (.head hu hindex)

/-- What is no instance is left only for what is inside of it. -/
theorem Unfolds.reveals_or_fills (h : cat.Unfolds keys t u)
    (hhead : ∀ kind decl elements, t.head ≠ .object kind decl elements)
    (href : ∀ target args, t ≠ .ref target args) :
    cat.Reveals t u ∨ ∃ f, u = t.fill keys f := by
  cases h with
  | reveal h => exact .inl h
  | fill f => exact .inr ⟨f, rfl⟩
  | base hbases hbase =>
      obtain ⟨_, _, _, _, _, hobject, _⟩ := mem_bases hbases hbase
      exact absurd hobject (hhead _ _ _)
  | member hobject => exact absurd hobject (hhead _ _ _)
  | target => exact absurd rfl (href _ _)

theorem sealed_literal (v : Value) : cat.Sealed keys (.literal v) := by
  suffices hstay : ∀ u, ReflTransGen (cat.Unfolds keys) (.literal v) u → u = .literal v by
    intro object key o hindex
    cases hstay _ hindex
  intro u hu
  induction hu with
  | refl => rfl
  | tail _ hstep ih =>
      subst ih
      obtain h | ⟨f, rfl⟩ := hstep.reveals_or_fills nofun nofun
      · cases h
      · rfl

/-- Where there are no classes, none has a generic ancestor. -/
theorem sealed_of_no_class (h : ∀ entry ∈ cat.entries, entry.2.kind? ≠ some .nominal) (t : Ty) :
    cat.Sealed keys t := by
  rintro object key o _ _ ⟨decl, _, d, _, _, hfind, hkind, _⟩
  exact h _ (mem_entries_of_declared? hfind) hkind

end Catalog

end TypeGuard
