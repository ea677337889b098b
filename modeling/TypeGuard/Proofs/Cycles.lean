import Mathlib.Logic.Relation
import TypeGuard.Proofs.Coverage
import TypeGuard.Proofs.Rules

/-! Which types a check comes to, one after the other. A type that is come to again inside of
itself is what makes a check recursive. -/

namespace TypeGuard

open Relation (ReflTransGen TransGen)

namespace Declaration

def listed (d : Declaration) : List Property :=
  match d.body with
  | .property p => [p]
  | _ => d.members

theorem mem_listed {d : Declaration} {p : Property} (hp : p ∈ d.members) : p ∈ d.listed := by
  unfold listed
  split
  · next hbody =>
      simp only [members, hbody] at hp
      cases hp
  · exact hp

def Plain (d : Declaration) : Prop :=
  ∀ p ∈ d.listed, ∀ c, p.key ≠ .computed c

end Declaration

/-- One of the strings that a type stands for. -/
def Catalog.IsKey (cat : Catalog) (env : Bindings) (t : Ty) (key : String) : Prop :=
  ∃ path keys, Classifies cat .strings env path t (.exact keys) ∧ key ∈ keys.toList

/-- What is checked somewhere: a type by the properties it has, or an instance of a declaration by
what the declaration says. Parameters stand for what the bindings have for them. -/
inductive Site where
  | type (env : Bindings) (t : Ty)
  | declared (env : Bindings) (t : Ty) (d : Declaration)

namespace Site

/-- The instance that is checked at a site, if it is one that can be met again. -/
inductive IsFor : Site → Ty → Prop
  | type {env : Bindings} {t : Ty} (hknot : t.isKnot = true) : IsFor (.type env t) (t.knot env)
  | declared {env : Bindings} {t : Ty} {d : Declaration} : IsFor (.declared env t d) t

/-- A check at the one site asks for a check at the other. -/
inductive Step (cat : Catalog) : Site → Site → Prop
  | follow {env : Bindings} {t u : Ty} (hfollow : Follows cat env t u) :
      Step cat (.type env t) (.type env u)
  | union {env : Bindings} {members : List Ty} {t : Ty} (hmember : t ∈ members) :
      Step cat (.type env (.union members)) (.type env t)
  | inter {env : Bindings} {members : List Ty} {t : Ty} (hmember : t ∈ members) :
      Step cat (.type env (.inter members)) (.type env t)
  | target {env : Bindings} {target : Ty} {args : List Ty}
      (hknot : (Ty.ref target args).isKnot = false) :
      Step cat (.type env (.ref target args)) (.type env target)
  | property {env bindings : Bindings} {t u : Ty} {properties : List Property} {p : Property}
      (hknot : t.isKnot = true) (hbindings : cat.bindings (t.knot env) = .ok bindings)
      (hproperties : cat.properties (t.knot env) = .ok properties) (hp : p ∈ properties)
      (htype : p.type? = some u) : Step cat (.type env t) (.type (bindings ++ env) u)
  | keyed {env bindings : Bindings} {t constraint template : Ty} {x : TypeParam}
      {params : List TypeParam} (hknot : t.isKnot = true)
      (hbindings : cat.bindings (t.knot env) = .ok bindings)
      (hhead : (t.knot env).head = .mapped x constraint template params) {key : String}
      (hkey : cat.IsKey (bindings ++ env) constraint key) :
      Step cat (.type env t) (.type ((x, .literal (.str key)) :: (bindings ++ env)) template)
  | mapped {env : Bindings} {constraint template : Ty} {x : TypeParam} {params : List TypeParam}
      {key : String} (hkey : cat.IsKey env constraint key) :
      Step cat (.type env (.mapped x constraint template params))
        (.type ((x, .literal (.str key)) :: env) template)
  | index {env bindings : Bindings} {object key o u : Ty} {name : String}
      (hobject : Exposes cat env object o) (hkey : cat.IsKey env key name)
      (hbindings : cat.bindings o = .ok bindings) (htype : cat.propertyType o name = .ok u) :
      Step cat (.type env (.index object key)) (.type (bindings ++ env) u)
  | member {env : Bindings} {t u : Ty} {d : Declaration} {p : Property} (hp : p ∈ d.listed)
      (htype : p.type? = some u) : Step cat (.declared env t d) (.type env u)
  | base {env : Bindings} {t base : Ty} {d d' : Declaration} {bases : List Ty} {decl : DeclId}
      {elements : List Ty} (hbases : cat.basesOf d = .ok bases) (hbase : base ∈ bases)
      (hhead : (base.substitute env).head = .object .interface decl elements)
      (hfind : cat.declared? decl = some d') :
      Step cat (.declared env t d) (.declared
        (Bindings.ofPairs (d'.params.zip (base.substitute env).args) ++ env)
          (base.substitute env) d')
  | body {env : Bindings} {t u : Ty} {d : Declaration} (hbody : d.body = .alias (some u)) :
      Step cat (.declared env t d) (.type env u)

/-- The check of an instance comes to that instance again. -/
def IsCyclic (cat : Catalog) (σ : Site) : Prop :=
  ∃ t τ u, σ.IsFor t ∧ TransGen (Step cat) σ τ ∧ τ.IsFor u ∧ u.key = t.key

def Meets (cat : Catalog) (root : Site) (t : Ty) : Prop :=
  ∃ σ u, TransGen (Step cat) root σ ∧ σ.IsFor u ∧ u.key = t.key

/-- The way from a site to another, with the instances that are being expanded there. -/
inductive Trace (cat : Catalog) (root : Site) : List Ty → Site → Prop
  | root : Trace cat root [] root
  | step {path : List Ty} {σ τ : Site} (htrace : Trace cat root path σ) (hstep : Step cat σ τ) :
      Trace cat root path τ
  | enter {path : List Ty} {σ τ : Site} {t : Ty} (htrace : Trace cat root path σ) (hfor : σ.IsFor t)
      (hstep : Step cat σ τ) : Trace cat root (t :: path) τ

namespace Trace

variable {cat : Catalog} {root σ : Site} {path : List Ty}

theorem reaches (h : Trace cat root path σ) : ReflTransGen (Step cat) root σ := by
  induction h with
  | root => exact .refl
  | step _ hstep ih => exact ih.tail hstep
  | enter _ _ hstep ih => exact ih.tail hstep

theorem exists_above (h : Trace cat root path σ) {t : Ty} (ht : t ∈ path) :
    ∃ τ, ReflTransGen (Step cat) root τ ∧ τ.IsFor t ∧ TransGen (Step cat) τ σ := by
  induction h with
  | root => cases ht
  | step _ hstep ih =>
      obtain ⟨τ, hroot, hfor, hbelow⟩ := ih ht
      exact ⟨τ, hroot, hfor, hbelow.tail hstep⟩
  | enter htrace hfor hstep ih =>
      rcases List.mem_cons.1 ht with rfl | ht
      · exact ⟨_, htrace.reaches, hfor, .single hstep⟩
      · obtain ⟨τ, hroot, hfor, hbelow⟩ := ih ht
        exact ⟨τ, hroot, hfor, hbelow.tail hstep⟩

/-- A type that is met while it is being expanded is one of a cycle, and is met below the root. -/
theorem cyclic (h : Trace cat root path σ) {t : Ty} (hfor : σ.IsFor t) (hon : t.IsOn path) :
    ∃ u ∈ path, u.key = t.key ∧ root.Meets cat u ∧
      ∃ τ, ReflTransGen (Step cat) root τ ∧ τ.IsCyclic cat := by
  obtain ⟨u, hu, hkey⟩ := Ty.isOn_iff.1 hon
  obtain ⟨τ, hroot, hfor', hbelow⟩ := h.exists_above hu
  exact ⟨u, hu, hkey, ⟨σ, t, .trans_right hroot hbelow, hfor, hkey.symm⟩, τ, hroot, u, σ, t, hfor',
    hbelow, hfor, hkey.symm⟩

end Trace

end Site

namespace Catalog

/-- No name in the catalog is computed. -/
def Uncomputed (cat : Catalog) : Prop :=
  ∀ i d, cat.declared? i = some d → d.Plain

/-- The type is an object type, but of an alias. -/
def IsAlias (cat : Catalog) (t : Ty) : Prop :=
  ∃ decl d type?, (∃ kind elements, t.head = .object kind decl elements) ∧
    cat.declared? decl = some d ∧ d.body = .alias type?

theorem isAlias_key {cat : Catalog} (t : Ty) : cat.IsAlias t.key ↔ cat.IsAlias t := by
  have hhead : t.key.head = t.head.key := by
    cases t <;> rfl
  have hobject : ∀ decl, (∃ kind elements, t.key.head = .object kind decl elements) ↔
      ∃ kind elements, t.head = .object kind decl elements := by
    intro decl
    rw [hhead]
    constructor
    · rintro ⟨kind, elements, h⟩
      cases ht : t.head with
      | object kind' decl' elements' =>
          rw [ht] at h
          obtain ⟨_, rfl, _⟩ := Ty.object.inj h
          exact ⟨kind', elements', rfl⟩
      | _ =>
          rw [ht] at h
          cases h
    · rintro ⟨kind, elements, h⟩
      rw [h]
      exact ⟨kind, _, rfl⟩
  simp only [IsAlias, hobject]

theorem isAlias_congr {cat : Catalog} {t u : Ty} (hkey : t.key = u.key) :
    cat.IsAlias t ↔ cat.IsAlias u := by
  rw [← isAlias_key t, hkey, isAlias_key u]

end Catalog

def Site.MeetsNoAlias (cat : Catalog) (root : Site) : Prop :=
  ∀ σ t, TransGen (Step cat) root σ → σ.IsFor t → ¬cat.IsAlias t

end TypeGuard
