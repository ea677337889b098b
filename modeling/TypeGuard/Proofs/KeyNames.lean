import Mathlib.Data.List.Sort
import TypeGuard.Guard.Compile
import TypeGuard.Proofs.WalkShape

/-! What `keyof` comes to for types that are put together from interfaces. A union has the names
that all of its members have, an intersection those that some member has, and no names at all is
spelled `never`. An interface with a key that is no string is spelled so too, which an intersection
does not tell from one without keys. -/

namespace TypeGuard

namespace StringSet

variable {x : String}

theorem ext_toList {a b : StringSet} (h : ∀ x, x ∈ a.toList ↔ x ∈ b.toList) : a = b := by
  have hlist : a.toList = b.toList := a.sorted.eq_of_mem_iff b.sorted h
  cases a
  cases b
  cases hlist
  rfl

theorem ofList_toList (a : StringSet) : ofList a.toList = a :=
  ext_toList fun _ => mem_ofList

theorem not_mem_empty : x ∉ empty.toList :=
  List.not_mem_nil

/-- What all of the sets hold. Without any sets there is nothing. -/
def interAll : List StringSet → StringSet
  | [] => empty
  | first :: rest => rest.foldl inter first

/-- What some of the sets hold. -/
def unionAll (sets : List StringSet) : StringSet :=
  ofList (sets.flatMap toList)

theorem mem_foldl_inter {first : StringSet} {rest : List StringSet} :
    x ∈ (rest.foldl inter first).toList ↔ ∀ a ∈ first :: rest, x ∈ a.toList := by
  induction rest generalizing first with
  | nil => simp
  | cons a rest ih => simp [ih, and_assoc]

theorem mem_interAll {sets : List StringSet} :
    x ∈ (interAll sets).toList ↔ sets ≠ [] ∧ ∀ a ∈ sets, x ∈ a.toList := by
  cases sets with
  | nil => simp [interAll, not_mem_empty]
  | cons first rest => simp only [interAll, mem_foldl_inter, ne_eq, reduceCtorEq, not_false_eq_true,
      true_and]

theorem mem_unionAll {sets : List StringSet} :
    x ∈ (unionAll sets).toList ↔ ∃ a ∈ sets, x ∈ a.toList := by
  rw [unionAll, mem_ofList, List.mem_flatMap]

theorem eq_empty {a : StringSet} (h : ∀ x, x ∉ a.toList) : a = empty :=
  ext_toList fun x => iff_of_false (h x) not_mem_empty

end StringSet

namespace Shape

/-- The strings of a set. No strings at all is spelled `never`. -/
def ofSet (set : StringSet) : Shape :=
  if set.toList.isEmpty then never else exact set

theorem ofSet_empty : ofSet .empty = never := rfl

theorem ofSet_of_ne {set : StringSet} (h : set ≠ .empty) : ofSet set = exact set := by
  have hsome : set.toList.isEmpty = false := by
    rw [Bool.eq_false_iff]
    intro hempty
    apply h
    apply StringSet.eq_empty
    intro x hx
    rw [List.isEmpty_iff.1 hempty] at hx
    cases hx
  rw [ofSet, hsome]
  rfl

theorem literals_ofSet (set : StringSet) : (ofSet set).literals = set.toList := by
  by_cases h : set = .empty
  · rw [h]
    rfl
  · rw [ofSet_of_ne h]
    rfl

theorem isAlways_ofSet (set : StringSet) : (ofSet set).isAlways = false := by
  by_cases h : set = .empty
  · rw [h]
    rfl
  · rw [ofSet_of_ne h]
    rfl

theorem ofSet_ofList (items : List String) :
    (if items.isEmpty then pure never else ofStrings items) = .ok (ofSet (.ofList items)) := by
  cases items with
  | nil => rfl
  | cons s rest =>
      have hne : StringSet.ofList (s :: rest) ≠ .empty := fun hempty =>
        StringSet.ofList_cons_ne_nil s rest (congrArg StringSet.toList hempty)
      rw [ofSet_of_ne hne]
      rfl

/-- A member without names spoils a union, as it leaves nothing in common. -/
theorem commonNames_ofSet (sets : List StringSet) :
    commonNames (sets.map ofSet) = .ok (ofSet (.interAll sets)) := by
  by_cases hempty : .empty ∈ sets
  · have hnever : (sets.map ofSet).any isNever = true :=
      List.any_eq_true.2 ⟨_, List.mem_map.2 ⟨_, hempty, rfl⟩, rfl⟩
    have hnone : StringSet.interAll sets = .empty := by
      apply StringSet.eq_empty
      intro x hx
      exact StringSet.not_mem_empty ((StringSet.mem_interAll.1 hx).2 _ hempty)
    rw [commonNames, hnever, hnone, Bool.or_true]
    rfl
  · have hexact : sets.map ofSet = sets.map exact :=
      List.map_congr_left fun set hset => ofSet_of_ne fun heq => hempty (heq ▸ hset)
    have hnever : (sets.map ofSet).any isNever = false := by
      rw [hexact, List.any_map]
      exact List.any_eq_false.2 fun _ _ => Bool.false_ne_true
    cases sets with
    | nil => rfl
    | cons first rest =>
        have hsome : ((first :: rest).map ofSet).isEmpty = false := rfl
        rw [commonNames, hnever, hsome, hexact, List.filterMap_map]
        simp only [Function.comp_def, List.filterMap_some, ofSet_ofList, StringSet.ofList_toList]
        rfl

/-- A member without names adds nothing to an intersection. -/
theorem allNames_ofSet (sets : List StringSet) :
    allNames (sets.map ofSet) = .ok (ofSet (.unionAll sets)) := by
  have halways : (sets.map ofSet).any isAlways = false := by
    rw [List.any_map]
    exact List.any_eq_false.2 fun set _ => by simp [isAlways_ofSet]
  have hnames : (sets.map ofSet).flatMap literals = sets.flatMap StringSet.toList := by
    rw [List.flatMap_map]
    exact List.flatMap_congr fun set _ => literals_ofSet set
  simp only [allNames, halways, hnames, Bool.false_eq_true, if_false, ofSet_ofList]
  rfl

end Shape

theorem Walk.mapM_eq_pure {α β : Type} {f : α → Walk β} {g : α → β} {xs : List α}
    (h : ∀ x ∈ xs, f x = pure (g x)) : xs.mapM f = pure (xs.map g) := by
  induction xs with
  | nil => rfl
  | cons x rest ih =>
      rw [List.forall_mem_cons] at h
      rw [List.mapM_cons, h.1, ih h.2, pure_bind, pure_bind]
      rfl

namespace Catalog

open Filter (atTop eventually_atTop Eventually.of_forall)

variable {cat : Catalog} {P Q : List Property → Prop} {I : List Ty → Prop} {t : Ty}

/-- A type put together from interfaces by unions, intersections and names, with a condition on the
properties of each interface and one on the members of each intersection. -/
inductive Composed (cat : Catalog) (P : List Property → Prop) (I : List Ty → Prop) : Ty → Prop
  | interface {t : Ty} {decl : DeclId} {elements : List Ty} {properties : List Property}
      (hhead : t.head = .object .interface decl elements)
      (hproperties : cat.properties (.object .interface decl elements) = .ok properties)
      (hP : P properties) : Composed cat P I t
  | union {members : List Ty} (hmembers : ∀ t ∈ members, Composed cat P I t) :
      Composed cat P I (.union members)
  | inter {members : List Ty} (hmembers : ∀ t ∈ members, Composed cat P I t) (hI : I members) :
      Composed cat P I (.inter members)
  | name {s : String} {args : List Ty} {t : Ty} (hresolve : cat.resolve (.name s args) = .ok t)
      (ht : Composed cat P I t) : Composed cat P I (.name s args)

/-- What the properties of interfaces have to offer, carried over to the types put together from
them: a union offers what all of its members do, an intersection what some member does. -/
inductive Offers (cat : Catalog) (Q : List Property → Prop) : Ty → Prop
  | interface {t : Ty} {decl : DeclId} {elements : List Ty} {properties : List Property}
      (hhead : t.head = .object .interface decl elements)
      (hproperties : cat.properties (.object .interface decl elements) = .ok properties)
      (hQ : Q properties) : Offers cat Q t
  | union {members : List Ty} (hsome : members ≠ []) (hmembers : ∀ t ∈ members, Offers cat Q t) :
      Offers cat Q (.union members)
  | inter {members : List Ty} {t : Ty} (hmem : t ∈ members) (ht : Offers cat Q t) :
      Offers cat Q (.inter members)
  | name {s : String} {args : List Ty} {t : Ty} (hresolve : cat.resolve (.name s args) = .ok t)
      (ht : Offers cat Q t) : Offers cat Q (.name s args)

/-- The type has a key of a class. Numbers are the reason for classes: 1 and 1.0 are one key. -/
def HasKey (cat : Catalog) (K : PropertyKey → Prop) (t : Ty) : Prop :=
  cat.Offers (fun properties => ∃ p ∈ properties, K p.key) t

/-- The type has a name from interfaces all of whose keys are strings. -/
def HasName (cat : Catalog) (x : String) (t : Ty) : Prop :=
  cat.Offers (fun properties =>
    (∀ p ∈ properties, p.key.isStr = true) ∧ ∃ p ∈ properties, p.key = .str x) t

/-- The keys of all interfaces that the type is put together from are strings. -/
def StringKeyed (cat : Catalog) (t : Ty) : Prop :=
  cat.Composed (fun properties => ∀ p ∈ properties, p.key.isStr = true) (fun _ => True) t

/-- In no intersection does a member with a key that is no string stand beside one with names. -/
def Unmixed (cat : Catalog) (t : Ty) : Prop :=
  cat.Composed (fun _ => True) (fun members =>
    (∀ t ∈ members, ¬cat.HasKey (·.isStr = false) t) ∨ ∀ t ∈ members, ∀ x, ¬cat.HasName x t) t

theorem offers_interface {decl : DeclId} {elements : List Ty} {properties : List Property}
    (hhead : t.head = .object .interface decl elements)
    (hproperties : cat.properties (.object .interface decl elements) = .ok properties) :
    cat.Offers Q t ↔ Q properties := by
  constructor
  · intro h
    cases h with
    | interface hhead' hproperties' hQ =>
        cases hhead.symm.trans hhead'
        cases hproperties.symm.trans hproperties'
        exact hQ
    | _ => cases hhead
  · exact .interface hhead hproperties

theorem offers_union {members : List Ty} :
    cat.Offers Q (.union members) ↔ members ≠ [] ∧ ∀ t ∈ members, cat.Offers Q t := by
  constructor
  · intro h
    cases h with
    | interface hhead => cases hhead
    | union hsome hmembers => exact ⟨hsome, hmembers⟩
  · rintro ⟨hsome, hmembers⟩
    exact .union hsome hmembers

theorem offers_inter {members : List Ty} :
    cat.Offers Q (.inter members) ↔ ∃ t ∈ members, cat.Offers Q t := by
  constructor
  · intro h
    cases h with
    | interface hhead => cases hhead
    | inter hmem ht => exact ⟨_, hmem, ht⟩
  · rintro ⟨t, hmem, ht⟩
    exact .inter hmem ht

theorem offers_name {s : String} {args : List Ty} (hresolve : cat.resolve (.name s args) = .ok t) :
    cat.Offers Q (.name s args) ↔ cat.Offers Q t := by
  constructor
  · intro h
    cases h with
    | interface hhead => cases hhead
    | name hresolve' ht =>
        cases hresolve.symm.trans hresolve'
        exact ht
  · exact .name hresolve

theorem Offers.mono {R : List Property → Prop} (h : cat.Offers Q t)
    (himp : ∀ properties, Q properties → R properties) : cat.Offers R t := by
  induction h with
  | interface hhead hproperties hQ => exact .interface hhead hproperties (himp _ hQ)
  | union hsome _ ih => exact .union hsome ih
  | inter hmem _ ih => exact .inter hmem ih
  | name hresolve _ ih => exact .name hresolve ih

theorem Composed.offers_congr {R : List Property → Prop} (h : cat.Composed P I t)
    (hiff : ∀ properties, P properties → (Q properties ↔ R properties)) :
    cat.Offers Q t ↔ cat.Offers R t := by
  induction h with
  | interface hhead hproperties hP =>
      rw [offers_interface hhead hproperties, offers_interface hhead hproperties]
      exact hiff _ hP
  | union _ ih =>
      rw [offers_union, offers_union]
      exact and_congr_right fun _ => forall₂_congr ih
  | inter _ _ ih =>
      rw [offers_inter, offers_inter]
      exact exists_congr fun t => and_congr_right (ih t)
  | name hresolve _ ih => rwa [offers_name hresolve, offers_name hresolve]

/-- Either all keys are strings, and the names are listed, or there are no names. -/
theorem ofProperties_eq (properties : List Property) :
    ∃ N : StringSet, Shape.ofProperties properties = .ok (.ofSet N) ∧
      ∀ x, x ∈ N.toList ↔
        (∀ p ∈ properties, p.key.isStr = true) ∧ ∃ p ∈ properties, p.key = .str x := by
  by_cases hstr : ∀ p ∈ properties, p.key.isStr = true
  · have hall : properties.all (·.key.isStr) = true := List.all_eq_true.2 hstr
    refine ⟨.ofList (properties.map (·.name.text)), ?_, fun x => ?_⟩
    · rw [← Shape.ofSet_ofList, Shape.ofProperties, hall, List.isEmpty_map]
      simp only [Bool.not_true, Bool.or_false]
    · rw [StringSet.mem_ofList, List.mem_map, and_iff_right hstr]
      refine exists_congr fun p => and_congr_right fun hp => ?_
      have hkey := hstr p hp
      rw [Property.name]
      cases h : p.key with
      | str s => exact ⟨fun heq => congrArg _ heq, fun heq => PropertyKey.str.inj heq⟩
      | _ =>
          rw [h] at hkey
          cases hkey
  · have hall : properties.all (·.key.isStr) = false :=
      Bool.eq_false_iff.2 fun hall => hstr (List.all_eq_true.1 hall)
    refine ⟨.empty, ?_, fun x => iff_of_false StringSet.not_mem_empty fun h => hstr h.1⟩
    rw [Shape.ofProperties, hall, Bool.not_false, Bool.or_true]
    rfl

/-- The classifier lists the names of a type, whatever the context it is asked in. -/
theorem Composed.ofKeys_eq_pure (h : cat.Composed P I t) :
    ∃ N : StringSet, (∀ x, x ∈ N.toList ↔ cat.HasName x t) ∧
      ∀ᶠ limit in atTop, Shape.ofKeys cat limit t = pure (.ofSet N) := by
  have hnonempty : Nonempty StringSet := ⟨.empty⟩
  induction h with
  | @interface t decl elements properties hhead hproperties _ =>
      obtain ⟨N, hshape, hN⟩ := ofProperties_eq properties
      have hobject : ∀ limit,
          Shape.ofKeys cat (limit + 1) (.object .interface decl elements) = pure (.ofSet N) := by
        intro limit
        simp only [Shape.ofKeys, hproperties, Walk.ofExcept, pure_bind, hshape]
      refine ⟨N, fun x => ?_, ?_⟩
      · rw [HasName, offers_interface hhead hproperties]
        exact hN x
      · cases t with
        | object kind name parts =>
            cases hhead
            exact eventually_of_succ (Eventually.of_forall fun _ => trivial) fun k _ => hobject k
        | ref target args =>
            cases hhead
            refine eventually_atTop.2 ⟨2, fun limit hlimit => ?_⟩
            obtain ⟨k, rfl⟩ := Nat.exists_eq_add_of_le' hlimit
            exact funext fun s => congrFun (hobject k) s
        | _ => cases hhead
  | @union members _ ih =>
      choose! N hN hlimit using ih
      refine ⟨.interAll (members.map N), fun x => ?_, ?_⟩
      · rw [HasName, StringSet.mem_interAll, offers_union, List.forall_mem_map]
        exact and_congr (not_congr List.map_eq_nil_iff) (forall₂_congr fun t ht => hN t ht x)
      · refine eventually_of_succ (eventually_forall_mem hlimit) fun limit hmembers => ?_
        have hshape := Shape.commonNames_ofSet (members.map N)
        rw [List.map_map] at hshape
        simp only [Shape.ofKeys, Walk.mapM_eq_pure hmembers, pure_bind]
        exact congrArg Walk.ofExcept hshape
  | @inter members _ _ ih =>
      choose! N hN hlimit using ih
      refine ⟨.unionAll (members.map N), fun x => ?_, ?_⟩
      · rw [HasName, StringSet.mem_unionAll, offers_inter]
        simp only [List.mem_map, exists_exists_and_eq_and]
        exact exists_congr fun t => and_congr_right fun ht => hN t ht x
      · refine eventually_of_succ (eventually_forall_mem hlimit) fun limit hmembers => ?_
        have hshape := Shape.allNames_ofSet (members.map N)
        rw [List.map_map] at hshape
        simp only [Shape.ofKeys, Walk.mapM_eq_pure hmembers, pure_bind]
        exact congrArg Walk.ofExcept hshape
  | name hresolve _ ih =>
      obtain ⟨N, hN, hlimit⟩ := ih
      refine ⟨N, fun x => (hN x).trans (offers_name hresolve).symm, ?_⟩
      refine eventually_of_succ hlimit fun limit ht => ?_
      simp only [Shape.ofKeys, hresolve, Walk.ofExcept, pure_bind, ht]

theorem Composed.keyOf_eq_pure (h : cat.Composed P I t) :
    ∃ N : StringSet, (∀ x, x ∈ N.toList ↔ cat.HasName x t) ∧
      ∃ n, ∀ limit ≥ n, Shape.ofType cat limit (.keyOf t) = pure (.ofSet N) := by
  obtain ⟨N, hN, hlimit⟩ := h.ofKeys_eq_pure
  exact ⟨N, hN, eventually_atTop.1 (eventually_of_succ hlimit fun _ hkeys => hkeys)⟩

/-- Where all keys are strings, `keyof` comes to exactly the keys that the type has. -/
theorem keyOf_is_exact (h : cat.StringKeyed t) :
    ∃ K : StringSet, (∀ x, x ∈ K.toList ↔ cat.HasKey (· = .str x) t) ∧
      ∃ n, ∀ limit ≥ n, Shape.ofType cat limit (.keyOf t) = pure (.ofSet K) := by
  obtain ⟨K, hK, hlimit⟩ := h.keyOf_eq_pure
  refine ⟨K, fun x => (hK x).trans ?_, hlimit⟩
  exact h.offers_congr fun properties hstr => and_iff_right hstr

/-! A name, a tag that extends it, a pair with a number for a key, and an alias. -/

def field (key : PropertyKey) (owner : String) : Property :=
  ⟨key, some (.primitive "string"), false, none, .listed owner⟩

def labels : Catalog where
  entries := [
    (.listed "Named", { name := "Named", body := .interface [] [field (.str "a") "Named"] }),
    (.listed "Tagged", {
      name := "Tagged", body := .interface [⟨"Named", []⟩] [field (.str "b") "Tagged"] }),
    (.listed "Pair", { name := "Pair", body := .interface [] [field (.int 0) "Pair"] }),
    (.listed "Empty", { name := "Empty", body := .interface [] [] }),
    (.listed "Shared", {
      name := "Shared", body := .alias (some (.union [.name "Named" [], .name "Tagged" []])) })]

theorem keyOf_is_exact_shared :
    let t := Ty.inter [.name "Shared" [], .object .interface (.listed "Empty") []]
    labels.StringKeyed t ∧
    ∃ K : StringSet, (∀ x, x ∈ K.toList ↔ labels.HasKey (· = .str x) t) ∧
      ∃ n, ∀ limit ≥ n, Shape.ofType labels limit (.keyOf t) = pure (.ofSet K) := by
  intro t
  have hstring : labels.StringKeyed t := by
    refine .inter ?_ trivial
    rw [List.forall_mem_cons, List.forall_mem_singleton]
    refine ⟨.name rfl (.union ?_), .interface rfl rfl (by decide)⟩
    rw [List.forall_mem_cons, List.forall_mem_singleton]
    exact ⟨.name rfl (.interface rfl rfl (by decide)), .name rfl (.interface rfl rfl (by decide))⟩
  exact ⟨hstring, keyOf_is_exact hstring⟩

/-- A key that is no string leaves no names, as long as it does not come together with any. -/
theorem Unmixed.not_hasName (h : cat.Unmixed t) (hkey : cat.HasKey (·.isStr = false) t)
    (x : String) : ¬cat.HasName x t := by
  unfold HasKey at hkey
  induction h with
  | interface hhead hproperties _ =>
      rw [offers_interface hhead hproperties] at hkey
      rw [HasName, offers_interface hhead hproperties]
      rintro ⟨hstr, _⟩
      obtain ⟨p, hp, hother⟩ := hkey
      rw [hstr p hp] at hother
      cases hother
  | @union members _ ih =>
      intro hname
      obtain ⟨hsome, hkeys⟩ := offers_union.1 hkey
      obtain ⟨_, hnames⟩ := offers_union.1 hname
      obtain ⟨t, ht⟩ := List.exists_mem_of_ne_nil members hsome
      exact ih t ht (hkeys t ht) (hnames t ht)
  | inter _ hsorts _ =>
      intro hname
      obtain ⟨t, ht, hother⟩ := offers_inter.1 hkey
      obtain ⟨u, hu, hname⟩ := offers_inter.1 hname
      rcases hsorts with hkeys | hnames
      · exact hkeys t ht hother
      · exact hnames u hu x hname
  | name hresolve _ ih =>
      intro hname
      exact ih ((offers_name hresolve).1 hkey) ((offers_name hresolve).1 hname)

/-- A key that is no string makes `keyof` a `never`, and neither `keyof` nor a mapped type over it
has a guard, unless an intersection puts such a key beside names. -/
theorem keyOf_rejects_other_keys {K : PropertyKey → Prop} (h : cat.Unmixed t)
    (hother : ∀ k, K k → k.isStr = false) (hkey : cat.HasKey K t) :
    ∃ n, ∀ limit ≥ n, Shape.ofType cat limit (.keyOf t) = pure .never ∧
      ∀ accessor, Guard.ofType cat limit (.keyOf t) accessor =
          throw (.ofText (Ty.keyOf t).render fun text =>
            .unsupported text none "keyof with no finite set of string keys") ∧
        ∀ x template params,
          Guard.ofType cat limit (.mapped x (.keyOf t) template params) accessor =
            throw (.ofText (Ty.mapped x (.keyOf t) template params).render fun text =>
              .unsupported ("mapped type " ++ text) none
                "the keys must come to a finite set of string literals") := by
  have hkey' : cat.HasKey (·.isStr = false) t := hkey.mono fun properties hsome =>
    hsome.imp fun p hp => ⟨hp.1, hother _ hp.2⟩
  obtain ⟨N, hN, n, hlimit⟩ := h.keyOf_eq_pure
  have hempty : N = .empty :=
    StringSet.eq_empty fun x hx => h.not_hasName hkey' x ((hN x).1 hx)
  rw [hempty, Shape.ofSet_empty] at hlimit
  refine ⟨n + 1, fun limit hle => ?_⟩
  cases limit with
  | zero => cases hle
  | succ limit =>
      have hle : n ≤ limit := Nat.le_of_succ_le_succ hle
      refine ⟨hlimit _ (Nat.le_succ_of_le hle), fun accessor => ⟨?_, fun x template params => ?_⟩⟩
      · simp only [Guard.ofType, hlimit limit hle, pure_bind]
      · simp only [Guard.ofType, Guard.ofMapped, hlimit limit hle, pure_bind]

theorem keyOf_rejects_other_keys_pair :
    let t := Ty.union [.object .interface (.listed "Pair") [],
      .inter [.object .interface (.listed "Empty") [], .object .interface (.listed "Pair") []]]
    labels.Unmixed t ∧ PropertyKey.isStr (.int 0) = false ∧ labels.HasKey (· = .int 0) t ∧
    ∃ n, ∀ limit ≥ n, Shape.ofType labels limit (.keyOf t) = pure .never ∧
      ∀ accessor, Guard.ofType labels limit (.keyOf t) accessor =
          throw (.ofText (Ty.keyOf t).render fun text =>
            .unsupported text none "keyof with no finite set of string keys") ∧
        ∀ x template params,
          Guard.ofType labels limit (.mapped x (.keyOf t) template params) accessor =
            throw (.ofText (Ty.mapped x (.keyOf t) template params).render fun text =>
              .unsupported ("mapped type " ++ text) none
                "the keys must come to a finite set of string literals") := by
  intro t
  have hpair : labels.HasKey (· = .int 0) (.object .interface (.listed "Pair") []) :=
    .interface rfl rfl ⟨_, List.mem_singleton_self _, rfl⟩
  have hnames :
      ∀ u ∈ [Ty.object .interface (.listed "Empty") [], .object .interface (.listed "Pair") []],
      ∀ x, ¬labels.HasName x u := by
    have hempty : labels.properties (.object .interface (.listed "Empty") []) = .ok [] := rfl
    have hpair : labels.properties (.object .interface (.listed "Pair") []) =
        .ok [field (.int 0) "Pair"] := rfl
    rw [List.forall_mem_cons, List.forall_mem_singleton]
    refine ⟨fun x hname => ?_, fun x hname => ?_⟩
    · obtain ⟨_, p, hp, _⟩ := (offers_interface rfl hempty).1 hname
      cases hp
    · obtain ⟨hstr, _⟩ := (offers_interface rfl hpair).1 hname
      cases hstr _ (List.mem_singleton_self _)
  have hunmixed : labels.Unmixed t := by
    refine .union ?_
    rw [List.forall_mem_cons, List.forall_mem_singleton]
    refine ⟨.interface rfl rfl trivial, .inter ?_ (.inr hnames)⟩
    rw [List.forall_mem_cons, List.forall_mem_singleton]
    exact ⟨.interface rfl rfl trivial, .interface rfl rfl trivial⟩
  have hkey : labels.HasKey (· = .int 0) t := by
    refine .union (List.cons_ne_nil _ _) ?_
    rw [List.forall_mem_cons, List.forall_mem_singleton]
    exact ⟨hpair, .inter (List.mem_cons_of_mem _ (List.mem_singleton_self _)) hpair⟩
  have hother : ∀ k, k = PropertyKey.int 0 → k.isStr = false := by
    intro k hk
    rw [hk]
    rfl
  exact ⟨hunmixed, rfl, hkey, keyOf_rejects_other_keys hunmixed hother hkey⟩

/-- Beside a name, the number is dropped: `keyof` has a guard that knows the name alone. -/
theorem keyOf_drops_other_key :
    let t :=
      Ty.inter [.object .interface (.listed "Named") [], .object .interface (.listed "Pair") []]
    labels.HasKey (· = .int 0) t ∧ PropertyKey.isStr (.int 0) = false ∧
    Shape.ofType labels 3 (.keyOf t) = pure (.exact (.ofList ["a"])) ∧
    Guard.ofType labels 4 (.keyOf t) (.named "v") = pure (.equalTo (.named "v") (.str "a")) :=
  ⟨.inter (List.mem_cons_of_mem _ (List.mem_singleton_self _))
    (.interface rfl rfl ⟨_, List.mem_singleton_self _, rfl⟩), rfl, rfl, rfl⟩

end Catalog

end TypeGuard
