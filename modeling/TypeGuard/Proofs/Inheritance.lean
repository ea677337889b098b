import TypeGuard.Proofs.Heritage

/-! Which names an interface inherits. A clause is followed by one step: what it stands for counts
with all that it inherits itself, unless it is a name still, which counts for nothing. -/

namespace TypeGuard

open Relation (ReflTransGen)

namespace Catalog

variable {cat : Catalog}

theorem mem_names_overlay {name : PropertyName} {found : List Property} {member : Property} :
    name ∈ (overlay found member).map Property.name ↔
      name ∈ found.map Property.name ∨ name = member.name := by
  rw [overlay, List.map_append, List.mem_append, List.map_singleton, List.mem_singleton]
  constructor
  · intro h
    rcases h with h | h
    · obtain ⟨p, hp, hname⟩ := List.mem_map.1 h
      exact .inl (List.mem_map.2 ⟨p, (List.mem_filter.1 hp).1, hname⟩)
    · exact .inr h
  · intro h
    by_cases hlast : name = member.name
    · exact .inr hlast
    · obtain ⟨p, hp, rfl⟩ := List.mem_map.1 (h.resolve_right hlast)
      exact .inl (List.mem_map.2 ⟨p, List.mem_filter.2 ⟨hp, decide_eq_true hlast⟩, rfl⟩)

/-- A member may drive out another one, but no name is driven out. -/
theorem mem_names_foldl_overlay {name : PropertyName} {found members : List Property} :
    name ∈ (members.foldl overlay found).map Property.name ↔
      name ∈ found.map Property.name ∨ name ∈ members.map Property.name := by
  induction members generalizing found with
  | nil => simp
  | cons member rest ih =>
      rw [List.foldl_cons, ih, mem_names_overlay, List.map_cons, List.mem_cons, or_assoc]

theorem lineage_of_properties {t : Ty} {head : ObjectHead} {properties : List Property}
    (hhead : objectHead? t = some head) (h : cat.properties t = .ok properties) :
    ∃ line, cat.lineage (cat.clauses.length + 2) head {} = .ok line ∧
      properties = (line.order.flatMap cat.membersOf).foldl overlay [] := by
  obtain ⟨u, hu, hcases⟩ := properties_eq_ok h
  obtain ⟨elements, hobject, _⟩ := exists_head_of_objectHead? hhead
  rw [followNames_of_head hobject] at hu
  cases hu
  rcases hcases with ⟨hnone, _⟩ | ⟨head', line, hhead', hline, rfl⟩
  · rw [hhead] at hnone
    cases hnone
  · rw [hhead] at hhead'
    cases hhead'
    exact ⟨line, hline, rfl⟩

/-- The names of an object are those of the members of all that it inherits from. -/
theorem mem_names_properties {t : Ty} {head : ObjectHead} {properties : List Property}
    {name : PropertyName} (hhead : objectHead? t = some head)
    (h : cat.properties t = .ok properties) :
    name ∈ properties.map Property.name ↔ ∃ found, ReflTransGen cat.Extends head found ∧
      name ∈ (cat.membersOf found).map Property.name := by
  obtain ⟨line, hline, rfl⟩ := lineage_of_properties hhead h
  have hempty : name ∉ ([] : List Property).map Property.name := List.not_mem_nil
  rw [mem_names_foldl_overlay, or_iff_right hempty, List.map_flatMap, List.mem_flatMap]
  simp only [mem_lineage_iff hline]

theorem sited_of_properties {t : Ty} {head heir : ObjectHead} {properties : List Property}
    (hhead : objectHead? t = some head) (h : cat.properties t = .ok properties)
    (hheir : ReflTransGen cat.Extends head heir) : cat.Sited heir := by
  obtain ⟨line, hline, _⟩ := lineage_of_properties hhead h
  have hmem := mem_lineage_of_extends hline hheir
  obtain ⟨bases, hbases, _⟩ :=
    ((lineage_grows hline).1.closed heir hmem).resolve_left List.not_mem_nil
  exact ⟨⟨bases, hbases⟩, (hasMembers_of_mem_lineage hline hmem).resolve_left List.not_mem_nil⟩

theorem mem_bases_iff {t base : Ty} {kind : ObjectKind} {decl : DeclId} {elements : List Ty}
    {d : Declaration} {bases : List Ty} (hhead : t.head = .object kind decl elements)
    (hfind : cat.declared? decl = some d) (h : cat.bases t = .ok bases) :
    base ∈ bases ↔ ∃ clause ∈ d.heritage, cat.resolve clause.annotation = .ok base := by
  simp only [Catalog.bases, hhead, hfind] at h
  have hall := mapM_eq_ok.1 h
  constructor
  · exact exists_of_forall₂_right hall
  · rintro ⟨clause, hclause, hresolve⟩
    obtain ⟨base', hbase', hresolve'⟩ := exists_of_forall₂_right hall.flip hclause
    rw [hresolve] at hresolve'
    cases hresolve'
    exact hbase'

theorem properties_of_resolve {s : String} {args : List Ty} {t : Ty}
    (hresolve : cat.resolve (.name s args) = .ok t) (hname : t.isName = false) :
    cat.properties (.name s args) = cat.properties t := by
  have hfollow : cat.followNames (cat.entries.length + 1) [] (.name s args) = .ok t := by
    simp only [followNames, List.not_mem_nil, if_false, hresolve, bind, Except.bind]
    exact followNames_of_isName hname _ _
  rw [Catalog.properties, Catalog.properties, hfollow, followNames_of_isName hname]

theorem properties_of_clause {clause : Heritage} {t : Ty}
    (hresolve : cat.resolve clause.annotation = .ok t) (hname : t.isName = false) :
    cat.properties clause.annotation = cat.properties t :=
  properties_of_resolve hresolve hname

theorem isName_of_objectHead? {t : Ty} {head : ObjectHead} (h : objectHead? t = some head) :
    t.isName = false := by
  cases t with
  | name s args => cases h
  | _ => rfl

/-- The names of an interface are its own and those of the clauses that stand for something else
than a name. -/
theorem names_of_interface {decl : DeclId} {elements : List Ty} {d : Declaration}
    {properties : List Property} (hfind : cat.declared? decl = some d)
    (h : cat.properties (.object .interface decl elements) = .ok properties) (name : PropertyName) :
    name ∈ properties.map Property.name ↔ name ∈ d.members.map Property.name ∨
      ∃ clause ∈ d.heritage, ∃ t inherited, cat.resolve clause.annotation = .ok t ∧
        t.isName = false ∧ cat.properties clause.annotation = .ok inherited ∧
        name ∈ inherited.map Property.name := by
  let own : ObjectHead := ⟨.interface, decl, Ty.keys elements⟩
  have hown : cat.membersOf own = d.members := by rw [membersOf, hfind]
  have hhead : objectHead? (.object .interface decl elements) = some own := rfl
  obtain ⟨⟨bases, hbases⟩, _⟩ := sited_of_properties hhead h .refl
  rw [mem_names_properties hhead h]
  constructor
  · rintro ⟨found, hfound, hmember⟩
    rcases hfound.cases_head with rfl | ⟨first, ⟨bases', hbases', base, hbase, hfirst⟩, hrest⟩
    · rw [hown] at hmember
      exact .inl hmember
    · have hextends : cat.Extends own first := ⟨bases', hbases', base, hbase, hfirst⟩
      obtain ⟨clause, hclause, hresolve⟩ := (mem_bases_iff rfl hfind hbases').1 hbase
      obtain ⟨inherited, hinherited⟩ : ∃ inherited, cat.properties base = .ok inherited :=
        properties_ok_of_extends hfirst fun heir hheir =>
          sited_of_properties hhead h (hheir.head hextends)
      have hname := isName_of_objectHead? hfirst
      refine .inr ⟨clause, hclause, base, inherited, hresolve, hname, ?_, ?_⟩
      · rw [properties_of_clause hresolve hname]
        exact hinherited
      · exact (mem_names_properties hfirst hinherited).2 ⟨found, hrest, hmember⟩
  · rintro (hmember | ⟨clause, hclause, t, inherited, hresolve, hname, hinherited, hmember⟩)
    · refine ⟨own, .refl, ?_⟩
      rw [hown]
      exact hmember
    · rw [properties_of_clause hresolve hname] at hinherited
      cases hhead : objectHead? t with
      | none =>
          obtain ⟨u, hu, hcases⟩ := properties_eq_ok hinherited
          rw [followNames_of_isName hname] at hu
          cases hu
          rw [hhead] at hcases
          obtain ⟨_, rfl⟩ | ⟨head, _, hsome, _⟩ := hcases
          · cases hmember
          · cases hsome
      | some first =>
          have hbase : t ∈ bases := (mem_bases_iff rfl hfind hbases).2 ⟨clause, hclause, hresolve⟩
          obtain ⟨found, hfound, hmember⟩ := (mem_names_properties hhead hinherited).1 hmember
          exact ⟨found, hfound.head ⟨bases, hbases, t, hbase, hhead⟩, hmember⟩

/-! An interface that extends another one by way of an alias. -/

def text (key owner : String) : Property :=
  ⟨.str key, some (.primitive "string"), false, none, .listed owner⟩

def heir : Declaration where
  name := "Heir"
  body := .interface [⟨"Near", []⟩] [text "y" "Heir"]

def ofNear (body : Ty) : Catalog where
  entries := [(.listed "Base", { name := "Base", body := .interface [] [text "x" "Base"] }),
    (.listed "Near", { name := "Near", body := .alias (some body) }), (.listed "Heir", heir)]

theorem names_of_interface_near :
    let cat := ofNear (.object .interface (.listed "Base") [])
    cat.find? "Heir" = some heir ∧
    cat.properties (.object .interface (.listed "Heir") []) =
      .ok [text "x" "Base", text "y" "Heir"] ∧
    (.spelled "x" ∈ [text "x" "Base", text "y" "Heir"].map Property.name ↔
      .spelled "x" ∈ heir.members.map Property.name ∨
      ∃ clause ∈ heir.heritage, ∃ t inherited, cat.resolve clause.annotation = .ok t ∧
        t.isName = false ∧ cat.properties clause.annotation = .ok inherited ∧
        .spelled "x" ∈ inherited.map Property.name) := by
  intro cat
  have hfind : cat.find? "Heir" = some heir := rfl
  have hproperties : cat.properties (.object .interface (.listed "Heir") []) =
      .ok [text "x" "Base", text "y" "Heir"] := rfl
  exact ⟨hfind, hproperties, names_of_interface hfind hproperties _⟩

/-- Where the alias is one of a name, the clause has a property that the interface has not. -/
theorem names_lost_behind_name :
    let cat := ofNear (.name "Base" [])
    let clause : Heritage := ⟨"Near", []⟩
    cat.find? "Heir" = some heir ∧ clause ∈ heir.heritage ∧
    cat.properties clause.annotation = .ok [text "x" "Base"] ∧
    cat.properties (.object .interface (.listed "Heir") []) = .ok [text "y" "Heir"] ∧
    .spelled "x" ∈ [text "x" "Base"].map Property.name ∧
    .spelled "x" ∉ [text "y" "Heir"].map Property.name :=
  ⟨rfl, List.mem_cons_self, rfl, rfl, by decide, by decide⟩

end Catalog

end TypeGuard
