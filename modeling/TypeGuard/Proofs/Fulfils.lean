import TypeGuard.Proofs.Conforms
import TypeGuard.Proofs.Extraction

/-! What a declaration asks for as it is written: its own members and those of all that it inherits
from, each with the arguments that it is inherited with. -/

namespace TypeGuard

variable {cat : Catalog} {marks : TypeParam → Bool} {env bindings : Bindings}
  {t u w : Ty} {v : Value} {bases elements : List Ty} {decl : DeclId} {properties : List Property}

theorem Ty.isKnot_of_head (h : t.head = .object .interface decl elements) : t.isKnot = true := by
  cases t with
  | object kind s us =>
      cases h
      rfl
  | ref target args =>
      cases h
      rfl
  | _ => cases h

namespace Catalog

namespace Inherits

theorem trans (h : cat.Inherits t u) (h' : cat.Inherits u w) : cat.Inherits t w := by
  induction h' with
  | self => exact h
  | base _ hbases hbase ih => exact ih.base hbases hbase

theorem self_or_base (hbases : cat.bases t = .ok bases) (h : cat.Inherits t w) :
    w = t ∨ ∃ base ∈ bases, cat.Inherits (base.substitute (cat.ownBindings t)) w := by
  induction h with
  | self => exact .inl rfl
  | base _ hbases' hbase ih =>
      rcases ih with heq | ⟨first, hfirst, hrest⟩
      · subst heq
        cases hbases'.symm.trans hbases
        exact .inr ⟨_, hbase, .self⟩
      · exact .inr ⟨first, hfirst, hrest.base hbases' hbase⟩

end Inherits

theorem Above.self_or_base (hbases : cat.bases t.head = .ok bases) (h : cat.Above t w) :
    w = t ∨ ∃ base ∈ bases, cat.Above base w := by
  induction h with
  | self => exact .inl rfl
  | base _ hbases' hbase ih =>
      rcases ih with heq | ⟨first, hfirst, hrest⟩
      · subst heq
        cases hbases'.symm.trans hbases
        exact .inr ⟨_, hbase, .self⟩
      · exact .inr ⟨first, hfirst, hrest.base hbases' hbase⟩

theorem Rooted.of_bases (hbases : cat.bases t.head = .ok bases)
    (h : ∀ base ∈ bases, cat.Rooted base) : cat.Rooted t := by
  intro u habove
  rcases habove.self_or_base hbases with rfl | ⟨base, hbase, habove⟩
  · exact ⟨bases, hbases⟩
  · exact h base hbase u habove

theorem head_of_substitute {kind : ObjectKind} (hparam : ∀ x, t ≠ .param x)
    (h : (t.substitute bindings).head = .object kind decl elements) :
    ∃ elements', t.head = .object kind decl elements' := by
  cases t with
  | param x => exact absurd rfl (hparam x)
  | object _ _ us =>
      cases h
      exact ⟨us, rfl⟩
  | ref _ _ => exact ⟨elements, h⟩
  | _ => cases h

theorem Rooted.of_substitute {kind : ObjectKind} (h : cat.Rooted (t.substitute bindings))
    (hhead : (t.substitute bindings).head = .object kind decl elements) : cat.Rooted t := by
  by_cases hparam : ∃ x, t = .param x
  · obtain ⟨x, rfl⟩ := hparam
    exact .of_bases rfl fun base hbase => absurd hbase List.not_mem_nil
  · obtain ⟨elements', ht⟩ := head_of_substitute (fun x hx => hparam ⟨x, hx⟩) hhead
    obtain ⟨bases, hbases⟩ := h _ .self
    have hbases' : cat.bases t.head = .ok bases := by
      rw [← hbases, ht, hhead]
      exact bases_of_head rfl rfl
    exact .of_bases hbases' fun base hbase => h.above (.base .self hbases hbase)

theorem ownBindings_congr {kind kind' : ObjectKind} {elements' : List Ty}
    (ht : t.head = .object kind decl elements) (hu : u.head = .object kind' decl elements')
    (hargs : t.args = u.args) :
    cat.ownBindings t = cat.ownBindings u := by
  rw [ownBindings, ownBindings, ht, hu, hargs]
  rfl

namespace WellScoped

theorem scoped_ownBindings (hcat : cat.WellScoped marks) (ht : cat.Whole marks t) :
    cat.Scoped marks (cat.ownBindings t) := by
  intro x a hx
  have harg := (List.of_mem_zip (Bindings.mem_of_mem_ofPairs (Bindings.mem_of_lookup hx))).2
  exact hcat.portable_of_closed (fits_args ht.fits harg) (unmapped_args ht.fits harg)
    (ht.params_args harg)

theorem direct (hcat : cat.WellScoped marks) (ht : cat.Whole marks t) : cat.Direct t := by
  intro u habove
  rcases hcat.fits_above habove with rfl | hfits
  · exact head_head_of_fits ht.fits.1
  · exact head_head_of_fits hfits.1

theorem peopled (hcat : cat.WellScoped marks) (ht : cat.Whole marks t) : cat.Peopled t := by
  intro u head habove hu
  obtain ⟨elements, hhead, _⟩ := exists_head_of_objectHead? hu
  have hfits : cat.Fits marks u := by
    rcases hcat.fits_above habove with rfl | hfits
    · exact ht.fits.1
    · exact hfits.1
  obtain ⟨d, hfind, hkind, _⟩ := backs_of_head hfits hhead
  rw [hasMembers, hfind]
  exact Option.isSome_iff_ne_none.2 hkind

/-- Nothing around a declaration gets into its bases. -/
theorem substitute_base (hcat : cat.WellScoped marks) (ht : cat.Whole marks t)
    (hbases : cat.bases t = .ok bases) (hbase : u ∈ bases)
    (henv : ∀ x, marks x = true → env.lookup x = none) :
    u.substitute (cat.ownBindings t ++ env) = u.substitute (cat.ownBindings t) := by
  obtain ⟨kind, decl, elements, d, hhead, hfind, _, hfits, hfree⟩ := hcat.fits_bases hbases hbase
  apply Ty.subst_congr
  intro x hx
  by_cases hmark : marks x = true
  · have hown := hcat.unmarked_ownBindings ht.fits.1 hmark
    rw [Ty.chase_of_none hown, Ty.chase_of_none]
    rw [Bindings.lookup_append, hown, henv x hmark]
    rfl
  · refine Ty.chase_append env fun y hy => ?_
    have hparam : x ∈ cat.paramsOf t.head := by
      rw [hhead, paramsOf, hfind]
      exact hfree (mem_free_of_mem_params hfits hx (Bool.eq_false_iff.2 hmark))
    rw [hcat.params_chase_ownBindings ht hhead hparam] at hy
    cases hy

end WellScoped

/-- A property that the declaration of an object lists. -/
def Bears (cat : Catalog) (t : Ty) (p : Property) : Prop :=
  ∃ head, objectHead? t = some head ∧ p ∈ cat.membersOf head

theorem bears_iff {kind : ObjectKind} {d : Declaration} {p : Property}
    (hhead : t.head = .object kind decl elements) (hfind : cat.declared? decl = some d) :
    cat.Bears t p ↔ p ∈ d.members := by
  simp only [Bears, objectHead?_of_head hhead, Option.some.injEq, exists_eq_left', membersOf, hfind]

theorem exists_of_bears {p : Property} (h : cat.Bears t p) :
    ∃ kind decl elements d, t.head = .object kind decl elements ∧ cat.declared? decl = some d ∧
      p ∈ d.members := by
  obtain ⟨head, hhead, hp⟩ := h
  obtain ⟨elements, ht, _⟩ := exists_head_of_objectHead? hhead
  obtain ⟨d, hfind, hmember⟩ := mem_membersOf hp
  exact ⟨_, _, elements, d, ht, hfind, hmember⟩

/-- A value has everything that is listed by an object or by what the object inherits from. -/
def Fulfils (cat : Catalog) (t : Ty) (v : Value) : Prop :=
  v.isObject = true ∧ ∀ w p u, cat.Inherits t w → cat.Bears w p → p.type? = some u →
    cat.Conforms [] (u.substitute (cat.ownBindings w)) (v.read (.str p.name.text))

theorem fulfils_iff (hbases : cat.bases t = .ok bases) :
    cat.Fulfils t v ↔ v.isObject = true ∧
      (∀ base ∈ bases, cat.Fulfils (base.substitute (cat.ownBindings t)) v) ∧
      ∀ p, cat.Bears t p → ∀ u, p.type? = some u →
        cat.Conforms [] (u.substitute (cat.ownBindings t)) (v.read (.str p.name.text)) := by
  constructor
  · rintro ⟨hv, hall⟩
    refine ⟨hv, fun base hbase => ⟨hv, fun w p u hw => ?_⟩, fun p hp u htype => ?_⟩
    · exact hall w p u ((Inherits.self.base hbases hbase).trans hw)
    · exact hall t p u .self hp htype
  · rintro ⟨hv, hinherited, hown⟩
    refine ⟨hv, fun w p u hw hp htype => ?_⟩
    rcases hw.self_or_base hbases with rfl | ⟨base, hbase, hw⟩
    · exact hown p hp u htype
    · exact (hinherited base hbase).2 w p u hw hp htype

/-- Whatever is inherited from is inherited with one list of arguments only, and no name is listed
for two properties. -/
structure Distinct (cat : Catalog) (t : Ty) : Prop where
  single : ∀ w w' kind kind' decl elements elements', cat.Inherits t w → cat.Inherits t w' →
    w.head = .object kind decl elements → w'.head = .object kind' decl elements' → w.args = w'.args
  once : ∀ w w' p q, cat.Inherits t w → cat.Inherits t w' → cat.Bears w p → cat.Bears w' q →
    p.name = q.name → p = q

/-- No heritage clause comes to a parameter either. -/
structure Orderly (cat : Catalog) (t : Ty) : Prop extends cat.Distinct t where
  named : ∀ w bases base x, cat.Inherits t w → cat.bases w = .ok bases → base ∈ bases →
    base ≠ .param x

theorem Orderly.inherits (h : cat.Orderly t) (hu : cat.Inherits t u) : cat.Orderly u where
  named w bases base x hw := h.named w bases base x (hu.trans hw)
  single w w' kind kind' decl elements elements' hw hw' :=
    h.single w w' kind kind' decl elements elements' (hu.trans hw) (hu.trans hw')
  once w w' p q hw hw' := h.once w w' p q (hu.trans hw) (hu.trans hw')

theorem Orderly.above (h : cat.Orderly t) (hw : cat.Inherits t w) {kind : ObjectKind}
    (hhead : w.head = .object kind decl elements) :
    ∃ u elements', cat.Above t u ∧ u.head = .object kind decl elements' := by
  induction hw generalizing kind decl elements with
  | self => exact ⟨t, elements, .self, hhead⟩
  | @base heir base bases hheir hbases hbase ih =>
      obtain ⟨kind', decl', _, _, _, hheirhead, _⟩ := mem_bases hbases hbase
      obtain ⟨u, elements', habove, hu⟩ := ih hheirhead
      have hbases' : cat.bases u.head = .ok bases := by
        rw [hu, bases_of_head (t := .object kind' decl' elements') rfl hheirhead]
        exact hbases
      obtain ⟨us, hus⟩ :=
        head_of_substitute (fun x => h.named heir bases base x hheir hbases hbase) hhead
      exact ⟨base, us, habove.base hbases' hbase, hus⟩

/-- What a declaration asks for is enough. -/
theorem Fulfils.conforms (hcat : cat.WellScoped marks) (ht : cat.Whole marks t)
    (hhead : t.head = .object .interface decl elements) (hrooted : cat.Rooted t)
    (h : cat.Fulfils t v) : cat.Conforms [] t (.ok v) := by
  obtain ⟨bindings, hbindings⟩ := bindings_ok hhead hrooted
  obtain ⟨properties, hproperties⟩ := properties_ok hhead hrooted (hcat.peopled ht)
  refine .object (Ty.isKnot_of_head hhead) (by rw [hhead]; rfl) (by rwa [Ty.knot_nil])
    (by rwa [Ty.knot_nil]) h.1 fun p hp u htype => ?_
  obtain ⟨t', w, head, ht', habove, hw, hmem⟩ := mem_properties hproperties hp
  cases (followNames_of_head hhead _ _).symm.trans ht'
  obtain ⟨_, _, _, d, hwhead, hfind, hmember⟩ := exists_of_bears ⟨head, hw, hmem⟩
  obtain ⟨w', _, _, hw', hhead', hchase⟩ := hcat.exists_inherits ht
    (not_leaks_of_isKnot (Ty.isKnot_of_head hhead)) hbindings habove hwhead hfind
  have hsame : u.substitute bindings = u.substitute (cat.ownBindings w') :=
    Ty.subst_congr (hchase p hmember u htype)
  rw [hsame]
  exact h.2 w' p u hw' ((bears_iff hhead' hfind).2 hmember) htype

/-- What a declaration asks for is no more than what its type does, if it is orderly. -/
theorem Conforms.fulfils (hcat : cat.WellScoped marks) (ht : cat.Whole marks t)
    (hhead : t.head = .object .interface decl elements) (hrooted : cat.Rooted t)
    (horderly : cat.Orderly t) (h : cat.Conforms [] t (.ok v)) : cat.Fulfils t v := by
  have hleaks : ¬cat.Leaks t := not_leaks_of_isKnot (Ty.isKnot_of_head hhead)
  obtain ⟨bindings, hbindings⟩ := bindings_ok hhead hrooted
  obtain ⟨properties, hproperties⟩ := properties_ok hhead hrooted (hcat.peopled ht)
  rw [object_iff (Ty.isKnot_of_head hhead) (by rw [hhead]; rfl) (by rwa [Ty.knot_nil])
    (by rwa [Ty.knot_nil])] at h
  obtain ⟨_, heq, hv, hall⟩ := h
  cases heq
  refine ⟨hv, fun w p u hw hp htype => ?_⟩
  obtain ⟨kind, decl', elements', d, hwhead, hfind, hmember⟩ := exists_of_bears hp
  obtain ⟨w₀, elements₀, habove, hw₀⟩ := horderly.above hw hwhead
  have hmem : p ∈ properties := by
    obtain ⟨head₀, hw₀head, hp₀⟩ := (bears_iff hw₀ hfind).2 hmember
    refine mem_properties_of_above hhead (hcat.direct ht) hproperties habove hw₀head hp₀ ?_
    intro u' head' q habove' hu' hq hname
    obtain ⟨_, _, _, d', huhead, hfind', hmember'⟩ := exists_of_bears ⟨head', hu', hq⟩
    obtain ⟨w', _, _, hw', hhead', _⟩ :=
      hcat.exists_inherits ht hleaks hbindings habove' huhead hfind'
    exact horderly.once w' w q p hw' hw ((bears_iff hhead' hfind').2 hmember') hp hname
  obtain ⟨w', kind', _, hw', hhead', hchase⟩ :=
    hcat.exists_inherits ht hleaks hbindings habove hw₀ hfind
  have hargs := horderly.single w' w kind' kind decl' _ _ hw' hw hhead' hwhead
  have hsame : u.substitute bindings = u.substitute (cat.ownBindings w') :=
    Ty.subst_congr (hchase p hmember u htype)
  rw [← ownBindings_congr hhead' hwhead hargs, ← hsame]
  exact hall p hmem u htype

end Catalog

end TypeGuard
