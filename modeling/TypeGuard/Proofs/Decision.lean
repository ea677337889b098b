import TypeGuard.Proofs.Fulfils
import TypeGuard.Proofs.Safety

/-! Guards decide conformance: a guard is true of the values that conform to its type and false of
all others. -/

namespace TypeGuard

variable {cat : Catalog} {marks : TypeParam → Bool} {env : Bindings} {path : List Ty} {t u : Ty}
  {v : Value} {keys : StringSet} {parts : List Part}

theorem eq_of_mem_zip_map {α β : Type} {f : α → β} {xs : List α} {x : α} {y : β}
    (h : (x, y) ∈ xs.zip (xs.map f)) : y = f x := by
  induction xs with
  | nil => cases h
  | cons a xs ih =>
      rcases List.mem_cons.1 h with heq | hmem
      · cases heq
        rfl
      · exact ih hmem

namespace Catalog

theorem treads_nil : cat.Treads [] :=
  fun _ hr => absurd hr List.not_mem_nil

theorem Sits.follow (hcat : cat.WellScoped marks) (h : cat.Sits marks env t)
    (hfollow : Follows cat env t u) : cat.Sits marks env u := by
  obtain ⟨_, _, hu⟩ := (Alike.refl (g := id) h).follow hcat hfollow
  exact hu.left

theorem Spells.of_classifies (hcat : cat.WellScoped marks) (hsits : cat.Sits marks env t)
    (hpath : cat.Treads path) (h : Classifies cat .strings env path t (.exact keys)) :
    cat.Spells env t keys :=
  spells_iff.2 (h.transfer hcat (.refl hsits) hpath treads_nil)

end Catalog

/-- What an answer says about a condition: a yes is right, and in full, so is a no. -/
def Settles (full : Prop) (b : Bool) (P : Prop) : Prop :=
  (b = true → P) ∧ (full → P → b = true)

namespace Settles

variable {full P Q : Prop} {b : Bool}

theorem of_iff (h : b = true ↔ P) : Settles full b P :=
  ⟨h.1, fun _ => h.2⟩

theorem congr (h : Settles full b P) (hiff : P ↔ Q) : Settles full b Q :=
  ⟨fun hb => hiff.1 (h.1 hb), fun hfull hQ => h.2 hfull (hiff.2 hQ)⟩

theorem weaken (h : Settles full b P) (himp : P → Q) (hback : full → Q → P) : Settles full b Q :=
  ⟨fun hb => himp (h.1 hb), fun hfull hQ => h.2 hfull (hback hfull hQ)⟩

theorem not_of_false (h : Settles full false P) (hfull : full) : ¬P :=
  fun hP => Bool.noConfusion (h.2 hfull hP)

end Settles

namespace Answers

variable {α : Type} {slack : Nat} {cs : List Check} {a : Expr} {xs : List α} {es : List Expr}
  {full : Prop} {P : α → Reading → Prop}

theorem settle_any (hlength : xs.length = es.length)
    (h : ∀ x e, (x, e) ∈ xs.zip es → Answers slack cs a e fun r b => Settles full b (P x r)) :
    Answers slack cs a (.anyOf es) fun r b => Settles full b (∃ x ∈ xs, P x r) := by
  refine (anyOf hlength h).mono fun r b hb => ?_
  cases b with
  | true =>
      obtain ⟨x, hx, hP⟩ := hb.1 rfl
      exact ⟨fun _ => ⟨x, hx, hP.1 rfl⟩, fun _ _ => rfl⟩
  | false => exact ⟨nofun, fun hfull ⟨x, hx, hP⟩ => absurd hP ((hb.2 rfl x hx).not_of_false hfull)⟩

theorem settle_all (hlength : xs.length = es.length)
    (h : ∀ x e, (x, e) ∈ xs.zip es → Answers slack cs a e fun r b => Settles full b (P x r)) :
    Answers slack cs a (.allOf es) fun r b => Settles full b (∀ x ∈ xs, P x r) := by
  refine (allOf hlength h).mono fun r b hb => ?_
  cases b with
  | true => exact ⟨fun _ x hx => (hb.1 rfl x hx).1 rfl, fun _ _ => rfl⟩
  | false =>
      obtain ⟨x, hx, hP⟩ := hb.2 rfl
      exact ⟨nofun, fun hfull hall => absurd (hall x hx) (hP.not_of_false hfull)⟩

theorem settle_whole {P : Part → Reading → Prop} (hplain : ∀ part ∈ parts, part.Plain)
    (hlength : parts.length = es.length) (h : ∀ part e, (part, e) ∈ parts.zip es →
      Answers part.slack cs (part.accessor a) e fun r b => Settles full b (P part r)) :
    Answers 1 cs a (Guard.whole a es) fun r b => ∃ v, r = .ok v ∧
      Settles full b (v.isObject = true ∧ ∀ part ∈ parts, P part (part.reading v)) := by
  refine (whole hplain hlength h).mono fun r b hb => ?_
  obtain ⟨v, hv, htrue, hfalse⟩ := hb
  refine ⟨v, hv, ?_⟩
  cases b with
  | true =>
      obtain ⟨hobject, hall⟩ := htrue rfl
      exact ⟨fun _ => ⟨hobject, fun part hpart => (hall part hpart).1 rfl⟩, fun _ _ => rfl⟩
  | false =>
      refine ⟨nofun, fun hfull ⟨hobject, hall⟩ => ?_⟩
      rcases hfalse rfl with hno | ⟨part, hpart, hP⟩
      · exact hno.symm.trans hobject
      · exact absurd (hall part hpart) (hP.not_of_false hfull)

end Answers

/-- What is asked of a value by a type, or by a declaration as it is written. -/
def Catalog.Holds (cat : Catalog) (env : Bindings) (t : Ty) (r : Reading) : Bool → Prop
  | false => cat.Conforms env t r
  | true => ∃ v, r = .ok v ∧ cat.Fulfils t v

/-- A declaration is met among bindings that come from other declarations. -/
def Catalog.Placed (cat : Catalog) (marks : TypeParam → Bool) (full : Prop) (env : Bindings)
    (t : Ty) : Bool → Prop
  | false => cat.Sits marks env t
  | true => cat.Whole marks t ∧ (∀ x, marks x = true → env.lookup x = none) ∧
      (full → cat.Orderly t)

theorem Catalog.holds_declared : cat.Holds env t (.ok v) true ↔ cat.Fulfils t v := by
  constructor
  · rintro ⟨w, heq, hw⟩
    cases heq
    exact hw
  · exact fun h => ⟨v, rfl, h⟩

theorem Catalog.Conforms.ofKeys_iff {x : TypeParam} {c template : Ty} {xs : List TypeParam}
    (hkeys : cat.Spells env c keys) :
    cat.Conforms env (.mapped x c template xs) (.ok v) ↔ v.isObject = true ∧
      ∀ part ∈ Part.ofKeys env x template keys.toList,
        cat.Holds part.env part.type (part.reading v) part.declared := by
  rw [mapped_iff hkeys]
  constructor
  · rintro ⟨w, heq, hw, hall⟩
    cases heq
    refine ⟨hw, fun part hmem => ?_⟩
    obtain ⟨key, hkey, rfl⟩ := List.mem_map.1 hmem
    exact hall key hkey
  · rintro ⟨hv, hall⟩
    exact ⟨v, rfl, hv, fun key hkey => hall _ (List.mem_map.2 ⟨key, hkey, rfl⟩)⟩

namespace Knots

variable {full : Prop} {task : Task}

theorem holds_iff (h : Knots task t) : cat.Holds [] t (.ok v) task.declared ↔
    cat.Holds task.env task.type (.ok v) task.declared := by
  cases h with
  | flat hknot => exact (Catalog.Conforms.knot_iff hknot).symm
  | declared _ => exact Iff.rfl

theorem whole (h : Knots task t)
    (hplaced : cat.Placed marks full task.env task.type task.declared) :
    cat.Whole marks t ∧ t.isKnot = true := by
  cases h with
  | flat hknot =>
      have hsits : cat.Sits marks _ _ := hplaced
      exact ⟨hsits.whole_knot hknot, Ty.isKnot_knot hknot⟩
  | declared hhead => exact ⟨hplaced.1, Ty.isKnot_of_head hhead⟩

theorem placed (h : Knots task t)
    (hplaced : cat.Placed marks full task.env task.type task.declared)
    (hdeclared : task.declared = true) : cat.Placed marks full task.env t true := by
  cases h with
  | flat => cases hdeclared
  | declared => exact hplaced

end Knots

namespace Part

theorem conforms_iff (hcat : cat.WellScoped marks) (hplain : cat.Plain) {bindings : Bindings}
    (hscoped : cat.Scoped marks bindings)
    (hmarks : ∀ x, marks x = true → bindings.lookup x = none)
    {i : DeclId} {d : Declaration} {p : Property} {part : Part} (hfind : cat.declared? i = some d)
    (hp : p ∈ d.members) (hground : ∀ u, p.type? = some u → cat.Grounded marks bindings u)
    (h : OfProperty (bindings ++ env) p part) :
    ∃ u, p.type? = some u ∧ (cat.Holds part.env part.type (part.reading v) part.declared ↔
      cat.Conforms [] (u.substitute bindings) (v.read (.str p.name.text))) := by
  obtain ⟨u, index, htype, hindex, rfl⟩ := h
  rw [hplain.index hfind hp hindex]
  exact ⟨u, htype, Catalog.Conforms.iff_of_alike hcat
    (.substitute hcat hscoped hmarks (hground u htype))⟩

theorem forall_iff {members : List Property} {P : Part → Prop} {Q : Property → Ty → Prop}
    (hparts : List.Forall₂ (OfProperty env) members parts)
    (h : ∀ p part, p ∈ members → OfProperty env p part → ∃ u, p.type? = some u ∧ (P part ↔ Q p u)) :
    (∀ part ∈ parts, P part) ↔ ∀ p ∈ members, ∀ u, p.type? = some u → Q p u := by
  constructor
  · intro hall p hp u htype
    obtain ⟨part, hmem, hof⟩ := exists_of_forall₂_right hparts.flip hp
    obtain ⟨u', htype', hiff⟩ := h p part hp hof
    cases htype.symm.trans htype'
    exact hiff.1 (hall part hmem)
  · intro hall part hmem
    obtain ⟨p, hp, hof⟩ := exists_of_forall₂_right hparts hmem
    obtain ⟨u, htype, hiff⟩ := h p part hp hof
    exact hiff.2 (hall p hp u htype)

end Part

namespace Parts

variable {full : Prop} {declared : Bool} {decl : DeclId} {elements : List Ty} {d : Declaration}

theorem declared_eq (hhead : t.head = .object .interface decl elements)
    (hfind : cat.declared? decl = some d) :
    Bindings.ofPairs (d.params.zip t.args) = cat.ownBindings t := by
  rw [Catalog.ownBindings, hhead, Catalog.paramsOf, hfind]

theorem rooted (h : Parts cat env path true t parts)
    (hparts : ∀ part ∈ parts, part.declared = true →
      cat.Rooted part.type ∧ ∃ decl elements, part.type.head = .object .interface decl elements) :
    cat.Rooted t ∧ ∃ decl elements, t.head = .object .interface decl elements := by
  cases h with
  | declared hhead hfind _ hbases _ =>
      have hbases :=
        (Catalog.bases_of_declared (t := t.head) (by rw [hhead]; rfl) hfind).trans hbases
      refine ⟨.of_bases hbases fun base hbase => ?_, _, _, hhead⟩
      obtain ⟨hrooted, _, _, hhead'⟩ := hparts _
        (List.mem_append_left _ (List.mem_map.2 ⟨base, hbase, rfl⟩)) rfl
      exact hrooted.of_substitute hhead'

theorem placed (hcat : cat.WellScoped marks) (h : Parts cat env path declared t parts)
    (ht : cat.Whole marks t) (hknot : t.isKnot = true)
    (hpath : cat.Treads path) (hplaced : declared = true → cat.Placed marks full env t true)
    {part : Part} (hpart : part ∈ parts) :
    cat.Placed marks full part.env part.type part.declared := by
  cases declared with
  | false =>
      obtain ⟨parts', _, hlike⟩ := h.transfer hcat ht hknot hpath env
      obtain ⟨part', _, hdeclared, _, _, halike⟩ := exists_of_forall₂_right hlike.flip hpart
      rw [hdeclared]
      exact halike.left
  | true =>
      obtain ⟨_, hmarks, horderly⟩ := hplaced rfl
      cases h with
      | @declared _ _ _ d _ _ _ _ hhead hfind hbody hbases hmembers =>
          have hbases := (Catalog.bases_of_declared hhead hfind).trans hbases
          rw [declared_eq hhead hfind] at hpart hmembers
          have hscoped := hcat.scoped_ownBindings ht
          rcases List.mem_append.1 hpart with hpart | hpart
          · obtain ⟨base, hbase, rfl⟩ := List.mem_map.1 hpart
            have hsame := hcat.substitute_base ht hbases hbase hmarks
            refine ⟨?_, fun x hx => ?_, fun hfull => ?_⟩
            · rw [hsame]
              exact hcat.whole_base ht hbases hbase
            · rw [Bindings.lookup_append, hcat.unmarked_ownBindings ht.fits.1 hx, hmarks x hx]
              rfl
            · rw [hsame]
              exact (horderly hfull).inherits (.base .self hbases hbase)
          · obtain ⟨p, hp, u, index, htype, _, rfl⟩ := exists_of_forall₂_right hmembers hpart
            have hmember : p ∈ d.members := by
              rw [Declaration.members, hbody]
              exact hp
            exact (hcat.grounded_member ht hhead hfind hmember htype).sits hscoped env

/-- A value is what is asked for if it is an object whose parts are. -/
theorem holds_iff (hcat : cat.WellScoped marks) (hplain : cat.Plain)
    (h : Parts cat env path declared t parts) (ht : cat.Whole marks t) (hknot : t.isKnot = true)
    (hpath : cat.Treads path)
    (hplaced : declared = true → cat.Placed marks full env t true) :
    cat.Holds [] t (.ok v) declared ↔ v.isObject = true ∧
      ∀ part ∈ parts, cat.Holds part.env part.type (part.reading v) part.declared := by
  cases h with
  | @properties _ bindings properties _ hmapped hbindings hproperties hparts =>
      have hname := Ty.isName_of_isKnot hknot
      have hscoped := hcat.scoped_bindings ht hbindings
      rw [Part.forall_iff hparts fun p part hp hof => by
        obtain ⟨_, _, _, _, _, _, hmem⟩ := Catalog.mem_properties hproperties hp
        obtain ⟨d, hfind, hmember⟩ := Catalog.mem_membersOf hmem
        exact Part.conforms_iff hcat hplain hscoped
          (fun x hx => hcat.unmarked_bindings ht hbindings hx) hfind hmember
          (fun u htype => hcat.grounded_property ht (Catalog.not_leaks_of_isKnot hknot) hname
            hbindings hproperties hp htype) hof]
      refine (Catalog.Conforms.object_iff hknot hmapped (by rwa [Ty.knot_nil])
        (by rwa [Ty.knot_nil])).trans ⟨?_, fun ⟨hv, hall⟩ => ⟨v, rfl, hv, hall⟩⟩
      rintro ⟨w, heq, hw, hall⟩
      cases heq
      exact ⟨hw, hall⟩
  | @keys _ bindings x c template xs names hbindings hhead hkeys =>
      have htread := Parts.treads (.keys hbindings hhead hkeys) hknot hpath
      have hmapped : t.head.isMapped = true := by rw [hhead]; rfl
      have hground := hcat.grounded_head ht hknot hmapped hbindings
      have hsits := hground.sits (hcat.scoped_bindings ht hbindings) env
      refine (Catalog.Conforms.target_iff hknot hmapped (by rwa [Ty.knot_nil])).trans ?_
      rw [← Catalog.Conforms.iff_of_alike hcat (.instantiate hcat ht hbindings hground)]
      rw [hhead] at hsits ⊢
      exact Catalog.Conforms.ofKeys_iff (.of_classifies hcat hsits.constraint htread hkeys)
  | @declared _ decl elements d heritage members bases parts' hhead hfind hbody hbases hmembers =>
      obtain ⟨_, hmarks, _⟩ := hplaced rfl
      have hbases := (Catalog.bases_of_declared hhead hfind).trans hbases
      have hmember : ∀ p, p ∈ members ↔ p ∈ d.members := by
        intro p
        rw [Declaration.members, hbody]
      rw [declared_eq hhead hfind] at hmembers ⊢
      rw [Catalog.holds_declared, Catalog.fulfils_iff hbases, List.forall_mem_append,
        List.forall_mem_map, Part.forall_iff hmembers fun p part hp hof =>
          Part.conforms_iff hcat hplain (hcat.scoped_ownBindings ht)
            (fun x hx => hcat.unmarked_ownBindings ht.fits.1 hx) hfind ((hmember p).1 hp)
            (fun u htype => hcat.grounded_member ht hhead hfind ((hmember p).1 hp) htype) hof]
      simp only [Catalog.bears_iff hhead hfind, hmember]
      refine and_congr_right fun _ => and_congr_left fun _ => forall₂_congr fun base hbase => ?_
      rw [hcat.substitute_base ht hbases hbase hmarks]
      exact Catalog.holds_declared.symm

end Parts

theorem exists_mem_zip_left {α β : Type} {xs : List α} {ys : List β}
    (hlength : xs.length = ys.length) {x : α} (hx : x ∈ xs) : ∃ y, (x, y) ∈ xs.zip ys := by
  obtain ⟨y, hy⟩ := exists_mem_zip hlength.symm hx
  rw [← List.zip_swap] at hy
  obtain ⟨⟨x', y'⟩, hmem, heq⟩ := List.mem_map.1 hy
  cases heq
  exact ⟨_, hmem⟩

theorem Knots.rooted {task : Task} {es : List Expr} (h : Knots task t)
    (hparts : Parts cat task.env path task.declared t parts) (hlength : parts.length = es.length)
    (heach : ∀ part e, (part, e) ∈ parts.zip es → part.declared = true →
      cat.Rooted part.type ∧ ∃ decl elements, part.type.head = .object .interface decl elements)
    (hdeclared : task.declared = true) :
    cat.Rooted task.type ∧ ∃ decl elements, task.type.head = .object .interface decl elements := by
  cases h with
  | flat => cases hdeclared
  | declared =>
      refine hparts.rooted fun part hpart hdeclared => ?_
      obtain ⟨e, hmem⟩ := exists_mem_zip_left hlength hpart
      exact heach part e hmem hdeclared

namespace Guards

variable {table : Numbering} {live : List Ty} {task : Task} {e : Expr}

theorem rooted (h : Guards cat table live path task e)
    (hdeclared : task.declared = true) :
    cat.Rooted task.type ∧ ∃ decl elements, task.type.head = .object .interface decl elements := by
  induction h with
  | fix hknots _ _ hparts _ hlength _ ih => exact hknots.rooted hparts hlength ih hdeclared
  | inline hknots hparts _ hlength _ ih => exact hknots.rooted hparts hlength ih hdeclared
  | _ => cases hdeclared

/-- What a check that can be called is to say about a value. -/
def Told (cat : Catalog) (full : Prop) (t : Ty) (v : Value) (b : Bool) : Prop :=
  Settles full b (cat.Conforms [] t (.ok v))

/-- Whatever is guarded as declared conforms, and in full, nothing else does. -/
theorem told {full : Prop} (hcat : cat.WellScoped marks) (h : Guards cat table live path task e)
    (hknots : Knots task t) (hplaced : cat.Placed marks full task.env task.type task.declared)
    {b : Bool} (hb : Settles full b (cat.Holds [] t (.ok v) task.declared)) :
    Told cat full t v b := by
  cases hknots with
  | flat => exact hb
  | declared =>
      obtain ⟨hrooted, _, _, hhead⟩ := h.rooted rfl
      obtain ⟨hwhole, _, horderly⟩ := hplaced
      rw [Catalog.holds_declared] at hb
      exact hb.weaken (fun hv => hv.conforms hcat hwhole hhead hrooted)
        fun hfull hv => hv.fulfils hcat hwhole hhead hrooted (horderly hfull)

theorem treads (h : Guards cat table live path task e) (hknots : Knots task t)
    (hparts : Parts cat task.env path task.declared t parts) (hpath : cat.Treads path) :
    cat.Treads (t :: path) := by
  cases hknots with
  | flat hknot => exact Parts.treads hparts (Ty.isKnot_knot hknot) hpath
  | declared =>
      obtain ⟨hrooted, _, _, hhead⟩ := h.rooted rfl
      refine List.forall_mem_cons.2 ⟨⟨Ty.isKnot_of_head hhead, ?_⟩, hpath⟩
      exact Catalog.bindings_ok hhead hrooted

/-- A guard is true only where what is read is what is asked for, and in full, true there as well,
if the checks around it are. -/
theorem settles {full : Prop} (hcat : cat.WellScoped marks) (hplain : cat.Plain)
    (h : Guards cat table live path task e)
    (hplaced : cat.Placed marks full task.env task.type task.declared) (hpath : cat.Treads path)
    (hlive : ∀ t ∈ live, cat.Whole marks t) {cs : List Check}
    (hcs : Stands table (Told cat full) live cs) :
    Answers task.slack cs task.accessor e fun r b =>
      Settles full b (cat.Holds task.env task.type r task.declared) := by
  induction h generalizing cs with
  | test htest =>
      refine (Answers.test _).mono fun r b hb => .of_iff ?_
      exact (Test.decides_iff hb).trans (Catalog.Conforms.test_iff htest).symm
  | follow hfollow _ ih =>
      have hsits : cat.Sits marks _ _ := hplaced
      refine (ih (hsits.follow hcat hfollow) hpath hlive hcs).mono fun r b hb => ?_
      exact hb.congr (Catalog.Conforms.follow_iff hfollow).symm
  | target hodd _ _ =>
      have hsits : cat.Sits marks _ _ := hplaced
      rw [Catalog.isApplicable_of_aims hsits.fits.1.2.2] at hodd
      cases hodd
  | union hlength _ ih =>
      have hsits : cat.Sits marks _ _ := hplaced
      refine (Answers.settle_any hlength fun t e hmem => ih t e hmem ?_ hpath hlive hcs).mono
        fun r b hb => ?_
      · exact hsits.union (List.of_mem_zip hmem).1
      · exact hb.congr Catalog.Conforms.union_iff.symm
  | inter hlength _ ih =>
      have hsits : cat.Sits marks _ _ := hplaced
      refine (Answers.settle_all hlength fun t e hmem => ih t e hmem ?_ hpath hlive hcs).mono
        fun r b hb => ?_
      · exact hsits.inter (List.of_mem_zip hmem).1
      · exact hb.congr Catalog.Conforms.inter_iff.symm
  | again hknot hon hnumber =>
      have hsits : cat.Sits marks _ _ := hplaced
      obtain ⟨c, hc, hlabel, u, hkey, hu, haccepts⟩ := hcs.exists_check hon hnumber
      rw [← hlabel]
      refine (Answers.recur hc).mono fun r b hb => ?_
      obtain ⟨v, rfl, hv⟩ := hb
      -- The check may have been made for a type that differs in the sign of a zero.
      rw [← Ty.mapLiterals_literalKey, ← Ty.mapLiterals_literalKey] at hkey
      have hwhole := hsits.whole_knot hknot
      refine (haccepts v b hv).congr (Iff.trans ?_ (Catalog.Conforms.knot_iff hknot).symm)
      exact Catalog.Conforms.iff_of_alike hcat (.of_whole hcat (hlive u hu) hwhole hkey [] [])
  | @fix live path task t n parts es hknots hoff hnumber hparts hplains hlength hchecks ih =>
      have hguards := Guards.fix hknots hoff hnumber hparts hplains hlength hchecks
      obtain ⟨hwhole, hknot⟩ := hknots.whole hplaced
      let c : Check := ⟨t, n, Guard.whole (.ident (.slot n)) es,
        fun v b => Settles full b (cat.Holds [] t (.ok v) task.declared)⟩
      -- The body may call the check that is being made, so it is assumed there to be right.
      have hstands : Stands table (Told cat full) (t :: live) (c :: cs) :=
        .cons ⟨rfl, hnumber, fun v b hb => hguards.told hcat hknots hplaced hb⟩ hcs
      have hbody := Answers.settle_whole hplains hlength fun part e hmem =>
        ih part e hmem (hparts.placed hcat hwhole hknot hpath (hknots.placed hplaced)
            (List.of_mem_zip hmem).1) (hguards.treads hknots hparts hpath)
          (List.forall_mem_cons.2 ⟨hwhole, hlive⟩) hstands
      refine Answers.slack ((Answers.fix (c := c) (hcs.fresh hoff hnumber) ?_).mono ?_)
      · refine hbody.mono fun r b hb v hv => ?_
        obtain ⟨w, hw, hb⟩ := hb
        cases hv.symm.trans hw
        exact hb.congr (hparts.holds_iff hcat hplain hwhole hknot hpath
          (hknots.placed hplaced)).symm
      · rintro r b ⟨v, rfl, hv⟩
        exact hv.congr hknots.holds_iff
  | @inline live path task t parts es hknots hparts hplains hlength hchecks ih =>
      have hguards := Guards.inline hknots hparts hplains hlength hchecks
      obtain ⟨hwhole, hknot⟩ := hknots.whole hplaced
      have hbody := Answers.settle_whole hplains hlength fun part e hmem =>
        ih part e hmem (hparts.placed hcat hwhole hknot hpath (hknots.placed hplaced)
            (List.of_mem_zip hmem).1) (hguards.treads hknots hparts hpath) hlive hcs
      refine Answers.slack (hbody.mono ?_)
      rintro r b ⟨v, rfl, hb⟩
      refine hb.congr (Iff.trans ?_ hknots.holds_iff)
      exact (hparts.holds_iff hcat hplain hwhole hknot hpath (hknots.placed hplaced)).symm
  | mapped hkeys hlength _ ih =>
      have hsits : cat.Sits marks _ _ := hplaced
      have hbody := Answers.settle_whole
        (P := fun part r => cat.Holds part.env part.type r part.declared)
        (fun part => Part.plain_ofKeys) ((Part.length_ofKeys ..).trans hlength)
          fun part e hmem => by
          obtain ⟨key, _, rfl⟩ := List.mem_map.1 (List.of_mem_zip hmem).1
          exact ih _ e hmem (hsits.template key) hpath hlive hcs
      refine (hbody.mono ?_).tighten
      rintro r b ⟨v, rfl, hb⟩
      exact hb.congr (Catalog.Conforms.ofKeys_iff
        (.of_classifies hcat hsits.constraint hpath hkeys)).symm
  | index hobject hkeys htypes hbindings hlength _ ih =>
      have hsits : cat.Sits marks _ _ := hplaced
      obtain ⟨_, _, _, _, _, hall⟩ :=
        hobject.index (g := id) hcat (.refl hsits) htypes hbindings
      refine (Answers.settle_any hlength fun t e hmem =>
        ih t e hmem (hall t (List.of_mem_zip hmem).1).left hpath hlive hcs).mono fun r b hb => ?_
      refine hb.congr (Iff.trans (exists_congr fun t => and_congr_right fun ht => ?_)
        (Catalog.Conforms.index_iff hobject (.of_classifies hcat hsits.index_right hpath hkeys)
          htypes hbindings).symm)
      exact Catalog.Conforms.iff_of_alike hcat
        (hobject.instantiate hcat hsits htypes hbindings ht)
  | @keyOf _ _ _ _ accessor keys hkeys =>
      have hsits : cat.Sits marks _ _ := hplaced
      have hlength : keys.toList.length =
          (keys.toList.map fun key => Expr.equalTo accessor (.str key)).length :=
        (List.length_map _).symm
      have heach : ∀ key e, (key, e) ∈ keys.toList.zip (keys.toList.map fun key =>
          Expr.equalTo accessor (.str key)) → Answers 0 cs accessor e fun r b =>
            Settles full b ((Test.equals (.str key)).Decides r true) := by
        intro key e hmem
        rw [eq_of_mem_zip_map hmem]
        exact (Answers.test (.equals (.str key))).mono fun r b hb => .of_iff (Test.decides_iff hb)
      refine (Answers.settle_any hlength heach).mono fun r b hb => ?_
      exact hb.congr (Catalog.Conforms.keyOf_iff (.of_classifies hcat hsits hpath hkeys)).symm

/-- With nothing live, a guard that reads one name is right about every value of it. -/
theorem settles_on {full : Prop} {x : String} (hcat : cat.WellScoped marks) (hplain : cat.Plain)
    (h : Guards cat table [] [] task e) (haccessor : task.accessor = .named x)
    (hplaced : cat.Placed marks full task.env task.type task.declared) (v : Value) {depth : Nat}
    (hdepth : v.height < depth) :
    Accepts (fun b => Settles full b (cat.Holds task.env task.type (.ok v) task.declared))
      (e.eval depth [(.named x, v)]) := by
  have hread : task.accessor.eval depth [(.named x, v)] = .ok v := by
    rw [haccessor]
    exact Expr.eval_ident (by rw [List.lookup_cons, beq_self_eq_true])
  have hanswers := h.settles hcat hplain hplaced Catalog.treads_nil
    (fun _ hmem => absurd hmem List.not_mem_nil) .nil depth depth [(.named x, v)] trivial
    (fun c hc => absurd hc List.not_mem_nil) (Nat.le_refl _)
    (by rw [hread]; exact .inr ⟨v, rfl, by omega⟩)
  rwa [hread] at hanswers

end Guards

namespace Subject

variable {limit depth : Nat} {x : String} {numbering : Numbering} {guard : Expr}

theorem guards_of_type (hplain : cat.Plain)
    (h : ((Subject.type t).compile cat limit (.named x) [] numbering).verdict =
      .ok (.compiled guard)) :
    ∃ table, Guards cat table [] [] ⟨false, [], t, .named x⟩ guard := by
  obtain ⟨s, hwalk⟩ := walkWith_of_compiled h
  obtain ⟨p', hcompiles⟩ := (Guard.ofType_sound cat limit [] [] t (.named x) ⟨numbering, []⟩).of_ok
    (Session.at_start numbering) hwalk
  exact ⟨_, hcompiles.guards_start hplain rfl⟩

/-- A compiled type is true of the values that conform to it and false of all others, unless the
guard reads a list or a tuple by a run of digits that stands for no number. -/
theorem compiled_decides (hcat : cat.WellScoped marks) (hplain : cat.Plain) (ht : cat.Whole marks t)
    (h : ((Subject.type t).compile cat limit (.named x) [] numbering).verdict =
      .ok (.compiled guard))
    (v : Value) (hdepth : v.height < depth) :
    (∃ b, guard.eval depth [(.named x, v)] = .ok (.bool b) ∧
      (b = true ↔ cat.Conforms [] t (.ok v))) ∨
    (guard.eval depth [(.named x, v)] = .error .badNumeral ∧ v.Stumbles fun s =>
      guard.HasKey s) := by
  obtain ⟨table, hguards⟩ := guards_of_type hplain h
  have hplaced : cat.Placed marks True [] t false := ht.sits hcat []
  rcases hguards.settles_on hcat hplain rfl hplaced v hdepth with hbad | ⟨b, hb, hsettles⟩
  · exact .inr ⟨hbad, hguards.stumbles rfl rfl hbad⟩
  · exact .inl ⟨b, hb, hsettles.1, hsettles.2 trivial⟩

end Subject

/-- The guard that was compiled, if there is one. -/
def Outcome.guard? {σ : Type} (outcome : Outcome σ) : Option Expr :=
  match outcome.verdict with
  | .ok (.compiled guard) => some guard
  | _ => none

theorem Outcome.verdict_of_guard? {σ : Type} {outcome : Outcome σ} {guard : Expr}
    (h : outcome.guard? = some guard) : outcome.verdict = .ok (.compiled guard) := by
  unfold guard? at h
  split at h
  · next heq =>
      cases h
      exact heq
  · cases h

namespace Catalog

/-- Links that hold a value of some type and may lead to another one. -/
def chain : Catalog :=
  { entries := [(.listed "Link", {
    name := "Link"
    params := [⟨"T", 0⟩]
    body := .interface [] [⟨.str "value", some (.param ⟨"T", 0⟩), false, none, .listed "Link"⟩,
      ⟨.str "next", some (.union [.primitive "null", .name "Link" [.param ⟨"T", 0⟩]]), false, none,
        .listed "Link"⟩] })] }

theorem wellScoped_chain : chain.WellScoped fun _ => false := by
  refine WellScoped.of_entries ?_ ?_ ?_
  all_goals simp only [chain, List.forall_mem_singleton]
  · rfl
  · constructor
    all_goals simp [Declaration.types, Declaration.heritage, Declaration.members,
      Ty.Every, Ty.Inside, Ty.InsideList, Fits, Ty.free, Ty.freeList, Ty.unmapped]
  · simp

theorem plain_chain : chain.Plain := by
  refine forall_of_entries fun entry hentry => ?_
  rw [List.mem_singleton.1 hentry]
  simp [Declaration.members]

end Catalog

def chainGuard : Expr :=
  let t := Ty.ref (.object .interface (.listed "Link") []) [.primitive "string"]
  let slot := Ident.slot 2
  let label := Guard.label t 2
  let part := fun key => Expr.elem (.ident slot) (.const (.str key))
  .fix label slot (Guard.whole (.ident slot) [.hasTypeOf (part "value") "string",
    .anyOf [.equalTo (part "next") .null, .recur label (part "next")]]) (.named "x")

theorem compile_chain : ((Subject.type (.name "Link" [.primitive "string"])).compile .chain 8
    (.named "x") [] {}).verdict = .ok (.compiled chainGuard) :=
  Outcome.verdict_of_guard? (by decide +kernel)

theorem Subject.compiled_decides_chain :
    let t := Ty.name "Link" [.primitive "string"]
    let last : Value := .dict [(.str "value", .str "b"), (.str "next", .null)]
    let torn : Value := .dict [(.str "value", .str "b")]
    Catalog.chain.Conforms [] t (.ok (.dict [(.str "value", .str "a"), (.str "next", last)])) ∧
      ¬Catalog.chain.Conforms [] t
        (.ok (.dict [(.str "value", .str "a"), (.str "next", torn)])) := by
  intro t last torn
  have ht : Catalog.chain.Whole (fun _ => false) t :=
    ⟨⟨fun u hu => by cases List.mem_singleton.1 hu; rfl, ⟨trivial, trivial⟩, trivial⟩, rfl,
      Catalog.sealed_of_no_class (by simp [Catalog.chain, Declaration.kind?]) t⟩
  have hdecides : ∀ v b, v.height < 3 → (chainGuard.holds 3 [(.named "x", v)]).toOption = some b →
      (b = true ↔ Catalog.chain.Conforms [] t (.ok v)) := by
    intro v b hv hb
    rcases Subject.compiled_decides Catalog.wellScoped_chain Catalog.plain_chain ht
      compile_chain v hv with ⟨b', hb', hiff⟩ | ⟨hbad, _⟩
    · rw [Expr.holds, hb'] at hb
      cases hb
      exact hiff
    · rw [Expr.holds, hbad] at hb
      cases hb
  refine ⟨(hdecides _ true (by decide) (by decide +kernel)).1 rfl, fun h => ?_⟩
  exact Bool.noConfusion ((hdecides _ false (by decide) (by decide +kernel)).2 h)

namespace Catalog

/-- An interface with the same base as a class, which it also reads from. -/
def pairs : Catalog :=
  { entries := heirs.entries ++ [(.listed "Pair", {
    name := "Pair"
    params := [⟨"U", 1⟩]
    body := .interface [⟨"Base", [.param ⟨"U", 1⟩]⟩] [⟨.str "z",
      some (.index (.name "Heir" []) (.literal (.str "x"))), false, none, .listed "Pair"⟩] })] }

theorem wellScoped_pairs : pairs.WellScoped fun _ => false := by
  refine WellScoped.of_entries ?_ ?_ ?_
  all_goals simp only [pairs, heirs, List.cons_append, List.nil_append, List.forall_mem_cons,
    List.not_mem_nil, IsEmpty.forall_iff, implies_true, and_true]
  · exact ⟨rfl, rfl, rfl⟩
  · refine ⟨?_, ?_, ?_⟩ <;> constructor
    all_goals simp [Declaration.types, Declaration.heritage, Declaration.members,
      Ty.Every, Ty.Inside, Ty.InsideList, Fits, Ty.free, Ty.freeList, Ty.unmapped]
  · simp

theorem plain_pairs : pairs.Plain := by
  refine forall_of_entries ?_
  simp [pairs, heirs, Declaration.members]

end Catalog

/-- A class does not bind what its base is written in, so that the guard of a property that reads
from it takes over what the interface around it binds. -/
theorem Subject.class_shows_through :
    ∃ (cat : Catalog) (marks : TypeParam → Bool) (t : Ty) (guard : Expr) (v : Value),
      cat.WellScoped marks ∧ cat.Plain ∧ t.Every (cat.Fits marks) ∧ t.free = [] ∧
      ((Subject.type t).compile cat 8 (.named "v") [] {}).verdict = .ok (.compiled guard) ∧
      guard.holds 2 [(.named "v", v)] = .ok true ∧ ¬cat.Conforms [] t (.ok v) := by
  let key (k : String) := Expr.elem (.named "v") (.const (.str k))
  refine ⟨.pairs, fun _ => false, .name "Pair" [.primitive "number"],
    Guard.whole (.named "v") [.hasTypeOf (key "x") "number", .hasTypeOf (key "z") "number"],
    .dict [(.str "x", .int 1), (.str "z", .int 1)], Catalog.wellScoped_pairs, Catalog.plain_pairs,
    ⟨fun u hu => by cases List.mem_singleton.1 hu; rfl, ⟨trivial, trivial⟩, trivial⟩, rfl,
    Outcome.verdict_of_guard? (by decide +kernel), eq_ok_of_toOption (by decide +kernel),
    fun h => ?_⟩
  let z : Property :=
    ⟨.str "z", some (.index (.name "Heir" []) (.literal (.str "x"))), false, none, .listed "Pair"⟩
  have hproperties : Catalog.pairs.properties
      (.ref (.object .interface (.listed "Pair") []) [.primitive "number"]) =
        .ok [⟨.str "x", some (.param ⟨"T", 0⟩), false, none, .listed "Base"⟩, z] := rfl
  rw [Catalog.Conforms.follow_iff (.name rfl), Catalog.Conforms.object_iff rfl rfl
    (by rw [Ty.knot_nil]; rfl) (by rw [Ty.knot_nil]; exact hproperties)] at h
  obtain ⟨v, _, _, hall⟩ := h
  have hz := hall z (by simp) _ rfl
  let heir := (Ty.object .nominal (.listed "Heir") []).substitute []
  have hheir : Exposes .pairs [] (.name "Heir" []) heir :=
    .follow (.name rfl) (.here rfl)
  have hkey : Catalog.pairs.Spells [] (.literal (.str "x")) (.ofList ["x"]) := .of_result? 1 rfl
  have htypes : ["x"].mapM (Catalog.pairs.propertyType heir) =
      .ok [.param ⟨"T", 0⟩] := rfl
  have hbindings : Catalog.pairs.bindings heir = .ok [] := rfl
  have hindex := Catalog.Conforms.index_iff (r := v.read (.str "z")) hheir hkey htypes hbindings
  obtain ⟨u, hu, hconforms⟩ := hindex.1 hz
  cases List.mem_singleton.1 hu
  rw [Ty.substitute_nil] at hconforms
  generalize v.read (.str "z") = r at hconforms
  cases hconforms with
  | test htest => cases htest
  | follow hfollow => cases hfollow with | param hbound => cases hbound
  | object hknot => cases hknot
  | target hknot => cases hknot

end TypeGuard
