import TypeGuard.Proofs.Agreement
import TypeGuard.Proofs.Decision

/-! What types ask of a value, layer by layer, whatever the properties are named by. A reading may
be found right, found wrong, or neither, where an expression that names a property comes to
nothing. -/

namespace TypeGuard

variable {cat : Catalog} {marks : TypeParam → Bool} {env env' : Bindings} {t t' u : Ty}

theorem forall_of_forall₂ {α β : Type} {R : α → β → Prop} {P : α → Prop}
    {Q : β → Prop} {xs : List α}
    {ys : List β} (h : List.Forall₂ R xs ys) (himp : ∀ x y, R x y → P x → Q y)
    (hall : ∀ x ∈ xs, P x) : ∀ y ∈ ys, Q y := by
  intro y hy
  obtain ⟨x, hx, hxy⟩ := exists_of_forall₂_right h hy
  exact himp x y hxy (hall x hx)

theorem exists_of_forall₂ {α β : Type} {R : α → β → Prop} {P : α → Prop}
    {Q : β → Prop} {xs : List α}
    {ys : List β} (h : List.Forall₂ R xs ys) (himp : ∀ x y, R x y → P x → Q y)
    (hone : ∃ x ∈ xs, P x) : ∃ y ∈ ys, Q y := by
  obtain ⟨x, hx, hP⟩ := hone
  obtain ⟨y, hy, hxy⟩ := exists_of_forall₂_right h.flip hx
  exact ⟨y, hy, himp x y hxy hP⟩

namespace Part

/-- Another type that is asked for where the value itself is read. -/
def same (env : Bindings) (t : Ty) : Part :=
  ⟨false, env, t, none⟩

/-- The part that a property stands for once the parameters of its owner are replaced. -/
def OfInstance (bindings : Bindings) (p : Property) (part : Part) : Prop :=
  ∃ t index, p.type? = some t ∧ p.key.index = .ok index ∧
    part = ⟨false, [], t.substitute bindings, some index⟩

/-- What the part of a value is, where expressions come to these keys. -/
def readingBy (key : Expr → Reading) (v : Value) (part : Part) : Reading :=
  match part.index? with
  | none => .ok v
  | some index => (key index).bind v.read

/-- Parts that are read alike and ask for types that come to the same. -/
def Matches (cat : Catalog) (marks : TypeParam → Bool) (part part' : Part) : Prop :=
  part.index? = part'.index? ∧
    cat.Alike marks Value.literalKey part.env part.type part'.env part'.type

theorem Matches.readingBy {part part' : Part} (h : part.Matches cat marks part')
    (key : Expr → Reading) (v : Value) : part.readingBy key v = part'.readingBy key v := by
  unfold Part.readingBy
  rw [h.1]

theorem rightUnique_ofInstance (bindings : Bindings) :
    Relator.RightUnique (OfInstance bindings) := by
  intro p part part' h h'
  obtain ⟨u, index, htype, hindex, rfl⟩ := h
  obtain ⟨u', index', htype', hindex', rfl⟩ := h'
  cases htype.symm.trans htype'
  cases hindex.symm.trans hindex'
  rfl

theorem matches_same {members members' : List Ty}
    (h : List.Forall₂ (fun m m' => cat.Alike marks Value.literalKey env m env' m')
      members members') :
    List.Forall₂ (Matches cat marks) (members.map (same env)) (members'.map (same env')) := by
  rw [List.forall₂_map_left_iff, List.forall₂_map_right_iff]
  exact h.imp fun m m' hm => ⟨rfl, hm⟩

end Part

theorem Test.not_isKnot {test : Test} (h : Test.ofType? t = some test) : t.isKnot = false := by
  cases t with
  | object _ _ | ref _ _ => cases h
  | _ => rfl

theorem Test.Decides.unique {test : Test} {r : Reading} {b b' : Bool} (h : test.Decides r b)
    (h' : test.Decides r b') : b = b' := by
  cases test with
  | always | never => exact h.trans h'.symm
  | object | typeOf _ | equals _ =>
      obtain ⟨v, rfl, rfl⟩ := h
      obtain ⟨w, heq, rfl⟩ := h'
      cases heq
      rfl

/-- One layer of what is asked of a value: a test, one of several types, all of them, or to be an
object with these parts. -/
inductive Demand where
  | test (test : Test)
  | any (parts : List Part)
  | all (parts : List Part)
  | object (parts : List Part)

/-- Whether a demand is met by what is read, given what is found about the types in it. -/
def Demand.Met (finds : Bindings → Ty → Reading → Bool → Prop)
    (key : Expr → Reading) (r : Reading) :
    Demand → Bool → Prop
  | .test asked, b => asked.Decides r b
  | .any parts, true => ∃ part ∈ parts, finds part.env part.type r true
  | .any parts, false => ∀ part ∈ parts, finds part.env part.type r false
  | .all parts, true => ∀ part ∈ parts, finds part.env part.type r true
  | .all parts, false => ∃ part ∈ parts, finds part.env part.type r false
  | .object parts, true => ∃ v, r = .ok v ∧ v.isObject = true ∧
      ∀ part ∈ parts, finds part.env part.type (part.readingBy key v) true
  | .object parts, false => ∃ v, r = .ok v ∧ (v.isObject = false ∨
      ∃ part ∈ parts, finds part.env part.type (part.readingBy key v) false)

/-- Demands that ask the same of the same readings. -/
inductive Demand.Like (cat : Catalog) (marks : TypeParam → Bool) : Demand → Demand → Prop
  | test {test test' : Test} (h : ∀ r b, test.Decides r b → test'.Decides r b) :
      Like cat marks (.test test) (.test test')
  | any {parts parts' : List Part} (h : List.Forall₂ (Part.Matches cat marks) parts parts') :
      Like cat marks (.any parts) (.any parts')
  | all {parts parts' : List Part} (h : List.Forall₂ (Part.Matches cat marks) parts parts') :
      Like cat marks (.all parts) (.all parts')
  | object {parts parts' : List Part} (h : List.Forall₂ (Part.Matches cat marks) parts parts') :
      Like cat marks (.object parts) (.object parts')

namespace Demand

variable {demand demand' : Demand} {P Q : Bindings → Ty → Reading → Bool → Prop}
  {key : Expr → Reading} {r : Reading} {b b' : Bool}

theorem Met.unique (hunique : ∀ env t r b b', P env t r b → Q env t r b' → b = b')
    (h : demand.Met P key r b) (h' : demand.Met Q key r b') : b = b' := by
  cases demand with
  | test asked => exact Test.Decides.unique h h'
  | any parts =>
      cases b <;> cases b'
      · rfl
      · obtain ⟨part, hmem, hpart⟩ := h'
        exact hunique _ _ _ _ _ (h part hmem) hpart
      · obtain ⟨part, hmem, hpart⟩ := h
        exact hunique _ _ _ _ _ hpart (h' part hmem)
      · rfl
  | all parts =>
      cases b <;> cases b'
      · rfl
      · obtain ⟨part, hmem, hpart⟩ := h
        exact hunique _ _ _ _ _ hpart (h' part hmem)
      · obtain ⟨part, hmem, hpart⟩ := h'
        exact hunique _ _ _ _ _ (h part hmem) hpart
      · rfl
  | object parts =>
      cases b <;> cases b'
      · rfl
      · obtain ⟨v, rfl, hno | ⟨part, hmem, hpart⟩⟩ := h
        · obtain ⟨w, heq, hyes, _⟩ := h'
          cases heq
          exact hno.symm.trans hyes
        · obtain ⟨w, heq, _, hall⟩ := h'
          cases heq
          exact hunique _ _ _ _ _ hpart (hall part hmem)
      · obtain ⟨v, rfl, hyes, hall⟩ := h
        obtain ⟨w, heq, hno | ⟨part, hmem, hpart⟩⟩ := h'
        · cases heq
          exact hyes.symm.trans hno
        · cases heq
          exact hunique _ _ _ _ _ (hall part hmem) hpart
      · rfl

theorem Like.met (hlike : demand.Like cat marks demand')
    (hmet : ∀ part part' r b, Part.Matches cat marks part part' → P part.env part.type r b →
      Q part'.env part'.type r b)
    (h : demand.Met P key r b) : demand'.Met Q key r b := by
  have hread : ∀ (v : Value) (b : Bool) (part part' : Part), part.Matches cat marks part' →
      P part.env part.type (part.readingBy key v) b →
      Q part'.env part'.type (part'.readingBy key v) b := by
    intro v b part part' hpart hP
    rw [← Part.Matches.readingBy hpart]
    exact hmet part part' _ b hpart hP
  cases hlike with
  | test himp => exact himp r b h
  | any hparts =>
      cases b with
      | true => exact exists_of_forall₂ hparts (fun part part' => hmet part part' r true) h
      | false => exact forall_of_forall₂ hparts (fun part part' => hmet part part' r false) h
  | all hparts =>
      cases b with
      | true => exact forall_of_forall₂ hparts (fun part part' => hmet part part' r true) h
      | false => exact exists_of_forall₂ hparts (fun part part' => hmet part part' r false) h
  | object hparts =>
      cases b with
      | true =>
          obtain ⟨v, rfl, hv, hall⟩ := h
          exact ⟨v, rfl, hv, forall_of_forall₂ hparts (hread v true) hall⟩
      | false =>
          obtain ⟨v, rfl, hv | hone⟩ := h
          · exact ⟨v, rfl, .inl hv⟩
          · exact ⟨v, rfl, .inr (exists_of_forall₂ hparts (hread v false) hone)⟩

end Demand

namespace Catalog

/-- What a type asks for, if it does not stand for another one. -/
inductive Demands (cat : Catalog) : Bindings → Ty → Demand → Prop
  | test {env : Bindings} {t : Ty} {test : Test} (htest : Test.ofType? t = some test) :
      Demands cat env t (.test test)
  | union {env : Bindings} {members : List Ty} :
      Demands cat env (.union members) (.any (members.map (Part.same env)))
  | inter {env : Bindings} {members : List Ty} :
      Demands cat env (.inter members) (.all (members.map (Part.same env)))
  | properties {env bindings : Bindings} {t : Ty} {properties : List Property} {parts : List Part}
      (hknot : t.isKnot = true) (hmapped : t.head.isMapped = false)
      (hbindings : cat.bindings (t.knot env) = .ok bindings)
      (hproperties : cat.properties (t.knot env) = .ok properties)
      (hparts : List.Forall₂ (Part.OfInstance bindings) properties parts) :
      Demands cat env t (.object parts)
  | mapped {env : Bindings} {x : TypeParam} {constraint template : Ty} {params : List TypeParam}
      {keys : StringSet} (hkeys : cat.Spells env constraint keys) :
      Demands cat env (.mapped x constraint template params)
        (.object (Part.ofKeys env x template keys.toList))
  | index {env bindings : Bindings} {object key o : Ty} {keys : StringSet} {types : List Ty}
      (hobject : Exposes cat env object o) (hkeys : cat.Spells env key keys)
      (htypes : keys.toList.mapM (cat.propertyType o) = .ok types)
      (hbindings : cat.bindings o = .ok bindings) :
      Demands cat env (.index object key)
        (.any (types.map fun u => Part.same [] (u.substitute bindings)))
  | keyOf {env : Bindings} {t : Ty} {keys : StringSet} (hkeys : cat.Spells env (.keyOf t) keys) :
      Demands cat env (.keyOf t)
        (.any (keys.toList.map fun key => Part.same env (.literal (.str key))))

namespace Demands

variable {demand demand' : Demand}

theorem not_isIndirect (h : cat.Demands env t demand) : t.isIndirect = false := by
  cases h with
  | test htest =>
      cases t with
      | name _ _ | param _ => cases htest
      | _ => rfl
  | properties hknot _ _ _ _ =>
      cases t with
      | name _ _ | param _ => cases hknot
      | _ => rfl
  | _ => rfl

theorem head_not_isMapped (h : cat.Demands env t demand) (hknot : t.isKnot = true) :
    t.head.isMapped = false := by
  cases h with
  | test htest =>
      rw [Test.not_isKnot htest] at hknot
      cases hknot
  | properties _ hmapped _ _ _ => exact hmapped
  | _ => cases hknot

theorem unique (h : cat.Demands env t demand) (h' : cat.Demands env t demand') :
    demand = demand' := by
  cases h with
  | test htest =>
      cases h' with
      | test htest' =>
          cases htest.symm.trans htest'
          rfl
      | properties hknot _ _ _ _ =>
          rw [Test.not_isKnot htest] at hknot
          cases hknot
      | _ => cases htest
  | union | inter =>
      cases h' with
      | test htest => cases htest
      | properties hknot _ _ _ _ => cases hknot
      | _ => rfl
  | properties hknot _ hbindings hproperties hparts =>
      cases h' with
      | test htest =>
          rw [Test.not_isKnot htest] at hknot
          cases hknot
      | properties _ _ hbindings' hproperties' hparts' =>
          cases hbindings.symm.trans hbindings'
          cases hproperties.symm.trans hproperties'
          rw [List.right_unique_forall₂' (Part.rightUnique_ofInstance _) hparts hparts']
      | _ => cases hknot
  | mapped hkeys =>
      cases h' with
      | mapped hkeys' => rw [hkeys.unique hkeys']
      | test htest => cases htest
      | properties hknot _ _ _ _ => cases hknot
  | index hobject hkeys htypes hbindings =>
      cases h' with
      | index hobject' hkeys' htypes' hbindings' =>
          cases hobject.unique hobject'
          cases hkeys.unique hkeys'
          cases htypes.symm.trans htypes'
          cases hbindings.symm.trans hbindings'
          rfl
      | test htest => cases htest
      | properties hknot _ _ _ _ => cases hknot
  | keyOf hkeys =>
      cases h' with
      | keyOf hkeys' => rw [hkeys.unique hkeys']
      | test htest => cases htest
      | properties hknot _ _ _ _ => cases hknot

/-- Types that come to the same ask for the same, once names and parameters are followed. -/
theorem transfer (hcat : cat.WellScoped marks) (h : cat.Demands env t demand)
    (halike : cat.Alike marks Value.literalKey env t env' t') :
    ∃ u demand', Reaches cat env' t' u ∧ cat.Demands env' u demand' ∧
      demand.Like cat marks demand' := by
  cases h with
  | test htest =>
      have hparam : ∀ x, t = .param x → marks x = true := by
        rintro x rfl
        cases htest
      obtain ⟨u, hreaches, _, hlayer⟩ := halike.layer hparam
      obtain ⟨test', htest', himp⟩ := Test.ofType?_congr hlayer htest
      exact ⟨u, _, hreaches, .test htest', .test himp⟩
  | union =>
      obtain ⟨u, hreaches, _, hlayer⟩ := halike.layer nofun
      cases hlayer with
      | union hmembers =>
          exact ⟨_, _, hreaches, .union, .any (Part.matches_same hmembers)⟩
  | inter =>
      obtain ⟨u, hreaches, _, hlayer⟩ := halike.layer nofun
      cases hlayer with
      | inter hmembers =>
          exact ⟨_, _, hreaches, .inter, .all (Part.matches_same hmembers)⟩
  | properties hknot hmapped hbindings hproperties hparts =>
      obtain ⟨u, hreaches, hu, hknot', hhead, hsame⟩ := halike.knot hknot
      have hwhole := hu.left.whole_knot hknot
      have hwhole' := hu.right.whole_knot hknot'
      have hname : (t.knot env).isName = false :=
        Ty.isName_of_isKnot (Ty.isKnot_knot hknot)
      have hname' : (u.knot env').isName = false :=
        Ty.isName_of_isKnot (Ty.isKnot_knot hknot')
      have hleaks : ¬cat.Leaks (t.knot env) := not_leaks_of_isKnot (Ty.isKnot_knot hknot)
      have hleaks' : ¬cat.Leaks (u.knot env') := not_leaks_of_isKnot (Ty.isKnot_knot hknot')
      have hbare := bare_of_fits hwhole.fits.1
      obtain ⟨bindings', hbindings', hsameBindings⟩ := bindings_congr hsame hbare hbindings
      have hproperties' := (properties_congr hsame hbare hname hname').symm.trans hproperties
      rw [Ty.isMapped_congr hhead] at hmapped
      obtain ⟨parts', hparts', hmatches⟩ := exists_forall₂ hparts
        (S := Part.OfInstance bindings') (T := Part.Matches cat marks) (by
          intro p hp part hpart
          obtain ⟨w, index, htype, hindex, rfl⟩ := hpart
          exact ⟨_, ⟨w, index, htype, hindex, rfl⟩, rfl,
            .instances hcat hwhole hwhole' hbindings hbindings' hsameBindings
              (hcat.grounded_property hwhole hleaks hname hbindings hproperties hp htype)
              (hcat.grounded_property hwhole' hleaks' hname' hbindings' hproperties' hp htype) rfl⟩)
      exact ⟨u, _, hreaches, .properties hknot' hmapped hbindings' hproperties' hparts',
        .object hmatches⟩
  | mapped hkeys =>
      obtain ⟨u, hreaches, _, hlayer⟩ := halike.layer nofun
      cases hlayer with
      | mapped hc htemplate =>
          refine ⟨_, _, hreaches, .mapped (hkeys.transfer hcat hc), .object ?_⟩
          exact forall₂_same_map fun key _ => ⟨rfl, htemplate key⟩
  | index hobject hkeys htypes hbindings =>
      obtain ⟨u, hreaches, hu, hlayer⟩ := halike.layer nofun
      cases hlayer with
      | index hobject' hkey' =>
          obtain ⟨o', bindings', hexposes, htypes', hbindings', hall⟩ :=
            hobject.index hcat hu htypes hbindings
          refine ⟨_, _, hreaches,
            .index hexposes (hkeys.transfer hcat hkey') htypes' hbindings', .any ?_⟩
          refine forall₂_same_map fun w hw => ⟨rfl, ?_⟩
          have hleft := hobject.instantiate (g := Value.literalKey) hcat hu.left htypes
            hbindings hw
          have hright := hexposes.instantiate (g := Value.literalKey) hcat hu.right htypes'
            hbindings' hw
          exact (hleft.symm.trans (hall w hw)).trans hright
  | keyOf hkeys =>
      obtain ⟨u, hreaches, hu, hlayer⟩ := halike.layer nofun
      cases hlayer with
      | keyOf _ =>
          refine ⟨_, _, hreaches, .keyOf (hkeys.transfer hcat hu), .any ?_⟩
          exact forall₂_same_map fun key _ => ⟨rfl, .literal env env' _⟩

end Demands

/-- A type is found right or wrong about what is read, where expressions come to these keys. -/
inductive Finds (cat : Catalog) (key : Expr → Reading) : Bindings → Ty → Reading → Bool → Prop
  /-- Names and parameters stand for other types. -/
  | follow {env : Bindings} {t u : Ty} {r : Reading} {b : Bool} (hfollow : Follows cat env t u)
      (h : Finds cat key env u r b) : Finds cat key env t r b
  /-- A reference to a mapped type stands for the mapped type. -/
  | target {env bindings : Bindings} {t : Ty} {r : Reading} {b : Bool} (hknot : t.isKnot = true)
      (hmapped : t.head.isMapped = true)
      (hbindings : cat.bindings (t.knot env) = .ok bindings)
      (h : Finds cat key [] (t.head.substitute bindings) r b) : Finds cat key env t r b
  | test {env : Bindings} {t : Ty} {test : Test} {r : Reading} {b : Bool}
      (hdemands : cat.Demands env t (.test test)) (h : test.Decides r b) : Finds cat key env t r b
  | one {env : Bindings} {t : Ty} {parts : List Part} {part : Part} {r : Reading}
      (hdemands : cat.Demands env t (.any parts)) (hmem : part ∈ parts)
      (h : Finds cat key part.env part.type r true) : Finds cat key env t r true
  | none {env : Bindings} {t : Ty} {parts : List Part} {r : Reading}
      (hdemands : cat.Demands env t (.any parts))
      (h : ∀ part ∈ parts, Finds cat key part.env part.type r false) : Finds cat key env t r false
  | every {env : Bindings} {t : Ty} {parts : List Part} {r : Reading}
      (hdemands : cat.Demands env t (.all parts))
      (h : ∀ part ∈ parts, Finds cat key part.env part.type r true) : Finds cat key env t r true
  | missing {env : Bindings} {t : Ty} {parts : List Part} {part : Part} {r : Reading}
      (hdemands : cat.Demands env t (.all parts)) (hmem : part ∈ parts)
      (h : Finds cat key part.env part.type r false) : Finds cat key env t r false
  | object {env : Bindings} {t : Ty} {parts : List Part} {v : Value}
      (hdemands : cat.Demands env t (.object parts)) (hv : v.isObject = true)
      (h : ∀ part ∈ parts, Finds cat key part.env part.type (part.readingBy key v) true) :
      Finds cat key env t (.ok v) true
  | plain {env : Bindings} {t : Ty} {parts : List Part} {v : Value}
      (hdemands : cat.Demands env t (.object parts)) (hv : v.isObject = false) :
      Finds cat key env t (.ok v) false
  | lacking {env : Bindings} {t : Ty} {parts : List Part} {part : Part} {v : Value}
      (hdemands : cat.Demands env t (.object parts)) (hmem : part ∈ parts)
      (h : Finds cat key part.env part.type (part.readingBy key v) false) :
      Finds cat key env t (.ok v) false

namespace Finds

variable {key : Expr → Reading} {r : Reading} {b b' : Bool} {demand : Demand}

theorem of_reaches (h : Reaches cat env t u) (hu : cat.Finds key env u r b) :
    cat.Finds key env t r b := by
  induction h using Relation.ReflTransGen.head_induction_on with
  | refl => exact hu
  | head hstep _ ih => exact .follow hstep ih

theorem of_met (hdemands : cat.Demands env t demand)
    (h : demand.Met (cat.Finds key) key r b) : cat.Finds key env t r b := by
  cases demand with
  | test test => exact .test hdemands h
  | any parts =>
      cases b with
      | true =>
          obtain ⟨part, hmem, hpart⟩ := h
          exact .one hdemands hmem hpart
      | false => exact .none hdemands h
  | all parts =>
      cases b with
      | true => exact .every hdemands h
      | false =>
          obtain ⟨part, hmem, hpart⟩ := h
          exact .missing hdemands hmem hpart
  | object parts =>
      cases b with
      | true =>
          obtain ⟨v, rfl, hv, hall⟩ := h
          exact .object hdemands hv hall
      | false =>
          obtain ⟨v, rfl, hv | ⟨part, hmem, hpart⟩⟩ := h
          · exact .plain hdemands hv
          · exact .lacking hdemands hmem hpart

theorem induction_met {motive : Bindings → Ty → Reading → Bool → Prop}
    (follow : ∀ {env t u r b}, Follows cat env t u → motive env u r b → motive env t r b)
    (target : ∀ {env bindings t r b}, t.isKnot = true → t.head.isMapped = true →
      cat.bindings (t.knot env) = .ok bindings → motive [] (t.head.substitute bindings) r b →
      motive env t r b)
    (met : ∀ {env t demand r b}, cat.Demands env t demand → demand.Met motive key r b →
      motive env t r b)
    (h : cat.Finds key env t r b) : motive env t r b := by
  induction h with
  | follow hfollow _ ih => exact follow hfollow ih
  | target hknot hmapped hbindings _ ih => exact target hknot hmapped hbindings ih
  | test hdemands h => exact met hdemands h
  | none hdemands _ ih | every hdemands _ ih => exact met hdemands ih
  | one hdemands hmem _ ih | missing hdemands hmem _ ih => exact met hdemands ⟨_, hmem, ih⟩
  | object hdemands hv _ ih => exact met hdemands ⟨_, rfl, hv, ih⟩
  | plain hdemands hv => exact met hdemands ⟨_, rfl, .inl hv⟩
  | lacking hdemands hmem _ ih => exact met hdemands ⟨_, rfl, .inr ⟨_, hmem, ih⟩⟩

theorem cases_stands (h : cat.Finds key env t r b) :
    (∃ u, Follows cat env t u ∧ cat.Finds key env u r b) ∨
    (∃ bindings, t.isKnot = true ∧ t.head.isMapped = true ∧
      cat.bindings (t.knot env) = .ok bindings ∧
      cat.Finds key [] (t.head.substitute bindings) r b) ∨
    ∃ demand, cat.Demands env t demand ∧ demand.Met (cat.Finds key) key r b := by
  cases h with
  | follow hfollow h => exact .inl ⟨_, hfollow, h⟩
  | target hknot hmapped hbindings h => exact .inr (.inl ⟨_, hknot, hmapped, hbindings, h⟩)
  | test hdemands h | none hdemands h | every hdemands h => exact .inr (.inr ⟨_, hdemands, h⟩)
  | one hdemands hmem h | missing hdemands hmem h =>
      exact .inr (.inr ⟨_, hdemands, _, hmem, h⟩)
  | object hdemands hv h => exact .inr (.inr ⟨_, hdemands, _, rfl, hv, h⟩)
  | plain hdemands hv => exact .inr (.inr ⟨_, hdemands, _, rfl, .inl hv⟩)
  | lacking hdemands hmem h => exact .inr (.inr ⟨_, hdemands, _, rfl, .inr ⟨_, hmem, h⟩⟩)

theorem of_follow (h : cat.Finds key env t r b) (hfollow : Follows cat env t u) :
    cat.Finds key env u r b := by
  rcases h.cases_stands with ⟨u', hfollow', hu⟩ | ⟨_, hknot, _⟩ | ⟨demand, hdemands, _⟩
  · rwa [hfollow.unique hfollow']
  · cases hfollow <;> cases hknot
  · have hdirect := hdemands.not_isIndirect
    rw [hfollow.isIndirect] at hdirect
    cases hdirect

theorem of_target {bindings : Bindings} (h : cat.Finds key env t r b) (hknot : t.isKnot = true)
    (hmapped : t.head.isMapped = true) (hbindings : cat.bindings (t.knot env) = .ok bindings) :
    cat.Finds key [] (t.head.substitute bindings) r b := by
  rcases h.cases_stands with ⟨u, hfollow, _⟩ | ⟨_, _, _, hbindings', h⟩ | ⟨demand, hdemands, _⟩
  · cases hfollow <;> cases hknot
  · cases hbindings.symm.trans hbindings'
    exact h
  · rw [hdemands.head_not_isMapped hknot] at hmapped
    cases hmapped

theorem met (h : cat.Finds key env t r b) (hdemands : cat.Demands env t demand) :
    demand.Met (cat.Finds key) key r b := by
  rcases h.cases_stands with ⟨u, hfollow, _⟩ | ⟨_, hknot, hmapped, _⟩ | ⟨demand', hdemands', h⟩
  · have hdirect := hdemands.not_isIndirect
    rw [hfollow.isIndirect] at hdirect
    cases hdirect
  · rw [hdemands.head_not_isMapped hknot] at hmapped
    cases hmapped
  · rwa [hdemands.unique hdemands']

theorem unique (h : cat.Finds key env t r b) (h' : cat.Finds key env t r b') : b = b' := by
  refine induction_met (motive := fun env t r b => ∀ b', cat.Finds key env t r b' → b = b') ?follow
    ?target ?met h b' h'
  case follow =>
    intro env t u r b hfollow ih b' h'
    exact ih b' (h'.of_follow hfollow)
  case target =>
    intro env bindings t r b hknot hmapped hbindings ih b' h'
    exact ih b' (h'.of_target hknot hmapped hbindings)
  case met =>
    intro env t demand r b hdemands ih b' h'
    exact ih.unique (fun _ _ _ _ b' hunique h' => hunique b' h') (h'.met hdemands)

theorem knot (h : cat.Finds key env t r b) (hknot : t.isKnot = true) (hknot' : t'.isKnot = true)
    (hhead : t.head = t'.head) (hsame : t.knot env = t'.knot env') :
    cat.Finds key env' t' r b := by
  rcases h.cases_stands with ⟨u, hfollow, _⟩ | ⟨bindings, _, hmapped, hbindings, h⟩ |
      ⟨demand, hdemands, h⟩
  · cases hfollow <;> cases hknot
  · rw [hhead] at hmapped h
    rw [hsame] at hbindings
    exact .target hknot' hmapped hbindings h
  · cases hdemands with
    | properties _ hmapped hbindings hproperties hparts =>
        rw [hhead] at hmapped
        rw [hsame] at hbindings hproperties
        exact of_met (.properties hknot' hmapped hbindings hproperties hparts) h
    | test htest =>
        rw [Test.not_isKnot htest] at hknot
        cases hknot
    | _ => cases hknot

/-- What is found about an instance does not depend on how it is written. -/
theorem of_knot (hknot : t.isKnot = true) (h : cat.Finds key [] (t.knot env) r b) :
    cat.Finds key env t r b :=
  h.knot (Ty.isKnot_knot hknot) hknot (Ty.head_knot env t) (Ty.knot_nil _)

theorem transfer (hcat : cat.WellScoped marks) (h : cat.Finds key env t r b)
    (halike : cat.Alike marks Value.literalKey env t env' t') : cat.Finds key env' t' r b := by
  refine induction_met (motive := fun env t r b => ∀ env' t',
    cat.Alike marks Value.literalKey env t env' t' → cat.Finds key env' t' r b) ?follow ?target ?met
    h env' t' halike
  case follow =>
    intro env t u r b hfollow ih env' t' halike
    obtain ⟨u', hreaches, hu⟩ := halike.follow hcat hfollow
    exact of_reaches hreaches (ih env' u' hu)
  case target =>
    intro env bindings t r b hknot hmapped hbindings ih env' t' halike
    obtain ⟨u, bindings', hreaches, hknot', hmapped', hbindings', htarget⟩ :=
      halike.target hcat hknot hmapped hbindings
    exact of_reaches hreaches (.target hknot' hmapped' hbindings' (ih [] _ htarget))
  case met =>
    intro env t demand r b hdemands ih env' t' halike
    obtain ⟨u, demand', hreaches, hdemands', hlike⟩ := hdemands.transfer hcat halike
    refine of_reaches hreaches (of_met hdemands' (hlike.met ?_ ih))
    exact fun part part' r b hpart ih => ih part'.env part'.type hpart.2

end Finds

end Catalog

end TypeGuard
