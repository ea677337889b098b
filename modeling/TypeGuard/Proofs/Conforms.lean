import TypeGuard.Proofs.Answers
import TypeGuard.Proofs.Instantiation

/-! What it is for a value to conform to a type, in terms of what types stand for and of no
guard. -/

namespace TypeGuard

/-- A walk that starts with nothing being expanded, among bindings. -/
def Session.within (env : Bindings) : Session where
  ctx := { frames := [⟨0, env⟩], depth := 1 }

theorem Session.at_within (env : Bindings) : (Session.within env).At env [] ⟨{}, []⟩ :=
  ⟨nofun, List.append_nil env, rfl, rfl, rfl, rfl, List.nodup_nil⟩

variable {cat : Catalog} {env : Bindings} {t u : Ty} {r : Reading} {v : Value} {keys : StringSet}
  {bindings : Bindings}

namespace Catalog

/-- A type stands for these strings and for nothing else. -/
def Spells (cat : Catalog) (env : Bindings) (t : Ty) (keys : StringSet) : Prop :=
  Walk.Returns (Shape.ofType cat · t) (.within env) (.exact keys)

theorem spells_iff : cat.Spells env t keys ↔ Classifies cat .strings env [] t (.exact keys) :=
  Shape.returns_iff (Session.at_within env)

theorem Spells.unique {keys' : StringSet} (h : cat.Spells env t keys)
    (h' : cat.Spells env t keys') :
    keys = keys' :=
  Shape.exact.inj (Shape.returns_unique (Session.at_within env) h h')

/-- What is read conforms to a type. Reading may have failed, which matters only where the value
does. -/
inductive Conforms (cat : Catalog) : Bindings → Ty → Reading → Prop
  /-- Primitive and literal types. -/
  | test {env : Bindings} {t : Ty} {test : Test} {r : Reading} (htest : Test.ofType? t = some test)
      (h : test.Decides r true) : Conforms cat env t r
  | union {env : Bindings} {members : List Ty} {t : Ty} {r : Reading} (hmem : t ∈ members)
      (h : Conforms cat env t r) : Conforms cat env (.union members) r
  | inter {env : Bindings} {members : List Ty} {r : Reading}
      (h : ∀ t ∈ members, Conforms cat env t r) : Conforms cat env (.inter members) r
  /-- Names and parameters stand for other types. -/
  | follow {env : Bindings} {t u : Ty} {r : Reading} (hfollow : Follows cat env t u)
      (h : Conforms cat env u r) : Conforms cat env t r
  /-- Every property of an interface, or of a reference to one, is there and conforms. -/
  | object {env bindings : Bindings} {t : Ty} {properties : List Property} {v : Value}
      (hknot : t.isKnot = true) (hmapped : t.head.isMapped = false)
      (hbindings : cat.bindings (t.knot env) = .ok bindings)
      (hproperties : cat.properties (t.knot env) = .ok properties) (hv : v.isObject = true)
      (h : ∀ p ∈ properties, ∀ u, p.type? = some u →
        Conforms cat [] (u.substitute bindings) (v.read (.str p.name.text))) :
      Conforms cat env t (.ok v)
  /-- A reference to a mapped type stands for the mapped type. -/
  | target {env bindings : Bindings} {t : Ty} {r : Reading} (hknot : t.isKnot = true)
      (hmapped : t.head.isMapped = true)
      (hbindings : cat.bindings (t.knot env) = .ok bindings)
      (h : Conforms cat [] (t.head.substitute bindings) r) : Conforms cat env t r
  /-- There is a property for every key, of the type that the template comes to for it. -/
  | mapped {env : Bindings} {x : TypeParam} {constraint template : Ty} {params : List TypeParam}
      {keys : StringSet} {v : Value} (hkeys : cat.Spells env constraint keys)
      (hv : v.isObject = true)
      (h : ∀ key ∈ keys.toList,
        Conforms cat ((x, .literal (.str key)) :: env) template (v.read (.str key))) :
      Conforms cat env (.mapped x constraint template params) (.ok v)
  /-- An indexed access stands for the types of the properties it reads. -/
  | index {env bindings : Bindings} {object key o t : Ty} {keys : StringSet} {types : List Ty}
      {r : Reading} (hobject : Exposes cat env object o) (hkeys : cat.Spells env key keys)
      (htypes : keys.toList.mapM (cat.propertyType o) = .ok types)
      (hbindings : cat.bindings o = .ok bindings) (hmem : t ∈ types)
      (h : Conforms cat [] (t.substitute bindings) r) : Conforms cat env (.index object key) r
  | keyOf {env : Bindings} {t : Ty} {keys : StringSet} {key : String} {r : Reading}
      (hkeys : cat.Spells env (.keyOf t) keys) (hmem : key ∈ keys.toList)
      (h : (Test.equals (.str key)).Decides r true) : Conforms cat env (.keyOf t) r

namespace Conforms

theorem follow_iff (hfollow : Follows cat env t u) :
    cat.Conforms env t r ↔ cat.Conforms env u r := by
  refine ⟨fun h => ?_, .follow hfollow⟩
  have hindirect : t.isIndirect = true := by cases hfollow <;> rfl
  cases h with
  | follow hfollow' h => exact hfollow'.unique hfollow ▸ h
  | test htest _ => cases hfollow <;> cases htest
  | object hknot _ _ _ _ _ => cases hfollow <;> cases hknot
  | target hknot _ _ _ => cases hfollow <;> cases hknot
  | _ => cases hindirect

theorem reaches_iff (h : Reaches cat env t u) : cat.Conforms env t r ↔ cat.Conforms env u r := by
  induction h using Relation.ReflTransGen.head_induction_on with
  | refl => rfl
  | head hstep _ ih => exact (follow_iff hstep).trans ih

theorem test_iff {test : Test} (htest : Test.ofType? t = some test) :
    cat.Conforms env t r ↔ test.Decides r true := by
  refine ⟨fun h => ?_, .test htest⟩
  cases h with
  | test htest' h => exact Option.some.inj (htest'.symm.trans htest) ▸ h
  | follow hfollow _ => cases hfollow <;> cases htest
  | object hknot _ _ _ _ _ | target hknot _ _ _ =>
      cases t with
      | object _ _ _ | ref _ _ => cases htest
      | _ => cases hknot
  | _ => cases htest

theorem union_iff {members : List Ty} :
    cat.Conforms env (.union members) r ↔ ∃ t ∈ members, cat.Conforms env t r := by
  refine ⟨fun h => ?_, fun ⟨t, hmem, h⟩ => .union hmem h⟩
  cases h with
  | union hmem h => exact ⟨_, hmem, h⟩
  | test htest _ => cases htest
  | follow hfollow _ => cases hfollow
  | object hknot _ _ _ _ _ | target hknot _ _ _ => cases hknot

theorem inter_iff {members : List Ty} :
    cat.Conforms env (.inter members) r ↔ ∀ t ∈ members, cat.Conforms env t r := by
  refine ⟨fun h => ?_, .inter⟩
  cases h with
  | inter h => exact h
  | test htest _ => cases htest
  | follow hfollow _ => cases hfollow
  | object hknot _ _ _ _ _ | target hknot _ _ _ => cases hknot

theorem mapped_iff {x : TypeParam} {constraint template : Ty} {params : List TypeParam}
    (hkeys : cat.Spells env constraint keys) :
    cat.Conforms env (.mapped x constraint template params) r ↔
      ∃ v, r = .ok v ∧ v.isObject = true ∧ ∀ key ∈ keys.toList,
        cat.Conforms ((x, .literal (.str key)) :: env) template (v.read (.str key)) := by
  refine ⟨fun h => ?_, ?_⟩
  · cases h with
    | mapped hkeys' hv h => exact ⟨_, rfl, hv, hkeys'.unique hkeys ▸ h⟩
    | test htest _ => cases htest
    | follow hfollow _ => cases hfollow
    | object hknot _ _ _ _ _ | target hknot _ _ _ => cases hknot
  · rintro ⟨v, rfl, hv, h⟩
    exact .mapped hkeys hv h

theorem keyOf_iff (hkeys : cat.Spells env (.keyOf t) keys) :
    cat.Conforms env (.keyOf t) r ↔ ∃ key ∈ keys.toList,
      (Test.equals (.str key)).Decides r true := by
  refine ⟨fun h => ?_, fun ⟨key, hmem, h⟩ => .keyOf hkeys hmem h⟩
  cases h with
  | keyOf hkeys' hmem h => exact ⟨_, hkeys'.unique hkeys ▸ hmem, h⟩
  | test htest _ => cases htest
  | follow hfollow _ => cases hfollow
  | object hknot _ _ _ _ _ | target hknot _ _ _ => cases hknot

theorem index_iff {object key o : Ty} {types : List Ty} (hobject : Exposes cat env object o)
    (hkeys : cat.Spells env key keys) (htypes : keys.toList.mapM (cat.propertyType o) = .ok types)
    (hbindings : cat.bindings o = .ok bindings) :
    cat.Conforms env (.index object key) r ↔
      ∃ t ∈ types, cat.Conforms [] (t.substitute bindings) r := by
  refine ⟨fun h => ?_, fun ⟨t, hmem, h⟩ => .index hobject hkeys htypes hbindings hmem h⟩
  cases h with
  | index hobject' hkeys' htypes' hbindings' hmem h =>
      cases hobject'.unique hobject
      cases hkeys'.unique hkeys
      cases htypes'.symm.trans htypes
      cases hbindings'.symm.trans hbindings
      exact ⟨_, hmem, h⟩
  | test htest _ => cases htest
  | follow hfollow _ => cases hfollow
  | object hknot _ _ _ _ _ | target hknot _ _ _ => cases hknot

theorem object_iff {properties : List Property} (hknot : t.isKnot = true)
    (hmapped : t.head.isMapped = false) (hbindings : cat.bindings (t.knot env) = .ok bindings)
    (hproperties : cat.properties (t.knot env) = .ok properties) :
    cat.Conforms env t r ↔ ∃ v, r = .ok v ∧ v.isObject = true ∧
      ∀ p ∈ properties, ∀ u, p.type? = some u →
        cat.Conforms [] (u.substitute bindings) (v.read (.str p.name.text)) := by
  refine ⟨fun h => ?_, ?_⟩
  · cases h with
    | object _ _ hbindings' hproperties' hv h =>
        cases hbindings'.symm.trans hbindings
        cases hproperties'.symm.trans hproperties
        exact ⟨_, rfl, hv, h⟩
    | target _ hmapped' _ _ =>
        rw [hmapped] at hmapped'
        cases hmapped'
    | test htest _ =>
        cases t with
        | object _ _ _ | ref _ _ => cases htest
        | _ => cases hknot
    | follow hfollow _ => cases hfollow <;> cases hknot
    | _ => cases hknot
  · rintro ⟨v, rfl, hv, h⟩
    exact .object hknot hmapped hbindings hproperties hv h

theorem target_iff (hknot : t.isKnot = true) (hmapped : t.head.isMapped = true)
    (hbindings : cat.bindings (t.knot env) = .ok bindings) :
    cat.Conforms env t r ↔ cat.Conforms [] (t.head.substitute bindings) r := by
  refine ⟨fun h => ?_, .target hknot hmapped hbindings⟩
  cases h with
  | target _ _ hbindings' h =>
      cases hbindings'.symm.trans hbindings
      exact h
  | object _ hmapped' _ _ _ _ =>
      rw [hmapped] at hmapped'
      cases hmapped'
  | test htest _ =>
      cases t with
      | object _ _ _ | ref _ _ => cases htest
      | _ => cases hknot
  | follow hfollow _ => cases hfollow <;> cases hknot
  | _ => cases hknot

theorem knot {env' : Bindings} {t' : Ty} (h : cat.Conforms env t r) (hknot : t.isKnot = true)
    (hknot' : t'.isKnot = true) (hhead : t.head = t'.head)
    (hsame : t.knot env = t'.knot env') : cat.Conforms env' t' r := by
  cases h with
  | object _ hmapped hbindings hproperties hv h =>
      rw [hhead] at hmapped
      rw [hsame] at hbindings hproperties
      exact .object hknot' hmapped hbindings hproperties hv h
  | target _ hmapped hbindings h =>
      rw [hhead] at hmapped h
      rw [hsame] at hbindings
      exact .target hknot' hmapped hbindings h
  | test htest _ =>
      cases t with
      | object _ _ _ | ref _ _ => cases htest
      | _ => cases hknot
  | follow hfollow _ => cases hfollow <;> cases hknot
  | _ => cases hknot

theorem knot_iff (hknot : t.isKnot = true) :
    cat.Conforms env t r ↔ cat.Conforms [] (t.knot env) r := by
  have hhead : t.head = (t.knot env).head := (Ty.head_knot env t).symm
  have hknot' : (t.knot env).isKnot = true := Ty.isKnot_knot hknot
  have hsame : t.knot env = (t.knot env).knot [] := (Ty.knot_nil _).symm
  exact ⟨fun h => h.knot hknot hknot' hhead hsame,
    fun h => h.knot hknot' hknot hhead.symm hsame.symm⟩

end Conforms

end Catalog

/-! Conformance does not depend on how a type is written. -/

theorem Value.strictEqual_congr {a b : Scalar} (h : a.unsignedZero = b.unsignedZero) (v : Value) :
    v.strictEqual (.scalar a) = v.strictEqual (.scalar b) := by
  cases a with
  | float x =>
      cases b with
      | float y =>
          have hequal : v.equal (.scalar (.float x)) = v.equal (.scalar (.float y)) := by
            cases v with
            | scalar c =>
                have hkey : (Scalar.float x).valueKey = (Scalar.float y).valueKey := h
                rw [equal, equal, hkey]
            | _ => simp only [equal]
          rw [strictEqual, strictEqual, hequal]
          rfl
      | _ => cases h
  | _ =>
      cases b with
      | float y => cases h
      | _ => cases h <;> rfl

namespace Test

theorem decides_iff {test : Test} {b : Bool} (h : test.Decides r b) :
    b = true ↔ test.Decides r true := by
  refine ⟨fun hb => hb ▸ h, fun htrue => ?_⟩
  cases test with
  | always => exact h
  | never => cases htrue
  | object | typeOf _ | equals _ =>
      obtain ⟨v, rfl, rfl⟩ := h
      obtain ⟨w, heq, htrue⟩ := htrue
      cases heq
      exact htrue.symm

variable {keys : TypeParam → Bool} {env' : Bindings} {t' : Ty}

/-- Literals that differ by the sign of a zero ask the same. -/
theorem ofType?_congr {test : Test} (h : cat.Layer keys Value.literalKey env env' t t')
    (htest : ofType? t = some test) :
    ∃ test', ofType? t' = some test' ∧ ∀ r b, test.Decides r b → test'.Decides r b := by
  cases h with
  | primitive _ | boolean _ => exact ⟨test, htest, fun _ _ => id⟩
  | @literal v v' h =>
      obtain ⟨a, rfl, hequals⟩ : ∃ a, v = .scalar a ∧ test = equals a := by
        change ofLiteral? v = some test at htest
        unfold ofLiteral? at htest
        split at htest
        · exact ⟨_, rfl, (Option.some.inj htest).symm⟩
        · exact ⟨_, rfl, (Option.some.inj htest).symm⟩
        · exact ⟨_, rfl, (Option.some.inj htest).symm⟩
        · cases htest
      obtain ⟨b, rfl, hzero⟩ := Value.scalar_of_literalKey h
      refine ⟨equals b, ?_, ?_⟩
      · cases a with
        | null | bool _ => cases htest
        | _ =>
            cases b with
            | null | bool _ => cases hzero
            | _ => rfl
      · rintro r answer hdecides
        rw [hequals] at hdecides
        obtain ⟨w, hw, hanswer⟩ := hdecides
        exact ⟨w, hw, hanswer.trans (Value.strictEqual_congr hzero w)⟩
  | _ => cases htest

end Test

namespace Ty

theorem isName_of_isKnot (h : t.isKnot = true) : t.isName = false := by
  cases t with
  | object _ _ _ | ref _ _ => rfl
  | _ => cases h

end Ty

namespace Catalog

variable {marks : TypeParam → Bool} {g : Value → Value} {env' : Bindings} {t' : Ty}

theorem WellScoped.grounded_head (hcat : cat.WellScoped marks) (ht : cat.Whole marks t)
    (hknot : t.isKnot = true) (hmapped : t.head.isMapped = true)
    (hbindings : cat.bindings t = .ok bindings) : cat.Grounded marks bindings t.head := by
  cases t with
  | ref target args => exact hcat.grounded_target ht hmapped hbindings
  | object _ _ _ => cases hmapped
  | _ => cases hknot

namespace Alike

theorem instances {o o' : Ty} {bindings' : Bindings} (hcat : cat.WellScoped marks)
    (ho : cat.Whole marks o) (ho' : cat.Whole marks o') (hbindings : cat.bindings o = .ok bindings)
    (hbindings' : cat.bindings o' = .ok bindings')
    (hsame : bindings.mapLiterals g = bindings'.mapLiterals g)
    (ht : cat.Grounded marks bindings t) (ht' : cat.Grounded marks bindings' t')
    (htypes : t.mapLiterals g = t'.mapLiterals g) :
    cat.Alike marks g [] (t.substitute bindings) [] (t'.substitute bindings') := by
  have hleft : cat.Alike marks g (bindings ++ []) t [] (t.substitute bindings) :=
    .instantiate hcat ho hbindings ht
  have hright : cat.Alike marks g (bindings' ++ []) t' [] (t'.substitute bindings') :=
    .instantiate hcat ho' hbindings' ht'
  have hinside : cat.Alike marks g (bindings ++ []) t (bindings' ++ []) t' :=
    .enter (hcat.scoped_bindings ho hbindings) (hcat.scoped_bindings ho' hbindings') hsame
      ht ht' htypes
  exact (hleft.symm.trans hinside).trans hright

/-- What an instance of a mapped type stands for is alike on both sides. -/
theorem target (hcat : cat.WellScoped marks)
    (halike : cat.Alike marks Value.literalKey env t env' t') (hknot : t.isKnot = true)
    (hmapped : t.head.isMapped = true) (hbindings : cat.bindings (t.knot env) = .ok bindings) :
    ∃ u bindings', Reaches cat env' t' u ∧ u.isKnot = true ∧ u.head.isMapped = true ∧
      cat.bindings (u.knot env') = .ok bindings' ∧
      cat.Alike marks Value.literalKey [] (t.head.substitute bindings) []
        (u.head.substitute bindings') := by
  obtain ⟨u, hreaches, hu, hknot', hhead, hsame⟩ := halike.knot hknot
  have hwhole := hu.left.whole_knot hknot
  have hwhole' := hu.right.whole_knot hknot'
  obtain ⟨bindings', hbindings', hsameBindings⟩ :=
    bindings_congr hsame (bare_of_fits hwhole.fits.1) hbindings
  have hmapped' := (Ty.isMapped_congr hhead).symm.trans hmapped
  have hground := hcat.grounded_head hwhole (Ty.isKnot_knot hknot)
    (by rwa [Ty.head_knot]) hbindings
  have hground' := hcat.grounded_head hwhole' (Ty.isKnot_knot hknot')
    (by rwa [Ty.head_knot]) hbindings'
  rw [Ty.head_knot] at hground hground'
  exact ⟨u, bindings', hreaches, hknot', hmapped', hbindings',
    .instances hcat hwhole hwhole' hbindings hbindings' hsameBindings hground hground' hhead⟩

end Alike

theorem Spells.transfer (hcat : cat.WellScoped marks) {names : StringSet}
    (h : cat.Spells env t names) (halike : cat.Alike marks Value.literalKey env t env' t') :
    cat.Spells env' t' names := by
  have hnil : cat.Treads [] := fun r hr => absurd hr List.not_mem_nil
  exact spells_iff.2 ((spells_iff.1 h).transfer hcat halike hnil hnil)

namespace Conforms

theorem transfer (hcat : cat.WellScoped marks) (h : cat.Conforms env t r)
    (halike : cat.Alike marks Value.literalKey env t env' t') : cat.Conforms env' t' r := by
  induction h generalizing env' t' with
  | @test _ t _ _ htest h =>
      have hparam : ∀ x, t = .param x → marks x = true := by
        rintro x rfl
        cases htest
      obtain ⟨u, hreaches, _, hlayer⟩ := halike.layer hparam
      obtain ⟨test', htest', himp⟩ := Test.ofType?_congr hlayer htest
      exact (reaches_iff hreaches).2 (.test htest' (himp _ _ h))
  | union hmem _ ih =>
      obtain ⟨u, hreaches, _, hlayer⟩ := halike.layer nofun
      cases hlayer with
      | union hmembers =>
          obtain ⟨m, hm, hlike⟩ := exists_of_forall₂_right hmembers.flip hmem
          exact (reaches_iff hreaches).2 (.union hm (ih hlike))
  | inter _ ih =>
      obtain ⟨u, hreaches, _, hlayer⟩ := halike.layer nofun
      cases hlayer with
      | inter hmembers =>
          refine (reaches_iff hreaches).2 (.inter fun m hm => ?_)
          obtain ⟨m₀, hm₀, hlike⟩ := exists_of_forall₂_right hmembers hm
          exact ih m₀ hm₀ hlike
  | follow hfollow _ ih =>
      obtain ⟨u, hreaches, hu⟩ := halike.follow hcat hfollow
      exact (reaches_iff hreaches).2 (ih hu)
  | @object scope _ o _ _ hknot hmapped hbindings hproperties hv _ ih =>
      obtain ⟨u, hreaches, hu, hknot', hhead, hsame⟩ := halike.knot hknot
      have hwhole := hu.left.whole_knot hknot
      have hwhole' := hu.right.whole_knot hknot'
      have hinstance : (o.knot scope).isKnot = true := Ty.isKnot_knot hknot
      have hinstance' : (u.knot env').isKnot = true := Ty.isKnot_knot hknot'
      have hname := Ty.isName_of_isKnot hinstance
      have hname' := Ty.isName_of_isKnot hinstance'
      have hbare := bare_of_fits hwhole.fits.1
      obtain ⟨bindings', hbindings', hsameBindings⟩ := bindings_congr hsame hbare hbindings
      have hproperties' := (properties_congr hsame hbare hname hname').symm.trans hproperties
      rw [Ty.isMapped_congr hhead] at hmapped
      refine (reaches_iff hreaches).2 (.object hknot' hmapped hbindings' hproperties' hv
        fun p hp w hw => ih p hp w hw ?_)
      exact .instances hcat hwhole hwhole' hbindings hbindings' hsameBindings
        (hcat.grounded_property hwhole (not_leaks_of_isKnot hinstance) hname hbindings
          hproperties hp hw)
        (hcat.grounded_property hwhole' (not_leaks_of_isKnot hinstance') hname' hbindings'
          hproperties' hp hw) rfl
  | target hknot hmapped hbindings _ ih =>
      obtain ⟨u, bindings', hreaches, hknot', hmapped', hbindings', htarget⟩ :=
        halike.target hcat hknot hmapped hbindings
      exact (reaches_iff hreaches).2 (.target hknot' hmapped' hbindings' (ih htarget))
  | mapped hkeys hv _ ih =>
      obtain ⟨u, hreaches, _, hlayer⟩ := halike.layer nofun
      cases hlayer with
      | mapped hc htemplate =>
          exact (reaches_iff hreaches).2 (.mapped (hkeys.transfer hcat hc) hv
            fun key hkey => ih key hkey (htemplate key))
  | index hobject hkeys htypes hbindings hmem _ ih =>
      obtain ⟨u, hreaches, hu, hlayer⟩ := halike.layer nofun
      cases hlayer with
      | index _ hkey' =>
          obtain ⟨o', bindings', hexposes, htypes', hbindings', hall⟩ :=
            hobject.index hcat hu htypes hbindings
          refine (reaches_iff hreaches).2 (.index hexposes (hkeys.transfer hcat hkey') htypes'
            hbindings' hmem (ih ?_))
          have hleft :=
            hobject.instantiate (g := Value.literalKey) hcat hu.left htypes hbindings hmem
          have hright := hexposes.instantiate (g := Value.literalKey) hcat hu.right htypes'
            hbindings' hmem
          exact (hleft.symm.trans (hall _ hmem)).trans hright
  | keyOf hkeys hmem h =>
      obtain ⟨u, hreaches, hu, hlayer⟩ := halike.layer nofun
      cases hlayer with
      | keyOf _ => exact (reaches_iff hreaches).2 (.keyOf (hkeys.transfer hcat hu) hmem h)

theorem iff_of_alike (hcat : cat.WellScoped marks)
    (halike : cat.Alike marks Value.literalKey env t env' t') :
    cat.Conforms env t r ↔ cat.Conforms env' t' r :=
  ⟨fun h => h.transfer hcat halike, fun h => h.transfer hcat halike.symm⟩

end Conforms

end Catalog

end TypeGuard
