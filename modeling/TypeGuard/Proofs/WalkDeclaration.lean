import TypeGuard.Proofs.Heritage
import TypeGuard.Proofs.WalkGuard

/-! Declarations are guarded by the rules as well: their members one by one and every heritage
clause in full. An object type has to stand for an interface or a class for that, and not for an
alias. -/

namespace TypeGuard

namespace Declaration

theorem body_of_kind? {d : Declaration} (h : d.kind? ≠ none) :
    ∃ heritage members, d.body = .interface heritage members ∨
      d.body = .nominal heritage members := by
  unfold kind? at h
  split at h
  · next heritage members hbody => exact ⟨heritage, members, .inl hbody⟩
  · next heritage members hbody => exact ⟨heritage, members, .inr hbody⟩
  · exact absurd rfl h

end Declaration

namespace Catalog

variable {cat : Catalog}

theorem Declares.head {t : Ty} (h : cat.Declares t) : cat.Declares t.head := by
  cases t with
  | ref target args => exact h
  | _ => exact h

theorem declares_key (t : Ty) : cat.Declares t.key ↔ cat.Declares t := by
  induction t with
  | ref target args ih _ => exact ih
  | _ => exact Iff.rfl

end Catalog

namespace Guard

variable {cat : Catalog} {env : Bindings} {path : List Ty}

theorem declares_own {d : Declaration} {t : Ty}
    (henv : ∀ binding ∈ env, binding.2.Every cat.Declares) (ht : t.Every cat.Declares) :
    ∀ binding ∈ Bindings.ofPairs (d.params.zip t.args) ++ env, binding.2.Every cat.Declares := by
  intro binding hmem
  rcases List.mem_append.1 hmem with hown | houter
  · exact ht.args (List.of_mem_zip (Bindings.mem_of_mem_ofPairs hown)).2
  · exact henv binding houter

theorem sound_base {declared : Declaration → Expr → Walk Expr} {heir : Declaration} {base : Ty}
    {accessor : Expr} (hbase : base.Every cat.Declares)
    (hdeclared : ∀ {d decl elements}, base.head = .object .interface decl elements →
      cat.declared? decl = some d → d.kind? ≠ none →
      SoundParts cat (declared d) (.ofPairs (d.params.zip base.args) ++ env) env path true base) :
    Sound cat (ofBase cat declared heir base accessor) env path ⟨true, env, base, accessor⟩ := by
  intro p
  unfold ofBase
  split
  · next decl elements hhead =>
      refine Walk.Meets.bind (Walk.Meets.isActive ?_)
      by_cases hon : base.IsOn path
      · simp only [hon, if_true]
        exact Walk.Meets.throw trivial
      · simp only [Bool.not_eq_true] at hon
        simp only [hon, Bool.false_eq_true, if_false]
        split
        · next d hfind =>
            have hhead' := hbase.1.head
            rw [hhead] at hhead'
            have hkind : d.kind? ≠ none := hhead' d hfind
            refine Walk.Meets.withFrame ((meets_knot (hdeclared hhead hfind hkind)).mono ?_)
            rintro e p' (⟨hon', _⟩ | ⟨hoff, _, p'', ⟨parts, es, hparts, hes, rfl⟩, htie, rfl⟩)
            · exact absurd hon' (Bool.eq_false_iff.1 hon)
            · exact .knot (.declared hhead) hoff hparts hes htie
        · exact Walk.Meets.throw trivial
  · exact Walk.Meets.throw trivial

theorem soundParts_ofDeclaration (hnamed : cat.Named) (hup : cat.Upholds cat.Declares)
    (limit : Nat) {d : Declaration} {decl : DeclId} {elements : List Ty} {t : Ty}
    (henv : ∀ binding ∈ env, binding.2.Every cat.Declares) (ht : t.Every cat.Declares)
    (hhead : t.head = .object .interface decl elements) (hfind : cat.declared? decl = some d)
    (hkind : d.kind? ≠ none) :
    SoundParts cat (ofDeclaration cat limit d) (.ofPairs (d.params.zip t.args) ++ env) env path
      true t := by
  induction limit generalizing d decl elements t env path with
  | zero => exact fun _ _ => Walk.Meets.throw trivial
  | succ limit ih =>
      intro slot p
      obtain ⟨heritage, members, hbody | hbody⟩ := Declaration.body_of_kind? hkind
      rotate_left
      · simp only [ofDeclaration, hbody]
        exact Walk.Meets.throw trivial
      have hinner := declares_own (d := d) henv ht
      unfold ofDeclaration
      simp only [hbody]
      refine Walk.Meets.bind (Walk.Meets.note ?_)
      refine Walk.Meets.bind (Walk.Meets.ofExcept (fun bases hbases => ?_) fun _ _ => trivial)
      have hinherited : ∀ base ∈ bases, Sound cat (do
          let base ← Walk.instantiate base
          ofBase cat (ofDeclaration cat limit) d base slot)
          (.ofPairs (d.params.zip t.args) ++ env) (t :: path)
          (Part.task slot ⟨true, .ofPairs (d.params.zip t.args) ++ env,
            base.substitute (.ofPairs (d.params.zip t.args) ++ env), none⟩) := by
        intro base hbase p
        refine Walk.Meets.bind (Walk.Meets.instantiate ?_)
        have hdeclares := (cat.stable_declares).substitute hinner
          ((Catalog.persists_declares hnamed hup).bases
            ((Catalog.bases_of_declared hhead hfind).trans hbases) hbase)
        exact sound_base hdeclares
          (fun hhead hfind hkind => ih hinner hdeclares hhead hfind hkind) p
      refine Walk.Meets.bind ((meets_map hinherited p).mono fun es p' hes => ?_)
      refine Walk.Meets.bind ((meets_properties (ofType_sound cat limit) members slot p').mono ?_)
      rintro es' p'' ⟨parts, hparts, hes'⟩
      refine Walk.Meets.pure ⟨_, es ++ es', .declared hhead hfind hbody hbases hparts, ?_, ?_⟩
      · rw [List.map_append, List.map_map]
        exact hes.append hes'
      · rw [whole, List.append_assoc]

end Guard

end TypeGuard
