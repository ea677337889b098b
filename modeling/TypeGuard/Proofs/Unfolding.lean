import TypeGuard.Proofs.WellScoped

/-! What can come up when a type is taken apart without going into an instance: its members, keys
and templates, and what names stand for. -/

namespace TypeGuard

namespace Catalog

open Relation (ReflTransGen)

variable {cat : Catalog} {keys : TypeParam → Bool} {t u : Ty}

/-- One step into a type. -/
inductive Reveals (cat : Catalog) : Ty → Ty → Prop
  | union {ms : List Ty} {m : Ty} (hm : m ∈ ms) : Reveals cat (.union ms) m
  | inter {ms : List Ty} {m : Ty} (hm : m ∈ ms) : Reveals cat (.inter ms) m
  | operand (t : Ty) : Reveals cat (.keyOf t) t
  | object (t k : Ty) : Reveals cat (.index t k) t
  | key (t k : Ty) : Reveals cat (.index t k) k
  | constraint (x : TypeParam) (c t : Ty) (xs : List TypeParam) : Reveals cat (.mapped x c t xs) c
  | template (x : TypeParam) (c t : Ty) (xs : List TypeParam) : Reveals cat (.mapped x c t xs) t
  | name {s : String} {args : List Ty} {t : Ty} (h : cat.resolve (.name s args) = .ok t) :
      Reveals cat (.name s args) t

/-- Wherever a name comes up, its arguments can be put in one after another. -/
def Steady (cat : Catalog) (t : Ty) : Prop :=
  ∀ s args, ReflTransGen cat.Reveals t (.name s args) → cat.Straight s args

theorem Steady.reveal (h : cat.Steady t) (hu : cat.Reveals t u) : cat.Steady u :=
  fun s args hname => h s args (.head hu hname)

theorem Steady.straight {s : String} {args : List Ty} (h : cat.Steady (.name s args)) :
    cat.Straight s args :=
  h s args .refl

theorem steady_literal (v : Value) : cat.Steady (.literal v) := by
  intro s args h
  rcases ReflTransGen.cases_head h with heq | ⟨_, hstep, _⟩
  · cases heq
  · cases hstep

namespace WellScoped

theorem reveal_keeps (hcat : cat.WellScoped keys) (ht : t.Every (cat.Fits keys))
    (h : cat.Reveals t u) :
    u.Every (cat.Fits keys) ∧ ∀ x ∈ u.params, keys x = false → x ∈ t.params := by
  cases h with
  | union hm | inter hm =>
      refine ⟨Ty.insideList_iff.1 ht.2 u hm, fun x hx _ => ?_⟩
      simp only [Ty.params, Ty.paramsList_eq, List.mem_flatMap]
      exact ⟨u, hm, hx⟩
  | operand => exact ⟨ht.2, fun _ hx _ => hx⟩
  | object | constraint => exact ⟨ht.2.1, fun _ hx _ => List.mem_append_left _ hx⟩
  | key | template => exact ⟨ht.2.2, fun _ hx _ => List.mem_append_right _ hx⟩
  | @name s args _ hresolve =>
      have hfits := hcat.fits_resolve (Ty.insideList_iff.1 ht.2) ht.1 hresolve
      refine ⟨hfits, fun x hx hkey => ?_⟩
      obtain ⟨a, ha, hxa⟩ :=
        hcat.mem_free_resolve ht.1 hresolve (mem_free_of_mem_params hfits hx hkey)
      simp only [Ty.params, Ty.paramsList_eq, List.mem_flatMap]
      exact ⟨a, ha, Ty.free_subset_params hxa⟩

/-- Whatever comes up fits, and mentions no other parameters than the type did at first. -/
theorem revealing_keeps (hcat : cat.WellScoped keys) (ht : t.Every (cat.Fits keys))
    (h : ReflTransGen cat.Reveals t u) :
    u.Every (cat.Fits keys) ∧ ∀ x ∈ u.params, keys x = false → x ∈ t.params := by
  induction h with
  | refl => exact ⟨ht, fun _ hx _ => hx⟩
  | tail _ hstep ih =>
      obtain ⟨hfits, hparams⟩ := hcat.reveal_keeps ih.1 hstep
      exact ⟨hfits, fun x hx hkey => ih.2 x (hparams x hx hkey) hkey⟩

/-- It is enough to look at the aliases that have a parameter which is open in the type. -/
theorem steady_of_free (hcat : cat.WellScoped keys) (ht : t.Every (cat.Fits keys))
    (h : ∀ s d body args x, cat.find? s = some d → d.body = .alias (some body) →
      body.isMapped = false → x ∈ t.free → x ∈ d.params →
      ReflTransGen cat.Reveals t (.name s args) → cat.Straight s args) : cat.Steady t := by
  intro s args hname
  by_contra hstraight
  refine hstraight (straight_of_apart fun d body hfind hbody hmapped u hu x hx hmem => ?_)
  have hkey : keys x = false := hcat.unmarked _ d x hfind hmem
  have hx : x ∈ t.params := by
    refine (hcat.revealing_keeps ht hname).2 x ?_ hkey
    simp only [Ty.params, Ty.paramsList_eq, List.mem_flatMap]
    exact ⟨u, hu, hx⟩
  exact hstraight
    (h s d body args x hfind hbody hmapped (mem_free_of_mem_params ht hx hkey) hmem hname)

theorem steady (hcat : cat.WellScoped keys) (ht : t.Every (cat.Fits keys))
    (hplain : ∀ x ∈ t.free, ¬cat.Rewrites x) : cat.Steady t :=
  hcat.steady_of_free ht fun _ d body _ x hfind hbody hmapped hx hmem _ =>
    absurd ⟨_, d, body, hfind, hbody, hmapped, hmem⟩ (hplain x hx)

/-- In the body of an alias only the alias itself has parameters that are open there. -/
theorem steady_body (hcat : cat.WellScoped keys) {s : String} {d : Declaration}
    (hfind : cat.find? s = some d) (hbody : d.body = .alias (some t))
    (hagain : ∀ args, ReflTransGen cat.Reveals t (.name s args) → cat.Straight s args) :
    cat.Steady t := by
  refine hcat.steady_of_free (hcat.fits _ d t hfind (.body hbody)) ?_
  intro s' d' _ args x hfind' _ _ hx hmem hname
  have hown : x ∈ d.params := hcat.scope _ d t hfind (.body hbody) hx
  cases hcat.apart _ d _ d' x hfind hfind' hown hmem
  exact hagain args hname

end WellScoped

end Catalog

end TypeGuard
