import TypeGuard.Proofs.Inheritance

/-! Names that stand for names. Properties are looked for at the end of such a chain, as long as no
name occurs in it twice: arguments do not tell two occurrences apart. -/

namespace TypeGuard

namespace Catalog

variable {cat : Catalog}

/-- The names met on the way from a type to what it stands for in the end, step by step. -/
inductive Unravels (cat : Catalog) : Ty → List String → Ty → Prop
  | done {u : Ty} (hname : u.isName = false) : Unravels cat u [] u
  | step {s : String} {args : List Ty} {t u : Ty} {names : List String}
      (hresolve : cat.resolve (.name s args) = .ok t) (hrest : Unravels cat t names u) :
      Unravels cat (.name s args) (s :: names) u

namespace Unravels

variable {t u : Ty} {names seen : List String} {limit : Nat}

theorem isName_end (h : cat.Unravels t names u) : u.isName = false := by
  induction h with
  | done hname => exact hname
  | step _ _ ih => exact ih

theorem subset_entries (h : cat.Unravels t names u) :
    names ⊆ cat.entries.map (·.1.qualified) := by
  induction h with
  | done => exact List.nil_subset _
  | step hresolve _ ih =>
      obtain ⟨d, hfind, _⟩ := find?_of_resolve hresolve
      refine List.cons_subset.2 ⟨?_, ih⟩
      exact List.mem_map.2 ⟨(_, d), mem_entries_of_declared? hfind, rfl⟩

theorem length_le (h : cat.Unravels t names u) (hnodup : names.Nodup) :
    names.length ≤ cat.entries.length := by
  have hle := (hnodup.subperm h.subset_entries).length_le
  rwa [List.length_map] at hle

theorem followNames_of_nodup (h : cat.Unravels t names u) (hnodup : names.Nodup)
    (hfresh : ∀ s ∈ names, s ∉ seen) (hlimit : names.length ≤ limit) :
    cat.followNames limit seen t = .ok u := by
  induction h generalizing seen limit with
  | done hname => exact followNames_of_isName hname limit seen
  | @step s args t u names hresolve hrest ih =>
      rw [List.nodup_cons] at hnodup
      rw [List.forall_mem_cons] at hfresh
      cases limit with
      | zero => cases hlimit
      | succ limit =>
          rw [followNames, if_neg hfresh.1, hresolve]
          apply ih hnodup.2 _ (Nat.le_of_succ_le_succ hlimit)
          intro s' hs' hseen
          rcases List.mem_cons.1 hseen with rfl | hold
          · exact hnodup.1 hs'
          · exact hfresh.2 s' hs' hold

/-- At a name met before, the search stays where it is. -/
theorem followNames_of_repeat (limit : Nat) (h : cat.Unravels t names u)
    (hrepeat : names.Nodup → ∃ s ∈ names, s ∈ seen) :
    ∃ s args, cat.followNames limit seen t = .ok (.name s args) := by
  induction h generalizing seen limit with
  | done =>
      obtain ⟨s, hs, _⟩ := hrepeat List.nodup_nil
      cases hs
  | @step s args t u names hresolve hrest ih =>
      cases limit with
      | zero => exact ⟨s, args, rfl⟩
      | succ limit =>
          by_cases hseen : s ∈ seen
          · exact ⟨s, args, by rw [followNames, if_pos hseen]; rfl⟩
          · rw [followNames, if_neg hseen, hresolve]
            apply ih
            intro hnodup
            by_cases hs : s ∈ names
            · exact ⟨s, hs, List.mem_cons_self⟩
            · obtain ⟨s', hs', hold⟩ := hrepeat (List.nodup_cons.2 ⟨hs, hnodup⟩)
              rcases List.mem_cons.1 hs' with rfl | hs'
              · exact absurd hold hseen
              · exact ⟨s', hs', List.mem_cons_of_mem _ hold⟩

theorem properties_eq (h : cat.Unravels t names u) (hnodup : names.Nodup) :
    cat.properties t = cat.properties u := by
  have hlimit : names.length ≤ cat.entries.length + 1 := Nat.le_succ_of_le (h.length_le hnodup)
  have hfollow : cat.followNames (cat.entries.length + 1) [] t = .ok u :=
    h.followNames_of_nodup hnodup (fun _ _ => List.not_mem_nil) hlimit
  rw [Catalog.properties, Catalog.properties, hfollow, followNames_of_isName h.isName_end]

theorem properties_eq_nil (h : cat.Unravels t names u) (hrepeat : ¬names.Nodup) :
    cat.properties t = .ok [] := by
  obtain ⟨s, args, hfollow⟩ : ∃ s args,
      cat.followNames (cat.entries.length + 1) [] t = .ok (.name s args) :=
    h.followNames_of_repeat _ fun hnodup => absurd hnodup hrepeat
  rw [Catalog.properties, hfollow]
  rfl

end Unravels

/-- The properties of a name are those of what it stands for in the end, unless a name occurs twice
on the way there: then it has none. -/
theorem properties_along_names {t u : Ty} {names : List String} (h : cat.Unravels t names u) :
    (names.Nodup → cat.properties t = cat.properties u) ∧
      (¬names.Nodup → cat.properties t = .ok []) :=
  ⟨h.properties_eq, h.properties_eq_nil⟩

/-! An alias that stands for its argument. -/

def proxy : Declaration where
  name := "Proxy"
  params := [⟨"T", 0⟩]
  body := .alias (some (.param ⟨"T", 0⟩))

def proxies : Catalog where
  entries := [
    (.listed "Base", { name := "Base", body := .interface [] [text "x" "Base"] }),
    (.listed "Proxy", proxy)]

def proxyOf (t : Ty) : Ty :=
  .name "Proxy" [t]

theorem resolve_proxyOf (t : Ty) : proxies.resolve (proxyOf t) = .ok t := by
  have hrewrite : proxies.Resolves "Proxy" [t]
      ((Ty.param ⟨"T", 0⟩).substitute (.ofPairs (proxy.params.zip [t]))) :=
    .rewrite rfl rfl rfl (List.cons_ne_nil _ _) rfl
  have harg : (Ty.param ⟨"T", 0⟩).substitute (.ofPairs (proxy.params.zip [t])) = t := by
    by_cases hself : t = .param ⟨"T", 0⟩
    · rw [hself]
      exact Ty.chase_of_self rfl
    · exact (Ty.chase_of_some rfl hself).trans (Ty.substitute_nil t)
  rw [harg] at hrewrite
  exact resolve_eq_ok.2 hrewrite

theorem Unravels.proxyOf {t u : Ty} {names : List String} (h : proxies.Unravels t names u) :
    proxies.Unravels (proxyOf t) ("Proxy" :: names) u :=
  .step (resolve_proxyOf t) h

theorem unravels_base :
    proxies.Unravels (.name "Base" []) ["Base"] (.object .interface (.listed "Base") []) :=
  .step rfl (.done rfl)

theorem properties_along_names_once :
    proxies.Unravels (proxyOf (.name "Base" [])) ["Proxy", "Base"]
      (.object .interface (.listed "Base") []) ∧
    ["Proxy", "Base"].Nodup ∧ proxies.properties (proxyOf (.name "Base" [])) =
      proxies.properties (.object .interface (.listed "Base") []) :=
  ⟨unravels_base.proxyOf, by decide, (properties_along_names unravels_base.proxyOf).1 (by decide)⟩

/-- Wrapped twice, the interface is still what the name stands for, but its property is lost. -/
theorem properties_lost_behind_repeat :
    let t := proxyOf (proxyOf (.name "Base" []))
    proxies.Unravels t ["Proxy", "Proxy", "Base"] (.object .interface (.listed "Base") []) ∧
    proxies.properties t = .ok [] ∧
    proxies.properties (.object .interface (.listed "Base") []) = .ok [text "x" "Base"] := by
  intro t
  have htwice := unravels_base.proxyOf.proxyOf
  exact ⟨htwice, htwice.properties_eq_nil (by decide), rfl⟩

end Catalog

end TypeGuard
