import NestedMachine.Proofs.Hierarchy.Meeting
import NestedMachine.Run.Firing

/-!
# What a route leaves and enters

The exits of a route are the innermost states of the chain of the active state, and its entries complete what is then left of that chain to the chain of the target (`Forest.route_spec`). A route that leaves the root as well has no such remainder; it can be computed, but not walked. A transition that leaves an active state for another state has a route. `Forest.route_eq` says which, and that route leaves and enters nothing but states (`Forest.exists_route`).
-/

namespace NestedMachine

/-- The key where the ends of a transition meet, if the transition leaves and enters that as well: it is external, and one of its ends is that key. -/
def Kind.boundary (kind : Kind) (source target common : Key) : List Key :=
  if kind = .external ∧ (source = common ∨ target = common) then [common] else []

namespace Hierarchy

variable {h : Hierarchy} {active source target key : Key} {kind : Kind} {route : Route}

theorem route_eq_ok (hroute : h.route active source target kind = .ok route) :
    h.meet source target ∈ h.chain active ∧ h.meet source target ∈ h.chain target ∧
      (route = ⟨(h.chain active).takeWhile (· ≠ h.meet source target),
          ((h.chain target).takeWhile (· ≠ h.meet source target)).reverse⟩ ∨
        route = ⟨(h.chain active).takeWhile (· ≠ h.meet source target) ++ [h.meet source target],
          h.meet source target :: ((h.chain target).takeWhile (· ≠ h.meet source target)).reverse⟩) := by
  unfold Hierarchy.route at hroute
  simp only at hroute
  cases hup : h.path active (h.meet source target) with
  | error states => simp [hup, bind, Except.bind] at hroute
  | ok up =>
    cases hdown : h.path target (h.meet source target) with
    | error states => simp [hup, hdown, bind, Except.bind] at hroute
    | ok down =>
      obtain ⟨hactive, rfl⟩ := path_eq_ok_iff.1 hup
      obtain ⟨htarget, rfl⟩ := path_eq_ok_iff.1 hdown
      refine ⟨hactive, htarget, ?_⟩
      simp only [hup, hdown, bind, Except.bind] at hroute
      split at hroute
      · exact .inr (Except.ok.inj hroute).symm
      · exact .inl (Except.ok.inj hroute).symm

theorem Forest.route_spec (hforest : h.Forest) (hactive : h.Contains active)
    (hroute : h.route active source target kind = .ok route) :
    h.Contains target ∧ (.root ∈ route.exits ∧ h.chain active = route.exits ∨
      ∃ inner, h.chain active = route.exits ++ h.chain inner ∧
        h.chain target = route.entries.reverse ++ h.chain inner) := by
  obtain ⟨hup, hdown, hroute⟩ := route_eq_ok hroute
  generalize h.meet source target = common at *
  have hcommon : h.Contains common := hforest.contains_of_mem_chain hactive hup
  have htarget : h.Contains target := by
    by_contra hnot
    rw [chain_of_parent_none (parent_eq_none hnot), List.mem_singleton] at hdown
    exact hnot (hdown ▸ hcommon)
  refine ⟨htarget, ?_⟩
  have hactiveChain := hforest.chain_split hup
  have htargetChain := hforest.chain_split hdown
  rcases hroute with rfl | rfl
  · exact .inr ⟨common, hactiveChain, by simpa using htargetChain⟩
  · by_cases hroot : common = .root
    · subst hroot
      refine .inl ⟨by simp, ?_⟩
      rwa [chain_root] at hactiveChain
    · obtain ⟨inner, hparent⟩ := exists_parent hcommon hroot
      rw [hforest.chain_of_parent hparent] at hactiveChain htargetChain
      exact .inr ⟨inner, by simpa using hactiveChain, by simpa using htargetChain⟩

/-! ### There is a route -/

theorem Forest.mem_states_of_mem_takeWhile (hforest : h.Forest) (hkey : h.Contains key) {ancestor other : Key}
    (hancestor : ancestor ∈ h.chain key) (hother : other ∈ (h.chain key).takeWhile (· ≠ ancestor)) :
    other ∈ h.states := by
  have hmem : other ∈ h.chain key := (List.takeWhile_sublist _).subset hother
  refine mem_states.2 ⟨?_, hforest.contains_of_mem_chain hkey hmem⟩
  rintro rfl
  -- The root ends every way up, so below one of the keys on it the root would be passed twice.
  have hnodup := hforest.nodup_chain hkey
  rw [hforest.chain_split hancestor] at hnodup
  have hroot := hforest.root_mem_chain (hforest.contains_of_mem_chain hkey hancestor)
  exact (List.nodup_append.1 hnodup).2.2 _ hother _ hroot rfl

theorem Forest.mem_states_of_mem_activeChain (hforest : h.Forest) (hkey : h.Contains key) {other : Key}
    (hother : other ∈ h.activeChain key) : other ∈ h.states :=
  hforest.mem_states_of_mem_takeWhile hkey (hforest.root_mem_chain hkey) hother

theorem Forest.mem_states_of_mem_below (hforest : h.Forest) (hkey : h.Contains key) {ancestor other : Key}
    (hother : other ∈ h.below ancestor key) : other ∈ h.states := by
  obtain ⟨hmem, hinside⟩ := mem_below.1 hother
  refine mem_states.2 ⟨?_, hforest.contains_of_mem_chain hkey hmem⟩
  rintro rfl
  rw [IsAncestor, ancestors_root] at hinside
  cases hinside

theorem mem_boundary_iff {common : Key} : key ∈ kind.boundary source target common ↔
    (kind = .external ∧ (source = common ∨ target = common)) ∧ key = common := by
  unfold Kind.boundary
  split
  · next hends => simp [hends]
  · next hends => simp [hends]

theorem Forest.route_eq (hforest : h.Forest) (hactive : h.Contains active) (hsource : source ∈ h.chain active)
    (htarget : h.Contains target) (kind : Kind) : h.route active source target kind =
      .ok ⟨h.below (h.meet source target) active ++ kind.boundary source target (h.meet source target),
        kind.boundary source target (h.meet source target) ++ (h.below (h.meet source target) target).reverse⟩ := by
  obtain ⟨hup, hdown⟩ := hforest.meet_mem (hforest.contains_of_mem_chain hactive hsource) htarget
  replace hup := hforest.mem_chain_trans hup hsource
  have hupPath := path_eq_ok_iff.2 ⟨hup, (hforest.takeWhile_chain hactive hup).symm⟩
  have hdownPath := path_eq_ok_iff.2 ⟨hdown, (hforest.takeWhile_chain htarget hdown).symm⟩
  unfold Hierarchy.route
  simp only [hupPath, hdownPath, bind, Except.bind, Kind.boundary]
  split
  · rfl
  · rw [List.append_nil]
    rfl

/-- **A transition that leaves an active state has a route**, and the route crosses states alone. -/
theorem Forest.exists_route (hforest : h.Forest) (hactive : h.Contains active) (hsource : source ∈ h.activeChain active)
    (htarget : target ∈ h.states) (kind : Kind) :
    ∃ route, h.route active source target kind = .ok route ∧ ∀ key ∈ route.exits ++ route.entries, key ∈ h.states := by
  have hstate := hforest.mem_states_of_mem_activeChain hactive hsource
  have hcontains := (mem_states.1 htarget).2
  refine ⟨_, hforest.route_eq hactive ((h.activeChain_sublist active).subset hsource) hcontains kind, fun key hkey => ?_⟩
  -- The common ancestor is crossed only where it is one of the two ends, which are states.
  have hboundary : key ∈ kind.boundary source target (h.meet source target) → key ∈ h.states := by
    intro hkey
    obtain ⟨⟨_, hends⟩, rfl⟩ := mem_boundary_iff.1 hkey
    exact hends.elim (· ▸ hstate) (· ▸ htarget)
  simp only [List.mem_append, List.mem_reverse] at hkey
  rcases hkey with (hexit | hkey) | hkey | hentry
  · exact hforest.mem_states_of_mem_below hactive hexit
  · exact hboundary hkey
  · exact hboundary hkey
  · exact hforest.mem_states_of_mem_below hcontains hentry

end Hierarchy

end NestedMachine
