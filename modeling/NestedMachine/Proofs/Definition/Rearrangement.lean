import NestedMachine.Proofs.Definition.Shape
import NestedMachine.Proofs.Machine.Depiction

/-!
# Declarations in another order

Only the order of the limits and that of the resolvers matters. Two lists of the same declarations have the same shape (`sameShape_of_perm`); so both are consistent or neither is (`consistent_of_perm`), they have the same defects up to order, and the machines that they give are `Machine.Alike`: each is what its declarations describe, and the descriptions agree.
-/

namespace NestedMachine

variable {ι κ ν γ : Type} {declarations declarations' : List (Declaration ι κ ν γ)}

namespace Definition

section

variable (hperm : declarations.Perm declarations')
include hperm

theorem links_perm : (links declarations).Perm (links declarations') := hperm.filterMap _

theorem clauses_perm : (clauses declarations).Perm (clauses declarations') := hperm.filterMap _

theorem behaviors_perm : (behaviors declarations).Perm (behaviors declarations') := hperm.filterMap _

theorem nests_eq_of_perm : Nests declarations = Nests declarations' := by
  funext superstate id
  simp only [Nests, hperm.mem_iff]

theorem isFinal_eq_of_perm : IsFinal declarations = IsFinal declarations' := by
  funext id
  simp only [IsFinal, hperm.mem_iff]

theorem states_perm [DecidableEq ι] : (states declarations).Perm (states declarations') := by
  refine (List.perm_ext_iff_of_nodup (nodup_states _) (nodup_states _)).2 fun id => ?_
  simp only [states, List.mem_eraseDups, (hperm.flatMap_right Declaration.mentions).mem_iff]

theorem sameShape_of_perm [DecidableEq ι] : SameShape declarations declarations' where
  states_perm := states_perm hperm
  links_perm := links_perm hperm
  nests_eq := nests_eq_of_perm hperm
  isFinal_eq := isFinal_eq_of_perm hperm

theorem consistent_of_perm [DecidableEq ι] (hconsistent : Consistent declarations) : Consistent declarations' where
  initialSources_nodup := (hperm.filterMap Declaration.initialSource?).nodup_iff.1 hconsistent.initialSources_nodup
  substates_disjoint :=
    (hperm.filterMap Declaration.composite?).pairwise hconsistent.substates_disjoint fun hdisjoint _ hid' hid =>
      hdisjoint hid hid'
  acyclic := (sameShape_of_perm hperm).contains_eq ▸ hconsistent.acyclic
  initialTargets_length := (hperm.filterMap Declaration.initialTarget?).length_eq ▸ hconsistent.initialTargets_length
  behaviors_nodup := ((behaviors_perm hperm).map Prod.fst).nodup_iff.1 hconsistent.behaviors_nodup
  limits_ne_zero := fun hzero => hconsistent.limits_ne_zero ((hperm.filterMap Declaration.limit?).mem_iff.2 hzero)
  sketches_finished sketch hsketch := hconsistent.sketches_finished sketch (hperm.mem_iff.2 hsketch)

end

end Definition

namespace Machine

open Definition

variable [DecidableEq ι] {m m' : Machine ι κ ν γ}

/-- The machines are the same but for their keys and for the order in which they keep states and transitions. -/
structure Alike (m m' : Machine ι κ ν γ) : Prop where
  ids_perm : m.ids.Perm m'.ids
  superstate?_eq : ∀ id, m.superstate? id = m'.superstate? id
  isFinal_eq : ∀ id, m.isFinal id = m'.isFinal id
  behavior?_eq : ∀ id, m.behavior? id = m'.behavior? id
  /-- The default substate of each state with the action on the way there, and the same of the root. -/
  initialClause?_eq : ∀ source, m.initialClause? source = m'.initialClause? source
  /-- All transitions, the ordinary ones and the initial ones. -/
  clauses_perm : (m.table.all.map Transition.clause).Perm (m'.table.all.map Transition.clause)
  limit_eq : m.limit = m'.limit
  resolver_eq : m.resolver = m'.resolver

theorem Depicts.alike (hdepicts : m.Depicts declarations) (hdepicts' : m'.Depicts declarations')
    (hperm : declarations.Perm declarations') (hlimits : limits declarations = limits declarations')
    (hresolvers : resolvers declarations = resolvers declarations') : m.Alike m' where
  ids_perm := by
    rw [hdepicts.ids_eq, hdepicts'.ids_eq]
    exact states_perm hperm
  superstate?_eq id := by
    ext superstate
    rw [hdepicts.superstate?_eq_some_iff, hdepicts'.superstate?_eq_some_iff, nests_eq_of_perm hperm]
  isFinal_eq id := by
    rw [Bool.eq_iff_iff, hdepicts.isFinal_iff, hdepicts'.isFinal_iff, isFinal_eq_of_perm hperm]
  behavior?_eq id := by
    ext1 behavior
    simp only [hdepicts.behavior?_eq_some_iff, hdepicts'.behavior?_eq_some_iff, (states_perm hperm).mem_iff,
      (behaviors_perm hperm).mem_iff]
  initialClause?_eq source := by
    ext1 clause
    rw [hdepicts.initialClause?_eq_some_iff, hdepicts'.initialClause?_eq_some_iff,
      (Definition.clauses_perm hperm).mem_iff]
  clauses_perm := by
    rw [hdepicts.clauses_eq, hdepicts'.clauses_eq]
    exact Definition.clauses_perm hperm
  limit_eq := by rw [hdepicts.limit_eq, hdepicts'.limit_eq, Definition.limit, hlimits, Definition.limit]
  resolver_eq := by rw [hdepicts.resolver_eq, hdepicts'.resolver_eq, Definition.resolver, hresolvers, Definition.resolver]

theorem exists_build_of_perm (hperm : declarations.Perm declarations')
    (hbuild : ∃ m, Machine.build declarations = .ok m) : ∃ m, Machine.build declarations' = .ok m := by
  obtain ⟨m, hbuild⟩ := hbuild
  obtain ⟨hconsistent, _, target, htarget, hnested, hdefects⟩ := build_eq_ok_iff_consistent.1 hbuild
  refine ⟨_, build_eq_ok_iff_consistent.2 ⟨consistent_of_perm hperm hconsistent, rfl, target, ?_, ?_, ?_⟩⟩
  · exact (hperm.filterMap Declaration.initialTarget?).mem_iff.1 htarget
  · rwa [← nests_eq_of_perm hperm]
  · exact List.Perm.nil_eq (hdefects ▸ (sameShape_of_perm hperm).defects_perm target) |>.symm

/-- **The order of declarations does not matter**, but for that of the limits and that of the resolvers. In another order the same declarations give a machine or give none, and the two machines are alike. -/
theorem alike_of_perm (hperm : declarations.Perm declarations') (hlimits : limits declarations = limits declarations')
    (hresolvers : resolvers declarations = resolvers declarations') :
    ((∃ m, Machine.build declarations = .ok m) ↔ ∃ m, Machine.build declarations' = .ok m) ∧
      ∀ m m', Machine.build declarations = .ok m → Machine.build declarations' = .ok m' → m.Alike m' :=
  ⟨⟨exists_build_of_perm hperm, exists_build_of_perm hperm.symm⟩, fun _ _ hbuild hbuild' =>
    (depicts_of_build hbuild).alike (depicts_of_build hbuild') hperm hlimits hresolvers⟩

theorem player_alike : ∃ m, Machine.build Player.declarations.reverse = .ok m ∧ Player.machine.Alike m := by
  have hperm : Player.declarations.Perm Player.declarations.reverse := (List.reverse_perm _).symm
  obtain ⟨hbuild, halike⟩ := alike_of_perm hperm rfl rfl
  obtain ⟨m, hbuild'⟩ := hbuild.1 ⟨_, Player.build_eq⟩
  exact ⟨m, hbuild', halike _ m Player.build_eq hbuild'⟩

end Machine

end NestedMachine
