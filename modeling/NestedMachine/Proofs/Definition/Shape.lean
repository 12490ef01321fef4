import NestedMachine.Proofs.Definition.Admission

/-!
# The shape of a definition

What is wrong with a definition as a whole depends on little of what it says: on the states there are, how they are nested, which of them are final, and which transitions join them in which way. Two definitions that agree in this have the same shape, in whatever order they list states and transitions and whatever callbacks they attach. They have the same defects, up to order (`SameShape.defects_perm`), and give initial transitions to the same states (`initialSources_eq`, `initialTargets_eq`).
-/

namespace NestedMachine

variable {ι κ ν γ : Type}

namespace Declaration

theorem initialSource?_eq (declaration : Declaration ι κ ν γ) : declaration.initialSource? =
    declaration.link?.bind fun link => if link.kind = .initial then link.edge.source else none := by
  ext id
  rw [initialSource?_eq_some_iff, Option.bind_eq_some_iff]
  refine exists_congr fun link => and_congr_right fun _ => ?_
  split
  · next hkind => exact and_iff_right hkind
  · next hkind => simp [hkind]

theorem initialTarget?_eq (declaration : Declaration ι κ ν γ) : declaration.initialTarget? =
    declaration.link?.bind fun link => if link.edge.source = none then some link.edge.target else none := by
  cases declaration with
  | sketch s => cases hsketch : s.rule <;> simp [initialTarget?, link?, hsketch, Except.toOption, Rule.link]
  | _ => simp [initialTarget?, link?, Rule.link]

end Declaration

namespace Definition

variable {declarations declarations' : List (Declaration ι κ ν γ)}

theorem initialSources_eq (declarations : List (Declaration ι κ ν γ)) : initialSources declarations =
    (links declarations).filterMap fun link => if link.kind = .initial then link.edge.source else none := by
  rw [initialSources, links, List.filterMap_filterMap]
  exact List.filterMap_congr fun declaration _ => declaration.initialSource?_eq

theorem initialTargets_eq (declarations : List (Declaration ι κ ν γ)) : initialTargets declarations =
    (links declarations).filterMap fun link => if link.edge.source = none then some link.edge.target else none := by
  rw [initialTargets, links, List.filterMap_filterMap]
  exact List.filterMap_congr fun declaration _ => declaration.initialTarget?_eq

theorem nodup_states [DecidableEq ι] (declarations : List (Declaration ι κ ν γ)) : (states declarations).Nodup := by
  rw [← Draft.ids_ofDeclarations]
  exact (Draft.aligned_ofDeclarations declarations).nodup

/-- The definitions have the same states, nested in the same way, the same final states among them and the same transitions to join them. -/
structure SameShape [DecidableEq ι] (declarations declarations' : List (Declaration ι κ ν γ)) : Prop where
  states_perm : (states declarations).Perm (states declarations')
  links_perm : (links declarations).Perm (links declarations')
  nests_eq : Nests declarations = Nests declarations'
  isFinal_eq : IsFinal declarations = IsFinal declarations'

namespace SameShape

variable [DecidableEq ι] (hshape : SameShape declarations declarations')
include hshape

theorem symm : SameShape declarations' declarations :=
  ⟨hshape.states_perm.symm, hshape.links_perm.symm, hshape.nests_eq.symm, hshape.isFinal_eq.symm⟩

theorem contains_eq : Contains declarations = Contains declarations' := by
  rw [Contains, Contains, hshape.nests_eq]

theorem isLeft_eq : IsLeft declarations = IsLeft declarations' := by
  funext id
  simp only [IsLeft, hshape.links_perm.mem_iff]

theorem isComposite_eq : IsComposite declarations = IsComposite declarations' := by
  funext id
  rw [IsComposite, IsComposite, hshape.nests_eq]

theorem reached {start id : ι} (hreached : Reached declarations start id) : Reached declarations' start id := by
  induction hreached with
  | start => exact .start
  | default _ hlink hkind hsource ih => exact ih.default (hshape.links_perm.mem_iff.1 hlink) hkind hsource
  | transition _ hlink hkind hsource hactive ih =>
    rw [hshape.contains_eq] at hactive
    exact ih.transition (hshape.links_perm.mem_iff.1 hlink) hkind hsource hactive

theorem reached_eq : Reached declarations = Reached declarations' := by
  funext start id
  exact propext ⟨hshape.reached, hshape.symm.reached⟩

/-- **Definitions of the same shape have the same defects**, but for the order in which they are reported. -/
theorem defects_perm (start : ι) :
    (Definition.defects declarations start).Perm (Definition.defects declarations' start) := by
  classical
  have hlocals : (unrelatedLocals declarations).Perm (unrelatedLocals declarations') := by
    have hrelated : EndsRelated declarations = EndsRelated declarations' := by
      funext edge
      rw [EndsRelated, EndsRelated, hshape.contains_eq]
    rw [unrelatedLocals, unrelatedLocals, hrelated]
    exact (hshape.links_perm.filter _).map _
  have hinitials : (strayInitials declarations).Perm (strayInitials declarations') := by
    have hinside : LeadsInside declarations = LeadsInside declarations' := by
      funext edge
      rw [LeadsInside, LeadsInside, hshape.nests_eq]
    rw [strayInitials, strayInitials, hinside]
    exact (hshape.links_perm.filter _).map _
  have hfinals : (misusedFinals declarations).Perm (misusedFinals declarations') := by
    have heach : finalDefects declarations = finalDefects declarations' := by
      funext id
      simp only [finalDefects, hshape.isLeft_eq, hshape.isComposite_eq]
    rw [misusedFinals, misusedFinals, hshape.isFinal_eq, heach]
    exact (hshape.states_perm.filter _).flatMap_right _
  have hunreached : (unreachables declarations start).Perm (unreachables declarations' start) := by
    rw [unreachables, unreachables, hshape.isComposite_eq, hshape.reached_eq]
    exact (hshape.states_perm.filter _).map _
  exact ((hlocals.append hinitials).append hfinals).append hunreached

end SameShape

end Definition

end NestedMachine
