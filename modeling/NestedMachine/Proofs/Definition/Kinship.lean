import NestedMachine.Proofs.Definition.Nesting
import NestedMachine.Proofs.Hierarchy.Approach
import NestedMachine.Proofs.Hierarchy.Ways

/-!
# The kinship of states

Which states contain which is asked while a definition is taken in, when its defects are listed, and by every step of a run. What the queries answer rests on nothing but that the nesting is a forest, and so it holds throughout (`Throughout`): states meet in the innermost one that contains them (`meetsInnermost_of_declarations`), and ancestors, depths and paths agree with each other (`lineage_of_declarations`).
-/

namespace NestedMachine.Draft

variable {ι κ ν γ : Type} [DecidableEq ι]

/-- Something holds of the nesting of states after these declarations, refused ones among them, and also between two nestings of a composite declaration that comes next. It holds of the nesting in the machine, if there is one. -/
def Throughout (P : Hierarchy → Prop) (declarations : List (Declaration ι κ ν γ)) : Prop :=
  P (ofDeclarations declarations).hierarchy ∧
    (∀ (c : Composite ι γ) (nested : List ι), nested <+: c.substates →
      P (((ofDeclarations declarations).mentionAll (c.superstate :: c.substates)).nestAll
        c.superstate nested).1.hierarchy) ∧
    ∀ m, Machine.build declarations = .ok m → P m.hierarchy

theorem throughout_of_forest {P : Hierarchy → Prop} (hforest : ∀ h : Hierarchy, h.Forest → P h)
    (declarations : List (Declaration ι κ ν γ)) : Throughout P declarations := by
  have haligned := aligned_ofDeclarations declarations
  refine ⟨hforest _ haligned.forest, fun c nested hnested => ?_, fun m hbuild => ?_⟩
  · exact hforest _ (haligned.nesting c hnested).forest
  · exact hforest _ (Machine.coherent_of_build hbuild).forest

/-- **States meet in the innermost state that contains them.** Whatever is declared, the key where two keys meet contains both, and lies in every other key that does; so `meet` is symmetric, idempotent and associative, and the ways up to it have nothing in common. Two keys that go up from where they are, the deeper one first and then both together, find it, and stop. -/
theorem meetsInnermost_of_declarations (declarations : List (Declaration ι κ ν γ)) :
    Throughout Hierarchy.MeetsInnermost declarations :=
  throughout_of_forest (fun _ hforest => hforest.meetsInnermost) declarations

theorem player_meetsInnermost : Machine.build Player.declarations = .ok Player.machine ∧
    Player.machine.hierarchy.meet ⟨3⟩ ⟨4⟩ = ⟨2⟩ ∧ Player.machine.hierarchy.meet ⟨1⟩ ⟨4⟩ = .root ∧
    Player.machine.hierarchy.meet ⟨3⟩ ⟨9⟩ = .root ∧ Player.machine.hierarchy.meet ⟨9⟩ ⟨9⟩ = ⟨9⟩ ∧
    Player.machine.hierarchy.MeetsInnermost ∧ (ofDeclarations tangle).hierarchy.MeetsInnermost :=
  ⟨Player.build_eq, by decide, by decide, by decide, by decide,
    (meetsInnermost_of_declarations Player.declarations).2.2 Player.machine Player.build_eq,
    (meetsInnermost_of_declarations tangle).1⟩

/-- **Ancestors, depths and paths agree.** Whatever is declared, the ancestors of a key are what is above it over any number of levels, which is a strict order in which they form a chain. There is a path from a key to itself and to each of its ancestors, which goes from superstate to superstate, and to no other key. -/
theorem lineage_of_declarations (declarations : List (Declaration ι κ ν γ)) :
    Throughout Hierarchy.Lineage declarations :=
  throughout_of_forest (fun _ hforest => hforest.lineage) declarations

theorem player_lineage : Machine.build Player.declarations = .ok Player.machine ∧
    Player.machine.hierarchy.pathThrough ⟨3⟩ .root = .ok [⟨3⟩, ⟨2⟩, .root] ∧
    Player.machine.hierarchy.path ⟨3⟩ ⟨1⟩ = .error ⟨⟨3⟩, ⟨1⟩⟩ ∧ Player.machine.hierarchy.path ⟨9⟩ ⟨9⟩ = .ok [] ∧
    Player.machine.hierarchy.Lineage ∧ (ofDeclarations tangle).hierarchy.Lineage :=
  ⟨Player.build_eq, rfl, rfl, rfl, (lineage_of_declarations Player.declarations).2.2 Player.machine Player.build_eq,
    (lineage_of_declarations tangle).1⟩

end NestedMachine.Draft
