import NestedMachine.Proofs.Hierarchy.Rooted
import NestedMachine.Proofs.Machine.Coherence

/-!
# The nesting of a definition in the making

States are nested while a definition is still being taken in. A superstate may be mentioned after its substates, whole groups of states move when an outer state is declared last, and a composite declaration that is refused halfway keeps the nestings it has made. `nest` asks for the ancestors of a state in the midst of this, so its own question has to come to an end on a hierarchy that `nest` has made. It does: at every moment the hierarchy is rooted (`rooted_of_declarations`).
-/

namespace NestedMachine.Draft

variable {ι κ ν γ : Type} [DecidableEq ι]

theorem Aligned.nesting {d : Draft ι κ ν γ} (haligned : d.Aligned) (c : Composite ι γ) {nested : List ι}
    (hnested : nested <+: c.substates) :
    ((d.mentionAll (c.superstate :: c.substates)).nestAll c.superstate nested).1.Aligned := by
  have hmem : ∀ id ∈ c.superstate :: c.substates, id ∈ (d.mentionAll (c.superstate :: c.substates)).ids :=
    fun id hid => d.mem_ids_mentionAll hid
  refine (haligned.mentionAll _).nestAll (hmem _ List.mem_cons_self) (fun id hid => ?_) rfl
  exact hmem id (List.mem_cons_of_mem _ (hnested.subset hid))

/-- **States are nested under the root without cycles, whatever is declared.** After any declarations, refused ones among them, and also between two nestings of a composite declaration that comes next, every way up from a state ends at the root, and no loop goes up for ever. So it is in the machine, if there is one. -/
theorem rooted_of_declarations (declarations : List (Declaration ι κ ν γ)) :
    (ofDeclarations declarations).hierarchy.Rooted ∧
      (∀ (c : Composite ι γ) (nested : List ι), nested <+: c.substates →
        (((ofDeclarations declarations).mentionAll (c.superstate :: c.substates)).nestAll
          c.superstate nested).1.hierarchy.Rooted) ∧
      ∀ m, Machine.build declarations = .ok m → m.hierarchy.Rooted := by
  have haligned := aligned_ofDeclarations declarations
  refine ⟨haligned.forest.rooted, fun c nested hnested => ?_, fun m hbuild => ?_⟩
  · exact (haligned.nesting c hnested).forest.rooted
  · exact (Machine.coherent_of_build hbuild).forest.rooted

/-- Three states, each to be nested in the one before, and the first in the last. -/
def tangle : List (Declaration Nat Unit Unit Unit) := [
  .composite { superstate := 0, default := 1 },
  .composite { superstate := 1, default := 2 },
  .composite { superstate := 2, default := 3, peers := [0] }]

/-- The last nesting is refused, and the one before it stays. Neither then nor in between does a state contain itself. -/
theorem tangle_rooted : (ofDeclarations tangle).refused = some (.cyclicNesting 2 0) ∧
    (ofDeclarations tangle).hierarchy.superstates = [.root, ⟨1⟩, ⟨2⟩, ⟨3⟩] ∧
    (ofDeclarations tangle).hierarchy.Rooted ∧
    [3] <+: [3, 0] ∧
    (((ofDeclarations (tangle.take 2)).mentionAll [2, 3, 0]).nestAll 2 [3]).1.hierarchy.Rooted ∧
    Machine.build Player.declarations = .ok Player.machine ∧ Player.machine.hierarchy.Rooted := by
  have hprefix : [3] <+: [3, 0] := ⟨[0], rfl⟩
  obtain ⟨_, hbetween, _⟩ := rooted_of_declarations (tangle.take 2)
  obtain ⟨_, _, hmachine⟩ := rooted_of_declarations Player.declarations
  exact ⟨rfl, rfl, (rooted_of_declarations tangle).1, hprefix,
    hbetween { superstate := 2, default := 3, peers := [0] } [3] hprefix, Player.build_eq,
    hmachine Player.machine Player.build_eq⟩

end NestedMachine.Draft
