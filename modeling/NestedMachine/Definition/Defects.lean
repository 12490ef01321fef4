import NestedMachine.Definition.Error
import NestedMachine.Definition.Reachable

/-!
# The defects of a machine

What can only be judged once all declarations are known. The defects are listed in a fixed order, so that one definition always gives one report: local transitions, initial transitions, final states, unreachable states, and within each in the order of registration.
-/

namespace NestedMachine.Machine

variable {ι κ ν γ : Type}

/-- The states with their keys, in order. -/
def keyed (m : Machine ι κ ν γ) : List (Key × State ι κ ν γ) :=
  m.states.zipIdx.map fun (state, position) => (.ofPosition position, state)

/-- Local transitions whose ends do not lie on one chain. -/
def unrelatedLocals (m : Machine ι κ ν γ) : List (Defect ι) :=
  (m.table.all.filter fun t => t.kind = .local ∧ ¬ m.hierarchy.Related t.sourceKey t.targetKey).map
    fun t => .unrelatedLocal t.edge

/-- Initial transitions that do not lead exactly one level down. -/
def strayInitials (m : Machine ι κ ν γ) : List (Defect ι) :=
  (m.table.all.filter fun t => t.kind = .initial ∧ m.hierarchy.parent t.targetKey ≠ some t.sourceKey).map
    fun t => .strayInitial t.edge

/-- What is wrong with one final state. -/
def finalDefects (m : Machine ι κ ν γ) (key : Key) (id : ι) : List (Defect ι) :=
  (if (m.table.leaving key).isEmpty then [] else [.finalWithTransition id]) ++
    (if m.hierarchy.IsComposite key then [.finalWithSubstates id] else [])

/-- Final states that are left by a transition or have substates. -/
def misusedFinals (m : Machine ι κ ν γ) : List (Defect ι) :=
  (m.keyed.filter fun (_, state) => state.isFinal).flatMap fun (key, state) => m.finalDefects key state.id

/-- States without substates that no sequence of moves from `start` reaches. -/
def unreachables (m : Machine ι κ ν γ) (start : Key) : List (Defect ι) :=
  let reached := m.reachable start
  (m.keyed.filter fun (key, _) => m.hierarchy.IsLeaf key ∧ key ∉ reached).map
    fun (_, state) => .unreachable state.id

/-- All defects of a machine that starts in the state with key `start`. -/
def defects (m : Machine ι κ ν γ) (start : Key) : List (Defect ι) :=
  m.unrelatedLocals ++ m.strayInitials ++ m.misusedFinals ++ m.unreachables start

end NestedMachine.Machine
