import NestedMachine.Hierarchy
import NestedMachine.Transition.Table
import NestedMachine.Resolver

/-!
# Machines

A machine is its states, their nesting, its transitions, and the two settings that govern a run. It holds nothing of a run itself: the caller keeps the context and the current state, and one machine serves any number of callers.
-/

namespace NestedMachine

variable {ι κ ν γ : Type}

/-- A state of a machine. A final state consumes every signal and does nothing when it is left. -/
structure State (ι κ ν γ : Type) where
  id : ι
  behavior : Behavior ι κ ν γ
  isFinal : Bool

/-- A hierarchical state machine. The state with key `n + 1` stands at position `n`. -/
structure Machine (ι κ ν γ : Type) where
  states : List (State ι κ ν γ)
  hierarchy : Hierarchy
  table : Table ι κ ν γ
  /-- How many transitions one event may fire. -/
  limit : Nat
  resolver : Resolver ι κ ν γ

namespace Machine

/-! ### States and keys -/

/-- The identities of all states, in the order of their keys. -/
def ids (m : Machine ι κ ν γ) : List ι := m.states.map State.id

/-- The state with this key. The root is no state. -/
def state? (m : Machine ι κ ν γ) : Key → Option (State ι κ ν γ)
  | ⟨0⟩ => none
  | ⟨position + 1⟩ => m.states[position]?

/-- The identity of the state with this key. -/
def id? (m : Machine ι κ ν γ) (key : Key) : Option ι := (m.state? key).map State.id

/-- The key of the state with this identity. -/
def key? [DecidableEq ι] (m : Machine ι κ ν γ) (id : ι) : Option Key :=
  if id ∈ m.ids then some (.ofPosition (m.ids.idxOf id)) else none

/-! ### Structure, by identity -/

variable [DecidableEq ι]

/-- The state in which a state is nested. States at the top level, and unknown ones, have none. -/
def superstate? (m : Machine ι κ ν γ) (id : ι) : Option ι :=
  ((m.key? id).bind m.hierarchy.parent).bind m.id?

/-- The identity is that of a final state. -/
def isFinal (m : Machine ι κ ν γ) (id : ι) : Bool :=
  ((m.key? id).bind m.state?).any State.isFinal

/-- The identity is that of a state with substates. -/
def isComposite (m : Machine ι κ ν γ) (id : ι) : Bool :=
  (m.key? id).any fun key => decide (m.hierarchy.IsComposite key)

omit [DecidableEq ι] in
/-- The target of the initial transition of the root. -/
def initialState (m : Machine ι κ ν γ) : Option ι :=
  (m.table.initialOf .root).map Transition.target

end Machine

end NestedMachine
