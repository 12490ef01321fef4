import NestedMachine.Machine

/-!
# Summaries

What can be said of a machine without its callbacks: its states, their nesting, its transitions, and its limit. Triggers are given by their text.
-/

namespace NestedMachine

variable {ι κ ν γ : Type}

/-- What can be said of a state. -/
structure StateSummary (ι : Type) where
  id : ι
  superstate : Option ι
  isComposite : Bool
  isFinal : Bool
deriving DecidableEq

/-- What can be said of a transition. -/
structure TransitionSummary (ι : Type) where
  /-- None for the initial transition of the root. -/
  source : Option ι
  target : ι
  kind : Kind
  /-- None for a transition without a trigger. -/
  trigger : Option String
  isGuarded : Bool
  hasAction : Bool
deriving DecidableEq

/-- What can be said of a machine. -/
structure Summary (ι : Type) where
  initial : Option ι
  limit : Nat
  states : List (StateSummary ι)
  transitions : List (TransitionSummary ι)
deriving DecidableEq

/-- How a summary names a trigger: an event by its kind. -/
def Trigger.label [ToString κ] : Trigger κ → String
  | .event kind => toString kind
  | .completion => "CompositeStateCompleted"

/-- The summary of a transition. -/
def Transition.summary [ToString κ] (t : Transition ι κ ν γ) : TransitionSummary ι where
  source := t.source
  target := t.target
  kind := t.kind
  trigger := t.trigger.map Trigger.label
  isGuarded := t.guard.isSome
  hasAction := t.action.isSome

/-- The summary of a machine, in the order of its states and transitions. -/
def Machine.summary [DecidableEq ι] [ToString κ] (m : Machine ι κ ν γ) : Summary ι where
  initial := m.initialState
  limit := m.limit
  states := m.ids.map fun id => ⟨id, m.superstate? id, m.isComposite id, m.isFinal id⟩
  transitions := m.table.all.map Transition.summary

end NestedMachine
