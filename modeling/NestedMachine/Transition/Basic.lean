import NestedMachine.Key
import NestedMachine.Callback

/-!
# Transitions

A transition leads from a source to a target. It waits for a trigger, or for the absence of any signal, and may be guarded.
-/

namespace NestedMachine

variable {ι κ ν γ : Type}

/-- How a transition treats the innermost state that contains both of its ends. -/
inductive Kind where
  /-- Leaves that state and enters it again if it is itself one of the ends. -/
  | external
  /-- Stays inside that state. -/
  | local
  /-- Leads from a composite state, or the root, to its default substate. -/
  | initial
deriving DecidableEq

/-- A transition between two states of one machine. -/
structure Transition (ι κ ν γ : Type) where
  /-- The state that the transition leaves; none if it leaves the root. -/
  source : Option ι
  target : ι
  sourceKey : Key
  targetKey : Key
  kind : Kind
  /-- The signals that it waits for; without a trigger it is ready only while no signal is pending. -/
  trigger : Option (Trigger κ) := none
  guard : Option (Guard ι κ ν γ) := none
  action : Option (Action ι κ ν γ) := none

namespace Transition

/-- The ends, for messages. -/
def edge (t : Transition ι κ ν γ) : Edge ι := ⟨t.source, t.target⟩

/-- The pending signal is the one that the transition waits for. -/
def awaits [DecidableEq κ] (t : Transition ι κ ν γ) (signal : Option (Signal ι κ ν)) : Bool :=
  match t.trigger, signal with
  | some trigger, some signal => trigger.accepts signal
  | none, none => true
  | _, _ => false

/-- The answer of the guard. A transition without a guard is always allowed. -/
def permits (t : Transition ι κ ν γ) (signal : Option (Signal ι κ ν)) : Callback ι γ Bool :=
  match t.guard with
  | some guard => guard signal
  | none => pure true

end Transition

end NestedMachine
