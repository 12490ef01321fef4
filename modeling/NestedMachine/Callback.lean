import NestedMachine.Signal
import NestedMachine.Edge

/-!
# Callbacks

Everything that a machine runs on behalf of its caller is a `Callback`: it reads and changes the caller's context, and it may fail. What it did before it failed stays done.
-/

namespace NestedMachine

variable {ι κ ν γ α : Type}

/-- Why a callback failed. -/
inductive Fault (ι : Type) where
  /-- The callback raised an error of its own, with this text. -/
  | raised (text : String)
  /-- Several transitions were ready in `state`, and the machine has no rule to choose among them. -/
  | ambiguous (state : ι) (candidates : List (Edge ι))
deriving DecidableEq

/-- The text of a fault. -/
def Fault.message [ToString ι] : Fault ι → String
  | .raised text => text
  | .ambiguous state candidates =>
    s!"{candidates.length} transitions triggered in state {state}: " ++
      ", ".intercalate (candidates.map toString)

/-- A computation of the caller on a context `γ`. -/
abbrev Callback (ι γ α : Type) : Type := ExceptT (Fault ι) (StateM γ) α

namespace Callback

/-- The answer of a callback, and the context that it leaves behind. -/
def call (callback : Callback ι γ α) (context : γ) : Except (Fault ι) α × γ :=
  (callback.run.run context).run

/-- Fails with a text. -/
def raise (text : String) : Callback ι γ α := throw (.raised text)

/-- Answers `default` where the callback fails. Its effects up to the failure stay. -/
def orElse (callback : Callback ι γ α) (default : α) : Callback ι γ α :=
  tryCatch callback fun _ => pure default

end Callback

/-- A predicate over the context and the pending signal. -/
abbrev Guard (ι κ ν γ : Type) : Type := Option (Signal ι κ ν) → Callback ι γ Bool

/-- An effect of a transition, run between the exits and the entries. It sees the pending signal. -/
abbrev Action (ι κ ν γ : Type) : Type := Option (Signal ι κ ν) → Callback ι γ Unit

/-- An effect of an initial transition, run before the default substate is entered. It sees no signal. -/
abbrev InitialAction (ι γ : Type) : Type := Callback ι γ Unit

/-- Holds for the completion of one final state and for nothing else. -/
def Guard.completionBy [DecidableEq ι] (state : ι) : Guard ι κ ν γ := fun signal =>
  pure (decide (signal.bind Signal.completed? = some state))

/-- The action that runs an initial action and leaves the signal aside. -/
def Action.ofInitial (action : InitialAction ι γ) : Action ι κ ν γ := fun _ => action

/-- What the caller attached to a state. -/
structure Behavior (ι κ ν γ : Type) where
  /-- Runs when the state is entered. -/
  onEntry : Callback ι γ Unit := pure ()
  /-- Runs when the state is left. -/
  onExit : Callback ι γ Unit := pure ()
  /-- Is offered a signal, and says whether it consumes it: superstates are offered what is not consumed. -/
  onEvent : Signal ι κ ν → Callback ι γ Bool := fun _ => pure false

/-- The behaviour that does nothing. -/
def Behavior.passive : Behavior ι κ ν γ where

end NestedMachine
