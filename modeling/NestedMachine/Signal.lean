/-!
# Events, signals and triggers

A caller hands a machine an `Event`. The machine passes it on to callbacks as a `Signal`, and makes signals of its own when a composite state has completed. A `Trigger` says which signals a transition waits for.
-/

namespace NestedMachine

variable {ι κ ν : Type}

/-- An event of a caller. Transitions look at its kind alone; guards and actions also see the value that it carries. -/
structure Event (κ ν : Type) where
  kind : κ
  value : ν
deriving DecidableEq

/-- What callbacks are told about the cause of a step. -/
inductive Signal (ι κ ν : Type) where
  /-- The event that the caller sent. -/
  | event (event : Event κ ν)
  /-- A composite state has completed: the machine came to rest in this final state inside it. -/
  | completed (state : ι)
deriving DecidableEq

/-- The signals that a transition waits for. -/
inductive Trigger (κ : Type) where
  /-- Events of one kind. -/
  | event (kind : κ)
  /-- The completion of a composite state, whichever final state completed it. -/
  | completion
deriving DecidableEq

namespace Signal

/-- The caller's event, unless this is a completion. -/
def event? : Signal ι κ ν → Option (Event κ ν)
  | .event e => some e
  | .completed _ => none

/-- The final state that was reached, if this is a completion. -/
def completed? : Signal ι κ ν → Option ι
  | .event _ => none
  | .completed state => some state

end Signal

/-- The signal is one that the trigger waits for. -/
def Trigger.accepts [DecidableEq κ] : Trigger κ → Signal ι κ ν → Bool
  | .event kind, .event e => e.kind = kind
  | .completion, .completed _ => true
  | _, _ => false

instance [ToString κ] [ToString ν] : ToString (Event κ ν) where
  toString e := "Ev \x7b kind: " ++ toString e.kind ++ ", value: " ++ toString e.value ++ " \x7d"

instance [ToString ι] [ToString κ] [ToString ν] : ToString (Signal ι κ ν) where
  toString
    | .event e => s!"Event({e})"
    | .completed state => s!"CompositeStateCompleted({state})"

instance [ToString κ] : ToString (Trigger κ) where
  toString
    | .event kind => s!"Event({kind})"
    | .completion => "CompositeStateCompleted"

end NestedMachine
