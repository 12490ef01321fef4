import NestedMachine.Transition.Basic

/-!
# What happens in a run

A run is told as a list of activities, oldest first: the callbacks it called, the states it left and entered, and the transitions it chose and fired. The history of a machine, and every statement about the order in which things happen, is read off this list.
-/

namespace NestedMachine

variable {ι κ ν γ : Type}

/-- The parts that a callback can play. -/
inductive Role where
  | entry
  | exit
  | event
  | guard
  | action
  | initialAction
  | resolver
deriving DecidableEq

instance : ToString Role where
  toString
    | .entry => "on_entry"
    | .exit => "on_exit"
    | .event => "on_event"
    | .guard => "guard"
    | .action => "action"
    | .initialAction => "initial action"
    | .resolver => "transition resolver"

/-- What a callback belongs to: a state or a transition. -/
inductive Place (ι : Type) where
  | state (id : ι)
  | transition (edge : Edge ι)
deriving DecidableEq

instance [ToString ι] : ToString (Place ι) where
  toString
    | .state id => toString id
    | .transition edge => toString edge

/-- One call of a callback, with what it was told. -/
inductive Call (ι κ ν γ : Type) where
  | entry (id : ι)
  | exit (id : ι)
  | event (id : ι) (signal : Signal ι κ ν)
  | guard (t : Transition ι κ ν γ) (signal : Option (Signal ι κ ν))
  | action (t : Transition ι κ ν γ) (signal : Option (Signal ι κ ν))
  | initialAction (t : Transition ι κ ν γ)
  | resolver (id : ι) (signal : Option (Signal ι κ ν)) (candidates : List (Transition ι κ ν γ))

namespace Call

/-- The part that the callback plays. -/
def role : Call ι κ ν γ → Role
  | entry _ => .entry
  | exit _ => .exit
  | event _ _ => .event
  | guard _ _ => .guard
  | action _ _ => .action
  | initialAction _ => .initialAction
  | resolver _ _ _ => .resolver

/-- What the callback belongs to. A resolver belongs to the active state. -/
def place : Call ι κ ν γ → Place ι
  | entry id | exit id | event id _ | resolver id _ _ => .state id
  | guard t _ | action t _ | initialAction t => .transition t.edge

end Call

/-- A transition that has fired, seen from outside. -/
structure Firing (ι : Type) where
  /-- The state in which the machine rested before. -/
  origin : ι
  /-- The declared source: `origin`, or a state that contains it. -/
  source : ι
  /-- The declared target. -/
  target : ι
  /-- The state in which the machine rested after: `target`, or a state inside it. -/
  settled : ι
  kind : Kind
  /-- How many transitions the same event had fired before. -/
  step : Nat
deriving DecidableEq

/-- An activity of a run. -/
inductive Activity (ι κ ν γ : Type) where
  | called (call : Call ι κ ν γ)
  /-- A state was left. This comes before its exit callback, and comes alone where the state is final. -/
  | left (key : Key)
  /-- A state was entered. This comes before its entry callback. -/
  | entered (key : Key)
  /-- A transition was chosen and starts to fire on account of this signal. -/
  | chose (t : Transition ι κ ν γ) (signal : Option (Signal ι κ ν))
  /-- A transition has fired, the default substates of its target included. -/
  | fired (firing : Firing ι)

namespace Activity

/-- The call, if the activity is one. -/
def call? : Activity ι κ ν γ → Option (Call ι κ ν γ)
  | called call => some call
  | _ => none

/-- The firing, if the activity is one. -/
def firing? : Activity ι κ ν γ → Option (Firing ι)
  | fired firing => some firing
  | _ => none

end Activity

end NestedMachine
