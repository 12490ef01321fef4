import NestedMachine.Edge

/-!
# What can be wrong with a definition

A `DefinitionError` says why a definition gives no machine. Most of them are about one declaration. Defects of the finished whole are collected, so that one error reports all of them.
-/

namespace NestedMachine

variable {ι : Type}

/-- A defect that only the whole definition shows. -/
inductive Defect (ι : Type) where
  /-- A local transition whose ends do not lie on one chain. -/
  | unrelatedLocal (edge : Edge ι)
  /-- An initial transition that does not lead exactly one level down. -/
  | strayInitial (edge : Edge ι)
  /-- A final state that a transition leaves. -/
  | finalWithTransition (state : ι)
  /-- A final state with substates. -/
  | finalWithSubstates (state : ι)
  /-- A state without substates in which no run can come to rest. -/
  | unreachable (state : ι)
deriving DecidableEq

/-- The text of a defect. -/
def Defect.message [ToString ι] : Defect ι → String
  | .unrelatedLocal edge =>
    s!"local transition from {nameOrRoot edge.source} to {edge.target} joins unrelated states"
  | .strayInitial edge =>
    s!"initial transition from {nameOrRoot edge.source} targets {edge.target}, which is not its direct substate"
  | .finalWithTransition state => s!"final state {state} has an outgoing transition"
  | .finalWithSubstates state => s!"final state {state} has substates"
  | .unreachable state => s!"state {state} is unreachable from the initial state"

/-- Why a definition gives no machine. -/
inductive DefinitionError (ι : Type) where
  /-- No initial transition leaves the root. -/
  | noInitialState
  /-- The initial transition of the root leads to a state that is nested in another. -/
  | nestedInitialState (state superstate : ι)
  /-- A state was to be nested in itself or in a state inside it. -/
  | cyclicNesting (superstate substate : ι)
  /-- A nested state was to be nested in another state as well. -/
  | secondSuperstate (state existing requested : ι)
  /-- A state was given a second behaviour. -/
  | secondBehavior (state : ι)
  /-- A state, or the root, was given a second initial transition. -/
  | secondInitial (source : Option ι)
  /-- The limit was set to zero. -/
  | zeroLimit
  /-- A transition has no source. -/
  | noSource
  /-- A transition has no target. -/
  | noTarget
  /-- An initial transition has a trigger. -/
  | triggeredInitial (source : ι)
  /-- An initial transition has a guard. -/
  | guardedInitial (source : ι)
  /-- The definition as a whole has defects. -/
  | defective (defects : List (Defect ι))
deriving DecidableEq

namespace DefinitionError

/-- The text of a definition error. -/
def message [ToString ι] : DefinitionError ι → String
  | noInitialState =>
    "Top-level initial transition not specified. Call .with_initial_transition(state) before .build()"
  | nestedInitialState state superstate =>
    s!"Initial state {state} is nested in {superstate}; the top-level initial transition must target a top-level state"
  | cyclicNesting superstate substate =>
    s!"State {substate} cannot be a substate of {superstate}: it is {superstate} or one of its ancestors"
  | secondSuperstate state existing requested =>
    s!"State {state} is already a substate of {existing}, cannot also nest it in {requested}"
  | secondBehavior state => s!"State {state} already has a behaviour"
  | secondInitial source => s!"State {nameOrRoot source} already has an initial transition"
  | zeroLimit => "Maximum transitions per event must be greater than zero"
  | noSource => "Transition source state not specified. Call .from(state)"
  | noTarget => "Transition target state not specified. Call .to(state)"
  | triggeredInitial source => s!"Initial transition from {source} cannot have a trigger"
  | guardedInitial source => s!"Initial transition from {source} cannot have a guard"
  | defective defects => "Invalid machine definition: " ++ "; ".intercalate (defects.map Defect.message)

/-- The defects that the error reports. -/
def defects : DefinitionError ι → List (Defect ι)
  | defective defects => defects
  | _ => []

end DefinitionError

end NestedMachine
