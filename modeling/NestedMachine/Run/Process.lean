import NestedMachine.Run.Selection
import NestedMachine.Run.Firing

/-!
# Starting a machine and processing events

An event is processed in steps. The first step sees the event. Each transition that fires is followed by another step, which sees the completion of a composite state where the transition came to rest in a final state inside one, and no signal otherwise. Processing ends with the first step that fires nothing, or in error when the limit is used up.
-/

namespace NestedMachine.Machine

variable {ι κ ν γ : Type} [DecidableEq κ]

omit [DecidableEq κ] in
/-- The signal owed once the machine rests in `key`: the completion of the composite state around it, if it is a final state. A final state at the top level completes nothing. -/
def completion (m : Machine ι κ ν γ) (key : Key) : Option (Signal ι κ ν) :=
  match m.state? key with
  | none => none
  | some state =>
    if state.isFinal ∧ (m.hierarchy.parent key).any (· ≠ .root) then some (.completed state.id) else none

/-- One step while the machine rests in `key`, after `count` transitions have fired. Answers where the machine rests then, or none if nothing fires. -/
def step (m : Machine ι κ ν γ) (count : Nat) (key : Key) (signal : Option (Signal ι κ ν)) :
    Run ι κ ν γ (Option Key) := do
  let origin ← m.lookup key
  signal.forM fun signal => m.offer signal (m.hierarchy.activeChain key)
  match ← m.select origin.id key signal with
  | none => return none
  | some t => do
    Run.note (.chose t signal)
    let settled ← m.fire key t signal
    let source ← m.lookup t.sourceKey
    let resting ← m.lookup settled
    Run.note (.fired ⟨origin.id, source.id, t.target, resting.id, t.kind, count⟩)
    return some settled

/-- Takes steps until one fires nothing, and answers the state in which the machine then rests. `budget` is how many transitions may still fire, and `count` how many have. -/
def proceed (m : Machine ι κ ν γ) :
    (budget count : Nat) → Key → Option (Signal ι κ ν) → Run ι κ ν γ ι
  | 0, _, key, _ => do
    let state ← m.lookup key
    Run.fail (.limitReached m.limit state.id)
  | budget + 1, count, key, signal => do
    match ← m.step count key signal with
    | none =>
      let state ← m.lookup key
      return state.id
    | some settled => m.proceed budget (count + 1) settled (m.completion settled)

omit [DecidableEq κ] in
/-- Enters the machine through the initial transition of the root, and answers the state in which it comes to rest. -/
def start (m : Machine ι κ ν γ) : Run ι κ ν γ ι := do
  let settled ← m.enterDefaults .root
  let state ← m.lookup settled
  return state.id

/-- Processes an event while the machine rests in `current`, and answers the state in which it comes to rest. -/
def process [DecidableEq ι] (m : Machine ι κ ν γ) (current : ι) (event : Event κ ν) : Run ι κ ν γ ι :=
  match m.key? current with
  | none => Run.fail (.unknownState current)
  | some key => m.proceed m.limit 0 key (some (.event event))

end NestedMachine.Machine
