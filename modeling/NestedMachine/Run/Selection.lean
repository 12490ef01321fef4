import NestedMachine.Run.Outcome

/-!
# Offering a signal and selecting a transition

A step begins by offering the signal to the active states, innermost first, until one of them consumes it. Then it looks for a transition: the candidates are those that leave an active state and are triggered by the signal, and of these the guards decide which are ready. Whether a state consumed the signal has no part in that.
-/

namespace NestedMachine.Machine

variable {ι κ ν γ : Type}

/-- Offers a signal to states in turn until one consumes it. A final state consumes it unasked. -/
def offer (m : Machine ι κ ν γ) (signal : Signal ι κ ν) : List Key → Run ι κ ν γ Unit
  | [] => pure ()
  | key :: rest => do
    let state ← m.lookup key
    if state.isFinal then
      return
    let consumed ← Run.invoke (.event state.id signal) (state.behavior.onEvent signal)
    if consumed then
      return
    m.offer signal rest

/-- The ordinary transitions that leave `key` or a state that contains it and that the signal triggers, nearest first. -/
def triggered [DecidableEq κ] (m : Machine ι κ ν γ) (key : Key) (signal : Option (Signal ι κ ν)) :
    List (Transition ι κ ν γ) :=
  ((m.hierarchy.activeChain key).flatMap m.table.leaving).filter (·.awaits signal)

/-- Asks the guard of a transition. Without a guard the transition is ready unasked. -/
def isReady (signal : Option (Signal ι κ ν)) (t : Transition ι κ ν γ) : Run ι κ ν γ Bool :=
  match t.guard with
  | none => pure true
  | some guard => Run.invoke (.guard t signal) (guard signal)

/-- The transitions that are ready, in the same order. -/
def ready (signal : Option (Signal ι κ ν)) :
    List (Transition ι κ ν γ) → Run ι κ ν γ (List (Transition ι κ ν γ))
  | [] => pure []
  | t :: rest => do
    let isReady ← isReady signal t
    let others ← ready signal rest
    return if isReady then t :: others else others

/-- The transition to fire among those that are ready. The resolver is asked only if there are several. -/
def choose (m : Machine ι κ ν γ) (state : ι) (signal : Option (Signal ι κ ν)) :
    List (Transition ι κ ν γ) → Run ι κ ν γ (Option (Transition ι κ ν γ))
  | [] => pure none
  | [only] => pure (some only)
  | candidates => some <$>
    Run.invoke (.resolver state signal candidates) (m.resolver state signal candidates)

/-- The transition to fire while the machine rests in `state`, whose key is `key`. -/
def select [DecidableEq κ] (m : Machine ι κ ν γ) (state : ι) (key : Key)
    (signal : Option (Signal ι κ ν)) : Run ι κ ν γ (Option (Transition ι κ ν γ)) := do
  let candidates ← ready signal (m.triggered key signal)
  m.choose state signal candidates

end NestedMachine.Machine
