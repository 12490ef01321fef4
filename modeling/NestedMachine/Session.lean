import NestedMachine.Run.Recording

/-!
# Sessions

A session is what a machine leaves to its caller to keep: the context, the state in which the machine rests, and the history. A run that fails moves neither the state nor the history, but what it did to the context stays.
-/

namespace NestedMachine

variable {ι κ ν γ : Type}

/-- One caller of a machine. -/
structure Session (ι γ : Type) where
  context : γ
  /-- Where the machine rests; none before it has started. -/
  current : Option ι := none
  history : History ι := {}

namespace Session

/-- The session after a run, and the answer of the run. -/
def settle (s : Session ι γ) (outcome : Outcome ι κ ν γ ι) : Except (RunError ι) ι × Session ι γ :=
  match outcome.result with
  | .ok state => (.ok state, { s with context := outcome.context, current := some state })
  | .error error => (.error error, { s with context := outcome.context })

/-- Starts the machine. -/
def start (m : Machine ι κ ν γ) (s : Session ι γ) : Except (RunError ι) ι × Session ι γ :=
  s.settle (m.start s.context)

/-- Processes an event in a given state. -/
def process [DecidableEq ι] [DecidableEq κ] (m : Machine ι κ ν γ) (state : ι) (event : Event κ ν)
    (s : Session ι γ) : Except (RunError ι) ι × Session ι γ :=
  s.settle (m.process state event s.context)

/-- Processes an event in a given state, and keeps the transitions that fired. -/
def record [DecidableEq ι] [DecidableEq κ] (m : Machine ι κ ν γ) (clock : Nat → Instant) (state : ι)
    (event : Event κ ν) (s : Session ι γ) : Except (RunError ι) ι × Session ι γ :=
  let outcome := m.processRecording clock state event s.history s.context
  match outcome.result with
  | .ok (state, history) => (.ok state, { context := outcome.context, current := some state, history })
  | .error error => (.error error, { s with context := outcome.context })

end Session

end NestedMachine
