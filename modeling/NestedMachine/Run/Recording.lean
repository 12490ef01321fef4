import NestedMachine.Run.Process
import NestedMachine.History

/-!
# Recording a run

A recorded run does what a run does. Where it succeeds, the history gains a record for each transition that fired; where it fails, there is no new history.
-/

namespace NestedMachine

variable {ι κ ν γ : Type}

/-- The record of a firing. The clock tells when each step was complete. -/
def Firing.record (clock : Nat → Instant) (firing : Firing ι) : Record ι :=
  { firing with timestamp := clock firing.step }

/-- Processes an event, and answers the state in which the machine comes to rest together with the longer history. -/
def Machine.processRecording [DecidableEq ι] [DecidableEq κ] (m : Machine ι κ ν γ)
    (clock : Nat → Instant) (current : ι) (event : Event κ ν) (history : History ι) :
    Run ι κ ν γ (ι × History ι) := fun context =>
  let outcome := m.process current event context
  let records := outcome.firings.map (Firing.record clock)
  ⟨outcome.result.map (·, history.appendAll records), outcome.context, outcome.trace⟩

end NestedMachine
