import NestedMachine.Run.Activity
import NestedMachine.Time.Instant

/-!
# Histories

The transitions that a machine has fired for one caller, and when. A history only grows, at its end.
-/

namespace NestedMachine

variable {ι : Type}

/-- A transition that has fired, and when it was complete. -/
structure Record (ι : Type) extends Firing ι where
  timestamp : Instant
deriving DecidableEq

/-- Records in the order in which their transitions fired. -/
structure History (ι : Type) where
  records : List (Record ι) := []
deriving DecidableEq

namespace History

/-- The history with one more record. -/
def append (h : History ι) (record : Record ι) : History ι := ⟨h.records ++ [record]⟩

/-- The history with more records. -/
def appendAll (h : History ι) (records : List (Record ι)) : History ι := ⟨h.records ++ records⟩

/-- The states in which the machine rested: the one before the first transition, and the one after each. -/
def path (h : History ι) : List ι :=
  (h.records.head?.map (·.origin)).toList ++ h.records.map (·.settled)

/-- The time from the first record to the last. An empty history has none, and neither has one that goes back in time. -/
def duration (h : History ι) : Option Span := do
  let first ← h.records.head?
  let last ← h.records.getLast?
  first.timestamp.until? last.timestamp

end History

end NestedMachine
