import NestedMachine.History
import NestedMachine.Time.Timestamp
import NestedMachine.Json.Codec.Machine

/-!
# Histories as JSON
-/

namespace NestedMachine

variable {ι : Type}

instance : Codec Instant where
  encode instant := .text (Timestamp.text instant)
  decode
    | _, .text value => Timestamp.ofText? value
    | _, _ => none

/-- The fields that a firing has in JSON, in order. -/
def Firing.fields [Codec ι] (f : Firing ι) : List (String × Json) :=
  [("from", encode f.origin), ("source", encode f.source), ("target", encode f.target),
    ("to", encode f.settled), ("kind", encode f.kind), ("step", encode f.step)]

instance [Codec ι] : Codec (Record ι) where
  encode r := .object (r.toFiring.fields ++ [("timestamp", encode r.timestamp)])
  decode depth json := do
    let [origin, source, target, settled, kind, step, timestamp] ←
      json.record? ["from", "source", "target", "to", "kind", "step", "timestamp"] | none
    return {
      origin := ← Json.required (depth + 1) origin
      source := ← Json.required (depth + 1) source
      target := ← Json.required (depth + 1) target
      settled := ← Json.required (depth + 1) settled
      kind := ← Json.required (depth + 1) kind
      step := ← Json.required (depth + 1) step
      timestamp := ← Json.required (depth + 1) timestamp }

instance [Codec ι] : Codec (History ι) where
  encode h := .object [("transitions", encode h.records)]
  decode depth json := do
    let [records] ← json.record? ["transitions"] | none
    return ⟨← Json.required (depth + 1) records⟩

end NestedMachine
