import NestedMachine.Summary
import NestedMachine.Json.Codec.Machine

/-!
# Summaries as JSON
-/

namespace NestedMachine

variable {ι : Type}

instance [Codec ι] : Codec (StateSummary ι) where
  encode s := .object [("id", encode s.id), ("superstate", .ofOption s.superstate),
    ("composite", encode s.isComposite), ("is_final", encode s.isFinal)]
  decode depth json := do
    let [id, superstate, isComposite, isFinal] ←
      json.record? ["id", "superstate", "composite", "is_final"] | none
    return {
      id := ← Json.required (depth + 1) id
      superstate := ← Json.optional (depth + 1) superstate
      isComposite := ← Json.required (depth + 1) isComposite
      isFinal := ← Json.required (depth + 1) isFinal }

instance [Codec ι] : Codec (TransitionSummary ι) where
  encode t := .object [("source", .ofOption t.source), ("target", encode t.target),
    ("kind", encode t.kind), ("trigger", .ofOption t.trigger), ("guarded", encode t.isGuarded),
    ("has_action", encode t.hasAction)]
  decode depth json := do
    let [source, target, kind, trigger, isGuarded, hasAction] ←
      json.record? ["source", "target", "kind", "trigger", "guarded", "has_action"] | none
    return {
      source := ← Json.optional (depth + 1) source
      target := ← Json.required (depth + 1) target
      kind := ← Json.required (depth + 1) kind
      trigger := ← Json.optional (depth + 1) trigger
      isGuarded := ← Json.required (depth + 1) isGuarded
      hasAction := ← Json.required (depth + 1) hasAction }

instance [Codec ι] : Codec (Summary ι) where
  encode d := .object [("initial", .ofOption d.initial),
    ("max_transitions_per_event", encode d.limit), ("states", encode d.states),
    ("transitions", encode d.transitions)]
  decode depth json := do
    let [initial, limit, states, transitions] ←
      json.record? ["initial", "max_transitions_per_event", "states", "transitions"] | none
    return {
      initial := ← Json.optional (depth + 1) initial
      limit := ← Json.required (depth + 1) limit
      states := ← Json.required (depth + 1) states
      transitions := ← Json.required (depth + 1) transitions }

/-- The summary as a text for tools. -/
def Summary.toText [Codec ι] (d : Summary ι) : String := (encode d).pretty

end NestedMachine
