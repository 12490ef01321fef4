import NestedMachine.Ident
import NestedMachine.Transition.Text
import NestedMachine.Json.Codec.Basic

/-!
# Identities, signals and triggers as JSON
-/

namespace NestedMachine

variable {ι κ ν : Type}

namespace Ident

/-- How many arrays and objects may stand around an item of a tuple, the tuple included. -/
def maxDepth : Nat := 127

mutual

/-- An integer, a text or an array, as the form of the identity has it. -/
def toJson : Ident → Json
  | int value => encode value
  | text value => .text value
  | tuple items => .array (toJsonAll items)

/-- Several identities. -/
def toJsonAll : List Ident → List Json
  | [] => []
  | first :: rest => toJson first :: toJsonAll rest

end

mutual

/-- Reads an identity that stands inside `depth` arrays and objects. -/
def ofJson? (depth : Nat) : Json → Option Ident
  | .int value => (Json.int64? (.int value)).map int
  | .text value => some (text value)
  | .array items => if depth < maxDepth then (ofJsonAll? (depth + 1) items).map tuple else none
  | _ => none

/-- Reads several identities. -/
def ofJsonAll? (depth : Nat) : List Json → Option (List Ident)
  | [] => some []
  | first :: rest => do
    let first ← ofJson? depth first
    let rest ← ofJsonAll? depth rest
    return first :: rest

end

end Ident

instance : Codec Ident where
  encode := Ident.toJson
  decode := Ident.ofJson?

instance : Codec Key where
  encode key := encode key.index
  decode depth json := (decode depth json).map Key.mk

instance : Codec Kind where
  encode kind := .text (toString kind)
  decode _ json := do
    let (name, content) ← json.form?
    guard (Json.isBare content)
    [Kind.external, .local, .initial].find? (toString · = name)

instance [Codec κ] [Codec ν] : Codec (Event κ ν) where
  encode e := .object [("kind", encode e.kind), ("value", encode e.value)]
  decode depth json := do
    let [kind, value] ← json.record? ["kind", "value"] | none
    return ⟨← Json.required (depth + 1) kind, ← Json.required (depth + 1) value⟩

instance [Codec ι] [Codec κ] [Codec ν] : Codec (Signal ι κ ν) where
  encode
    | .event e => .object [("Event", encode e)]
    | .completed state => .object [("CompositeStateCompleted", encode state)]
  decode depth json := do
    match ← json.form? with
    | ("Event", content) => return .event (← Json.required (depth + 1) content)
    | ("CompositeStateCompleted", content) => return .completed (← Json.required (depth + 1) content)
    | _ => none

instance [Codec κ] : Codec (Trigger κ) where
  encode
    | .event kind => .object [("Event", encode kind)]
    | .completion => .text "CompositeStateCompleted"
  decode depth json := do
    match ← json.form? with
    | ("Event", content) => return .event (← Json.required (depth + 1) content)
    | ("CompositeStateCompleted", content) => do
      guard (Json.isBare content)
      return .completion
    | _ => none

end NestedMachine
