import NestedMachine.Json.Reader
import NestedMachine.Json.Printer

/-!
# Data as JSON

A `Codec` says how values of a type are written as JSON, and how they are read back. Records are objects, or arrays with exactly one item for each field. In an object, fields of other names are passed over, and a field that is given twice makes it unreadable. One of several forms is named by a text, or by an object whose only field has its name.
-/

namespace NestedMachine

variable {α : Type}

/-- How a type is written as JSON and read back. A reader is told how many arrays and objects stand around the value. -/
class Codec (α : Type) where
  encode : α → Json
  decode : (depth : Nat) → Json → Option α

export Codec (encode decode)

namespace Json

/-- An optional value. -/
def ofOption [Codec α] : Option α → Json
  | none => null
  | some value => encode value

/-- The fields of a record, in the order of `names`. -/
def record? (names : List String) : Json → Option (List (Option Json))
  | object fields => names.mapM fun name =>
    match fields.filter (·.1 = name) with
    | [] => some none
    | [(_, value)] => some (some value)
    | _ => none
  | array items => if items.length = names.length then some (items.map some) else none
  | _ => none

/-- The value of a field that must be there. -/
def required [Codec α] (depth : Nat) (field : Option Json) : Option α := field.bind (decode depth)

/-- The value of a field that may be missing or null. -/
def optional [Codec α] (depth : Nat) : Option Json → Option (Option α)
  | none | some null => some none
  | some value => (decode depth value).map some

/-- The name of a form, and what is said of it. -/
def form? : Json → Option (String × Option Json)
  | text name => some (name, none)
  | object [(name, content)] => some (name, some content)
  | _ => none

/-- Nothing is said of a form, or null. -/
def isBare : Option Json → Bool
  | none | some null => true
  | _ => false

end Json

instance : Codec Bool where
  encode := .bool
  decode
    | _, .bool value => some value
    | _, _ => none

instance : Codec String where
  encode := .text
  decode
    | _, .text value => some value
    | _, _ => none

instance : Codec Int64 where
  encode value := .int value.toInt
  decode _ := Json.int64?

/-- A count fits in an unsigned word of 64 bits. -/
instance : Codec Nat where
  encode value := .int value
  decode _ := Json.nat64?

instance [Codec α] : Codec (List α) where
  encode items := .array (items.map encode)
  decode
    | depth, .array items => items.mapM (decode (depth + 1))
    | _, _ => none

/-- Reads a value of type `α` from a text and writes it again. -/
def recode (α : Type) [Codec α] (print : Json → String) (text : String) : Option String := do
  let json ← Json.parse? text
  let value : α ← decode 0 json
  return print (encode value)

end NestedMachine
