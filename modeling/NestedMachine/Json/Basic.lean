/-!
# JSON values

A `Json` is what a JSON text says, as far as the data of this library can be read from it. The fields of an object keep their order, and a name may occur more than once: what to make of that is for the reader of a record to say.
-/

namespace NestedMachine

/-- A JSON value. -/
inductive Json where
  | null
  | bool (value : Bool)
  /-- A number written without fraction and exponent. -/
  | int (value : Int)
  /-- Any other number, such as `1.0`, `1e3` or `-0`. Nothing is read from these. -/
  | real
  | text (value : String)
  | array (items : List Json)
  | object (fields : List (String × Json))
  /-- A text with half of a surrogate pair, or an object with such a text among its names. Nothing is read from it, but it may be passed over. -/
  | unreadable

namespace Json

/-- The value of the only field of this name. -/
def field? (json : Json) (name : String) : Option Json :=
  match json with
  | object fields =>
    match fields.filter (·.1 = name) with
    | [(_, value)] => some value
    | _ => none
  | _ => none

/-- The numbers that fit in a signed word of 64 bits. -/
def int64? : Json → Option Int64
  | int value =>
    if Int64.minValue.toInt ≤ value ∧ value ≤ Int64.maxValue.toInt then some (.ofInt value) else none
  | _ => none

/-- The numbers that fit in an unsigned word of 64 bits. -/
def nat64? : Json → Option Nat
  | int value => if 0 ≤ value ∧ value < UInt64.size then some value.toNat else none
  | _ => none

end Json

end NestedMachine
