/-!
# Scanning a text from the front

A `Scan` takes characters off the front of a text and answers what they mean, or fails. It is all that the readers of this library share.
-/

namespace NestedMachine

/-- Takes characters off the front of a text, and answers what they mean. -/
abbrev Scan (α : Type) : Type := StateT (List Char) Option α

namespace Scan

variable {α : Type}

/-- Takes the first character. -/
def next : Scan Char := fun
  | [] => none
  | c :: rest => some (c, rest)

/-- Looks at the first character and leaves it. -/
def peek : Scan (Option Char) := fun text => some (text.head?, text)

/-- Takes one given character. -/
def exactly (c : Char) : Scan Unit := do
  guard ((← next) = c)

/-- Takes all characters of a class. -/
def skip (inClass : Char → Bool) : Scan Unit := fun text => some ((), text.dropWhile inClass)

/-- Takes the digits at the front, at most `width` of them. -/
def digits (width : Nat) : Scan (List Char) := fun text =>
  let digits := (text.take width).takeWhile Char.isDigit
  some (digits, text.drop digits.length)

/-- The value of decimal digits. -/
def decimal (digits : List Char) : Nat :=
  digits.foldl (fun value c => 10 * value + (c.toNat - '0'.toNat)) 0

/-- Takes a number of at most `width` digits. At least one digit must be there. -/
def number (width : Nat) : Scan Nat := do
  let digits ← digits width
  guard (digits ≠ [])
  return decimal digits

/-- What the whole of a text means. -/
def whole (scan : Scan α) (text : String) : Option α :=
  match scan.run text.toList with
  | some (answer, []) => some answer
  | _ => none

end Scan

end NestedMachine
