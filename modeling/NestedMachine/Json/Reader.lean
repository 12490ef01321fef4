import NestedMachine.Text.Scan
import NestedMachine.Text.Hex
import NestedMachine.Json.Basic

/-!
# Reading JSON

The reader is strict: no blanks but space, tab, line feed and carriage return, no leading zeros, no raw control characters in texts, no trailing commas, and nothing after the value.
-/

namespace NestedMachine.Json

/-- The characters that may stand between the parts of a JSON text. -/
def isBlank (c : Char) : Bool := c = ' ' || c = '\n' || c = '\r' || c = '\t'

/-- The character that a one-letter escape stands for. -/
def escaped? : Char → Option Char
  | '"' => some '"'
  | '\\' => some '\\'
  | '/' => some '/'
  | 'b' => some '\x08'
  | 'f' => some '\x0c'
  | 'n' => some '\n'
  | 'r' => some '\r'
  | 't' => some '\t'
  | _ => none

/-- The characters up to the closing quote, as numbers: an escape by code gives 16 bits at a time. Also answers what follows the quote. -/
def units : List Char → Option (List Nat × List Char)
  | '"' :: rest => some ([], rest)
  | '\\' :: 'u' :: a :: b :: c :: d :: rest => do
    let a ← Text.hexDigit? a
    let b ← Text.hexDigit? b
    let c ← Text.hexDigit? c
    let d ← Text.hexDigit? d
    let (others, rest) ← units rest
    return ((((a * 16 + b) * 16 + c) * 16 + d) :: others, rest)
  | '\\' :: c :: rest => do
    let c ← escaped? c
    let (others, rest) ← units rest
    return (c.toNat :: others, rest)
  | c :: rest => do
    guard (0x20 ≤ c.toNat)
    let (others, rest) ← units rest
    return (c.toNat :: others, rest)
  | [] => none

/-- The number is the first half of a surrogate pair. -/
def isHighSurrogate (n : Nat) : Bool := 0xd800 ≤ n && n < 0xdc00

/-- The number is the second half of a surrogate pair. -/
def isLowSurrogate (n : Nat) : Bool := 0xdc00 ≤ n && n < 0xe000

/-- The characters that numbers stand for. Two halves of a surrogate pair make one character; a half alone makes none. -/
def characters : List Nat → Option (List Char)
  | [] => some []
  | first :: second :: rest =>
    if isHighSurrogate first then
      if isLowSurrogate second then
        (characters rest).map (Char.ofNat (0x10000 + (first - 0xd800) * 0x400 + (second - 0xdc00)) :: ·)
      else none
    else if isLowSurrogate first then none
    else (characters (second :: rest)).map (Char.ofNat first :: ·)
  | [last] =>
    if isHighSurrogate last || isLowSurrogate last then none else some [Char.ofNat last]

/-- The rest of a text after its opening quote, none if it has half of a surrogate pair. -/
def quotedRest : Scan (Option String) := fun cs => do
  let (units, rest) ← units cs
  return ((characters units).map String.ofList, rest)

/-- Takes a fraction or an exponent if there is one, and answers whether there was. -/
def decimals (marks : List Char) (signs : List Char) : Scan Bool := do
  let some c ← Scan.peek | return false
  if c ∉ marks then
    return false
  let _ ← Scan.next
  if let some sign ← Scan.peek then
    if sign ∈ signs then
      let _ ← Scan.next
  let cs ← get
  let _ ← Scan.number cs.length
  return true

/-- A number. Several digits do not start with zero. -/
def numeral : Scan Json := do
  let isNegative := (← Scan.peek) = some '-'
  if isNegative then
    let _ ← Scan.next
  let cs ← get
  let digits ← Scan.digits cs.length
  guard (digits ≠ [] ∧ (digits.head? = some '0' → digits.length = 1))
  let hasFraction ← decimals ['.'] []
  let hasExponent ← decimals ['e', 'E'] ['+', '-']
  let magnitude := Scan.decimal digits
  if hasFraction || hasExponent || (isNegative && magnitude = 0) then
    return real
  return int (if isNegative then -magnitude else magnitude)

/-- A given word, which stands for a value. -/
def word (letters : String) (value : Json) : Scan Json := do
  letters.toList.forM Scan.exactly
  return value

/-- An object, unless one of its names cannot be read. -/
def ofMembers (members : List (Option String × Json)) : Json :=
  match members.mapM fun (name, value) => name.map (·, value) with
  | some fields => object fields
  | none => unreadable

mutual

/-- A value, after blanks. The budget bounds the depth of the recursion. -/
def value : (budget : Nat) → Scan Json
  | 0 => failure
  | budget + 1 => do
    Scan.skip isBlank
    match ← Scan.peek with
    | some 'n' => word "null" null
    | some 't' => word "true" (bool true)
    | some 'f' => word "false" (bool false)
    | some '"' => do
      let _ ← Scan.next
      return (← quotedRest).elim unreadable text
    | some '[' => do
      let _ ← Scan.next
      Scan.skip isBlank
      if (← Scan.peek) = some ']' then
        let _ ← Scan.next
        return array []
      return array (← elements budget)
    | some '\x7b' => do
      let _ ← Scan.next
      Scan.skip isBlank
      if (← Scan.peek) = some '\x7d' then
        let _ ← Scan.next
        return object []
      return ofMembers (← members budget)
    | _ => numeral

/-- One or more items of an array, and the bracket that closes it. -/
def elements : (budget : Nat) → Scan (List Json)
  | 0 => failure
  | budget + 1 => do
    let first ← value budget
    Scan.skip isBlank
    match ← Scan.next with
    | ',' => return first :: (← elements budget)
    | ']' => return [first]
    | _ => failure

/-- One or more members of an object, and the brace that closes it. -/
def members : (budget : Nat) → Scan (List (Option String × Json))
  | 0 => failure
  | budget + 1 => do
    Scan.skip isBlank
    Scan.exactly '"'
    let name ← quotedRest
    Scan.skip isBlank
    Scan.exactly ':'
    let first ← value budget
    Scan.skip isBlank
    match ← Scan.next with
    | ',' => return (name, first) :: (← members budget)
    | '\x7d' => return [(name, first)]
    | _ => failure

end

/-- The value that a text says. Every step of the recursion but one in two takes a character, so the budget is never used up. -/
def parse? (text : String) : Option Json :=
  Scan.whole (do
    let json ← value (2 * text.length + 2)
    Scan.skip isBlank
    return json) text

end NestedMachine.Json
