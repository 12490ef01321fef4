import NestedMachine.Text.Scan
import NestedMachine.Text.Blank
import NestedMachine.Time.Calendar
import NestedMachine.Time.Instant

/-!
# Timestamps

The text of an instant: date and time of day in universal time, as in `2024-05-06T07:08:09.500Z`. What is written has one form; what is read may leave out leading zeros, may have blanks around its parts, and may be given in another offset from universal time.
-/

namespace NestedMachine

/-- A date and a time of day, as written in a timestamp. -/
structure ClockTime where
  date : Date
  hour : Nat
  minute : Nat
  /-- 60 in a leap second. -/
  second : Nat
  nanos : Nat
deriving DecidableEq

namespace ClockTime

/-- The years that a timestamp may have. -/
def YearInRange (year : Int) : Prop := -262143 ≤ year ∧ year ≤ 262142

instance (year : Int) : Decidable (YearInRange year) :=
  inferInstanceAs (Decidable (-262143 ≤ year ∧ year ≤ 262142))

/-- There is such a date, and such a time of day. -/
def IsValid (t : ClockTime) : Prop :=
  YearInRange t.date.year ∧ t.date.IsValid ∧ t.hour ≤ 23 ∧ t.minute ≤ 59 ∧ t.second ≤ 60

instance (t : ClockTime) : Decidable t.IsValid :=
  inferInstanceAs (Decidable
    (YearInRange t.date.year ∧ t.date.IsValid ∧ t.hour ≤ 23 ∧ t.minute ≤ 59 ∧ t.second ≤ 60))

/-- The instant that a clock shows which is `offset` seconds ahead of universal time. -/
def toInstant (t : ClockTime) (offset : Int) : Instant where
  seconds := 86400 * t.date.toDays + 3600 * t.hour + 60 * t.minute + min t.second 59 - offset
  nanos := (if t.second = 60 then Instant.nanosPerSecond else 0) + t.nanos

/-- What a clock in universal time shows. -/
def ofInstant (t : Instant) : ClockTime where
  date := .ofDays (t.seconds / 86400)
  hour := (t.secondOfDay / 3600).toNat
  minute := (t.secondOfDay % 3600 / 60).toNat
  second := (t.secondOfDay % 60).toNat + (if t.isLeap then 1 else 0)
  nanos := t.nanos % Instant.nanosPerSecond

end ClockTime

namespace Timestamp

/-! ### Writing -/

/-- A number with zeros in front, at least `width` digits long. -/
def padded (width n : Nat) : String :=
  let digits := toString n
  String.ofList (List.replicate (width - digits.length) '0') ++ digits

/-- A year has four digits or more. Outside of the years 0 to 9999 it has a sign. -/
def yearText (year : Int) : String :=
  (if year < 0 then "-" else if 9999 < year then "+" else "") ++ padded 4 year.natAbs

/-- The part of a second: no digits, or three, six or nine, the fewest that lose nothing. -/
def fractionText (nanos : Nat) : String :=
  if nanos = 0 then ""
  else if nanos % 1000000 = 0 then "." ++ padded 3 (nanos / 1000000)
  else if nanos % 1000 = 0 then "." ++ padded 6 (nanos / 1000)
  else "." ++ padded 9 nanos

/-- The text of an instant. -/
def text (instant : Instant) : String :=
  let t := ClockTime.ofInstant instant
  yearText t.date.year ++ "-" ++ padded 2 t.date.month ++ "-" ++ padded 2 t.date.day ++ "T" ++
    padded 2 t.hour ++ ":" ++ padded 2 t.minute ++ ":" ++ padded 2 t.second ++
    fractionText t.nanos ++ "Z"

/-! ### Reading -/

/-- Passes over blanks. -/
def blanks : Scan Unit := Scan.skip Text.isBlank

/-- A character with blanks before it. -/
def mark (c : Char) : Scan Unit := do
  blanks
  Scan.exactly c

/-- A number of one or two digits with blanks before it. -/
def shortNumber : Scan Nat := do
  blanks
  Scan.number 2

/-- A year, with blanks before it. It has up to four digits, or a sign and any number of digits. -/
def year : Scan Int := do
  blanks
  let text ← get
  match text.head? with
  | some '-' => do
    let _ ← Scan.next
    return -(← Scan.number text.length)
  | some '+' => do
    let _ ← Scan.next
    return ← Scan.number text.length
  | _ => return ← Scan.number 4

/-- The part of a second after a point, in nanoseconds. Digits after the ninth are passed over. -/
def fraction : Scan Nat := do
  if (← Scan.peek) ≠ some '.' then
    return 0
  let _ ← Scan.next
  let digits ← Scan.digits 9
  guard (digits ≠ [])
  Scan.skip Char.isDigit
  return Scan.decimal (digits ++ List.replicate (9 - digits.length) '0')

/-- Two digits. -/
def twoDigits : Scan Nat := do
  let digits ← Scan.digits 2
  guard (digits.length = 2)
  return Scan.decimal digits

/-- The seconds by which a clock is ahead of universal time: `UTC` in any case, `Z`, or a sign with hours and minutes. -/
def offset : Scan Int := do
  let text ← get
  if (text.take 3).map Char.toUpper = ['U', 'T', 'C'] then
    set (text.drop 3)
    return 0
  match ← Scan.next with
  | 'Z' | 'z' => return 0
  | '+' => size
  | '-' | '\u2212' => return -(← size)
  | _ => failure
where
  /-- Hours and minutes, with colons and blanks between them. -/
  size : Scan Int := do
    let hours ← twoDigits
    Scan.skip fun c => c = ':' || Text.isBlank c
    let minutes ← twoDigits
    guard (minutes ≤ 59 ∧ hours ≤ 23)
    return 3600 * hours + 60 * minutes

/-- A date and a time of day. -/
def clockTime : Scan ClockTime := do
  let year ← year
  mark '-'
  let month ← shortNumber
  mark '-'
  let day ← shortNumber
  guard ((← Scan.next) ∈ ['T', 't', ' '])
  let hour ← shortNumber
  mark ':'
  let minute ← shortNumber
  mark ':'
  let second ← shortNumber
  let nanos ← fraction
  return ⟨⟨year, month, day⟩, hour, minute, second, nanos⟩

/-- A timestamp with blanks after it. -/
def instant : Scan Instant := do
  let t ← clockTime
  blanks
  let offset ← offset
  blanks
  guard t.IsValid
  let instant := t.toInstant offset
  guard (ClockTime.YearInRange (ClockTime.ofInstant instant).date.year)
  return instant

/-- The instant that a text gives. -/
def ofText? (text : String) : Option Instant := Scan.whole instant text

end Timestamp

end NestedMachine
