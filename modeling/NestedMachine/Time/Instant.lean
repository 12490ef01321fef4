/-!
# Instants and spans

An instant is a second, counted from the start of 1970 in universal time, and a part of it. A leap second has no number of its own: it is the second part of the second before it, so its nanoseconds are a thousand million or more.
-/

namespace NestedMachine

/-- A point in time. -/
structure Instant where
  seconds : Int
  /-- Below 10^9, or below 2 · 10^9 in a second that a leap second follows. -/
  nanos : Nat
deriving DecidableEq

/-- A length of time that is not negative. -/
structure Span where
  seconds : Nat
  /-- Below 10^9. -/
  nanos : Nat
deriving DecidableEq

namespace Instant

/-- The nanoseconds of one second. -/
def nanosPerSecond : Nat := 1000000000

/-- The seconds since midnight. -/
def secondOfDay (t : Instant) : Int := t.seconds % 86400

/-- The instant lies in a leap second. -/
def isLeap (t : Instant) : Bool := nanosPerSecond ≤ t.nanos

/-- The seconds and nanoseconds from one instant to another. A leap second counts where the earlier of the two times of day lies in it. -/
def difference (start stop : Instant) : Int × Nat :=
  let leap : Int :=
    if start.secondOfDay < stop.secondOfDay ∧ start.isLeap then 1
    else if stop.secondOfDay < start.secondOfDay ∧ stop.isLeap then -1
    else 0
  let part : Int := (stop.nanos : Int) - start.nanos
  (stop.seconds - start.seconds + leap + part / nanosPerSecond, (part % nanosPerSecond).toNat)

/-- The time from one instant to another, unless that lies before it. -/
def until? (start stop : Instant) : Option Span :=
  match start.difference stop with
  | (.ofNat seconds, nanos) => some ⟨seconds, nanos⟩
  | (.negSucc _, _) => none

end Instant

end NestedMachine
