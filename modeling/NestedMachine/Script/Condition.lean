import NestedMachine.Script.Memory

/-!
# Conditions

A condition is a predicate on the memory and the pending signal. Looking at a condition may write to the log, and may fail; a failure inside a compound condition is the failure of the whole. Compound conditions are looked at from left to right, and no further than needed.
-/

namespace NestedMachine.Script

/-- A predicate on the memory and the pending signal. -/
inductive Condition where
  | constant (value : Bool)
  /-- The variable has this value. -/
  | equal (name : String) (value : Int64)
  | less (name : String) (value : Int64)
  | greater (name : String) (value : Int64)
  /-- The signal is an event of this kind. -/
  | kind (kind : String)
  /-- The signal is an event whose value is greater. -/
  | valueGreater (value : Int64)
  /-- The signal is the completion by this final state. -/
  | completed (state : Ident)
  /-- The signal is a completion. -/
  | completion
  /-- There is no signal. -/
  | noSignal
  | not (condition : Condition)
  | all (conditions : List Condition)
  | any (conditions : List Condition)
  /-- Writes to the log, and holds. -/
  | note (text : String)
  /-- Fails with a text. -/
  | fail (text : String)

namespace Condition

mutual

/-- Looks at a condition. -/
def holds (signal : Option Signal) : Condition → Callback Bool
  | constant value => pure value
  | equal name value => return (← get).get name = value
  | less name value => return (← get).get name < value
  | greater name value => return value < (← get).get name
  | kind wanted => return (signal.bind Signal.event?).any fun e => e.kind = wanted
  | valueGreater value => return (signal.bind Signal.event?).any fun e => value < e.value
  | completed state => return signal.bind Signal.completed? = some state
  | completion => return (signal.bind Signal.completed?).isSome
  | noSignal => return signal.isNone
  | not condition => return !(← condition.holds signal)
  | all conditions => allHold signal conditions
  | any conditions => anyHolds signal conditions
  | note text => do
    write (.noted text signal)
    return true
  | fail text => Callback.raise text

/-- Looks at conditions until one does not hold. -/
def allHold (signal : Option Signal) : List Condition → Callback Bool
  | [] => pure true
  | first :: rest => do
    if ← first.holds signal then allHold signal rest else return false

/-- Looks at conditions until one holds. -/
def anyHolds (signal : Option Signal) : List Condition → Callback Bool
  | [] => pure false
  | first :: rest => do
    if ← first.holds signal then return true else anyHolds signal rest

end

end Condition

end NestedMachine.Script
