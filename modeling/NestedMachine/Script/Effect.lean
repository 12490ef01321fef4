import NestedMachine.Script.Condition

/-!
# Effects

An effect changes the memory. A script is a list of effects, and ends at the first that fails.
-/

namespace NestedMachine.Script

/-- A change of the memory. -/
inductive Effect where
  /-- Writes to the log. -/
  | log (text : String)
  /-- Sets a variable. -/
  | set (name : String) (value : Int64)
  /-- Adds to a variable. Sums wrap around. -/
  | add (name : String) (value : Int64)
  /-- Fails with a text. -/
  | fail (text : String)
  /-- Fails with a text if a condition holds. -/
  | failIf (condition : Condition) (text : String)

/-- Makes one change. -/
def Effect.run (signal : Option Signal) : Effect → Callback Unit
  | log text => write (.logged text signal)
  | set name value => modify (·.set name value)
  | add name value => modify fun memory => memory.set name (memory.get name + value)
  | fail text => Callback.raise text
  | failIf condition text => do
    if ← condition.holds signal then
      Callback.raise text

/-- Makes changes in turn, up to the first that fails. -/
def run (signal : Option Signal) (effects : List Effect) : Callback Unit := effects.forM (Effect.run signal)

/-- What a state does, as data. -/
structure StateScript where
  entry : List Effect := []
  exit : List Effect := []
  event : List Effect := []
  /-- Whether the state consumes the signal that it is offered. -/
  consume : Condition := .constant false

/-- The behaviour that a script gives to a state. Each callback first writes to the log that it was called. -/
def StateScript.behavior (script : StateScript) (state : Ident) : Behavior Ident String Int64 Memory where
  onEntry := do
    write (.entered state)
    run none script.entry
  onExit := do
    write (.exited state)
    run none script.exit
  onEvent signal := do
    write (.offered state signal)
    run (some signal) script.event
    script.consume.holds (some signal)

end NestedMachine.Script
