import NestedMachine.Ident
import NestedMachine.Callback
import NestedMachine.Transition.Basic

/-!
# The memory of a scripted machine

Scripts are callbacks written as data. The context that they work on is a `Memory`: variables that hold words of 64 bits, and a log of what was done.
-/

namespace NestedMachine.Script

/-- The signals of scripted machines. Events have a name and carry a number. -/
abbrev Signal : Type := NestedMachine.Signal Ident String Int64

/-- A line of the log. -/
inductive Line where
  | entered (state : Ident)
  | exited (state : Ident)
  | offered (state : Ident) (signal : Signal)
  | resolving (state : Ident) (signal : Option Signal) (candidates : List (Edge Ident × Kind))
  /-- A condition was looked at. -/
  | noted (text : String) (signal : Option Signal)
  /-- An effect took place. -/
  | logged (text : String) (signal : Option Signal)
deriving DecidableEq

/-- The context of a scripted machine. -/
structure Memory where
  log : List Line := []
  /-- The variables that have been set, in the order in which they were first set. -/
  values : List (String × Int64) := []
deriving DecidableEq

namespace Memory

/-- The value of a variable. One that has not been set is zero. -/
def get (memory : Memory) (name : String) : Int64 := (memory.values.lookup name).getD 0

/-- Sets a variable. -/
def set (memory : Memory) (name : String) (value : Int64) : Memory :=
  if memory.values.any (·.1 = name) then
    { memory with values := memory.values.map fun v => if v.1 = name then (name, value) else v }
  else
    { memory with values := memory.values ++ [(name, value)] }

/-- Adds a line to the log. -/
def write (memory : Memory) (line : Line) : Memory := { memory with log := memory.log ++ [line] }

end Memory

/-- A callback on the memory. -/
abbrev Callback (α : Type) : Type := NestedMachine.Callback Ident Memory α

/-- Adds a line to the log. -/
def write (line : Line) : Callback Unit := modify (·.write line)

end NestedMachine.Script
