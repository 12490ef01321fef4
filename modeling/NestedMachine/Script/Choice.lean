import NestedMachine.Resolver
import NestedMachine.Script.Memory

/-!
# Choices

Resolvers as data. A scripted resolver writes to the log what it had to choose among.
-/

namespace NestedMachine.Script

/-- A rule for choosing among candidates. -/
inductive Choice where
  | first
  | last
  /-- The candidate at this position, counted on from the start again after the last one. -/
  | position (index : Int)
  /-- The candidate at the position that this variable holds, counted in the same way. -/
  | heldBy (name : String)
  /-- The first candidate that leads to this state. -/
  | target (state : Ident)
  | fail (text : String)

/-- The transitions of scripted machines. -/
abbrev Transition : Type := NestedMachine.Transition Ident String Int64 Memory

namespace Choice

/-- The candidate that a rule picks, if there is one. -/
def pick (memory : Memory) (candidates : List Transition) : Choice → Except String Transition
  | first => ofOption candidates.head?
  | last => ofOption candidates.getLast?
  | position index => atPosition index
  | heldBy name => atPosition (memory.get name).toInt
  | target state => ofOption (candidates.find? (·.target = state))
  | fail text => .error text
where
  /-- The candidate, or a failure where there is none. -/
  ofOption (candidate : Option Transition) : Except String Transition :=
    candidate.elim (.error "target not among candidates") .ok
  /-- The candidate at a position. -/
  atPosition (index : Int) : Except String Transition :=
    ofOption candidates[(index % candidates.length).toNat]?

/-- The resolver that follows a rule. -/
def resolver (choice : Choice) : Resolver Ident String Int64 Memory := fun state signal candidates => do
  write (.resolving state signal (candidates.map fun t => (t.edge, t.kind)))
  match choice.pick (← get) candidates with
  | .ok t => return t
  | .error text => Callback.raise text

end Choice

end NestedMachine.Script
