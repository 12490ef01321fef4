import NestedMachine.Machine

/-!
# Reachability

Which states a machine can get to is found by a search that looks at the nesting and the transitions, and at neither triggers nor guards. From a state it is one move to the default substate, and to the target of every transition that leaves the state or a state that contains it.
-/

namespace NestedMachine

/-- Expands entries of a queue, in order and each at most once, for as long as the budget lasts. Answers what was expanded, the latest first. -/
def explore {α : Type} [DecidableEq α] (next : α → List α) :
    (budget : Nat) → (queue visited : List α) → List α
  | 0, _, visited => visited
  | budget + 1, queue, visited =>
    match queue.dropWhile (· ∈ visited) with
    | [] => visited
    | first :: rest => explore next budget (rest ++ next first) (first :: visited)

namespace Machine

variable {ι κ ν γ : Type}

/-- The states that are one move away from `key`. -/
def moves (m : Machine ι κ ν γ) (key : Key) : List Key :=
  ((m.table.initialOf key).map Transition.targetKey).toList ++
    ((m.hierarchy.chain key).flatMap m.table.leaving).map Transition.targetKey

/-- Every state that moves lead to from `start`. Apart from `start` itself, only targets of transitions are ever reached, so the budget is never used up early. -/
def reachable (m : Machine ι κ ν γ) (start : Key) : List Key :=
  explore m.moves (m.table.all.length + 1) [start] []

end Machine

end NestedMachine
