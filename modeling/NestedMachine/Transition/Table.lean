import NestedMachine.Transition.Basic

/-!
# The transition table

A `Table` files transitions under the keys of their sources. It holds each transition once, in the order of registration, and an index of positions in that list: for each key the ordinary transitions that leave it, and the initial transition if it has one.
-/

namespace NestedMachine

variable {ι κ ν γ : Type}

/-- Transitions, and where to find those of one source. The two indexes have an entry for each key. -/
structure Table (ι κ ν γ : Type) where
  all : List (Transition ι κ ν γ)
  outgoing : List (List Nat)
  initial : List (Option Nat)

namespace Table

/-- Files the transition at `position` under its source. A source without an entry is left out. -/
def file (table : Table ι κ ν γ) (t : Transition ι κ ν γ) (position : Nat) : Table ι κ ν γ :=
  match t.kind with
  | .initial => { table with initial := table.initial.set t.sourceKey.index (some position) }
  | _ => { table with outgoing := table.outgoing.modify t.sourceKey.index (· ++ [position]) }

/-- The table of a list of transitions, with entries for the first `size` keys. -/
def ofList (size : Nat) (transitions : List (Transition ι κ ν γ)) : Table ι κ ν γ :=
  transitions.zipIdx.foldl (fun table (t, position) => table.file t position)
    ⟨transitions, List.replicate size [], List.replicate size none⟩

/-- The ordinary transitions that leave `key`, in the order of registration. -/
def leaving (table : Table ι κ ν γ) (key : Key) : List (Transition ι κ ν γ) :=
  (table.outgoing[key.index]?.getD []).filterMap (table.all[·]?)

/-- The initial transition of `key`. -/
def initialOf (table : Table ι κ ν γ) (key : Key) : Option (Transition ι κ ν γ) :=
  (table.initial[key.index]?.getD none).bind (table.all[·]?)

end Table

end NestedMachine
