import NestedMachine.Definition.Draft
import NestedMachine.Definition.Defects

/-!
# From a definition to a machine

A list of declarations gives a machine if none was refused, if the root has an initial transition to a state at the top level, and if the whole has no defects.
-/

namespace NestedMachine

variable {ι κ ν γ : Type}

namespace Draft

/-- The machine that a draft describes, whether it has defects or not. A state without behaviour does nothing. -/
def freeze (d : Draft ι κ ν γ) : Machine ι κ ν γ where
  states := d.states.map fun s => ⟨s.id, s.behavior.getD .passive, s.isFinal⟩
  hierarchy := d.hierarchy
  table := .ofList d.hierarchy.size d.transitions
  limit := d.limit
  resolver := d.resolver

/-- The initial transition of the root. -/
def topInitial (d : Draft ι κ ν γ) : Option (Transition ι κ ν γ) :=
  d.transitions.find? fun t => t.kind = .initial ∧ t.sourceKey = .root

/-- The machine that a draft describes, or what is wrong with it. -/
def build [DecidableEq ι] (d : Draft ι κ ν γ) : Except (DefinitionError ι) (Machine ι κ ν γ) :=
  match d.refused, d.topInitial with
  | some error, _ => .error error
  | none, none => .error .noInitialState
  | none, some t =>
    match d.superstate? t.target, d.freeze.defects t.targetKey with
    | some superstate, _ => .error (.nestedInitialState t.target superstate)
    | none, [] => .ok d.freeze
    | none, defects => .error (.defective defects)

end Draft

/-- The machine that a list of declarations defines. -/
def Machine.build [DecidableEq ι] (declarations : List (Declaration ι κ ν γ)) :
    Except (DefinitionError ι) (Machine ι κ ν γ) :=
  (Draft.ofDeclarations declarations).build

end NestedMachine
