import NestedMachine.Transition.Basic

/-!
# Resolvers

A resolver chooses when several transitions are ready in the same step. It is handed the active state, the pending signal and the candidates, nearest first: those that leave the active state, then those that leave its superstate, and so on.
-/

namespace NestedMachine

variable {ι κ ν γ : Type}

/-- A choice among candidates. It is expected to answer one of them. -/
abbrev Resolver (ι κ ν γ : Type) : Type :=
  ι → Option (Signal ι κ ν) → List (Transition ι κ ν γ) → Callback ι γ (Transition ι κ ν γ)

namespace Resolver

/-- Refuses to choose: ambiguity is an error that names all candidates. -/
def reject : Resolver ι κ ν γ := fun state _ candidates =>
  throw (.ambiguous state (candidates.map Transition.edge))

/-- Takes the candidate declared closest to the active state, of several there the one registered first. -/
def nearest [ToString ι] : Resolver ι κ ν γ := fun state _ candidates =>
  match candidates with
  | [] => Callback.raise s!"no candidate transitions in state {state}"
  | first :: _ => pure first

end Resolver

end NestedMachine
