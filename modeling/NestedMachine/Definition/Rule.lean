import NestedMachine.Transition.Basic
import NestedMachine.Definition.Error

/-!
# Rules

A rule states a transition between two states by their names. It is written down piece by piece in a `Sketch`, which may still lack an end; `Sketch.rule` gives the finished rule.
-/

namespace NestedMachine

variable {ι κ ν γ : Type}

/-- A transition between two named states. -/
structure Rule (ι κ ν γ : Type) where
  source : ι
  target : ι
  kind : Kind := .external
  trigger : Option (Trigger κ) := none
  guard : Option (Guard ι κ ν γ) := none
  action : Option (Action ι κ ν γ) := none

/-- A rule in the making. -/
structure Sketch (ι κ ν γ : Type) where
  source : Option ι := none
  target : Option ι := none
  kind : Kind := .external
  trigger : Option (Trigger κ) := none
  guard : Option (Guard ι κ ν γ) := none
  action : Option (Action ι κ ν γ) := none

namespace Sketch

/-- One piece of a rule. -/
inductive Setting (ι κ ν γ : Type) where
  | source (state : ι)
  | target (state : ι)
  | kind (kind : Kind)
  | trigger (trigger : Trigger κ)
  | guard (guard : Guard ι κ ν γ)
  | action (action : Action ι κ ν γ)

/-- Fills in one piece, in place of what was there. -/
def set (sketch : Sketch ι κ ν γ) : Setting ι κ ν γ → Sketch ι κ ν γ
  | .source state => { sketch with source := some state }
  | .target state => { sketch with target := some state }
  | .kind kind => { sketch with kind }
  | .trigger trigger => { sketch with trigger := some trigger }
  | .guard guard => { sketch with guard := some guard }
  | .action action => { sketch with action := some action }

/-- The sketch with these pieces, where a later piece takes the place of an earlier one. -/
def ofSettings (settings : List (Setting ι κ ν γ)) : Sketch ι κ ν γ := settings.foldl set {}

/-- The finished rule. It needs both ends, and an initial transition has neither a trigger nor a guard. -/
def rule (sketch : Sketch ι κ ν γ) : Except (DefinitionError ι) (Rule ι κ ν γ) :=
  match sketch.source, sketch.target with
  | none, _ => .error .noSource
  | some _, none => .error .noTarget
  | some source, some target =>
    if sketch.kind = .initial ∧ sketch.trigger.isSome then .error (.triggeredInitial source)
    else if sketch.kind = .initial ∧ sketch.guard.isSome then .error (.guardedInitial source)
    else .ok { sketch with source, target }

end Sketch

end NestedMachine
