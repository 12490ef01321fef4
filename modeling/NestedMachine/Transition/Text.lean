import NestedMachine.Transition.Table

/-!
# Transitions as text

How transitions and tables are shown to a developer. Guards and actions cannot be shown, so a transition only says whether it has a guard.
-/

namespace NestedMachine

variable {ι κ ν γ : Type}

instance : ToString Kind where
  toString
    | .external => "External"
    | .local => "Local"
    | .initial => "Initial"

/-- An optional value as developers see it. -/
def optionText {α : Type} [ToString α] : Option α → String
  | none => "None"
  | some value => s!"Some({value})"

instance [ToString ι] [ToString κ] : ToString (Transition ι κ ν γ) where
  toString t := "Transition \x7b source: " ++ optionText t.source ++ ", target: " ++ toString t.target ++
    ", kind: " ++ toString t.kind ++ ", trigger: " ++ optionText t.trigger ++
    ", guarded: " ++ toString t.guard.isSome ++ " \x7d"

instance [ToString ι] [ToString κ] : ToString (Table ι κ ν γ) where
  toString table := "[" ++ ", ".intercalate (table.all.map toString) ++ "]"

end NestedMachine
