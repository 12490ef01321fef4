import NestedMachine.Text.Quoted

/-!
# Identities

A machine may use any type with decidable equality for the names of its states. `Ident` is one that data can carry: whole numbers, texts, and tuples of identities. Identities of different forms differ, so `1`, `"1"` and `[1]` are three states.
-/

namespace NestedMachine

/-- A name for a state. -/
inductive Ident where
  | int (value : Int64)
  | text (value : String)
  | tuple (items : List Ident)

namespace Ident

mutual

/-- Decides whether two identities are equal. -/
def decEq : (a b : Ident) → Decidable (a = b)
  | int m, int n => decidable_of_iff (m = n) (by simp)
  | text s, text t => decidable_of_iff (s = t) (by simp)
  | tuple as, tuple bs =>
    match decEqAll as bs with
    | isTrue h => isTrue (by rw [h])
    | isFalse h => isFalse (by simpa using h)
  | int _, text _ | int _, tuple _ | text _, int _ | text _, tuple _ | tuple _, int _
  | tuple _, text _ => isFalse (by simp)

/-- Decides whether two lists of identities are equal. -/
def decEqAll : (as bs : List Ident) → Decidable (as = bs)
  | [], [] => isTrue rfl
  | [], _ :: _ | _ :: _, [] => isFalse (by simp)
  | a :: as, b :: bs =>
    match decEq a b, decEqAll as bs with
    | isTrue h, isTrue h' => isTrue (by rw [h, h'])
    | isFalse h, _ => isFalse (by simp [h])
    | _, isFalse h => isFalse (by simp [h])

end

instance : DecidableEq Ident := decEq

mutual

/-- How an identity is shown in messages. -/
def render : Ident → String
  | int value => toString value.toInt
  | text value => Text.quoted value
  | tuple items => "[" ++ ", ".intercalate (renderAll items) ++ "]"

/-- How several identities are shown. -/
def renderAll : List Ident → List String
  | [] => []
  | first :: rest => render first :: renderAll rest

end

instance : ToString Ident := ⟨Ident.render⟩

end Ident

end NestedMachine
