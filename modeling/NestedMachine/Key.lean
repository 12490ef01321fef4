/-!
# State keys

A machine numbers its states from 1, in the order in which its definition first mentions them. Key 0 is the root, which stands above all states and has no name of its own.
-/

namespace NestedMachine

/-- The number of a state within one machine. -/
structure Key where
  index : Nat
deriving DecidableEq

namespace Key

/-- The key above all states. -/
def root : Key := ⟨0⟩

/-- The key of the state that stands at `position` in the list of states. -/
def ofPosition (position : Nat) : Key := ⟨position + 1⟩

instance : Inhabited Key := ⟨root⟩

instance : LT Key := ⟨fun a b => a.index < b.index⟩

instance (a b : Key) : Decidable (a < b) := inferInstanceAs (Decidable (a.index < b.index))

instance : ToString Key where
  toString key := if key = root then "<root>" else "#" ++ toString key.index

theorem ofPosition_ne_root (position : Nat) : ofPosition position ≠ root := by
  simp [ofPosition, root]

theorem ofPosition_inj {p q : Nat} : ofPosition p = ofPosition q ↔ p = q := by
  simp [ofPosition]

theorem eq_root_or_ofPosition (key : Key) : key = root ∨ ∃ position, key = ofPosition position := by
  obtain ⟨index⟩ := key
  cases index with
  | zero => exact .inl rfl
  | succ position => exact .inr ⟨position, rfl⟩

end Key

end NestedMachine
