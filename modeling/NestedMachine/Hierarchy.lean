import NestedMachine.Key

/-!
# The nesting of states

A `Hierarchy` says for each state which state it is nested in; a state nested in no other lies directly under the root. The way up from a state is one list, `chain`, and every question about nesting is a question about that list: its tail holds the proper ancestors, its length is the depth, and two states meet at the first entry that their chains share.
-/

namespace NestedMachine

/-- The superstate of every state, in the order of their keys: the first entry belongs to key 1. The root has no entry, hence no superstate. -/
structure Hierarchy where
  superstates : List Key
deriving DecidableEq

/-- A path was asked for from `state` up to a state that does not contain it. -/
structure Unrelated where
  state : Key
  ancestor : Key
deriving DecidableEq

instance : ToString Unrelated where
  toString u := s!"state {u.ancestor} is not an ancestor of {u.state}"

namespace Hierarchy

/-! ### Growing a hierarchy -/

/-- The hierarchy without any state. -/
def rootOnly : Hierarchy := ⟨[]⟩

/-- One more state, directly under the root. -/
def grow (h : Hierarchy) : Hierarchy := ⟨h.superstates ++ [.root]⟩

/-- Nests `state` in `superstate`. The root, and keys without a state, stay where they are. -/
def nest (h : Hierarchy) (state superstate : Key) : Hierarchy :=
  match state with
  | ⟨0⟩ => h
  | ⟨position + 1⟩ => ⟨h.superstates.set position superstate⟩

/-! ### One level -/

/-- How many keys the hierarchy knows, the root included. -/
def size (h : Hierarchy) : Nat := h.superstates.length + 1

/-- The key is the root or that of a state. -/
def Contains (h : Hierarchy) (key : Key) : Prop := key.index < h.size

instance (h : Hierarchy) (key : Key) : Decidable (h.Contains key) :=
  inferInstanceAs (Decidable (key.index < h.size))

/-- The keys of all states in ascending order, without the root. -/
def states (h : Hierarchy) : List Key := (List.range h.superstates.length).map Key.ofPosition

/-- The superstate of a state. The root has none, and neither has a key without a state. -/
def parent (h : Hierarchy) : Key → Option Key
  | ⟨0⟩ => none
  | ⟨position + 1⟩ => h.superstates[position]?

/-- The states nested directly in `key`, in ascending order. -/
def children (h : Hierarchy) (key : Key) : List Key := h.states.filter (h.parent · = some key)

/-- Some state is nested in `key`. -/
def IsComposite (h : Hierarchy) (key : Key) : Prop := key ∈ h.superstates

instance (h : Hierarchy) (key : Key) : Decidable (h.IsComposite key) :=
  inferInstanceAs (Decidable (key ∈ h.superstates))

/-- No state is nested in `key`. -/
def IsLeaf (h : Hierarchy) (key : Key) : Prop := ¬ h.IsComposite key

instance (h : Hierarchy) (key : Key) : Decidable (h.IsLeaf key) :=
  inferInstanceAs (Decidable (¬ h.IsComposite key))

/-! ### The way up -/

/-- The first `hops` states above `key`, nearest first; fewer if the root is reached before. -/
def climb (h : Hierarchy) : (hops : Nat) → Key → List Key
  | 0, _ => []
  | hops + 1, key =>
    match h.parent key with
    | none => []
    | some superstate => superstate :: h.climb hops superstate

/-- The proper ancestors of a state, nearest first, the root last. There are fewer of them than keys, so `size` hops reach the root. -/
def ancestors (h : Hierarchy) (key : Key) : List Key := h.climb h.size key

/-- A state and its ancestors, innermost first. -/
def chain (h : Hierarchy) (key : Key) : List Key := key :: h.ancestors key

/-- The states that are active while the machine rests in `key`: the chain without the root. -/
def activeChain (h : Hierarchy) (key : Key) : List Key := (h.chain key).takeWhile (· ≠ .root)

/-- The number of proper ancestors. -/
def depth (h : Hierarchy) (key : Key) : Nat := (h.ancestors key).length

/-- The first state properly contains the second. -/
def IsAncestor (h : Hierarchy) (ancestor state : Key) : Prop := ancestor ∈ h.ancestors state

instance (h : Hierarchy) (ancestor state : Key) : Decidable (h.IsAncestor ancestor state) :=
  inferInstanceAs (Decidable (ancestor ∈ h.ancestors state))

/-- The states are equal, or one contains the other. -/
def Related (h : Hierarchy) (a b : Key) : Prop := a = b ∨ h.IsAncestor a b ∨ h.IsAncestor b a

instance (h : Hierarchy) (a b : Key) : Decidable (h.Related a b) :=
  inferInstanceAs (Decidable (a = b ∨ h.IsAncestor a b ∨ h.IsAncestor b a))

/-! ### Meeting and paths -/

/-- The innermost state that contains both, each state counting as contained in itself. Keys that share no ancestor meet at the root. -/
def meet (h : Hierarchy) (a b : Key) : Key :=
  ((h.chain a).find? (· ∈ h.chain b)).getD .root

/-- The states from `state` up to `ancestor`, innermost first, without `ancestor` itself. -/
def path (h : Hierarchy) (state ancestor : Key) : Except Unrelated (List Key) :=
  if ancestor ∈ h.chain state then .ok ((h.chain state).takeWhile (· ≠ ancestor))
  else .error ⟨state, ancestor⟩

/-- The states from `state` up to and including `ancestor`, innermost first. -/
def pathThrough (h : Hierarchy) (state ancestor : Key) : Except Unrelated (List Key) :=
  (h.path state ancestor).map (· ++ [ancestor])

/-! ### What growing and nesting change -/

@[simp] theorem parent_root (h : Hierarchy) : h.parent .root = none := rfl

@[simp] theorem parent_ofPosition (h : Hierarchy) (position : Nat) :
    h.parent (.ofPosition position) = h.superstates[position]? := rfl

@[simp] theorem size_grow (h : Hierarchy) : h.grow.size = h.size + 1 := by
  simp [size, grow]

@[simp] theorem size_nest (h : Hierarchy) (state superstate : Key) :
    (h.nest state superstate).size = h.size := by
  unfold nest
  split <;> simp [size]

theorem mem_states {h : Hierarchy} {key : Key} : key ∈ h.states ↔ key ≠ .root ∧ h.Contains key := by
  obtain ⟨index⟩ := key
  simp only [states, List.mem_map, List.mem_range, Contains, size, Key.ofPosition, Key.root, Key.mk.injEq, ne_eq]
  constructor
  · rintro ⟨position, hposition, rfl⟩
    omega
  · rintro ⟨hroot, hindex⟩
    exact ⟨index - 1, by omega, by omega⟩

/-- A key has a superstate exactly if it is the key of a state. -/
theorem parent_isSome_iff {h : Hierarchy} {key : Key} : (h.parent key).isSome ↔ key ∈ h.states := by
  rw [mem_states]
  match key with
  | ⟨0⟩ => simp [parent, Key.root]
  | ⟨position + 1⟩ =>
    simp [parent, Contains, size, Key.root]

/-- A new state lies directly under the root, and no other state moves. -/
theorem parent_grow (h : Hierarchy) (key : Key) :
    h.grow.parent key = if key.index = h.size then some .root else h.parent key := by
  match key with
  | ⟨0⟩ => simp [parent, size]
  | ⟨position + 1⟩ =>
    simp only [parent, grow, size, Nat.add_right_cancel_iff]
    split
    · next heq => simp [heq]
    · next hne =>
      rcases Nat.lt_or_gt_of_ne hne with hlt | hgt
      · rw [List.getElem?_append_left hlt]
      · rw [List.getElem?_eq_none (by simp; omega), List.getElem?_eq_none (by omega)]

/-- Nesting moves the one state and no other. -/
theorem parent_nest (h : Hierarchy) (state superstate key : Key) (hstate : state ∈ h.states) :
    (h.nest state superstate).parent key = if key = state then some superstate else h.parent key := by
  rw [mem_states] at hstate
  match state, key with
  | ⟨0⟩, _ => exact absurd rfl hstate.1
  | ⟨_ + 1⟩, ⟨0⟩ => simp [parent]
  | ⟨p + 1⟩, ⟨q + 1⟩ =>
    have hp : p < h.superstates.length := by
      have := hstate.2
      simp only [Contains, size] at this
      omega
    simp only [parent, nest, List.getElem?_set, Key.mk.injEq, Nat.add_right_cancel_iff, hp, if_true]
    simp only [eq_comm]

/-! ### What lies on the way up -/

theorem climb_succ_of_none {h : Hierarchy} {key : Key} (hops : Nat) (hparent : h.parent key = none) :
    h.climb (hops + 1) key = [] := by
  simp [climb, hparent]

theorem climb_succ_of_some {h : Hierarchy} {key superstate : Key} (hops : Nat)
    (hparent : h.parent key = some superstate) :
    h.climb (hops + 1) key = superstate :: h.climb hops superstate := by
  simp [climb, hparent]

@[simp] theorem ancestors_root (h : Hierarchy) : h.ancestors .root = [] :=
  climb_succ_of_none _ rfl

@[simp] theorem chain_root (h : Hierarchy) : h.chain .root = [.root] := by
  simp [chain]

theorem mem_chain_self (h : Hierarchy) (key : Key) : key ∈ h.chain key := List.mem_cons_self

theorem mem_chain_iff {h : Hierarchy} {ancestor state : Key} :
    ancestor ∈ h.chain state ↔ ancestor = state ∨ h.IsAncestor ancestor state := List.mem_cons

/-- A path exists exactly to the state itself and to its ancestors. -/
theorem path_eq_ok_iff {h : Hierarchy} {state ancestor : Key} {path : List Key} :
    h.path state ancestor = .ok path ↔
      ancestor ∈ h.chain state ∧ path = (h.chain state).takeWhile (· ≠ ancestor) := by
  unfold Hierarchy.path
  split
  · next hmem => simp [hmem, eq_comm]
  · next hmem => simp [hmem]

theorem path_eq_error_iff {h : Hierarchy} {state ancestor : Key} {error : Unrelated} :
    h.path state ancestor = .error error ↔ ancestor ∉ h.chain state ∧ error = ⟨state, ancestor⟩ := by
  unfold Hierarchy.path
  split
  · next hmem => simp [hmem]
  · next hmem => simp [hmem, eq_comm]

end Hierarchy

end NestedMachine
