import NestedMachine.Run.Outcome

/-!
# Firing a transition

Which states a transition leaves and enters depends on the nesting alone, not on the context, so it is computed first, as a `Route`. Firing then walks the route: the exits innermost first, the action, the entries outermost first, and last the default substates of the target.
-/

namespace NestedMachine

variable {ι κ ν γ : Type}

/-- The states that a transition leaves and those that it enters, both in order. -/
structure Route where
  exits : List Key
  entries : List Key
deriving DecidableEq

/-- The route of a transition from `source` to `target` while the machine rests in `active`. Everything strictly below the common ancestor of the ends is left and entered; an external transition with that ancestor as one of its ends leaves and enters it too. -/
def Hierarchy.route (h : Hierarchy) (active source target : Key) (kind : Kind) :
    Except Unrelated Route := do
  let common := h.meet source target
  let up ← h.path active common
  let down ← h.path target common
  if kind = .external ∧ (source = common ∨ target = common) then
    return ⟨up ++ [common], common :: down.reverse⟩
  else
    return ⟨up, down.reverse⟩

namespace Machine

/-- The first `hops` initial transitions on the way down from `key`. -/
def descend (m : Machine ι κ ν γ) : (hops : Nat) → Key → List (Transition ι κ ν γ)
  | 0, _ => []
  | hops + 1, key =>
    match m.table.initialOf key with
    | none => []
    | some t => t :: m.descend hops t.targetKey

/-- The initial transitions that lead from `key` down to a state without one. Each leads one level down, so there are fewer of them than keys. -/
def defaults (m : Machine ι κ ν γ) (key : Key) : List (Transition ι κ ν γ) :=
  m.descend m.hierarchy.size key

/-- The state in which the machine comes to rest once it has entered `key`. -/
def restingKey (m : Machine ι κ ν γ) (key : Key) : Key :=
  ((m.defaults key).getLast?.map Transition.targetKey).getD key

/-- Leaves a state. The exit callback of a final state is not called. -/
def leave (m : Machine ι κ ν γ) (key : Key) : Run ι κ ν γ Unit := do
  let state ← m.lookup key
  Run.note (.left key)
  if state.isFinal then
    return
  Run.invoke (.exit state.id) state.behavior.onExit

/-- Enters a state. -/
def enter (m : Machine ι κ ν γ) (key : Key) : Run ι κ ν γ Unit := do
  let state ← m.lookup key
  Run.note (.entered key)
  Run.invoke (.entry state.id) state.behavior.onEntry

/-- Runs the action of an ordinary transition. -/
def act (t : Transition ι κ ν γ) (signal : Option (Signal ι κ ν)) : Run ι κ ν γ Unit :=
  match t.action with
  | none => pure ()
  | some action => Run.invoke (.action t signal) (action signal)

/-- Runs the action of an initial transition, which sees no signal. -/
def actInitial (t : Transition ι κ ν γ) : Run ι κ ν γ Unit :=
  match t.action with
  | none => pure ()
  | some action => Run.invoke (.initialAction t) (action none)

/-- Follows one initial transition. -/
def enterDefault (m : Machine ι κ ν γ) (t : Transition ι κ ν γ) : Run ι κ ν γ Unit := do
  actInitial t
  m.enter t.targetKey

/-- Enters the default substates of `key`, and answers where that ends. -/
def enterDefaults (m : Machine ι κ ν γ) (key : Key) : Run ι κ ν γ Key := do
  (m.defaults key).forM m.enterDefault
  return m.restingKey key

/-- Fires a transition while the machine rests in `active`, and answers where it rests afterwards. -/
def fire (m : Machine ι κ ν γ) (active : Key) (t : Transition ι κ ν γ)
    (signal : Option (Signal ι κ ν)) : Run ι κ ν γ Key := do
  let route ← Run.ofPath (m.hierarchy.route active t.sourceKey t.targetKey t.kind)
  route.exits.forM m.leave
  act t signal
  route.entries.forM m.enter
  m.enterDefaults t.targetKey

end Machine

end NestedMachine
