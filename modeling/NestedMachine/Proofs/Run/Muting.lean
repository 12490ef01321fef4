import NestedMachine.Proofs.Run.Ambiguity
import NestedMachine.Proofs.Run.Stability

/-!
# What the event callbacks have no part in

An event is offered to states in the first step of a run, and nothing is offered to a callback after that: a step that is taken for what is owed only selects and fires (`step_completion`). So a machine whose states pass on whatever they are offered selects and fires in the same way, and goes on in the same way from there (`proceed_muted`).
-/

namespace NestedMachine

variable {ι κ ν γ : Type}

/-- The state without its event callback: it passes on whatever it is offered. -/
def State.muted (state : State ι κ ν γ) : State ι κ ν γ :=
  { state with behavior := { state.behavior with onEvent := fun _ => pure false } }

theorem State.id_eq_of_muted {state state' : State ι κ ν γ} (hmuted : state'.muted = state.muted) :
    state'.id = state.id := by
  have hid : state'.muted.id = state.muted.id := by rw [hmuted]
  exact hid

theorem State.isFinal_eq_of_muted {state state' : State ι κ ν γ} (hmuted : state'.muted = state.muted) :
    state'.isFinal = state.isFinal := by
  have hfinal : state'.muted.isFinal = state.muted.isFinal := by rw [hmuted]
  exact hfinal

namespace Machine

def muted (m : Machine ι κ ν γ) : Machine ι κ ν γ := { m with states := m.states.map State.muted }

variable (m : Machine ι κ ν γ)

/-! ### States -/

theorem ids_muted : m.muted.ids = m.ids := by
  rw [ids, muted, List.map_map]
  rfl

theorem key?_muted [DecidableEq ι] : m.muted.key? = m.key? := by
  funext id
  rw [key?, key?, ids_muted]

theorem state?_muted (key : Key) : m.muted.state? key = (m.state? key).map State.muted := by
  rcases key.eq_root_or_ofPosition with rfl | ⟨position, rfl⟩
  · rfl
  · rw [state?_ofPosition, state?_ofPosition, muted, List.getElem?_map]

theorem lookup_muted (key : Key) : m.muted.lookup key = State.muted <$> m.lookup key := by
  rw [lookup, lookup, state?_muted]
  cases m.state? key with
  | none => rfl
  | some state => rfl

theorem completion_muted (key : Key) : m.muted.completion key = m.completion key := by
  rw [completion, completion, state?_muted]
  cases m.state? key with
  | none => rfl
  | some state => rfl

/-! ### Firing -/

theorem leave_muted : m.muted.leave = m.leave := by
  funext key
  rw [leave, leave, lookup_muted, bind_map_left]
  rfl

theorem enter_muted : m.muted.enter = m.enter := by
  funext key
  rw [enter, enter, lookup_muted, bind_map_left]
  rfl

theorem fire_muted : m.muted.fire = m.fire := by
  have hdefaults : m.muted.defaults = m.defaults := defaults_congr rfl rfl
  have hdefault : m.muted.enterDefault = m.enterDefault := by
    funext t
    rw [enterDefault, enterDefault, enter_muted]
  funext active t signal
  simp only [fire, enterDefaults, restingKey, hdefaults, hdefault, leave_muted, enter_muted]
  rfl

theorem conclude_muted (count : Nat) (origin : State ι κ ν γ) :
    m.muted.conclude count origin.muted = m.conclude count origin := by
  funext key signal chosen
  cases chosen with
  | none => rfl
  | some t =>
    simp only [conclude, fire_muted, lookup_muted, bind_map_left]
    rfl

/-! ### The loop -/

variable [DecidableEq κ]

theorem select_muted : m.muted.select = m.select := rfl

theorem step_completion (count : Nat) (key : Key) : m.step count key (m.completion key) = (do
    let origin ← m.lookup key
    let chosen ← m.select origin.id key (m.completion key)
    m.conclude count origin key (m.completion key) chosen) := by
  have hstep : m.step count key (m.completion key) = (do
      let origin ← m.lookup key
      (m.completion key).forM fun told => m.offer told (m.hierarchy.activeChain key)
      let chosen ← m.select origin.id key (m.completion key)
      m.conclude count origin key (m.completion key) chosen) := rfl
  rw [hstep, lookup]
  cases hstate : m.state? key with
  | none => rfl
  | some origin => rw [pure_bind, pure_bind, offer_completion hstate, pure_bind]

theorem step_muted (count : Nat) (key : Key) :
    m.muted.step count key (m.muted.completion key) = m.step count key (m.completion key) := by
  rw [step_completion, step_completion, lookup_muted, bind_map_left]
  simp only [completion_muted, select_muted, conclude_muted]
  rfl

/-- **Once the event has been offered, a machine goes on as it would without event callbacks.** -/
theorem proceed_muted (budget count : Nat) (key : Key) :
    m.muted.proceed budget count key (m.muted.completion key) = m.proceed budget count key (m.completion key) := by
  induction budget generalizing count key with
  | zero =>
    simp only [proceed, lookup_muted, bind_map_left]
    rfl
  | succ budget ih =>
    simp only [proceed, step_muted, lookup_muted, bind_map_left]
    congr 1
    funext fired
    cases fired with
    | none => rfl
    | some settled => exact ih (count + 1) settled

end Machine

end NestedMachine
