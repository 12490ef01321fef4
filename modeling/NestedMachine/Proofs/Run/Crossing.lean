import NestedMachine.Proofs.Run.Ensures

/-!
# Leaving and entering states

The states that a run leaves and enters are read off its trace as `crossings`, and `Hierarchy.replay` carries them out on a stack of active states, innermost first. It accepts nothing but leaving the innermost state and entering a direct substate of it, or a state at the top level while no state is active. `Machine.Account` says how things stand at some moment of a run: which stack the crossings have led to, that each of them called the callback that belongs to it and no other entry or exit callback was called, and which transitions have fired.
-/

namespace NestedMachine

variable {ι κ ν γ : Type}

inductive Crossing where
  | left (key : Key)
  | entered (key : Key)
deriving DecidableEq

def Crossing.key : Crossing → Key
  | left key => key
  | entered key => key

namespace Activity

def crossing? : Activity ι κ ν γ → Option Crossing
  | left key => some (.left key)
  | entered key => some (.entered key)
  | _ => none

def crossings (trace : List (Activity ι κ ν γ)) : List Crossing := trace.filterMap crossing?

/-- The calls of entry and exit callbacks in a trace, in order. -/
def crossingCalls (trace : List (Activity ι κ ν γ)) : List (Call ι κ ν γ) :=
  (trace.filterMap call?).filter fun call => call.role = .entry ∨ call.role = .exit

end Activity

/-- The callback that belongs to a crossing. None belongs to leaving a final state. -/
def Machine.crossingCall? (m : Machine ι κ ν γ) : Crossing → Option (Call ι κ ν γ)
  | .entered key => (m.state? key).map fun state => .entry state.id
  | .left key => (m.state? key).bind fun state => if state.isFinal then none else some (.exit state.id)

namespace Hierarchy

/-- Carries out one crossing on the active states, innermost first, if it may happen there. -/
def cross (h : Hierarchy) (stack : List Key) : Crossing → Option (List Key)
  | .left key => if stack.head? = some key then some stack.tail else none
  | .entered key => if h.parent key = some (stack.headD .root) then some (key :: stack) else none

/-- Carries out crossings, in turn. -/
def replay (h : Hierarchy) (stack : List Key) (crossings : List Crossing) : Option (List Key) :=
  crossings.foldlM h.cross stack

variable {h : Hierarchy} {stack stack' : List Key}

theorem replay_append (h : Hierarchy) (stack : List Key) (crossings more : List Crossing) :
    h.replay stack (crossings ++ more) = (h.replay stack crossings).bind (h.replay · more) := by
  rw [replay, List.foldlM_append]
  rfl

theorem replay_left (h : Hierarchy) (stack : List Key) (key : Key) :
    h.replay (key :: stack) [.left key] = some stack := by
  simp [replay, cross]

theorem replay_entered {key : Key} (hparent : h.parent key = some (stack.headD .root)) :
    h.replay stack [.entered key] = some (key :: stack) := by
  simp [replay, cross, hparent]

theorem root_not_mem_of_cross {crossing : Crossing} (hroot : .root ∉ stack)
    (hcross : h.cross stack crossing = some stack') : crossing.key ≠ .root ∧ .root ∉ stack' := by
  unfold cross at hcross
  split at hcross
  · next key =>
    split at hcross
    · next hhead =>
      obtain rfl := Option.some.inj hcross
      refine ⟨?_, fun hmem => hroot (List.mem_of_mem_tail hmem)⟩
      rintro rfl
      exact hroot (List.mem_of_head? hhead)
    · simp at hcross
  · next key =>
    split at hcross
    · next hparent =>
      obtain rfl := Option.some.inj hcross
      have hne : key ≠ .root := by
        rintro rfl
        simp at hparent
      exact ⟨hne, by simp [hroot, hne.symm]⟩
    · simp at hcross

theorem ne_root_of_replay {crossings : List Crossing} (hroot : .root ∉ stack)
    (hreplay : h.replay stack crossings = some stack') : ∀ crossing ∈ crossings, crossing.key ≠ .root := by
  induction crossings generalizing stack with
  | nil => simp
  | cons first rest ih =>
    rw [replay, List.foldlM_cons] at hreplay
    obtain ⟨middle, hfirst, hrest⟩ := Option.bind_eq_some_iff.1 hreplay
    obtain ⟨hne, hmiddle⟩ := root_not_mem_of_cross hroot hfirst
    intro crossing hcrossing
    rcases List.mem_cons.1 hcrossing with rfl | hcrossing
    · exact hne
    · exact ih hmiddle hrest crossing hcrossing

end Hierarchy

/-! ### How things stand -/

namespace Machine

/-- The crossings so far lead from `base` to `stack` and have called their callbacks, and `firings` have fired. -/
structure Account (m : Machine ι κ ν γ) (base stack : List Key) (firings : List (Firing ι))
    (now : Moment ι κ ν γ) : Prop where
  replay_eq : m.hierarchy.replay base (Activity.crossings now.past) = some stack
  calls_eq : Activity.crossingCalls now.past = (Activity.crossings now.past).filterMap m.crossingCall?
  firings_eq : now.past.filterMap Activity.firing? = firings

variable {m : Machine ι κ ν γ} {base stack stack' : List Key} {firings : List (Firing ι)} {now : Moment ι κ ν γ}

theorem account_nil (m : Machine ι κ ν γ) (base : List Key) (context : γ) : m.Account base base [] ⟨context, []⟩ :=
  ⟨rfl, rfl, rfl⟩

theorem Account.append (hnow : m.Account base stack firings now) (more : List (Activity ι κ ν γ))
    (hreplay : m.hierarchy.replay stack (Activity.crossings more) = some stack')
    (hcalls : Activity.crossingCalls more = (Activity.crossings more).filterMap m.crossingCall?)
    (hfirings : more.filterMap Activity.firing? = []) (context : γ) :
    m.Account base stack' firings ⟨context, now.past ++ more⟩ where
  replay_eq := by
    rw [Activity.crossings, List.filterMap_append, Hierarchy.replay_append]
    exact Option.bind_eq_some_iff.2 ⟨stack, hnow.replay_eq, hreplay⟩
  calls_eq := by
    have hpast := hnow.calls_eq
    simp only [Activity.crossings, Activity.crossingCalls, List.filterMap_append, List.filter_append] at hpast hcalls ⊢
    rw [hpast, hcalls]
  firings_eq := by rw [List.filterMap_append, hnow.firings_eq, hfirings, List.append_nil]

theorem Account.called (hnow : m.Account base stack firings now) {call : Call ι κ ν γ}
    (hcall : call.role ≠ .entry ∧ call.role ≠ .exit) (context : γ) :
    m.Account base stack firings ⟨context, now.past ++ [.called call]⟩ := by
  have hcalls : Activity.crossingCalls [.called call] = [] := by
    simp [Activity.crossingCalls, Activity.call?, hcall]
  exact hnow.append _ rfl hcalls rfl context

theorem Account.chose (hnow : m.Account base stack firings now) (t : Transition ι κ ν γ)
    (signal : Option (Signal ι κ ν)) (context : γ) :
    m.Account base stack firings ⟨context, now.past ++ [.chose t signal]⟩ :=
  hnow.append [.chose t signal] rfl rfl rfl context

theorem Account.fired (hnow : m.Account base stack firings now) (firing : Firing ι) (context : γ) :
    m.Account base stack (firings ++ [firing]) ⟨context, now.past ++ [.fired firing]⟩ where
  replay_eq := by
    simpa [Activity.crossings, List.filterMap_cons, Activity.crossing?] using hnow.replay_eq
  calls_eq := by
    simpa [Activity.crossings, Activity.crossingCalls, List.filterMap_cons, Activity.crossing?, Activity.call?]
      using hnow.calls_eq
  firings_eq := by simp [hnow.firings_eq, Activity.firing?]

end Machine

end NestedMachine
