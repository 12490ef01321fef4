import NestedMachine.Machine
import NestedMachine.Run.Activity

/-!
# Runs and their outcomes

A `Run` is a computation on the caller's context that may fail and that tells what it does. Its outcome keeps the context and the trace also where it failed: nothing is undone.
-/

namespace NestedMachine

variable {ι κ ν γ α β : Type}

/-- Why a run failed. -/
inductive RunError (ι : Type) where
  /-- The caller named a state that the machine does not have. -/
  | unknownState (id : ι)
  /-- A key of the machine leads to no state. -/
  | danglingKey (key : Key)
  /-- One event has fired as many transitions as it may. The machine rests in this state. -/
  | limitReached (limit : Nat) (state : ι)
  /-- A callback failed. -/
  | failed (role : Role) (place : Place ι) (fault : Fault ι)
  /-- A transition leads from or to a state outside the common ancestor of its ends. -/
  | unrelated (states : Unrelated)
deriving DecidableEq

/-- The text of a run error. -/
def RunError.message [ToString ι] : RunError ι → String
  | .unknownState id => s!"Unknown state {id}"
  | .danglingKey key => s!"Unknown state {key}"
  | .limitReached limit state => s!"Transition limit of {limit} per event reached in state {state}"
  | .failed role place fault => s!"{role} failed at {place}: {fault.message}"
  | .unrelated states => toString states

/-- How a run ended, what it left behind in the context, and what it did. -/
structure Outcome (ι κ ν γ α : Type) where
  result : Except (RunError ι) α
  context : γ
  trace : List (Activity ι κ ν γ)

namespace Outcome

/-- The calls of callbacks, oldest first. -/
def calls (o : Outcome ι κ ν γ α) : List (Call ι κ ν γ) := o.trace.filterMap Activity.call?

/-- The transitions that have fired, oldest first. -/
def firings (o : Outcome ι κ ν γ α) : List (Firing ι) := o.trace.filterMap Activity.firing?

end Outcome

/-- A computation on the caller's context that tells what it does. -/
def Run (ι κ ν γ α : Type) : Type := γ → Outcome ι κ ν γ α

namespace Run

/-- Ends at once with an answer. -/
protected def pure (answer : α) : Run ι κ ν γ α := fun context => ⟨.ok answer, context, []⟩

/-- One run after another. A failure of the first is the failure of both. -/
protected def bind (run : Run ι κ ν γ α) (next : α → Run ι κ ν γ β) : Run ι κ ν γ β := fun context =>
  match run context with
  | ⟨.ok answer, context, trace⟩ =>
    let rest := next answer context
    ⟨rest.result, rest.context, trace ++ rest.trace⟩
  | ⟨.error error, context, trace⟩ => ⟨.error error, context, trace⟩

instance : Monad (Run ι κ ν γ) where
  pure := Run.pure
  bind := Run.bind

/-- Fails without doing anything. -/
def fail (error : RunError ι) : Run ι κ ν γ α := fun context => ⟨.error error, context, []⟩

/-- Tells of one activity. -/
def note (activity : Activity ι κ ν γ) : Run ι κ ν γ Unit := fun context =>
  ⟨.ok (), context, [activity]⟩

/-- Calls a callback. If it fails, the error says which callback it was, and keeps its fault as it is. -/
def invoke (call : Call ι κ ν γ) (callback : Callback ι γ α) : Run ι κ ν γ α := fun context =>
  match callback.call context with
  | (.ok answer, context) => ⟨.ok answer, context, [.called call]⟩
  | (.error fault, context) => ⟨.error (.failed call.role call.place fault), context, [.called call]⟩

/-- The answer of a computation on keys, if it has one. -/
def ofPath : Except Unrelated α → Run ι κ ν γ α
  | .ok answer => Run.pure answer
  | .error states => fail (.unrelated states)

/-! ### What the parts of a run do -/

theorem pure_apply (answer : α) (context : γ) :
    (pure answer : Run ι κ ν γ α) context = ⟨.ok answer, context, []⟩ := rfl

theorem fail_apply (error : RunError ι) (context : γ) :
    (fail error : Run ι κ ν γ α) context = ⟨.error error, context, []⟩ := rfl

theorem note_apply (activity : Activity ι κ ν γ) (context : γ) :
    note activity context = ⟨.ok (), context, [activity]⟩ := rfl

theorem invoke_of_ok {call : Call ι κ ν γ} {callback : Callback ι γ α} {context context' : γ} {answer : α}
    (hcall : callback.call context = (.ok answer, context')) :
    invoke call callback context = ⟨.ok answer, context', [.called call]⟩ := by
  simp only [invoke, hcall]

theorem invoke_of_error {call : Call ι κ ν γ} {callback : Callback ι γ α} {context context' : γ} {fault : Fault ι}
    (hcall : callback.call context = (.error fault, context')) :
    invoke call callback context = ⟨.error (.failed call.role call.place fault), context', [.called call]⟩ := by
  simp only [invoke, hcall]

theorem bind_apply_of_ok {run : Run ι κ ν γ α} {next : α → Run ι κ ν γ β} {context context' : γ} {answer : α}
    {trace : List (Activity ι κ ν γ)} (hrun : run context = ⟨.ok answer, context', trace⟩) :
    (run >>= next) context =
      ⟨(next answer context').result, (next answer context').context, trace ++ (next answer context').trace⟩ := by
  change Run.bind run next context = _
  simp only [Run.bind, hrun]

theorem bind_apply_of_error {run : Run ι κ ν γ α} {next : α → Run ι κ ν γ β} {context context' : γ}
    {error : RunError ι} {trace : List (Activity ι κ ν γ)} (hrun : run context = ⟨.error error, context', trace⟩) :
    (run >>= next) context = ⟨.error error, context', trace⟩ := by
  change Run.bind run next context = _
  simp only [Run.bind, hrun]

private theorem bind_pure_eq (run : Run ι κ ν γ α) : Run.bind run Run.pure = run := by
  funext context
  unfold Run.bind
  split <;> simp_all [Run.pure]

private theorem bind_bind_eq {δ : Type} (run : Run ι κ ν γ α) (next : α → Run ι κ ν γ β)
    (last : β → Run ι κ ν γ δ) :
    Run.bind (Run.bind run next) last = Run.bind run fun answer => Run.bind (next answer) last := by
  funext context
  simp only [Run.bind]
  match run context with
  | ⟨.error _, _, _⟩ => rfl
  | ⟨.ok answer, context', _⟩ =>
    match hnext : next answer context' with
    | ⟨.error _, _, _⟩ => simp [hnext]
    | ⟨.ok _, _, _⟩ => simp [hnext, List.append_assoc]

/-- A run is undisturbed by an empty one before or after it, and may be taken apart anywhere. -/
instance : LawfulMonad (Run ι κ ν γ) :=
  LawfulMonad.mk' (Run ι κ ν γ) bind_pure_eq (fun _ _ => rfl) bind_bind_eq

end Run

/-- The state with this key. -/
def Machine.lookup (m : Machine ι κ ν γ) (key : Key) : Run ι κ ν γ (State ι κ ν γ) :=
  match m.state? key with
  | some state => pure state
  | none => Run.fail (.danglingKey key)

theorem Machine.lookup_of_state? {m : Machine ι κ ν γ} {key : Key} {state : State ι κ ν γ}
    (hstate : m.state? key = some state) : m.lookup key = pure state := by
  rw [lookup, hstate]

end NestedMachine
