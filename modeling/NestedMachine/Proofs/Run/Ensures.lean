import NestedMachine.Run.Process

/-!
# What a run is sure to end in

`Run.Ensures` speaks of the moment in which a run ends: the context then, and all that has been done by then. An answer and an error are held to conditions of their own. There is one rule for each way in which runs are put together, so that an argument about a run follows its text. `Run.Keeps` is for the parts of a run that do not matter to a condition.
-/

namespace NestedMachine

variable {ι κ ν γ α β : Type}

/-- A moment of a run: the caller's context, and all that has been done so far, oldest first. -/
structure Moment (ι κ ν γ : Type) where
  context : γ
  past : List (Activity ι κ ν γ)

namespace Run

/-- The run, begun at this moment, ends in an answer and a moment that satisfy `done`, or in an error and a moment that satisfy `failed`. -/
def Ensures (run : Run ι κ ν γ α) (now : Moment ι κ ν γ) (done : α → Moment ι κ ν γ → Prop)
    (failed : RunError ι → Moment ι κ ν γ → Prop) : Prop :=
  match run now.context with
  | ⟨.ok answer, context, trace⟩ => done answer ⟨context, now.past ++ trace⟩
  | ⟨.error error, context, trace⟩ => failed error ⟨context, now.past ++ trace⟩

/-- A condition that holds before the run holds after it, unless the run fails as `failed` says. -/
def Keeps (run : Run ι κ ν γ α) (P : Moment ι κ ν γ → Prop) (failed : RunError ι → Moment ι κ ν γ → Prop) : Prop :=
  ∀ now, P now → run.Ensures now (fun _ => P) failed

variable {run : Run ι κ ν γ α} {next : α → Run ι κ ν γ β} {now : Moment ι κ ν γ}
  {done done' : α → Moment ι κ ν γ → Prop} {failed failed' : RunError ι → Moment ι κ ν γ → Prop}

/-! ### Reading a statement off -/

theorem Ensures.of_ok (hrun : run.Ensures now done failed) {answer : α}
    (hresult : (run now.context).result = .ok answer) :
    done answer ⟨(run now.context).context, now.past ++ (run now.context).trace⟩ := by
  unfold Ensures at hrun
  generalize run now.context = outcome at *
  obtain ⟨result, context, trace⟩ := outcome
  obtain rfl : result = .ok answer := hresult
  exact hrun

theorem Ensures.of_error (hrun : run.Ensures now done failed) {error : RunError ι}
    (hresult : (run now.context).result = .error error) :
    failed error ⟨(run now.context).context, now.past ++ (run now.context).trace⟩ := by
  unfold Ensures at hrun
  generalize run now.context = outcome at *
  obtain ⟨result, context, trace⟩ := outcome
  obtain rfl : result = .error error := hresult
  exact hrun

theorem Ensures.always {P : Moment ι κ ν γ → Prop} (hrun : run.Ensures now (fun _ => P) fun _ => P) :
    P ⟨(run now.context).context, now.past ++ (run now.context).trace⟩ := by
  cases hresult : (run now.context).result with
  | ok answer => exact hrun.of_ok hresult
  | error error => exact hrun.of_error hresult

theorem Ensures.congr {run' : Run ι κ ν γ α} (hrun : run.Ensures now done failed)
    (heq : run' now.context = run now.context) : run'.Ensures now done failed := by
  rwa [Ensures, heq]

theorem Ensures.mono (hrun : run.Ensures now done failed) (hdone : ∀ answer now, done answer now → done' answer now)
    (hfailed : ∀ error now, failed error now → failed' error now) : run.Ensures now done' failed' := by
  unfold Ensures at hrun ⊢
  split
  · next heq => exact hdone _ _ (by rwa [heq] at hrun)
  · next heq => exact hfailed _ _ (by rwa [heq] at hrun)

theorem Ensures.mono_done (hrun : run.Ensures now done failed)
    (hdone : ∀ answer now, done answer now → done' answer now) : run.Ensures now done' failed :=
  hrun.mono hdone fun _ _ => id

theorem Ensures.mono_failed (hrun : run.Ensures now done failed)
    (hfailed : ∀ error now, failed error now → failed' error now) : run.Ensures now done failed' :=
  hrun.mono (fun _ _ => id) hfailed

theorem Ensures.and (hrun : run.Ensures now done failed) (hrun' : run.Ensures now done' failed') :
    run.Ensures now (fun answer now => done answer now ∧ done' answer now)
      (fun error now => failed error now ∧ failed' error now) := by
  unfold Ensures at hrun hrun' ⊢
  split
  · next heq =>
    rw [heq] at hrun hrun'
    exact ⟨hrun, hrun'⟩
  · next heq =>
    rw [heq] at hrun hrun'
    exact ⟨hrun, hrun'⟩

theorem Ensures.and_result (hrun : run.Ensures now done failed) :
    run.Ensures now (fun answer after => (run now.context).result = .ok answer ∧ done answer after)
      (fun error after => (run now.context).result = .error error ∧ failed error after) := by
  unfold Ensures at hrun ⊢
  split
  · next heq =>
    rw [heq] at hrun
    exact ⟨congrArg Outcome.result heq, hrun⟩
  · next heq =>
    rw [heq] at hrun
    exact ⟨congrArg Outcome.result heq, hrun⟩

/-! ### One rule for each way of putting runs together -/

theorem ensures_pure {answer : α} (hdone : done answer now) :
    (pure answer : Run ι κ ν γ α).Ensures now done failed := by
  show done answer ⟨now.context, now.past ++ []⟩
  rwa [List.append_nil]

theorem ensures_fail {error : RunError ι} (hfailed : failed error now) :
    (fail error : Run ι κ ν γ α).Ensures now done failed := by
  show failed error ⟨now.context, now.past ++ []⟩
  rwa [List.append_nil]

theorem ensures_bind {done : β → Moment ι κ ν γ → Prop}
    (hrun : run.Ensures now (fun answer now => (next answer).Ensures now done failed) failed) :
    (run >>= next).Ensures now done failed := by
  unfold Ensures at hrun ⊢
  match heq : run now.context with
  | ⟨.error error, context, trace⟩ =>
    rw [bind_apply_of_error heq]
    rwa [heq] at hrun
  | ⟨.ok answer, context, trace⟩ =>
    rw [bind_apply_of_ok heq]
    rw [heq] at hrun
    match hnext : next answer context with
    | ⟨.ok _, _, _⟩ => simpa [hnext, List.append_assoc] using hrun
    | ⟨.error _, _, _⟩ => simpa [hnext, List.append_assoc] using hrun

/-- What is known of the first run is all that the second has to go by. -/
theorem Ensures.bind {middle : α → Moment ι κ ν γ → Prop} {done : β → Moment ι κ ν γ → Prop}
    (hrun : run.Ensures now middle failed)
    (hnext : ∀ answer now, middle answer now → (next answer).Ensures now done failed) :
    (run >>= next).Ensures now done failed :=
  ensures_bind (hrun.mono_done hnext)

theorem ensures_note {activity : Activity ι κ ν γ} {done : Unit → Moment ι κ ν γ → Prop}
    (hdone : done () ⟨now.context, now.past ++ [activity]⟩) : (note activity).Ensures now done failed := hdone

theorem ensures_invoke {call : Call ι κ ν γ} {callback : Callback ι γ α}
    (hdone : ∀ answer context, callback.call now.context = (.ok answer, context) →
      done answer ⟨context, now.past ++ [.called call]⟩)
    (hfailed : ∀ fault context, callback.call now.context = (.error fault, context) →
      failed (.failed call.role call.place fault) ⟨context, now.past ++ [.called call]⟩) :
    (invoke call callback).Ensures now done failed := by
  unfold Ensures invoke
  match heq : callback.call now.context with
  | (.ok answer, context) => exact hdone answer context heq
  | (.error fault, context) => exact hfailed fault context heq

theorem ensures_ofPath {path : Except Unrelated α} (hdone : ∀ answer, path = .ok answer → done answer now)
    (hfailed : ∀ states, path = .error states → failed (.unrelated states) now) :
    (ofPath path : Run ι κ ν γ α).Ensures now done failed := by
  cases path with
  | ok answer => exact ensures_pure (hdone answer rfl)
  | error states => exact ensures_fail (hfailed states rfl)

theorem ensures_lookup {m : Machine ι κ ν γ} {key : Key} {done : State ι κ ν γ → Moment ι κ ν γ → Prop}
    (hdone : ∀ state, m.state? key = some state → done state now)
    (hfailed : m.state? key = none → failed (.danglingKey key) now) : (m.lookup key).Ensures now done failed := by
  unfold Machine.lookup
  cases hstate : m.state? key with
  | none => exact ensures_fail (hfailed hstate)
  | some state => exact ensures_pure (hdone state hstate)

/-! ### Parts that do not matter -/

section keeps

variable {P : Moment ι κ ν γ → Prop}

theorem keeps_pure (answer : α) : (pure answer : Run ι κ ν γ α).Keeps P failed := fun _ hnow => ensures_pure hnow

theorem Keeps.bind (hrun : run.Keeps P failed) (hnext : ∀ answer, (next answer).Keeps P failed) :
    (run >>= next).Keeps P failed := by
  intro now hnow
  apply (hrun now hnow).bind
  intro answer now hnow
  exact hnext answer now hnow

theorem keeps_lookup {m : Machine ι κ ν γ} {key : Key} (hfailed : ∀ now, P now → failed (.danglingKey key) now) :
    (m.lookup key).Keeps P failed :=
  fun now hnow => ensures_lookup (fun _ _ => hnow) (fun _ => hfailed now hnow)

theorem keeps_invoke {call : Call ι κ ν γ} {callback : Callback ι γ α}
    (hcall : ∀ now, P now → ∀ context, P ⟨context, now.past ++ [.called call]⟩)
    (hfailed : ∀ fault now, P now → failed (.failed call.role call.place fault) now) :
    (invoke call callback).Keeps P failed :=
  fun now hnow => ensures_invoke (fun _ context _ => hcall now hnow context)
    (fun fault context _ => hfailed fault _ (hcall now hnow context))

end keeps

end Run

end NestedMachine
