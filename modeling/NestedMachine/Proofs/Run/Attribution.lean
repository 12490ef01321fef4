import NestedMachine.Proofs.Machine.Renumbering
import NestedMachine.Proofs.Run.Bound
import NestedMachine.Proofs.Run.Failure

/-!
# What a run blames

The calls that a run has made can be made again, one after another and without the machine (`replay`). As long as no call fails, that leads to the context of the run (`Sound`). The first call that fails is the last one that is made, and it is what the error of the run is about (`Blames.callback`); every other error comes where no call has failed (`Blames.machine`). All parts of a run keep to this, because what they call is what the machine has for that call (`sound_invoke`). So the error of a run can be read off its calls, and so can whether there is one (`FailStop`).

Which state a call is about shows in the call. Only for a resolver it has to be said that it is the one in which the machine rests at that moment (`resolvesAtRest_process`).
-/

namespace NestedMachine

variable {ι κ ν γ α : Type}

/-- What a callback does, whatever it answers: the fault with which it fails, if it does, and the context that it leaves behind. -/
def Callback.effect (callback : Callback ι γ α) (context : γ) : Option (Fault ι) × γ :=
  match callback.call context with
  | (.ok _, context) => (none, context)
  | (.error fault, context) => (some fault, context)

theorem Callback.effect_of_ok {callback : Callback ι γ α} {context after : γ} {answer : α}
    (hcall : callback.call context = (.ok answer, after)) : callback.effect context = (none, after) := by
  rw [effect, hcall]

theorem Callback.effect_of_error {callback : Callback ι γ α} {context after : γ} {fault : Fault ι}
    (hcall : callback.call context = (.error fault, after)) : callback.effect context = (some fault, after) := by
  rw [effect, hcall]

/-- How a message says where a callback belongs: by the state for which it is called, or by the ends of its transition. -/
def Call.location [ToString ι] : Call ι κ ν γ → String
  | .entry id | .exit id | .event id _ | .resolver id _ _ => toString id
  | .guard t _ | .action t _ | .initialAction t =>
    match t.source with
    | some source => toString source ++ " -> " ++ toString t.target
    | none => "<root> -> " ++ toString t.target

theorem Call.toString_place [ToString ι] (call : Call ι κ ν γ) : toString call.place = call.location := by
  have hedge : ∀ t : Transition ι κ ν γ, toString (Place.transition t.edge) =
      match t.source with
      | some source => toString source ++ " -> " ++ toString t.target
      | none => "<root> -> " ++ toString t.target := by
    intro t
    show nameOrRoot t.source ++ " -> " ++ toString t.target = _
    cases t.source with
    | none => rfl
    | some source => rfl
  cases call with
  | guard t _ => exact hedge t
  | action t _ => exact hedge t
  | initialAction t => exact hedge t
  | _ => rfl

theorem Activity.calls_concat (past : List (Activity ι κ ν γ)) (call : Call ι κ ν γ) :
    (past ++ [Activity.called call]).filterMap Activity.call? = past.filterMap Activity.call? ++ [call] :=
  filterMap_concat _ _ _

namespace Machine

variable [DecidableEq ι] {m : Machine ι κ ν γ} {context : γ} {key : Key} {t : Transition ι κ ν γ}
variable {signal : Option (Signal ι κ ν)} {now : Moment ι κ ν γ} {call : Call ι κ ν γ} {o : Outcome ι κ ν γ ι}

/-! ### Calls made again -/

/-- What the machine has for a call. The callbacks of a state are found by its name, and those of a transition come with it. -/
def effect? (m : Machine ι κ ν γ) : Call ι κ ν γ → Option (γ → Option (Fault ι) × γ)
  | .entry id => (m.behavior? id).map fun behavior => behavior.onEntry.effect
  | .exit id => (m.behavior? id).map fun behavior => behavior.onExit.effect
  | .event id signal => (m.behavior? id).map fun behavior => (behavior.onEvent signal).effect
  | .guard t signal => t.guard.map fun guard => (guard signal).effect
  | .action t signal => t.action.map fun action => (action signal).effect
  | .initialAction t => t.action.map fun action => (action none).effect
  | .resolver id signal candidates => some (m.resolver id signal candidates).effect

/-- A call that is about a transition is about one of the machine, and one of the right kind. A resolver may bring in another one if it answers something else than a candidate. -/
def Owns (m : Machine ι κ ν γ) : Call ι κ ν γ → Prop
  | .guard t _ => t ∈ m.table.all ∧ t.kind ≠ .initial
  | .action t _ => m.resolver.Faithful → t ∈ m.table.all ∧ t.kind ≠ .initial
  | .initialAction t => t ∈ m.table.all ∧ t.kind = .initial
  | .entry _ | .exit _ | .event _ _ | .resolver _ _ _ => True

/-- Makes a call. If the machine has nothing for it, nothing is done. -/
def perform (m : Machine ι κ ν γ) (call : Call ι κ ν γ) (context : γ) : Option (Fault ι) × γ :=
  match m.effect? call with
  | some effect => effect context
  | none => (none, context)

/-- Makes calls one after another, whether or not they fail: the faults that come up, and the context that is left behind. -/
def replay (m : Machine ι κ ν γ) (context : γ) : List (Call ι κ ν γ) → List (Fault ι) × γ
  | [] => ([], context)
  | call :: rest =>
    let (fault?, context) := m.perform call context
    let (faults, context) := m.replay context rest
    (fault?.toList ++ faults, context)

theorem replay_append (m : Machine ι κ ν γ) (context : γ) (calls more : List (Call ι κ ν γ)) :
    m.replay context (calls ++ more) =
      ((m.replay context calls).1 ++ (m.replay (m.replay context calls).2 more).1,
        (m.replay (m.replay context calls).2 more).2) := by
  induction calls generalizing context with
  | nil => rfl
  | cons call rest ih => simp only [List.cons_append, replay, ih, List.append_assoc]

theorem replay_concat (m : Machine ι κ ν γ) (context : γ) (calls : List (Call ι κ ν γ)) (call : Call ι κ ν γ) :
    m.replay context (calls ++ [call]) =
      ((m.replay context calls).1 ++ (m.perform call (m.replay context calls).2).1.toList,
        (m.perform call (m.replay context calls).2).2) := by
  rw [replay_append]
  simp only [replay, List.append_nil]

/-! ### How things stand -/

/-- The machine has something for every call so far, and when they are made again no fault comes up and the context becomes what it is now. -/
structure Sound (m : Machine ι κ ν γ) (context : γ) (now : Moment ι κ ν γ) : Prop where
  knows : ∀ call ∈ now.past.filterMap Activity.call?, (m.effect? call).isSome ∧ m.Owns call
  replay_eq : m.replay context (now.past.filterMap Activity.call?) = ([], now.context)

/-- How things stand once a run has failed. -/
inductive Blames (m : Machine ι κ ν γ) (context : γ) : RunError ι → Moment ι κ ν γ → Prop where
  /-- No call has failed, and the error does not say that one has. -/
  | machine {error : RunError ι} {now : Moment ι κ ν γ} (hnow : m.Sound context now)
      (herror : ∀ role place fault, error ≠ .failed role place fault) : Blames m context error now
  /-- The last call has failed and none before it. The error says so and keeps the fault. -/
  | callback {now : Moment ι κ ν γ} {call : Call ι κ ν γ} {fault : Fault ι} {after : γ} (hnow : m.Sound context now)
      (hknows : (m.effect? call).isSome ∧ m.Owns call) (hfails : m.perform call now.context = (some fault, after)) :
      Blames m context (.failed call.role call.place fault) ⟨after, now.past ++ [.called call]⟩

theorem sound_nil (m : Machine ι κ ν γ) (context : γ) : m.Sound context ⟨context, []⟩ := ⟨by simp, rfl⟩

namespace Sound

variable (hnow : m.Sound context now)
include hnow

theorem knows_concat (hknows : (m.effect? call).isSome ∧ m.Owns call) :
    ∀ other ∈ (now.past ++ [Activity.called call]).filterMap Activity.call?, (m.effect? other).isSome ∧ m.Owns other := by
  rw [Activity.calls_concat]
  intro other hother
  rcases List.mem_append.1 hother with hother | hother
  · exact hnow.knows other hother
  · rw [List.mem_singleton.1 hother]
    exact hknows

theorem replay_calls (call : Call ι κ ν γ) : m.replay context ((now.past ++ [Activity.called call]).filterMap Activity.call?) =
    ((m.perform call now.context).1.toList, (m.perform call now.context).2) := by
  rw [Activity.calls_concat, replay_concat, hnow.replay_eq]
  rfl

theorem perform_eq_none {past rest : List (Call ι κ ν γ)}
    (hcalls : now.past.filterMap Activity.call? = past ++ call :: rest) :
    (m.perform call (m.replay context past).2).1 = none := by
  have hfaults := congrArg Prod.fst hnow.replay_eq
  rw [hcalls, replay_append] at hfaults
  obtain ⟨_, hrest⟩ := List.append_eq_nil_iff.1 hfaults
  obtain ⟨hfault, _⟩ := List.append_eq_nil_iff.1 hrest
  exact Option.toList_eq_nil_iff.1 hfault

end Sound

/-! ### What that says of an outcome -/

/-- How a run that began in this context answers for its calls. -/
structure FailStop [ToString ι] (m : Machine ι κ ν γ) (context : γ) (o : Outcome ι κ ν γ ι) : Prop where
  knows : ∀ call ∈ o.calls, (m.effect? call).isSome ∧ m.Owns call
  /-- The context that is left behind is what the calls make of the first one, a call that fails included. -/
  context_eq : (m.replay context o.calls).2 = o.context
  /-- If the error blames a callback, just one call has failed, which is the last one. The error names its part and its place, and keeps its fault. -/
  of_failed : ∀ role place fault, o.result = .error (.failed role place fault) →
    ∃ past call, o.calls = past ++ [call] ∧ (m.replay context o.calls).1 = [fault] ∧
      m.perform call (m.replay context past).2 = (some fault, o.context) ∧
        role = call.role ∧ place = call.place ∧ toString place = call.location
  /-- A call that fails ends the run, with that error. -/
  of_fault : ∀ past call rest fault, o.calls = past ++ call :: rest →
    (m.perform call (m.replay context past).2).1 = some fault →
      rest = [] ∧ o.result = .error (.failed call.role call.place fault)

theorem Sound.failStop [ToString ι] (hsound : m.Sound context ⟨o.context, o.trace⟩)
    (hresult : ∀ role place fault, o.result ≠ .error (.failed role place fault)) : m.FailStop context o where
  knows := hsound.knows
  context_eq := congrArg Prod.snd hsound.replay_eq
  of_failed role place fault hfailed := absurd hfailed (hresult role place fault)
  of_fault past call rest fault hcalls hfault := by
    rw [hsound.perform_eq_none hcalls] at hfault
    cases hfault

theorem Blames.failStop [ToString ι] {error : RunError ι} (hresult : o.result = .error error)
    (hblames : m.Blames context error ⟨o.context, o.trace⟩) : m.FailStop context o := by
  generalize hend : (⟨o.context, o.trace⟩ : Moment ι κ ν γ) = moment at hblames
  cases hblames with
  | machine hnow herror =>
    subst hend
    refine hnow.failStop fun role place fault hfailed => ?_
    exact herror role place fault (Except.error.inj (hresult.symm.trans hfailed))
  | @callback now call fault after hnow hknows hfails =>
    obtain ⟨rfl, htrace⟩ := Moment.mk.inj hend
    have hcalls : o.calls = now.past.filterMap Activity.call? ++ [call] := by
      rw [Outcome.calls, htrace, Activity.calls_concat]
    have hreplay : m.replay context o.calls = ([fault], o.context) := by
      rw [Outcome.calls, htrace, hnow.replay_calls, hfails]
      rfl
    exact {
      knows := by
        rw [Outcome.calls, htrace]
        exact hnow.knows_concat hknows
      context_eq := congrArg Prod.snd hreplay
      of_failed := by
        intro role place fault hfailed
        obtain ⟨rfl, rfl, rfl⟩ := RunError.failed.inj (Except.error.inj (hresult.symm.trans hfailed))
        exact ⟨_, call, hcalls, congrArg Prod.fst hreplay, by rw [hnow.replay_eq, hfails], rfl, rfl, call.toString_place⟩
      of_fault := by
        intro past other rest fault hother hfault
        rw [hcalls] at hother
        rcases split_concat hother with ⟨rfl, rfl, rfl⟩ | ⟨rest, _, hbefore⟩
        · rw [hnow.replay_eq, hfails] at hfault
          obtain rfl := Option.some.inj hfault
          exact ⟨rfl, hresult⟩
        · -- This is a call before the last one, and none of those has failed.
          rw [hnow.perform_eq_none hbefore] at hfault
          cases hfault }

theorem failStop_of_keeps [ToString ι] {run : Run ι κ ν γ ι} (hrun : run.Keeps (m.Sound context) (m.Blames context)) :
    m.FailStop context (run context) := by
  have hensures := hrun ⟨context, []⟩ (m.sound_nil context)
  cases hresult : (run context).result with
  | ok answer =>
    refine (hensures.of_ok hresult).failStop fun role place fault hfailed => ?_
    cases hresult.symm.trans hfailed
  | error error => exact (hensures.of_error hresult).failStop hresult

/-! ### The parts of a run -/

theorem sound_note {activity : Activity ι κ ν γ} (hcall : activity.call? = none) :
    (Run.note activity).Keeps (m.Sound context) (m.Blames context) := by
  refine Run.keeps_note fun now hnow => ?_
  have hcalls : (now.past ++ [activity]).filterMap Activity.call? = now.past.filterMap Activity.call? := by
    rw [filterMap_concat, hcall, Option.toList_none, List.append_nil]
  exact ⟨fun call hmem => hnow.knows call (hcalls ▸ hmem), (congrArg (m.replay context) hcalls).trans hnow.replay_eq⟩

theorem Sound.lookup_fails (hnow : m.Sound context now) (key : Key) : m.Blames context (.danglingKey key) now :=
  .machine hnow (by simp)

theorem sound_lookup (key : Key) : (m.lookup key).Keeps (m.Sound context) (m.Blames context) :=
  Run.keeps_lookup fun _ hnow => hnow.lookup_fails key

theorem sound_invoke {callback : Callback ι γ α} (heffect : m.effect? call = some callback.effect)
    (howns : m.Owns call) : (Run.invoke call callback).Keeps (m.Sound context) (m.Blames context) := by
  have hknows : (m.effect? call).isSome ∧ m.Owns call := ⟨by rw [heffect, Option.isSome_some], howns⟩
  intro now hnow
  have hperform : m.perform call now.context = callback.effect now.context := by
    rw [perform, heffect]
  apply Run.ensures_invoke
  · intro answer after hcall
    rw [Callback.effect_of_ok hcall] at hperform
    exact ⟨hnow.knows_concat hknows, by rw [hnow.replay_calls, hperform]; rfl⟩
  · intro fault after hcall
    rw [Callback.effect_of_error hcall] at hperform
    exact .callback hnow hknows hperform

theorem sound_isReady (ht : t ∈ m.table.all) (hkind : t.kind ≠ .initial) :
    (isReady signal t).Keeps (m.Sound context) (m.Blames context) := by
  unfold isReady
  split
  · exact Run.keeps_pure true
  · next guard hguard => exact sound_invoke (by rw [effect?, hguard, Option.map_some]) ⟨ht, hkind⟩

theorem sound_ready {candidates : List (Transition ι κ ν γ)}
    (hcandidates : ∀ t ∈ candidates, t ∈ m.table.all ∧ t.kind ≠ .initial) :
    (ready signal candidates).Keeps (m.Sound context) (m.Blames context) := by
  induction candidates with
  | nil => exact Run.keeps_pure []
  | cons t rest ih =>
    obtain ⟨⟨ht, hkind⟩, hrest⟩ := List.forall_mem_cons.1 hcandidates
    exact (sound_isReady ht hkind).bind fun _ => (ih hrest).bind fun _ => Run.keeps_pure _

theorem sound_choose (state : ι) (candidates : List (Transition ι κ ν γ)) :
    (m.choose state signal candidates).Keeps (m.Sound context) (m.Blames context) := by
  match candidates with
  | [] => exact Run.keeps_pure none
  | [only] => exact Run.keeps_pure (some only)
  | first :: second :: rest =>
    rw [choose, map_eq_pure_bind]
    · exact (sound_invoke rfl (by trivial)).bind fun _ => Run.keeps_pure _
    · simp
    · simp

theorem sound_act (ht : m.resolver.Faithful → t ∈ m.table.all ∧ t.kind ≠ .initial) :
    (act t signal).Keeps (m.Sound context) (m.Blames context) := by
  unfold act
  split
  · exact Run.keeps_pure ()
  · next action haction => exact sound_invoke (by rw [effect?, haction, Option.map_some]) ht

theorem sound_actInitial (ht : t ∈ m.table.all) (hkind : t.kind = .initial) :
    (actInitial t).Keeps (m.Sound context) (m.Blames context) := by
  unfold actInitial
  split
  · exact Run.keeps_pure ()
  · next action haction => exact sound_invoke (by rw [effect?, haction, Option.map_some]) ⟨ht, hkind⟩

namespace Coherent

variable (hcoherent : m.Coherent)
include hcoherent

theorem sound_offer (signal : Signal ι κ ν) (keys : List Key) :
    (m.offer signal keys).Keeps (m.Sound context) (m.Blames context) := by
  induction keys with
  | nil => exact Run.keeps_pure ()
  | cons key rest ih =>
    intro now hnow
    apply Run.ensures_bind
    refine Run.ensures_lookup (fun state hstate => ?_) fun _ => hnow.lookup_fails key
    split
    · exact Run.ensures_pure hnow
    · have heffect : m.effect? (.event state.id signal) = some (state.behavior.onEvent signal).effect := by
        rw [effect?, hcoherent.behavior?_of_state? hstate, Option.map_some]
      apply (sound_invoke heffect trivial now hnow).bind
      intro consumed now hnow
      split
      · exact Run.ensures_pure hnow
      · exact ih now hnow

theorem sound_leave (key : Key) : (m.leave key).Keeps (m.Sound context) (m.Blames context) := by
  intro now hnow
  apply Run.ensures_bind
  refine Run.ensures_lookup (fun state hstate => ?_) fun _ => hnow.lookup_fails key
  apply (sound_note rfl now hnow).bind
  intro _ now hnow
  split
  · exact Run.ensures_pure hnow
  · exact sound_invoke (by rw [effect?, hcoherent.behavior?_of_state? hstate, Option.map_some]) (by trivial) now hnow

theorem sound_enter (key : Key) : (m.enter key).Keeps (m.Sound context) (m.Blames context) := by
  intro now hnow
  apply Run.ensures_bind
  refine Run.ensures_lookup (fun state hstate => ?_) fun _ => hnow.lookup_fails key
  apply (sound_note rfl now hnow).bind
  intro _ now hnow
  exact sound_invoke (by rw [effect?, hcoherent.behavior?_of_state? hstate, Option.map_some]) (by trivial) now hnow

omit [DecidableEq ι] in
theorem initial_of_mem_descend {hops : Nat} (ht : t ∈ m.descend hops key) : t ∈ m.table.all ∧ t.kind = .initial := by
  induction hops generalizing key with
  | zero => cases ht
  | succ hops ih =>
    rw [descend] at ht
    cases hinitial : m.table.initialOf key with
    | none =>
      rw [hinitial] at ht
      cases ht
    | some first =>
      rw [hinitial] at ht
      rcases List.mem_cons.1 ht with rfl | hrest
      · obtain ⟨hall, hkind, _⟩ := hcoherent.of_initialOf hinitial
        exact ⟨hall, hkind⟩
      · exact ih hrest

theorem sound_enterDefaults (key : Key) : (m.enterDefaults key).Keeps (m.Sound context) (m.Blames context) := by
  refine (Run.keeps_forM fun t ht => ?_).bind fun _ => Run.keeps_pure _
  obtain ⟨hall, hkind⟩ := hcoherent.initial_of_mem_descend ht
  exact (sound_actInitial hall hkind).bind fun _ => hcoherent.sound_enter t.targetKey

theorem sound_fire (active : Key) (ht : m.resolver.Faithful → t ∈ m.table.all ∧ t.kind ≠ .initial) :
    (m.fire active t signal).Keeps (m.Sound context) (m.Blames context) := by
  intro now hnow
  apply Run.ensures_bind
  refine Run.ensures_ofPath (fun route _ => ?_) fun _ _ => .machine hnow (by simp)
  apply (Run.keeps_forM (fun key _ => hcoherent.sound_leave key) now hnow).bind
  intro _ now hnow
  apply (sound_act ht now hnow).bind
  intro _ now hnow
  apply (Run.keeps_forM (fun key _ => hcoherent.sound_enter key) now hnow).bind
  intro _ now hnow
  exact hcoherent.sound_enterDefaults t.targetKey now hnow

theorem sound_start : (m.start).Keeps (m.Sound context) (m.Blames context) :=
  (hcoherent.sound_enterDefaults .root).bind fun _ => (sound_lookup _).bind fun _ => Run.keeps_pure _

/-! ### Steps and runs -/

variable [DecidableEq κ]

theorem ensures_select_sound (state : ι) (key : Key) (signal : Option (Signal ι κ ν)) (hnow : m.Sound context now) :
    (m.select state key signal).Ensures now
      (fun chosen now => (∀ t ∈ chosen, m.resolver.Faithful → t ∈ m.table.all ∧ t.kind ≠ .initial) ∧
        m.Sound context now) (m.Blames context) := by
  have hsound : (m.select state key signal).Keeps (m.Sound context) (m.Blames context) :=
    (sound_ready fun t ht => hcoherent.ordinary_of_triggered ht).bind fun candidates => sound_choose state candidates
  have hbears : ∀ call : Call ι κ ν γ, Run.Bears (fun _ => True) (fun _ _ => True) call :=
    fun _ => ⟨fun _ _ _ => trivial, fun _ _ _ => trivial⟩
  have hchosen : (m.select state key signal).Ensures now
      (fun chosen _ => (m.resolver.Faithful → ∀ t ∈ chosen, t ∈ m.triggered key signal) ∧ True) fun _ _ => True :=
    ensures_select key (fun _ => hbears _) (fun _ => hbears _) trivial
  refine (hchosen.and (hsound now hnow)).mono (fun chosen now hboth => ?_) fun _ _ hboth => hboth.2
  exact ⟨fun t ht hfaithful => hcoherent.ordinary_of_triggered (hboth.1.1 hfaithful t ht), hboth.2⟩

/-- **A step accounts for its calls.** -/
theorem sound_step (count : Nat) (key : Key) (signal : Option (Signal ι κ ν)) :
    (m.step count key signal).Keeps (m.Sound context) (m.Blames context) := by
  have hoffer : (signal.forM fun signal => m.offer signal (m.hierarchy.activeChain key)).Keeps (m.Sound context)
      (m.Blames context) := by
    cases signal with
    | none => exact Run.keeps_pure ()
    | some signal => exact hcoherent.sound_offer signal _
  intro now hnow
  apply (sound_lookup key now hnow).bind
  intro origin now hnow
  apply (hoffer now hnow).bind
  intro _ now hnow
  apply (hcoherent.ensures_select_sound origin.id key signal hnow).bind
  intro chosen now hchosen
  obtain ⟨hchosen, hnow⟩ := hchosen
  cases chosen with
  | none => exact Run.ensures_pure hnow
  | some t =>
    apply (sound_note rfl now hnow).bind
    intro _ now hnow
    apply (hcoherent.sound_fire key (hchosen t rfl) now hnow).bind
    intro settled now hnow
    apply (sound_lookup t.sourceKey now hnow).bind
    intro source now hnow
    apply (sound_lookup settled now hnow).bind
    intro resting now hnow
    apply (sound_note rfl now hnow).bind
    intro _ now hnow
    exact Run.ensures_pure hnow

theorem sound_proceed (budget count : Nat) (key : Key) (signal : Option (Signal ι κ ν)) :
    (m.proceed budget count key signal).Keeps (m.Sound context) (m.Blames context) := by
  induction budget generalizing count key signal with
  | zero => exact (sound_lookup key).bind fun state now hnow => Run.ensures_fail (.machine hnow (by simp))
  | succ budget ih =>
    refine (hcoherent.sound_step count key signal).bind fun result => ?_
    cases result with
    | none => exact (sound_lookup key).bind fun _ => Run.keeps_pure _
    | some settled => exact ih (count + 1) settled _

theorem sound_process (current : ι) (event : Event κ ν) :
    (m.process current event).Keeps (m.Sound context) (m.Blames context) := by
  unfold process
  split
  · exact fun now hnow => Run.ensures_fail (.machine hnow (by simp))
  · exact hcoherent.sound_proceed m.limit 0 _ _

end Coherent

/-! ### Where resolvers are called -/

section resolver

open Activity

omit [DecidableEq ι]

variable {current origin : ι} {past : List (Activity ι κ ν γ)} {activity : Activity ι κ ν γ}

/-- A resolver is called for the state in which the machine rests. -/
def ResolvesAtRest (current : ι) (trace : List (Activity ι κ ν γ)) : Prop :=
  ∀ past id signal candidates rest, trace = past ++ .called (.resolver id signal candidates) :: rest →
    id = restsIn current past

/-- Resolvers have been called for the state in which the machine rested, and now it rests in `origin`. -/
structure RestsAt (current origin : ι) (now : Moment ι κ ν γ) : Prop where
  resolves : ResolvesAtRest current now.past
  restsIn_eq : restsIn current now.past = origin

theorem ResolvesAtRest.concat (hpast : ResolvesAtRest current past)
    (hnow : ∀ id signal candidates, activity = .called (.resolver id signal candidates) → id = restsIn current past) :
    ResolvesAtRest current (past ++ [activity]) := by
  intro before id signal candidates rest heq
  rcases split_concat heq with ⟨rfl, hsame, _⟩ | ⟨rest, _, rfl⟩
  · exact hnow id signal candidates hsame.symm
  · exact hpast before id signal candidates rest rfl

theorem RestsAt.concat (hnow : RestsAt current origin now) (hfiring : activity.firing? = none)
    (hresolver : ∀ id signal candidates, activity = .called (.resolver id signal candidates) → id = origin)
    (context : γ) : RestsAt current origin ⟨context, now.past ++ [activity]⟩ where
  resolves := hnow.resolves.concat fun id signal candidates heq =>
    (hresolver id signal candidates heq).trans hnow.restsIn_eq.symm
  restsIn_eq := by
    have hfirings : firings (now.past ++ [activity]) = firings now.past := by
      rw [firings_concat, hfiring, Option.toList_none, List.append_nil]
    rw [restsIn, hfirings]
    exact hnow.restsIn_eq

theorem restsAt_bears (hcall : ∀ id signal candidates, call = .resolver id signal candidates → id = origin) :
    Run.Bears (RestsAt current origin) (fun _ now => ResolvesAtRest current now.past) call where
  outlasts _ hnow := hnow.concat rfl fun id signal candidates heq => hcall id signal candidates (Activity.called.inj heq)
  allows _ _ hnow := hnow.resolves

theorem restsAt_withstandsFiring : WithstandsFiring (RestsAt current origin : Moment ι κ ν γ → Prop)
    fun _ now => ResolvesAtRest current now.past where
  dangling _ _ hnow := hnow.resolves
  unrelated _ _ hnow := hnow.resolves
  left _ now hnow := hnow.concat rfl (by simp) now.context
  entered _ now hnow := hnow.concat rfl (by simp) now.context
  exit _ := restsAt_bears (by simp)
  entry _ := restsAt_bears (by simp)
  initialAction _ := restsAt_bears (by simp)

variable [DecidableEq κ]

theorem ensures_step_resolves (hkey : m.id? key = some origin) (hnow : RestsAt current origin now) (count : Nat) :
    (m.step count key signal).Ensures now (fun _ now => ResolvesAtRest current now.past)
      (fun _ now => ResolvesAtRest current now.past) := by
  have hoffer : (signal.forM fun signal => m.offer signal (m.hierarchy.activeChain key)).Keeps
      (RestsAt current origin) (fun _ now => ResolvesAtRest current now.past) :=
    keeps_offer_pending (fun key _ => restsAt_withstandsFiring.lookup key) fun _ _ _ => restsAt_bears (by simp)
  obtain ⟨state, hstate, rfl⟩ := exists_state_of_id? hkey
  apply Run.ensures_bind
  refine Run.ensures_lookup (fun other hother => ?_) fun _ => hnow.resolves
  obtain rfl : state = other := Option.some.inj (hstate.symm.trans hother)
  apply (hoffer now hnow).bind
  intro _ now hnow
  -- The resolver is called for the state that the step has looked up.
  apply (ensures_select key (fun _ => restsAt_bears (by simp)) (fun _ => restsAt_bears (by simp)) hnow).bind
  intro chosen now hchosen
  obtain ⟨_, hnow⟩ := hchosen
  cases chosen with
  | none => exact Run.ensures_pure hnow.resolves
  | some t =>
    apply Run.ensures_bind
    apply Run.ensures_note
    apply (restsAt_withstandsFiring.ensures_fire (restsAt_bears (by simp)) key
      (hnow.concat rfl (by simp) now.context)).bind
    intro settled now hsettled
    obtain ⟨_, hnow⟩ := hsettled
    apply (restsAt_withstandsFiring.lookup t.sourceKey now hnow).bind
    intro source now hnow
    apply (restsAt_withstandsFiring.lookup settled now hnow).bind
    intro resting now hnow
    apply Run.ensures_bind
    apply Run.ensures_note
    exact Run.ensures_pure (hnow.resolves.concat (by simp))

variable [DecidableEq ι] {event : Event κ ν} {turn : Turn ι κ ν γ}

theorem Takes.ensures_step_resolves (hturn : m.Takes current event context turn)
    (hpast : ResolvesAtRest current turn.past) :
    (m.step turn.count turn.key turn.signal).Ensures turn.toMoment (fun _ now => ResolvesAtRest current now.past)
      (fun _ now => ResolvesAtRest current now.past) :=
  Machine.ensures_step_resolves hturn.counted.rests ⟨hpast, rfl⟩ turn.count

theorem resolvesAtRest_process (m : Machine ι κ ν γ) (current : ι) (event : Event κ ν) (context : γ) :
    ResolvesAtRest current (m.process current event context).trace := by
  apply always_process (P := fun now => ResolvesAtRest current now.past)
  · intro past id signal candidates rest heq
    exact absurd heq (by simp)
  · intro turn hturn hpast
    exact hturn.ensures_step_resolves hpast

end resolver

/-! ### Whole runs -/

/-- **A run stops at the first callback that fails, and blames just that one.** In a machine that a definition gives, a start or an event that ends with the error of a callback has called one callback that fails, and has called it last. The error has the fault of that callback, and says which part it plays and where it belongs: to a state, which for a resolver is the active one, or to a transition, which has no source just if it is the one that leaves the root. What is left of the context is the work of all that was called. And a callback that fails ends the run with that error, whatever its part is. -/
theorem fail_stop_of_build [DecidableEq κ] [ToString ι] {declarations : List (Declaration ι κ ν γ)}
    (hbuild : Machine.build declarations = .ok m) :
    (∀ context, m.FailStop context (m.start context)) ∧
      (∀ current event context, m.FailStop context (m.process current event context) ∧
        ResolvesAtRest current (m.process current event context).trace) ∧
      ∀ t ∈ m.table.all, m.id? t.sourceKey = t.source ∧ m.id? t.targetKey = some t.target ∧
        (t.source = none ↔ t.StartsFrom .root) := by
  have hcoherent := coherent_of_build hbuild
  refine ⟨fun _ => failStop_of_keeps hcoherent.sound_start, fun current event context => ⟨?_, ?_⟩, fun t ht => ?_⟩
  · exact failStop_of_keeps (hcoherent.sound_process current event)
  · exact m.resolvesAtRest_process current event context
  · have hsource := hcoherent.id?_source t ht
    refine ⟨hsource, hcoherent.id?_target t ht, fun hnone => ?_, fun hstarts => ?_⟩
    · have hroot := (hcoherent.id?_eq_none_iff (hcoherent.contains_source t ht)).1 (hsource.trans hnone)
      exact ⟨hcoherent.kind_of_root t ht hroot, hroot⟩
    · rw [← hsource, hstarts.2]
      rfl

/-- A callback that does nothing but write a number down. -/
def writes (n : Nat) : Callback Nat (List Nat) Unit := modify (· ++ [n])

/-- A callback that writes a number down and then fails. -/
def sticks (n : Nat) : Callback Nat (List Nat) Unit := do
  writes n
  Callback.raise "stuck"

/-- A hatch that sticks on the way down to its innermost state, once it is half open. -/
def hatch : List (Declaration Nat Unit Unit (List Nat)) := [
  .initial 0 none,
  .composite { superstate := 1, default := 2 },
  .composite { superstate := 2, default := 3, action := some (sticks 23) },
  .state 2 { onEntry := writes 2 },
  .state 3 { onEntry := writes 3 },
  .rule { source := 0, target := 1, trigger := some (.event ()), action := some fun _ => writes 1 }]

/-- The error is about the initial transition that is stuck, and what was done before it stays done. -/
theorem hatch_fail_stop : ∃ m, Machine.build hatch = .ok m ∧
    (m.process 0 ⟨(), ()⟩ []).result = .error (.failed .initialAction (.transition ⟨some 2, 3⟩) (.raised "stuck")) ∧
    (m.process 0 ⟨(), ()⟩ []).context = [1, 2, 23] ∧ m.FailStop [] (m.process 0 ⟨(), ()⟩ []) := by
  have hbuild : Machine.build hatch = .ok (Draft.ofDeclarations hatch).freeze := rfl
  exact ⟨_, hbuild, rfl, rfl, ((fail_stop_of_build hbuild).2.1 0 ⟨(), ()⟩ []).1⟩

end Machine

end NestedMachine
