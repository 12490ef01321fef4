import NestedMachine.Proofs.Machine.Renumbering
import NestedMachine.Proofs.Run.Stability
import NestedMachine.Run.Recording

/-!
# What is offered, and to whom

A run that processes an event begins by offering it, first to the state in which the machine rests and then to those around it (`Coherent.ensures_offer`). Nothing is offered after that: a later step has a completion to offer or nothing at all, and a completion is consumed by the final state that has caused it before any callback is asked (`offer_completion`). So a state around a final one learns of the completion by guards, actions and the resolver, and by nothing else. A final state is offered nothing, and is told nothing when it is left.

`Machine.Offers` says all this of a trace. What a run does after the first offer keeps to it, because none of the calls that it makes then is an offer (`Machine.Spares`).
-/

namespace NestedMachine

variable {ι κ ν γ : Type}

/-- The calls that offer a signal to states, one after another. -/
def Activity.offers (signal : Signal ι κ ν) (asked : List ι) : List (Activity ι κ ν γ) :=
  asked.map fun id => .called (.event id signal)

namespace Machine

variable [DecidableEq ι] {m : Machine ι κ ν γ} {key : Key} {keys : List Key} {asked : List ι}
variable {rest trace : List (Activity ι κ ν γ)} {event : Event κ ν} {signal : Option (Signal ι κ ν)}
variable {now : Moment ι κ ν γ} {call : Call ι κ ν γ} {t : Transition ι κ ν γ}

/-- The call offers nothing, and does not tell a final state that it is left. -/
def Spares (m : Machine ι κ ν γ) : Call ι κ ν γ → Prop
  | .event _ _ => False
  | .exit id => m.isFinal id = false
  | .entry _ | .guard _ _ | .action _ _ | .initialAction _ | .resolver _ _ _ => True

/-- These are the states with the first few of the keys, and none of them is final. -/
structure Asks (m : Machine ι κ ν γ) (keys : List Key) (asked : List ι) : Prop where
  inOrder : asked.map some <+: keys.map m.id?
  unfinal : ∀ id ∈ asked, m.isFinal id = false

/-- The trace begins with offers of the event, and holds no others. -/
structure Offers (m : Machine ι κ ν γ) (event : Event κ ν) (asked : List ι) (rest trace : List (Activity ι κ ν γ)) :
    Prop where
  trace_eq : trace = Activity.offers (.event event) asked ++ rest
  /-- No state is asked twice. -/
  nodup : asked.Nodup
  unfinal : ∀ id ∈ asked, m.isFinal id = false
  spares : ∀ call, .called call ∈ rest → m.Spares call

/-- The event has been offered to some states, and nothing else has been offered. -/
def Offered (m : Machine ι κ ν γ) (event : Event κ ν) (now : Moment ι κ ν γ) : Prop :=
  ∃ asked rest, m.Offers event asked rest now.past

/-! ### Offering to one state after another -/

theorem asks_nil (m : Machine ι κ ν γ) (keys : List Key) : m.Asks keys [] := ⟨List.nil_prefix, by simp⟩

theorem Asks.cons {id : ι} (hasks : m.Asks keys asked) (hid : m.id? key = some id) (hfinal : m.isFinal id = false) :
    m.Asks (key :: keys) (id :: asked) where
  inOrder := by
    rw [List.map_cons, List.map_cons, hid]
    exact List.cons_prefix_cons.2 ⟨rfl, hasks.inOrder⟩
  unfinal := List.forall_mem_cons.2 ⟨hfinal, hasks.unfinal⟩

/-- What an offer adds to the past, whether it comes to an end or to a failure. -/
def AddsOffers (m : Machine ι κ ν γ) (keys : List Key) (signal : Signal ι κ ν) (past : List (Activity ι κ ν γ))
    (now : Moment ι κ ν γ) : Prop :=
  ∃ asked, m.Asks keys asked ∧ now.past = past ++ Activity.offers signal asked

theorem addsOffers_nil (m : Machine ι κ ν γ) (keys : List Key) (signal : Signal ι κ ν) (now : Moment ι κ ν γ) :
    m.AddsOffers keys signal now.past now :=
  ⟨[], m.asks_nil keys, (List.append_nil _).symm⟩

namespace Coherent

variable (hcoherent : m.Coherent)
include hcoherent

theorem isFinal_eq_false {state : State ι κ ν γ} (hstate : m.state? key = some state)
    (hfinal : ¬ state.isFinal = true) : m.isFinal state.id = false := by
  rw [hcoherent.isFinal_of_state? hstate, Bool.eq_false_iff]
  exact hfinal

/-- **A signal is offered to the states in turn**, up to the first that is final, that consumes it or that fails. -/
theorem ensures_offer (signal : Signal ι κ ν) (keys : List Key) (now : Moment ι κ ν γ) :
    (m.offer signal keys).Ensures now (fun _ => m.AddsOffers keys signal now.past)
      (fun _ => m.AddsOffers keys signal now.past) := by
  induction keys generalizing now with
  | nil => exact Run.ensures_pure (m.addsOffers_nil [] signal now)
  | cons key rest ih =>
    apply Run.ensures_bind
    refine Run.ensures_lookup (fun state hstate => ?_) fun _ => m.addsOffers_nil _ signal now
    split
    · exact Run.ensures_pure (m.addsOffers_nil _ signal now)
    · next hfinal =>
      have hid := id?_eq_of_state? hstate
      have hunfinal := hcoherent.isFinal_eq_false hstate hfinal
      have hfirst : ∀ context : γ, m.AddsOffers (key :: rest) signal now.past
          ⟨context, now.past ++ [.called (.event state.id signal)]⟩ :=
        fun _ => ⟨[state.id], (m.asks_nil rest).cons hid hunfinal, rfl⟩
      apply Run.ensures_bind
      refine Run.ensures_invoke (fun consumed context _ => ?_) fun _ context _ => hfirst context
      split
      · exact Run.ensures_pure (hfirst context)
      · have hlater : ∀ later, m.AddsOffers rest signal (now.past ++ [.called (.event state.id signal)]) later →
            m.AddsOffers (key :: rest) signal now.past later := by
          rintro later ⟨asked, hasks, hpast⟩
          exact ⟨state.id :: asked, hasks.cons hid hunfinal, by rw [hpast, List.append_assoc]; rfl⟩
        exact (ih _).mono (fun _ => hlater) fun _ => hlater

theorem nodup_of_asks (hkey : m.hierarchy.Contains key) (hasks : m.Asks (m.hierarchy.activeChain key) asked) :
    asked.Nodup := by
  have hkeys : (m.hierarchy.activeChain key).Nodup :=
    (hcoherent.forest.nodup_chain hkey).sublist (m.hierarchy.activeChain_sublist key)
  have hcontains : ∀ other ∈ m.hierarchy.activeChain key, m.hierarchy.Contains other := fun other hother =>
    (Hierarchy.mem_states.1 (hcoherent.forest.mem_states_of_mem_activeChain hkey hother)).2
  have hids : ((m.hierarchy.activeChain key).map m.id?).Nodup :=
    hkeys.map_on fun a ha b hb heq => (hcoherent.id?_inj (hcontains a ha) (hcontains b hb)).1 heq
  exact (hids.sublist hasks.inOrder.sublist).of_map some

end Coherent

/-! ### After the first offer -/

theorem Offers.concat (hoffers : m.Offers event asked rest trace) {activity : Activity ι κ ν γ}
    (hspares : ∀ call, activity = .called call → m.Spares call) :
    m.Offers event asked (rest ++ [activity]) (trace ++ [activity]) where
  trace_eq := by rw [hoffers.trace_eq, List.append_assoc]
  nodup := hoffers.nodup
  unfinal := hoffers.unfinal
  spares call hcall := by
    rcases List.mem_append.1 hcall with hbefore | hlast
    · exact hoffers.spares call hbefore
    · exact hspares call (List.mem_singleton.1 hlast).symm

theorem Offered.concat (hnow : m.Offered event now) {activity : Activity ι κ ν γ}
    (hspares : ∀ call, activity = .called call → m.Spares call) (context : γ) :
    m.Offered event ⟨context, now.past ++ [activity]⟩ := by
  obtain ⟨asked, rest, hoffers⟩ := hnow
  exact ⟨asked, rest ++ [activity], hoffers.concat hspares⟩

theorem offered_nil (m : Machine ι κ ν γ) (event : Event κ ν) (context : γ) : m.Offered event ⟨context, []⟩ :=
  ⟨[], [], rfl, List.nodup_nil, by simp, by simp⟩

theorem offered_bears (hcall : m.Spares call) : Run.Bears (m.Offered event) (fun _ => m.Offered event) call where
  outlasts _ hnow := hnow.concat fun _ heq => Activity.called.inj heq ▸ hcall
  allows _ _ hnow := hnow

theorem offered_lookup (key : Key) : (m.lookup key).Keeps (m.Offered event) fun _ => m.Offered event :=
  Run.keeps_lookup fun _ hnow => hnow

theorem offered_note {activity : Activity ι κ ν γ} (hactivity : activity.call? = none) :
    (Run.note activity).Keeps (m.Offered event) fun _ => m.Offered event := by
  refine Run.keeps_note fun now hnow => hnow.concat (fun call heq => ?_) now.context
  rw [heq] at hactivity
  cases hactivity

theorem offered_enter (key : Key) : (m.enter key).Keeps (m.Offered event) fun _ => m.Offered event :=
  keeps_enter (offered_lookup key) (offered_note rfl) fun _ => offered_bears trivial

namespace Coherent

variable (hcoherent : m.Coherent)
include hcoherent

theorem offered_leave (key : Key) : (m.leave key).Keeps (m.Offered event) fun _ => m.Offered event := by
  intro now hnow
  apply Run.ensures_bind
  refine Run.ensures_lookup (fun state hstate => ?_) fun _ => hnow
  apply (offered_note rfl now hnow).bind
  intro _ now hnow
  split
  · exact Run.ensures_pure hnow
  · next hfinal =>
    have hspares : m.Spares (.exit state.id) := hcoherent.isFinal_eq_false hstate hfinal
    exact (offered_bears hspares).invoke _ now hnow

theorem offered_fire (active : Key) (t : Transition ι κ ν γ) :
    (m.fire active t signal).Keeps (m.Offered event) fun _ => m.Offered event := by
  intro now hnow
  have hfire : (m.fire active t signal).Ensures now
      (fun settled now => settled = m.restingKey t.targetKey ∧ m.Offered event now) fun _ => m.Offered event := by
    refine ensures_fire_of_keeps (fun _ _ => hnow) (fun route _ => ?_) (offered_bears trivial)
      (fun _ => offered_bears trivial) (fun hop _ => offered_enter hop.targetKey) hnow
    exact ⟨fun key _ => hcoherent.offered_leave key, fun key _ => offered_enter key⟩
  exact hfire.mono_done fun _ _ hdone => hdone.2

variable [DecidableEq κ]

theorem ensures_step_offered (hnow : m.Offered event now) (count : Nat)
    (hoffer : (signal.forM fun told => m.offer told (m.hierarchy.activeChain key)).Ensures now
      (fun _ => m.Offered event) fun _ => m.Offered event) :
    (m.step count key signal).Ensures now (fun _ => m.Offered event) fun _ => m.Offered event := by
  have hguard : ∀ t, Run.Bears (m.Offered event) (fun _ => m.Offered event) (.guard t signal) :=
    fun _ => offered_bears trivial
  apply Run.ensures_bind
  refine Run.ensures_lookup (fun origin _ => ?_) fun _ => hnow
  apply hoffer.bind
  intro _ now hnow
  apply (ensures_select key hguard (fun _ => offered_bears trivial) hnow).bind
  intro chosen now hchosen
  obtain ⟨_, hnow⟩ := hchosen
  cases chosen with
  | none => exact Run.ensures_pure hnow
  | some t =>
    apply (offered_note rfl now hnow).bind
    intro _ now hnow
    apply (hcoherent.offered_fire key t now hnow).bind
    intro settled now hnow
    apply (offered_lookup t.sourceKey now hnow).bind
    intro source now hnow
    apply (offered_lookup settled now hnow).bind
    intro resting now hnow
    apply (offered_note rfl now hnow).bind
    intro _ now hnow
    exact Run.ensures_pure hnow

theorem offered_step_of_takes {current : ι} {context : γ} {turn : Turn ι κ ν γ}
    (hturn : m.Takes current event context turn) (hpast : m.Offered event turn.toMoment) :
    (m.step turn.count turn.key turn.signal).Ensures turn.toMoment (fun _ => m.Offered event)
      fun _ => m.Offered event := by
  apply hcoherent.ensures_step_offered hpast
  cases hturn with
  | @first key hkey =>
    have hcontains := hcoherent.contains_of_id? (id?_eq_of_key? hkey)
    have hoffered : ∀ now, m.AddsOffers (m.hierarchy.activeChain key) (.event event) [] now → m.Offered event now := by
      rintro now ⟨asked, hasks, hpast⟩
      refine ⟨asked, [], ?_, hcoherent.nodup_of_asks hcontains hasks, hasks.unfinal, by simp⟩
      rw [hpast, List.nil_append, List.append_nil]
    exact (hcoherent.ensures_offer (.event event) _ _).mono (fun _ => hoffered) fun _ => hoffered
  | next hbefore hnext =>
    obtain ⟨_, hstate⟩ := (hbefore.next hnext).exists_state
    obtain ⟨_, _⟩ := hnext
    rw [offer_completion hstate]
    exact Run.ensures_pure hpast

end Coherent

/-! ### Whole runs -/

theorem Spares.role_of_completed (hspares : m.Spares call) {id : ι}
    (htold : call.signal? = some (some (.completed id))) :
    call.role = .guard ∨ call.role = .action ∨ call.role = .resolver := by
  cases call with
  | event _ _ => cases hspares
  | guard _ _ => exact .inl rfl
  | action _ _ => exact .inr (.inl rfl)
  | resolver _ _ _ => exact .inr (.inr rfl)
  | _ => cases htold

theorem Offers.call_cases (hoffers : m.Offers event asked rest trace) (hcall : .called call ∈ trace) :
    (∃ id, call = .event id (.event event) ∧ m.isFinal id = false) ∨ m.Spares call := by
  rw [hoffers.trace_eq] at hcall
  rcases List.mem_append.1 hcall with hoffer | hrest
  · obtain ⟨id, hid, heq⟩ := List.mem_map.1 hoffer
    exact .inl ⟨id, (Activity.called.inj heq).symm, hoffers.unfinal id hid⟩
  · exact .inr (hoffers.spares call hrest)

section start

omit [DecidableEq ι]

/-- All that has been called are entry callbacks and the actions of initial transitions. -/
def OnlyEnters (now : Moment ι κ ν γ) : Prop :=
  ∀ call, .called call ∈ now.past → call.role = .entry ∨ call.role = .initialAction

theorem onlyEnters_start (m : Machine ι κ ν γ) (context : γ) :
    OnlyEnters ⟨(m.start context).context, (m.start context).trace⟩ := by
  have hstart : m.start.Ensures ⟨context, []⟩ (fun _ => OnlyEnters) fun _ => OnlyEnters := by
    apply (ensures_enterDefaults_of_keeps (fun _ => onlyCalls_bears (.inr rfl))
      (fun t _ => onlyCalls_enter (fun _ => .inl rfl) t.targetKey) (onlyCalls_nil context)).bind
    intro settled now hsettled
    exact ((onlyCalls_lookup settled).bind fun _ => Run.keeps_pure _) now hsettled.2
  exact hstart.always

end start

/-- **What is offered, and what final states are told.** In a machine that a definition gives, a start calls nothing but entry callbacks and the actions of initial transitions. A run that processes an event, recorded or not, begins by offering that event to some states, to none of them twice and to no final one, and offers nothing after that. No final state is told that it is left, and of a completion nobody is told but guards, actions and the resolver. -/
theorem offering_of_build [DecidableEq κ] {declarations : List (Declaration ι κ ν γ)}
    (hbuild : Machine.build declarations = .ok m) :
    (∀ context call, .called call ∈ (m.start context).trace → call.role = .entry ∨ call.role = .initialAction) ∧
      ∀ current event context,
        (∃ asked rest, m.Offers event asked rest (m.process current event context).trace) ∧
        (∀ call, .called call ∈ (m.process current event context).trace →
          (∀ id signal, call = .event id signal → signal = .event event ∧ m.isFinal id = false) ∧
          (∀ id, call = .exit id → m.isFinal id = false) ∧
          ∀ id, call.signal? = some (some (.completed id)) →
            call.role = .guard ∨ call.role = .action ∨ call.role = .resolver) ∧
        ∀ clock history, (m.processRecording clock current event history context).trace =
          (m.process current event context).trace := by
  have hcoherent := coherent_of_build hbuild
  refine ⟨fun context call hcall => m.onlyEnters_start context call hcall, fun current event context => ?_⟩
  obtain ⟨asked, rest, hoffers⟩ : m.Offered event
      ⟨(m.process current event context).context, (m.process current event context).trace⟩ :=
    always_process (m.offered_nil event context) fun turn hturn hpast => hcoherent.offered_step_of_takes hturn hpast
  refine ⟨⟨asked, rest, hoffers⟩, fun call hcall => ?_, fun _ _ => rfl⟩
  rcases hoffers.call_cases hcall with ⟨id, rfl, hfinal⟩ | hspares
  · refine ⟨fun other signal heq => ?_, fun _ heq => ?_, fun _ htold => ?_⟩
    · obtain ⟨rfl, rfl⟩ := Call.event.inj heq
      exact ⟨rfl, hfinal⟩
    · cases heq
    · cases htold
  · refine ⟨fun _ _ heq => ?_, fun _ heq => ?_, fun _ htold => hspares.role_of_completed htold⟩
    · subst heq
      cases hspares
    · subst heq
      exact hspares

theorem player_offering : Machine.build Player.declarations = .ok Player.machine ∧
    (Player.machine.process .sounding ⟨.runOut, ()⟩ ()).result = .ok .stopped ∧
    (Player.machine.process .sounding ⟨.runOut, ()⟩ ()).trace.take 2 =
      Activity.offers (.event ⟨.runOut, ()⟩) [.sounding, .playing] ∧
    .left ⟨5⟩ ∈ (Player.machine.process .sounding ⟨.runOut, ()⟩ ()).trace ∧
    .called (.exit .ended) ∉ (Player.machine.process .sounding ⟨.runOut, ()⟩ ()).trace := by
  have hleft : (Player.machine.process .sounding ⟨.runOut, ()⟩ ()).trace[9]? = some (.left ⟨5⟩) := rfl
  refine ⟨Player.build_eq, rfl, rfl, List.mem_of_getElem? hleft, fun hcall => ?_⟩
  have hoffering := ((offering_of_build Player.build_eq).2 .sounding ⟨.runOut, ()⟩ ()).2.1 _ hcall
  have hfinal := hoffering.2.1 .ended rfl
  cases hfinal

end Machine

end NestedMachine
