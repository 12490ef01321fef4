import NestedMachine.Proofs.Machine.Coherence
import NestedMachine.Proofs.Run.Parts

/-!
# Which signal is attended to

The first step of a run sees the event, and each later step the completion that is owed for the state in which the step before has come to rest, or no signal if nothing is owed there. What is `pending` at some moment of a run is therefore written in its past. A trace is `Heedful` if every callback is told of the signal that is pending when it is called, every transition that is chosen waits for just that signal, and every firing is that of the transition chosen last. Steps keep to this (`Coherent.ensures_step_attends`), and so do whole runs, those that fail included. It follows that the first transition waits for the event, and that no later one does.
-/

namespace NestedMachine

variable {ι κ ν γ : Type}

/-- What a callback is told of the signal. Entry and exit callbacks and the actions of initial transitions are told nothing. -/
def Call.signal? : Call ι κ ν γ → Option (Option (Signal ι κ ν))
  | .event _ signal => some (some signal)
  | .guard _ signal | .action _ signal | .resolver _ signal _ => some signal
  | .entry _ | .exit _ | .initialAction _ => none

def Signal.trigger : Signal ι κ ν → Trigger κ
  | .event e => .event e.kind
  | .completed _ => .completion

def Trigger.isEvent : Trigger κ → Bool
  | .event _ => true
  | .completion => false

theorem Transition.awaits_iff [DecidableEq κ] {t : Transition ι κ ν γ} {signal : Option (Signal ι κ ν)} :
    t.awaits signal = true ↔ t.trigger = signal.map Signal.trigger := by
  unfold Transition.awaits
  cases t.trigger with
  | none => cases signal <;> simp
  | some trigger =>
    cases signal with
    | none => simp
    | some signal => cases trigger <;> cases signal <;> simp [Trigger.accepts, Signal.trigger, eq_comm]

/-! ### Lists -/

theorem exists_split_of_filterMap {α β : Type} {f : α → Option β} {l : List α} {i : Nat} {b : β}
    (hget : (l.filterMap f)[i]? = some b) :
    ∃ before a after, l = before ++ a :: after ∧ f a = some b ∧ (before.filterMap f).length = i := by
  induction l generalizing i with
  | nil => simp at hget
  | cons a l ih =>
    cases ha : f a with
    | none =>
      rw [List.filterMap_cons_none ha] at hget
      obtain ⟨before, a', after, rfl, ha', hlength⟩ := ih hget
      exact ⟨a :: before, a', after, rfl, ha', by rw [List.filterMap_cons_none ha, hlength]⟩
    | some c =>
      rw [List.filterMap_cons_some ha] at hget
      cases i with
      | zero => exact ⟨[], a, l, rfl, ha.trans (by simpa using hget), rfl⟩
      | succ i =>
        obtain ⟨before, a', after, rfl, ha', hlength⟩ := ih (by simpa using hget)
        exact ⟨a :: before, a', after, rfl, ha', by simp [List.filterMap_cons_some ha, hlength]⟩

theorem split_concat {α : Type} {l before after : List α} {a b : α} (heq : l ++ [a] = before ++ b :: after) :
    (before = l ∧ b = a ∧ after = []) ∨ ∃ rest, after = rest ++ [a] ∧ l = before ++ b :: rest := by
  rcases List.eq_nil_or_concat after with rfl | ⟨rest, last, rfl⟩
  · obtain ⟨rfl, hsame⟩ := List.append_inj' heq rfl
    exact .inl ⟨rfl, (List.singleton_inj.1 hsame).symm, rfl⟩
  · have hsplit : l ++ [a] = (before ++ b :: rest) ++ [last] := by simpa using heq
    obtain ⟨rfl, hsame⟩ := List.append_inj' hsplit rfl
    obtain rfl := List.singleton_inj.1 hsame
    exact .inr ⟨rest, List.concat_eq_append, rfl⟩

theorem countP_le_one_of_later {α : Type} {p : α → Bool} {l : List α} (hlater : ∀ i a, l[i + 1]? = some a → p a = false) :
    l.countP p ≤ 1 := by
  cases l with
  | nil => simp
  | cons first rest =>
    have hrest : rest.countP p = 0 := by
      rw [List.countP_eq_zero]
      intro a ha
      obtain ⟨i, hi⟩ := List.mem_iff_getElem?.1 ha
      simp [hlater i a hi]
    rw [List.countP_cons, hrest]
    split
    · exact Nat.le_refl 1
    · exact Nat.zero_le 1

/-! ### Reading a trace -/

namespace Activity

def choice? : Activity ι κ ν γ → Option (Transition ι κ ν γ)
  | chose t _ => some t
  | _ => none

def choices (trace : List (Activity ι κ ν γ)) : List (Transition ι κ ν γ) := trace.filterMap choice?

/-- The firings that are complete in a trace, in order. -/
def firings (trace : List (Activity ι κ ν γ)) : List (Firing ι) := trace.filterMap firing?

/-- Where the machine rests after a trace that begins in `current`. -/
def restsIn (current : ι) (trace : List (Activity ι κ ν γ)) : ι :=
  ((firings trace).getLast?.map Firing.settled).getD current

theorem choice?_eq_some_iff {activity : Activity ι κ ν γ} {t : Transition ι κ ν γ} :
    activity.choice? = some t ↔ ∃ signal, activity = .chose t signal := by
  cases activity <;> simp [choice?]

theorem firing?_eq_some_iff {activity : Activity ι κ ν γ} {firing : Firing ι} :
    activity.firing? = some firing ↔ activity = .fired firing := by
  cases activity <;> simp [firing?]

theorem choices_concat (past : List (Activity ι κ ν γ)) (activity : Activity ι κ ν γ) :
    choices (past ++ [activity]) = choices past ++ activity.choice?.toList := filterMap_concat _ _ _

theorem firings_concat (past : List (Activity ι κ ν γ)) (activity : Activity ι κ ν γ) :
    firings (past ++ [activity]) = firings past ++ activity.firing?.toList := filterMap_concat _ _ _

end Activity

namespace Machine

open Activity

variable {m : Machine ι κ ν γ} {key : Key} {current origin : ι} {event : Event κ ν}
variable {signal : Option (Signal ι κ ν)} {past trace : List (Activity ι κ ν γ)} {activity : Activity ι κ ν γ}

theorem Coherent.ordinary_of_triggered [DecidableEq κ] (hcoherent : m.Coherent) {t : Transition ι κ ν γ}
    (ht : t ∈ m.triggered key signal) : t ∈ m.table.all ∧ t.kind ≠ .initial := by
  obtain ⟨⟨active, _, hleaving⟩, _⟩ := mem_triggered_iff.1 ht
  obtain ⟨hall, hkind, _⟩ := hcoherent.mem_leaving_iff.1 hleaving
  exact ⟨hall, hkind⟩

section heedful

variable [DecidableEq ι]

/-- The signal that is owed once the machine rests in a state: a completion if the state is final and nested in another. -/
def owed (m : Machine ι κ ν γ) (id : ι) : Option (Signal ι κ ν) :=
  if m.isFinal id ∧ (m.superstate? id).isSome then some (.completed id) else none

/-- The signal that is pending: the event until something has fired, and then what is owed for the last firing. -/
def pending (m : Machine ι κ ν γ) (event : Event κ ν) (past : List (Activity ι κ ν γ)) : Option (Signal ι κ ν) :=
  match (firings past).getLast? with
  | none => some (.event event)
  | some firing => m.owed firing.settled

/-- An activity is on account of the signal that is pending. A transition is chosen only after all that were chosen before have fired, and a firing is that of the transition chosen last. -/
def Heeds (m : Machine ι κ ν γ) (current : ι) (event : Event κ ν) (past : List (Activity ι κ ν γ)) :
    Activity ι κ ν γ → Prop
  | .called call => ∀ signal, call.signal? = some signal → signal = m.pending event past
  | .chose t signal => signal = m.pending event past ∧ t.trigger = signal.map Signal.trigger ∧
      (choices past).length = (firings past).length
  | .fired firing => firing.origin = restsIn current past ∧ (choices past).length = (firings past).length + 1 ∧
      ∃ t, (choices past).getLast? = some t ∧ t.source = some firing.source ∧ t.target = firing.target ∧
        t.kind = firing.kind ∧ m.id? (m.restingKey t.targetKey) = some firing.settled
  | .left _ | .entered _ => True

/-- Every activity of a trace that begins in `current` is on account of the signal that is pending then. -/
def Heedful (m : Machine ι κ ν γ) (current : ι) (event : Event κ ν) (trace : List (Activity ι κ ν γ)) : Prop :=
  ∀ past activity rest, trace = past ++ activity :: rest → m.Heeds current event past activity

theorem heedful_nil (m : Machine ι κ ν γ) (current : ι) (event : Event κ ν) : m.Heedful current event [] := by
  intro past activity rest heq
  simp at heq

theorem Heedful.concat (hpast : m.Heedful current event past) (hnow : m.Heeds current event past activity) :
    m.Heedful current event (past ++ [activity]) := by
  intro before other rest heq
  rcases split_concat heq with ⟨rfl, rfl, _⟩ | ⟨rest, _, rfl⟩
  · exact hnow
  · exact hpast before other rest rfl

/-! ### How things stand -/

/-- The trace so far is heedful, `signal` is pending while the machine rests in `origin`, and of the transitions that were chosen all have fired but `chosen`. -/
structure Attends (m : Machine ι κ ν γ) (current : ι) (event : Event κ ν) (signal : Option (Signal ι κ ν)) (origin : ι)
    (chosen : Option (Transition ι κ ν γ)) (now : Moment ι κ ν γ) : Prop where
  heedful : m.Heedful current event now.past
  pending_eq : m.pending event now.past = signal
  restsIn_eq : restsIn current now.past = origin
  choices_eq : ∃ fired, choices now.past = fired ++ chosen.toList ∧ fired.length = (firings now.past).length

/-- A failure leaves behind a trace that is heedful as far as it goes. -/
def FailsHeedfully (m : Machine ι κ ν γ) (current : ι) (event : Event κ ν) (_ : RunError ι) (now : Moment ι κ ν γ) :
    Prop := m.Heedful current event now.past

variable {chosen : Option (Transition ι κ ν γ)} {now : Moment ι κ ν γ} {t : Transition ι κ ν γ}

theorem attends_nil (m : Machine ι κ ν γ) (current : ι) (event : Event κ ν) (context : γ) :
    m.Attends current event (some (.event event)) current none ⟨context, []⟩ :=
  ⟨m.heedful_nil current event, rfl, rfl, [], rfl, rfl⟩

theorem Attends.concat (hnow : m.Attends current event signal origin chosen now)
    (hheeds : m.Heeds current event now.past activity) (hchoice : activity.choice? = none)
    (hfiring : activity.firing? = none) (context : γ) :
    m.Attends current event signal origin chosen ⟨context, now.past ++ [activity]⟩ := by
  have hfirings : firings (now.past ++ [activity]) = firings now.past := by simp [firings_concat, hfiring]
  refine ⟨hnow.heedful.concat hheeds, ?_, ?_, ?_⟩
  · rw [pending, hfirings]
    exact hnow.pending_eq
  · rw [restsIn, hfirings]
    exact hnow.restsIn_eq
  · rw [hfirings, choices_concat, hchoice, Option.toList_none, List.append_nil]
    exact hnow.choices_eq

theorem attends_bears {call : Call ι κ ν γ} (hcall : call.signal? = none ∨ call.signal? = some signal) :
    Run.Bears (m.Attends current event signal origin chosen) (m.FailsHeedfully current event) call where
  outlasts now hnow context := by
    have hheeds : m.Heeds current event now.past (.called call) := by
      intro told htold
      rw [hnow.pending_eq]
      rcases hcall with hnone | hsome
      · rw [hnone] at htold
        cases htold
      · exact Option.some.inj (htold.symm.trans hsome)
    exact hnow.concat hheeds rfl rfl context
  allows _ _ hnow := hnow.heedful

theorem Attends.chose (hnow : m.Attends current event signal origin none now)
    (ht : t.trigger = signal.map Signal.trigger) (context : γ) :
    m.Attends current event signal origin (some t) ⟨context, now.past ++ [.chose t signal]⟩ := by
  obtain ⟨fired, hchoices, hlength⟩ := hnow.choices_eq
  rw [Option.toList_none, List.append_nil] at hchoices
  have hfirings : firings (now.past ++ [.chose t signal]) = firings now.past := by simp [firings_concat, firing?]
  refine ⟨hnow.heedful.concat ⟨hnow.pending_eq.symm, ht, by rw [hchoices, hlength]⟩, ?_, ?_, fired, ?_, ?_⟩
  · rw [pending, hfirings]
    exact hnow.pending_eq
  · rw [restsIn, hfirings]
    exact hnow.restsIn_eq
  · rw [choices_concat, hchoices, choice?]
  · rw [hfirings, hlength]

theorem Attends.fired (hnow : m.Attends current event signal origin (some t) now) (firing : Firing ι)
    (horigin : firing.origin = origin) (hsource : t.source = some firing.source) (htarget : t.target = firing.target)
    (hkind : t.kind = firing.kind) (hsettled : m.id? (m.restingKey t.targetKey) = some firing.settled) (context : γ) :
    m.Attends current event (m.owed firing.settled) firing.settled none ⟨context, now.past ++ [.fired firing]⟩ := by
  obtain ⟨fired, hchoices, hlength⟩ := hnow.choices_eq
  have hfirings : firings (now.past ++ [.fired firing]) = firings now.past ++ [firing] := firings_concat _ _
  have hheeds : m.Heeds current event now.past (.fired firing) :=
    ⟨by rw [horigin, hnow.restsIn_eq], by simp [hchoices, hlength], t, by simp [hchoices], hsource, htarget, hkind,
      hsettled⟩
  refine ⟨hnow.heedful.concat hheeds, ?_, ?_, fired ++ [t], ?_, ?_⟩
  · simp [pending, hfirings]
  · simp [restsIn, hfirings]
  · simp [choices_concat, hchoices, choice?]
  · simp [hfirings, hlength]

/-! ### Steps and runs -/

theorem attends_withstandsFiring :
    WithstandsFiring (m.Attends current event signal origin chosen) (m.FailsHeedfully current event) where
  dangling _ _ hnow := hnow.heedful
  unrelated _ _ hnow := hnow.heedful
  left _ now hnow := hnow.concat (by trivial) rfl rfl now.context
  entered _ now hnow := hnow.concat (by trivial) rfl rfl now.context
  exit _ := attends_bears (.inl rfl)
  entry _ := attends_bears (.inl rfl)
  initialAction _ := attends_bears (.inl rfl)

theorem Coherent.completion_eq (hcoherent : m.Coherent) {id : ι} (hid : m.id? key = some id) :
    m.completion key = m.owed id := by
  obtain ⟨state, hstate, rfl⟩ := exists_state_of_id? hid
  have hnested : (m.superstate? state.id).isSome = (m.hierarchy.parent key).any (· ≠ .root) := by
    have htop := hcoherent.superstate?_eq_none_iff hid
    obtain ⟨hroot, hcontains⟩ := Hierarchy.mem_states.1 (hcoherent.mem_states_iff.2 ⟨state, hstate⟩)
    obtain ⟨superstate, hparent⟩ := Hierarchy.exists_parent hcontains hroot
    rw [Bool.eq_iff_iff, ← not_iff_not, Option.not_isSome_iff_eq_none, htop]
    simp [hparent]
  rw [completion, owed, hstate, hcoherent.isFinal_of_state? hstate, hnested]

/-- How things stand after a step: what was pending is settled, and where something has fired, what is owed is pending. -/
def AttendsAfter (m : Machine ι κ ν γ) (current : ι) (event : Event κ ν) : Option Key → Moment ι κ ν γ → Prop
  | none, now => m.Heedful current event now.past
  | some settled, now => ∃ id, m.id? settled = some id ∧ m.Attends current event (m.owed id) id none now

/-- **A step attends to the signal that is pending**, and leaves pending what is owed for it. -/
theorem Coherent.ensures_step_attends [DecidableEq κ] (hcoherent : m.Coherent) (hfaithful : m.resolver.Faithful)
    (hkey : m.id? key = some origin) (hnow : m.Attends current event signal origin none now) (count : Nat) :
    (m.step count key signal).Ensures now (m.AttendsAfter current event) (m.FailsHeedfully current event) := by
  have hoffer : (signal.forM fun signal => m.offer signal (m.hierarchy.activeChain key)).Keeps
      (m.Attends current event signal origin none) (m.FailsHeedfully current event) := by
    refine keeps_offer_pending (fun key _ => attends_withstandsFiring.lookup key) fun _ _ hsignal => ?_
    exact attends_bears (.inr (congrArg some hsignal.symm))
  obtain ⟨state, hstate, rfl⟩ := exists_state_of_id? hkey
  apply Run.ensures_bind
  refine Run.ensures_lookup (fun other hother => ?_) fun _ => hnow.heedful
  obtain rfl : state = other := Option.some.inj (hstate.symm.trans hother)
  apply (hoffer now hnow).bind
  intro _ now hnow
  have hselect : (m.select state.id key signal).Ensures now (fun chosen now =>
      (m.resolver.Faithful → ∀ t ∈ chosen, t ∈ m.triggered key signal) ∧
        m.Attends current event signal state.id none now) (m.FailsHeedfully current event) :=
    ensures_select key (fun _ => attends_bears (.inr rfl)) (fun _ => attends_bears (.inr rfl)) hnow
  apply hselect.bind
  rintro chosen now ⟨hchosen, hnow⟩
  cases chosen with
  | none => exact Run.ensures_pure hnow.heedful
  | some t =>
    -- A candidate is triggered by the signal, so it waits for just that; and a transition of the machine has a source.
    obtain ⟨⟨active, _, hleaving⟩, hawaits⟩ := mem_triggered_iff.1 (hchosen hfaithful t rfl)
    have hall := (hcoherent.mem_leaving_iff.1 hleaving).1
    apply Run.ensures_bind
    apply Run.ensures_note
    have hchose := hnow.chose (Transition.awaits_iff.1 hawaits) now.context
    apply (attends_withstandsFiring.ensures_fire (attends_bears (.inr rfl)) key hchose).bind
    rintro _ now ⟨rfl, hnow⟩
    apply Run.ensures_bind
    refine Run.ensures_lookup (fun source hsource => ?_) fun _ => hnow.heedful
    apply Run.ensures_bind
    refine Run.ensures_lookup (fun resting hresting => ?_) fun _ => hnow.heedful
    apply Run.ensures_bind
    apply Run.ensures_note
    have hsettled := id?_eq_of_state? hresting
    have hsource := (hcoherent.id?_source t hall).symm.trans (id?_eq_of_state? hsource)
    have hfired := hnow.fired ⟨state.id, source.id, t.target, resting.id, t.kind, count⟩ rfl hsource rfl rfl hsettled
      now.context
    exact Run.ensures_pure ⟨resting.id, hsettled, hfired⟩

theorem Coherent.ensures_proceed_attends [DecidableEq κ] (hcoherent : m.Coherent) (hfaithful : m.resolver.Faithful)
    (hkey : m.id? key = some origin) (hnow : m.Attends current event signal origin none now) (budget count : Nat) :
    (m.proceed budget count key signal).Ensures now (fun _ now => m.Heedful current event now.past)
      (m.FailsHeedfully current event) := by
  induction budget generalizing count key signal origin now with
  | zero =>
    apply Run.ensures_bind
    refine Run.ensures_lookup (fun _ _ => ?_) fun _ => hnow.heedful
    exact Run.ensures_fail hnow.heedful
  | succ budget ih =>
    apply (hcoherent.ensures_step_attends hfaithful hkey hnow count).bind
    intro result now hresult
    cases result with
    | none =>
      apply Run.ensures_bind
      refine Run.ensures_lookup (fun _ _ => ?_) fun _ => hresult
      exact Run.ensures_pure hresult
    | some settled =>
      -- What is owed where the step has come to rest is the signal of the next step.
      obtain ⟨id, hid, hnow⟩ := hresult
      rw [← hcoherent.completion_eq hid] at hnow
      exact ih hid hnow (count + 1)

theorem Coherent.heedful_process [DecidableEq κ] (hcoherent : m.Coherent) (hfaithful : m.resolver.Faithful)
    (current : ι) (event : Event κ ν) (context : γ) :
    m.Heedful current event (m.process current event context).trace := by
  cases hkey : m.key? current with
  | none =>
    rw [process, hkey]
    exact m.heedful_nil current event
  | some key =>
    have hproceed := hcoherent.ensures_proceed_attends hfaithful ((key?_eq_some_iff hcoherent.nodup).1 hkey)
      (m.attends_nil current event context) m.limit 0
    simp only [process, hkey]
    cases hresult : (m.proceed m.limit 0 key (some (.event event)) context).result with
    | ok id => exact hproceed.of_ok hresult
    | error error => exact hproceed.of_error hresult

/-! ### The transitions of a run, one after another -/

namespace Heedful

variable {i : Nat} (hheedful : m.Heedful current event trace)
include hheedful

theorem of_choice (hchoice : (choices trace)[i]? = some t) :
    ∃ past signal rest, trace = past ++ .chose t signal :: rest ∧
      t.trigger = (m.pending event past).map Signal.trigger ∧ (firings past).length = i := by
  obtain ⟨past, activity, rest, rfl, hactivity, hlength⟩ := exists_split_of_filterMap hchoice
  obtain ⟨signal, rfl⟩ := choice?_eq_some_iff.1 hactivity
  obtain ⟨rfl, htrigger, hfired⟩ := hheedful past _ rest rfl
  exact ⟨past, _, rest, rfl, htrigger, hfired.symm.trans hlength⟩

theorem of_firing {firing : Firing ι} (hfiring : (firings trace)[i]? = some firing) :
    ∃ t, (choices trace)[i]? = some t ∧ t.source = some firing.source ∧ t.target = firing.target ∧
      t.kind = firing.kind ∧ m.id? (m.restingKey t.targetKey) = some firing.settled := by
  obtain ⟨past, activity, rest, rfl, hactivity, hlength⟩ := exists_split_of_filterMap hfiring
  obtain rfl := firing?_eq_some_iff.1 hactivity
  obtain ⟨_, hchosen, t, hlast, hfacts⟩ := hheedful past _ rest rfl
  have hlength : (firings past).length = i := hlength
  have hi : i < (choices past).length := by omega
  refine ⟨t, ?_, hfacts⟩
  rw [List.getLast?_eq_getElem?, hchosen, hlength, Nat.add_sub_cancel] at hlast
  rw [choices, List.filterMap_append]
  exact (List.getElem?_append_left hi).trans hlast

theorem trigger_of_first (hchoice : (choices trace)[0]? = some t) : t.trigger = some (.event event.kind) := by
  obtain ⟨past, _, _, _, htrigger, hnone⟩ := hheedful.of_choice hchoice
  rw [htrigger, pending, List.eq_nil_of_length_eq_zero hnone]
  rfl

theorem trigger_of_later (hchoice : (choices trace)[i + 1]? = some t) :
    ∃ firing, (firings trace)[i]? = some firing ∧ t.trigger = (m.owed firing.settled).map Signal.trigger := by
  obtain ⟨past, signal, rest, rfl, htrigger, hlength⟩ := hheedful.of_choice hchoice
  have hi : i < (firings past).length := by omega
  have hlast : (firings past).getLast? = some (firings past)[i] := by
    rw [List.getLast?_eq_getElem?, hlength, Nat.add_sub_cancel, List.getElem?_eq_getElem hi]
  refine ⟨(firings past)[i], ?_, ?_⟩
  · rw [firings, List.filterMap_append]
    exact (List.getElem?_append_left hi).trans (List.getElem?_eq_getElem hi)
  · rw [htrigger, pending, hlast]

theorem trigger_ne_none {rest : List (Activity ι κ ν γ)} (htrace : trace = past ++ .chose t signal :: rest)
    (howed : m.owed (restsIn current past) ≠ none) : t.trigger ≠ none := by
  obtain ⟨rfl, htrigger, _⟩ := hheedful past _ rest htrace
  rw [htrigger, Ne, Option.map_eq_none_iff, pending]
  cases hlast : (firings past).getLast? with
  | none => simp
  | some firing => simpa [restsIn, hlast] using howed

end Heedful

theorem map_trigger_owed (m : Machine ι κ ν γ) (id : ι) : (m.owed id).map Signal.trigger =
    if m.isFinal id ∧ (m.superstate? id).isSome then some .completion else none := by
  unfold owed
  split
  · rfl
  · rfl

/-! ### What every run keeps to -/

/-- How the transitions that a run chooses follow one another. -/
structure Disciplined (m : Machine ι κ ν γ) (current : ι) (event : Event κ ν) (trace : List (Activity ι κ ν γ)) :
    Prop where
  /-- Guards, actions and the resolver are told of the signal that is pending. -/
  heedful : m.Heedful current event trace
  /-- The first transition waits for the event. -/
  trigger_first : ∀ t, (choices trace)[0]? = some t → t.trigger = some (.event event.kind)
  /-- A later one waits for the completion by the final state in which the one before has come to rest, if that state is nested, and for no signal otherwise. -/
  trigger_later : ∀ i t, (choices trace)[i + 1]? = some t → ∃ before firing,
    (choices trace)[i]? = some before ∧ (firings trace)[i]? = some firing ∧ before.target = firing.target ∧
      m.id? (m.restingKey before.targetKey) = some firing.settled ∧
      t.trigger = if m.isFinal firing.settled ∧ (m.superstate? firing.settled).isSome then some .completion else none
  /-- At most one of them waits for an event. -/
  countP_le_one : (choices trace).countP (fun t => t.trigger.any Trigger.isEvent) ≤ 1
  /-- None that is chosen while the machine rests in a nested final state goes without a trigger. -/
  trigger_ne_none : ∀ past t signal rest, trace = past ++ .chose t signal :: rest →
    m.isFinal (restsIn current past) → (m.superstate? (restsIn current past)).isSome → t.trigger ≠ none

/-- **A run fires for its event once, and then only for what is owed.** In every run, successful or not, the first transition waits for the event, and each later one for the completion by the final state in which the machine rests, if it rests in one that is nested in another state, and for no signal if it does not. Guards, actions and the resolver are told of just that signal. The resolver has to answer one of its candidates. -/
theorem discipline_of_build [DecidableEq κ] {declarations : List (Declaration ι κ ν γ)}
    (hbuild : Machine.build declarations = .ok m) (hfaithful : m.resolver.Faithful) (current : ι) (event : Event κ ν)
    (context : γ) : m.Disciplined current event (m.process current event context).trace := by
  have hheedful := (coherent_of_build hbuild).heedful_process hfaithful current event context
  refine ⟨hheedful, fun t => hheedful.trigger_of_first, fun i t hchoice => ?_, ?_, ?_⟩
  · obtain ⟨firing, hfiring, htrigger⟩ := hheedful.trigger_of_later hchoice
    obtain ⟨before, hbefore, _, htarget, _, hsettled⟩ := hheedful.of_firing hfiring
    exact ⟨before, firing, hbefore, hfiring, htarget, hsettled, by rw [htrigger, map_trigger_owed]⟩
  · apply countP_le_one_of_later
    intro i t hchoice
    obtain ⟨firing, _, htrigger⟩ := hheedful.trigger_of_later hchoice
    rw [htrigger, map_trigger_owed]
    split
    · rfl
    · rfl
  · intro past t signal rest htrace hfinal hnested
    refine hheedful.trigger_ne_none htrace ?_
    rw [owed, if_pos ⟨hfinal, hnested⟩]
    simp

theorem player_discipline : Machine.build Player.declarations = .ok Player.machine ∧ Player.machine.resolver.Faithful ∧
    (choices (Player.machine.process .sounding ⟨.runOut, ()⟩ ()).trace).map Transition.trigger =
      [some (.event .runOut), some .completion] ∧
    Player.machine.Disciplined .sounding ⟨.runOut, ()⟩ (Player.machine.process .sounding ⟨.runOut, ()⟩ ()).trace :=
  ⟨rfl, Resolver.faithful_reject, rfl,
    discipline_of_build Player.build_eq Resolver.faithful_reject .sounding ⟨.runOut, ()⟩ ()⟩

end heedful

end Machine

end NestedMachine
