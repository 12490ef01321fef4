import NestedMachine.Proofs.Run.Attention

/-!
# The loop, turn by turn

A run is a loop. It counts the transitions that have fired, and each turn begins by comparing the count with the limit. If the limit is not used up, the machine takes a step, and if that fires something, the loop goes on from where the machine has come to rest. `Machine.Next` leads from one turn to the next, and `Machine.Ends` says how a turn ends the loop. No loop goes on for ever (`wellFounded_next`).

`proceed` counts down what is left of the limit instead, and comes to the same end: what a run answers and does is what the last turn of its loop answers and has done (`exists_last`). What a turn adds to the past is read off its step (`Next.exists_firing`, `Ends.of_ok`, `Ends.of_error`), so that an argument about runs is an induction on the turns that a run `Takes`.
-/

namespace NestedMachine

variable {ι κ ν γ : Type}

/-- What the loop holds when a turn begins: how many transitions have fired, where the machine rests, and the signal that is pending. -/
structure Turn (ι κ ν γ : Type) extends Moment ι κ ν γ where
  count : Nat
  key : Key
  signal : Option (Signal ι κ ν)

def Turn.first (key : Key) (event : Event κ ν) (context : γ) : Turn ι κ ν γ :=
  ⟨⟨context, []⟩, 0, key, some (.event event)⟩

namespace Machine

open Activity

variable {m : Machine ι κ ν γ} {turn turn' last : Turn ι κ ν γ} {ending : Outcome ι κ ν γ ι}

section

variable [DecidableEq κ]

/-- The limit is not used up, and the step fires something. Then it is the next turn, with one more on the count. -/
inductive Next (m : Machine ι κ ν γ) : Turn ι κ ν γ → Turn ι κ ν γ → Prop where
  | intro {turn : Turn ι κ ν γ} {settled : Key} {context : γ} {trace : List (Activity ι κ ν γ)}
      (hcount : turn.count < m.limit)
      (hstep : m.step turn.count turn.key turn.signal turn.context = ⟨.ok (some settled), context, trace⟩) :
      Next m turn ⟨⟨context, turn.past ++ trace⟩, turn.count + 1, settled, m.completion settled⟩

/-- How a turn ends the loop: the limit is used up, or the step fires nothing, or it fails. -/
inductive Ends (m : Machine ι κ ν γ) : Turn ι κ ν γ → Outcome ι κ ν γ ι → Prop where
  | limit {turn : Turn ι κ ν γ} {state : State ι κ ν γ} (hcount : m.limit ≤ turn.count)
      (hstate : m.state? turn.key = some state) :
      Ends m turn ⟨.error (.limitReached m.limit state.id), turn.context, turn.past⟩
  | rests {turn : Turn ι κ ν γ} {state : State ι κ ν γ} {context : γ} {trace : List (Activity ι κ ν γ)}
      (hcount : turn.count < m.limit)
      (hstep : m.step turn.count turn.key turn.signal turn.context = ⟨.ok none, context, trace⟩)
      (hstate : m.state? turn.key = some state) :
      Ends m turn ⟨.ok state.id, context, turn.past ++ trace⟩
  | fails {turn : Turn ι κ ν γ} {error : RunError ι} {context : γ} {trace : List (Activity ι κ ν γ)}
      (hcount : turn.count < m.limit)
      (hstep : m.step turn.count turn.key turn.signal turn.context = ⟨.error error, context, trace⟩) :
      Ends m turn ⟨.error error, context, turn.past ++ trace⟩

/-! ### What a step adds -/

/-- The firing is that of the transition, which the machine has fired from `key` as the next after `count` others, and has come to rest in `settled`. -/
structure Fires (m : Machine ι κ ν γ) (count : Nat) (key : Key) (signal : Option (Signal ι κ ν))
    (t : Transition ι κ ν γ) (settled : Key) (firing : Firing ι) : Prop where
  origin : m.id? key = some firing.origin
  source : m.id? t.sourceKey = some firing.source
  target : t.target = firing.target
  settled_eq : settled = m.restingKey t.targetKey
  settled : m.id? settled = some firing.settled
  kind : t.kind = firing.kind
  step : firing.step = count
  triggered : m.resolver.Faithful → t ∈ m.triggered key signal

end

/-- These transitions have been chosen so far, and these have fired. -/
def Tallies (chosen : List (Transition ι κ ν γ)) (fired : List (Firing ι)) (now : Moment ι κ ν γ) : Prop :=
  choices now.past = chosen ∧ firings now.past = fired

/-- A step that fails has fired nothing, and it is not the limit that it fails at. -/
def FailsMidway (fired : List (Firing ι)) (error : RunError ι) (now : Moment ι κ ν γ) : Prop :=
  firings now.past = fired ∧ ∀ limit id, error ≠ .limitReached limit id

variable {chosen : List (Transition ι κ ν γ)} {fired : List (Firing ι)} {now : Moment ι κ ν γ} {key : Key}
variable {signal : Option (Signal ι κ ν)} {t : Transition ι κ ν γ}

theorem Tallies.concat (hnow : Tallies chosen fired now) {activity : Activity ι κ ν γ} (hchoice : activity.choice? = none)
    (hfiring : activity.firing? = none) (context : γ) : Tallies chosen fired ⟨context, now.past ++ [activity]⟩ := by
  constructor
  · rw [choices_concat, hchoice, Option.toList_none, List.append_nil, hnow.1]
  · rw [firings_concat, hfiring, Option.toList_none, List.append_nil, hnow.2]

theorem Tallies.chose (hnow : Tallies chosen fired now) (t : Transition ι κ ν γ) (signal : Option (Signal ι κ ν)) :
    Tallies (chosen ++ [t]) fired ⟨now.context, now.past ++ [.chose t signal]⟩ := by
  constructor
  · rw [choices_concat, hnow.1]
    rfl
  · rw [firings_concat, hnow.2]
    exact List.append_nil fired

theorem Tallies.failsMidway (hnow : Tallies chosen fired now) (key : Key) : FailsMidway fired (.danglingKey key) now :=
  ⟨hnow.2, by simp⟩

theorem tallies_bears (call : Call ι κ ν γ) : Run.Bears (Tallies chosen fired) (FailsMidway fired) call where
  outlasts _ hnow context := hnow.concat rfl rfl context
  allows _ _ hnow := ⟨hnow.2, by simp⟩

theorem tallies_withstandsFiring : WithstandsFiring (Tallies chosen fired) (FailsMidway fired) where
  dangling key _ hnow := hnow.failsMidway key
  unrelated _ _ hnow := ⟨hnow.2, by simp⟩
  left _ now hnow := hnow.concat rfl rfl now.context
  entered _ now hnow := hnow.concat rfl rfl now.context
  exit _ := tallies_bears _
  entry _ := tallies_bears _
  initialAction _ := tallies_bears _

variable [DecidableEq κ]

/-- How things stand after a step: as before if it has fired nothing, and else with one more firing, which is the last thing that it has done. -/
def AfterFiring (m : Machine ι κ ν γ) (count : Nat) (key : Key) (signal : Option (Signal ι κ ν))
    (chosen : List (Transition ι κ ν γ)) (fired : List (Firing ι)) : Option Key → Moment ι κ ν γ → Prop
  | none, now => Tallies chosen fired now
  | some settled, now => ∃ t firing past, now.past = past ++ [.fired firing] ∧
      Tallies (chosen ++ [t]) fired ⟨now.context, past⟩ ∧ m.Fires count key signal t settled firing

/-- **A step fires one transition or none.** -/
theorem ensures_step_fires (hnow : Tallies chosen fired now) (count : Nat) (key : Key)
    (signal : Option (Signal ι κ ν)) :
    (m.step count key signal).Ensures now (m.AfterFiring count key signal chosen fired) (FailsMidway fired) := by
  have hoffer : (signal.forM fun signal => m.offer signal (m.hierarchy.activeChain key)).Keeps
      (Tallies chosen fired) (FailsMidway fired) :=
    keeps_offer_pending (fun key _ => tallies_withstandsFiring.lookup key) fun _ _ _ => tallies_bears _
  apply Run.ensures_bind
  refine Run.ensures_lookup (fun origin horigin => ?_) fun _ => hnow.failsMidway _
  apply (hoffer now hnow).bind
  intro _ now hnow
  apply (ensures_select key (fun _ => tallies_bears _) (fun _ => tallies_bears _) hnow).bind
  intro choice now hchoice
  obtain ⟨htriggered, hnow⟩ := hchoice
  cases choice with
  | none => exact Run.ensures_pure hnow
  | some t =>
    apply Run.ensures_bind
    apply Run.ensures_note
    apply (tallies_withstandsFiring.ensures_fire (tallies_bears _) key (hnow.chose t signal)).bind
    intro settled now hsettled
    obtain ⟨rfl, hnow⟩ := hsettled
    apply Run.ensures_bind
    refine Run.ensures_lookup (fun source hsource => ?_) fun _ => hnow.failsMidway _
    apply Run.ensures_bind
    refine Run.ensures_lookup (fun resting hresting => ?_) fun _ => hnow.failsMidway _
    apply Run.ensures_bind
    apply Run.ensures_note
    -- The choice and the firing frame what the step does, and nothing in between is either of them.
    refine Run.ensures_pure ⟨t, _, now.past, rfl, hnow, ?_⟩
    exact {
      origin := id?_eq_of_state? horigin
      source := id?_eq_of_state? hsource
      target := rfl
      settled_eq := rfl
      settled := id?_eq_of_state? hresting
      kind := rfl
      step := rfl
      triggered := fun hfaithful => htriggered hfaithful t rfl }

theorem ensures_turn (m : Machine ι κ ν γ) (turn : Turn ι κ ν γ) :
    (m.step turn.count turn.key turn.signal).Ensures turn.toMoment
      (m.AfterFiring turn.count turn.key turn.signal (choices turn.past) (firings turn.past))
      (FailsMidway (firings turn.past)) :=
  ensures_step_fires ⟨rfl, rfl⟩ turn.count turn.key turn.signal

theorem Next.exists_firing (hnext : m.Next turn turn') : ∃ t firing past, turn'.past = past ++ [.fired firing] ∧
    choices past = choices turn.past ++ [t] ∧ firings past = firings turn.past ∧
      m.Fires turn.count turn.key turn.signal t turn'.key firing := by
  obtain ⟨_, hstep⟩ := hnext
  have hfires := (m.ensures_turn turn).of_ok (congrArg Outcome.result hstep)
  rw [hstep] at hfires
  obtain ⟨t, firing, past, hpast, htallies, hfires⟩ := hfires
  exact ⟨t, firing, past, hpast, htallies.1, htallies.2, hfires⟩

theorem Next.count_eq (hnext : m.Next turn turn') : turn'.count = turn.count + 1 := by
  obtain ⟨_, _⟩ := hnext
  rfl

theorem Next.count_lt (hnext : m.Next turn turn') : turn.count < m.limit := by
  obtain ⟨hcount, _⟩ := hnext
  exact hcount

/-! ### What an end adds -/

theorem Ends.of_ok (hends : m.Ends turn ending) {id : ι} (hresult : ending.result = .ok id) :
    m.id? turn.key = some id ∧ turn.count < m.limit ∧ choices ending.trace = choices turn.past ∧
      ending.firings = firings turn.past := by
  cases hends with
  | limit _ _ => cases hresult
  | fails _ _ => cases hresult
  | rests hcount hstep hstate =>
    obtain rfl := Except.ok.inj hresult
    have htallies := (m.ensures_turn turn).of_ok (congrArg Outcome.result hstep)
    rw [hstep] at htallies
    exact ⟨id?_eq_of_state? hstate, hcount, htallies.1, htallies.2⟩

theorem Ends.of_error (hends : m.Ends turn ending) {error : RunError ι} (hresult : ending.result = .error error) :
    (m.limit ≤ turn.count ∧ ending.trace = turn.past ∧
        ∃ id, m.id? turn.key = some id ∧ error = .limitReached m.limit id) ∨
      (turn.count < m.limit ∧ ending.firings = firings turn.past ∧ ∀ limit id, error ≠ .limitReached limit id) := by
  cases hends with
  | rests _ _ _ => cases hresult
  | limit hcount hstate =>
    obtain rfl := Except.error.inj hresult
    exact .inl ⟨hcount, rfl, _, id?_eq_of_state? hstate, rfl⟩
  | fails hcount hstep =>
    obtain rfl := Except.error.inj hresult
    have hfails := (m.ensures_turn turn).of_error (congrArg Outcome.result hstep)
    rw [hstep] at hfails
    exact .inr ⟨hcount, hfails⟩

/-! ### The loop and its end -/

theorem wellFounded_next (m : Machine ι κ ν γ) : WellFounded (Function.swap m.Next) := by
  -- What is left of the limit becomes less with each turn.
  refine Subrelation.wf (r := InvImage (· < ·) fun turn => m.limit - turn.count) ?_ (InvImage.wf _ Nat.lt_wfRel.wf)
  intro turn' turn hnext
  have hlt := hnext.count_lt
  have heq := hnext.count_eq
  show m.limit - turn'.count < m.limit - turn.count
  omega

/-- How `proceed` goes on from a turn, with all that was done before. -/
def outcome (m : Machine ι κ ν γ) (turn : Turn ι κ ν γ) : Outcome ι κ ν γ ι :=
  let rest := m.proceed (m.limit - turn.count) turn.count turn.key turn.signal turn.context
  ⟨rest.result, rest.context, turn.past ++ rest.trace⟩

theorem outcome_eq_of_next (hnext : m.Next turn turn') : m.outcome turn = m.outcome turn' := by
  obtain ⟨hcount, hstep⟩ := hnext
  have hbudget : m.limit - turn.count = m.limit - (turn.count + 1) + 1 := by omega
  simp only [outcome, hbudget, proceed, Run.bind_apply_of_ok hstep, List.append_assoc]

theorem outcome_eq_of_ends (hends : m.Ends turn ending) : m.outcome turn = ending := by
  cases hends with
  | limit hcount hstate =>
    have hbudget : m.limit - turn.count = 0 := by omega
    simp [outcome, hbudget, proceed, lookup_of_state? hstate, Run.fail_apply]
  | rests hcount hstep hstate =>
    have hbudget : m.limit - turn.count = m.limit - turn.count - 1 + 1 := by omega
    rw [outcome, hbudget, proceed, Run.bind_apply_of_ok hstep]
    simp [lookup_of_state? hstate, Run.pure_apply]
  | fails hcount hstep =>
    have hbudget : m.limit - turn.count = m.limit - turn.count - 1 + 1 := by omega
    rw [outcome, hbudget, proceed, Run.bind_apply_of_error hstep]

variable [DecidableEq ι] {current : ι} {event : Event κ ν} {context : γ}

/-- The turns that the loop takes to process an event. -/
inductive Takes (m : Machine ι κ ν γ) (current : ι) (event : Event κ ν) (context : γ) : Turn ι κ ν γ → Prop where
  | first {key : Key} (hkey : m.key? current = some key) : Takes m current event context (.first key event context)
  | next {turn turn' : Turn ι κ ν γ} (hturn : Takes m current event context turn) (hnext : m.Next turn turn') :
      Takes m current event context turn'

namespace Takes

theorem process_eq (hturn : m.Takes current event context turn) :
    m.process current event context = m.outcome turn := by
  induction hturn with
  | first hkey => simp [process, hkey, outcome, Turn.first]
  | next _ hnext ih => exact ih.trans (outcome_eq_of_next hnext)

theorem exists_state (hturn : m.Takes current event context turn) : ∃ state, m.state? turn.key = some state := by
  cases hturn with
  | first hkey =>
    obtain ⟨state, hstate, _⟩ := exists_state_of_id? (id?_eq_of_key? hkey)
    exact ⟨state, hstate⟩
  | next _ hnext =>
    obtain ⟨_, _, _, _, _, _, hfires⟩ := hnext.exists_firing
    obtain ⟨state, hstate, _⟩ := exists_state_of_id? hfires.settled
    exact ⟨state, hstate⟩

theorem exists_ends (hturn : m.Takes current event context turn) :
    ∃ last, m.Takes current event context last ∧ m.Ends last (m.outcome turn) := by
  -- The induction goes from a turn to the next one, of which there is no endless row.
  induction turn using (wellFounded_next m).induction with
  | _ turn ih =>
    obtain ⟨_, hstate⟩ := hturn.exists_state
    rcases Nat.lt_or_ge turn.count m.limit with hcount | hcount
    · match hstep : m.step turn.count turn.key turn.signal turn.context with
      | ⟨.error error, context, trace⟩ =>
        have hends := Ends.fails hcount hstep
        exact ⟨turn, hturn, outcome_eq_of_ends hends ▸ hends⟩
      | ⟨.ok none, context, trace⟩ =>
        have hends := Ends.rests hcount hstep hstate
        exact ⟨turn, hturn, outcome_eq_of_ends hends ▸ hends⟩
      | ⟨.ok (some settled), context, trace⟩ =>
        have hnext := Next.intro hcount hstep
        rw [outcome_eq_of_next hnext]
        exact ih _ hnext (hturn.next hnext)
    · have hends := Ends.limit hcount hstate
      exact ⟨turn, hturn, outcome_eq_of_ends hends ▸ hends⟩

end Takes

/-- **The loop comes to an end**, and ends like the run. -/
theorem exists_last (hcurrent : current ∈ m.ids) (event : Event κ ν) (context : γ) :
    ∃ last, m.Takes current event context last ∧ m.Ends last (m.process current event context) := by
  have hfirst : m.Takes current event context (.first _ event context) := .first (if_pos hcurrent)
  rw [hfirst.process_eq]
  exact hfirst.exists_ends

section always

variable {P : Moment ι κ ν γ → Prop} (hstart : P ⟨context, []⟩)
  (hstep : ∀ turn, m.Takes current event context turn → turn.count < m.limit → P turn.toMoment →
    (m.step turn.count turn.key turn.signal).Ensures turn.toMoment (fun _ => P) fun _ => P)
include hstart hstep

theorem Takes.always (hturn : m.Takes current event context turn) : P turn.toMoment := by
  induction hturn with
  | first hkey => exact hstart
  | next hbefore hnext ih =>
    obtain ⟨hcount, hfires⟩ := hnext
    have hafter := (hstep _ hbefore hcount ih).always
    rwa [hfires] at hafter

/-- **What every step keeps, a run keeps**, wherever it ends. Turns that find the limit used up take no step. -/
theorem always_process_of_lt :
    P ⟨(m.process current event context).context, (m.process current event context).trace⟩ := by
  by_cases hcurrent : current ∈ m.ids
  · obtain ⟨last, hlast, hends⟩ := exists_last hcurrent event context
    have hbefore := hlast.always hstart hstep
    have hafter := fun hcount => (hstep last hlast hcount hbefore).always
    generalize m.process current event context = ending at *
    cases hends with
    | limit _ _ => exact hbefore
    | rests hcount hlaststep _ =>
      specialize hafter hcount
      rwa [hlaststep] at hafter
    | fails hcount hlaststep =>
      specialize hafter hcount
      rwa [hlaststep] at hafter
  · have hkey : m.key? current = none := if_neg hcurrent
    rw [process, hkey]
    exact hstart

omit hstep in
theorem always_process (hstep : ∀ turn, m.Takes current event context turn → P turn.toMoment →
      (m.step turn.count turn.key turn.signal).Ensures turn.toMoment (fun _ => P) fun _ => P) :
    P ⟨(m.process current event context).context, (m.process current event context).trace⟩ :=
  always_process_of_lt hstart fun turn hturn _ => hstep turn hturn

end always

end Machine

end NestedMachine
