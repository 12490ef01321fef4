import NestedMachine.Proofs.Run.Bound
import NestedMachine.Proofs.Run.Stability
import NestedMachine.Run.Recording

/-!
# Final states at the top level

Nothing leaves a final state and nothing is nested in it, or the definition has defects. At the top level it also lies in no other state whose transitions could fire, and nothing is owed for it. So a step from there is over at once, whatever signal it sees (`Terminal.step_eq`): the state consumes the signal unasked, and no transition is triggered.

From this it follows on both sides of the moment in which a run comes to rest there. The turn that begins with that moment is the last one of the loop and adds nothing to the past (`Terminal.outcome_eq`), and every later run is one turn that does nothing (`Terminal.process_eq`).
-/

namespace NestedMachine

variable {ι κ ν γ : Type}

/-- What a caller sends: an event, in the context as it is by then. The clock is for the records. -/
structure Sending (κ ν γ : Type) where
  event : Event κ ν
  context : γ
  clock : Nat → Instant

namespace Machine

open Activity

/-- The outcomes for a caller who sends events one after another, each to the state that the run before has answered and with the history that it has answered. A run that fails is the last one. -/
def outcomes [DecidableEq ι] [DecidableEq κ] (m : Machine ι κ ν γ) (current : ι) (history : History ι) :
    List (Sending κ ν γ) → List (Outcome ι κ ν γ (ι × History ι))
  | [] => []
  | sending :: rest =>
    let outcome := m.processRecording sending.clock current sending.event history sending.context
    match outcome.result with
    | .ok (next, history) => outcome :: m.outcomes next history rest
    | .error _ => [outcome]

variable {m : Machine ι κ ν γ} {key : Key} {state : State ι κ ν γ} {turn : Turn ι κ ν γ}

/-- The key is that of a final state at the top level, and nothing leaves it. -/
structure Terminal (m : Machine ι κ ν γ) (key : Key) (state : State ι κ ν γ) : Prop where
  state?_eq : m.state? key = some state
  isFinal_eq : state.isFinal = true
  activeChain_eq : m.hierarchy.activeChain key = [key]
  leaving_eq : m.table.leaving key = []
  completion_eq : m.completion key = none

/-! ### Steps -/

namespace Terminal

variable (hterminal : m.Terminal key state)
include hterminal

variable [DecidableEq κ]

theorem triggered_eq (signal : Option (Signal ι κ ν)) : m.triggered key signal = [] := by
  rw [triggered, hterminal.activeChain_eq, List.flatMap_singleton, hterminal.leaving_eq, List.filter_nil]

theorem step_eq (count : Nat) (signal : Option (Signal ι κ ν)) (context : γ) :
    m.step count key signal context = ⟨.ok none, context, []⟩ := by
  have hoffer : (signal.forM fun told => m.offer told (m.hierarchy.activeChain key)) = pure () := by
    cases signal with
    | none => rfl
    | some told => exact offer_of_isFinal hterminal.state?_eq hterminal.isFinal_eq told
  have hselect : m.select state.id key signal context = ⟨.ok none, context, []⟩ := by
    rw [select_eq_none_iff, hterminal.triggered_eq signal, ready, Run.pure_apply]
  rw [step, lookup_of_state? hterminal.state?_eq, pure_bind, hoffer, pure_bind, Run.bind_apply_of_ok hselect]
  rfl

theorem ends (hkey : turn.key = key) : m.Ends turn
    ⟨if turn.count < m.limit then .ok state.id else .error (.limitReached m.limit state.id), turn.context, turn.past⟩ := by
  have hstate : m.state? turn.key = some state := hkey ▸ hterminal.state?_eq
  split
  · next hcount =>
    have hstep := hterminal.step_eq turn.count turn.signal turn.context
    have hends := Ends.rests hcount (hkey ▸ hstep) hstate
    rwa [List.append_nil] at hends
  · next hcount => exact .limit (Nat.le_of_not_lt hcount) hstate

theorem outcome_eq (hkey : turn.key = key) : m.outcome turn =
    ⟨if turn.count < m.limit then .ok state.id else .error (.limitReached m.limit state.id), turn.context, turn.past⟩ :=
  outcome_eq_of_ends (hterminal.ends hkey)

theorem process_eq [DecidableEq ι] (hlimit : 0 < m.limit) (hkey : m.key? state.id = some key) (event : Event κ ν)
    (context : γ) : m.process state.id event context = ⟨.ok state.id, context, []⟩ := by
  have hfirst : m.Takes state.id event context (.first key event context) := .first hkey
  have hcount : (Turn.first (ι := ι) key event context).count < m.limit := hlimit
  rw [hfirst.process_eq, hterminal.outcome_eq rfl, if_pos hcount]
  rfl

end Terminal

theorem finalDefects_eq_nil {initial : Key} (hdefects : m.defects initial = []) (hstate : m.state? key = some state)
    (hfinal : state.isFinal = true) : m.finalDefects key state.id = [] := by
  simp only [defects, List.append_eq_nil_iff] at hdefects
  obtain ⟨⟨_, hmisused⟩, _⟩ := hdefects
  have hmem : (key, state) ∈ m.keyed.filter fun entry => entry.2.isFinal :=
    List.mem_filter.2 ⟨mem_keyed_iff.2 hstate, hfinal⟩
  exact List.flatMap_eq_nil_iff.1 hmisused _ hmem

theorem leaving_eq_nil_of_isFinal {initial : Key} (hdefects : m.defects initial = []) (hstate : m.state? key = some state)
    (hfinal : state.isFinal = true) : m.table.leaving key = [] := by
  obtain ⟨hleft, _⟩ := List.append_eq_nil_iff.1 (finalDefects_eq_nil hdefects hstate hfinal)
  by_contra hleaving
  rw [if_neg (by simpa using hleaving)] at hleft
  cases hleft

theorem isLeaf_of_isFinal {initial : Key} (hdefects : m.defects initial = []) (hstate : m.state? key = some state)
    (hfinal : state.isFinal = true) : m.hierarchy.IsLeaf key := by
  obtain ⟨_, hnested⟩ := List.append_eq_nil_iff.1 (finalDefects_eq_nil hdefects hstate hfinal)
  intro hcomposite
  rw [if_pos hcomposite] at hnested
  cases hnested

variable [DecidableEq ι] {declarations : List (Declaration ι κ ν γ)} {id : ι}

theorem terminal_of_build (hbuild : Machine.build declarations = .ok m) (hfinal : m.isFinal id = true)
    (htop : m.superstate? id = none) : ∃ key state, m.key? id = some key ∧ state.id = id ∧ m.Terminal key state := by
  have hcoherent := coherent_of_build hbuild
  obtain ⟨_, t, _, _, hdefects, rfl⟩ := Draft.build_eq_ok_iff.1 hbuild
  generalize (Draft.ofDeclarations declarations).freeze = m at *
  obtain ⟨key, hkey⟩ : ∃ key, m.key? id = some key := by
    cases hkey : m.key? id with
    | none =>
      rw [isFinal, hkey] at hfinal
      cases hfinal
    | some key => exact ⟨key, rfl⟩
  have hid := id?_eq_of_key? hkey
  obtain ⟨state, hstate, rfl⟩ := exists_state_of_id? hid
  rw [hcoherent.isFinal_of_state? hstate] at hfinal
  have hparent := (hcoherent.superstate?_eq_none_iff hid).1 htop
  exact ⟨key, state, hkey, rfl, {
    state?_eq := hstate
    isFinal_eq := hfinal
    activeChain_eq := by rw [hcoherent.forest.activeChain_of_parent hparent, Hierarchy.activeChain_root]
    leaving_eq := leaving_eq_nil_of_isFinal hdefects hstate hfinal
    completion_eq := by rw [hcoherent.completion_eq hid, owed, htop]; simp }⟩

/-! ### Coming to rest there -/

variable [DecidableEq κ] {current : ι} {event : Event κ ν} {context : γ} {firing : Firing ι} {ending : Outcome ι κ ν γ ι}

omit [DecidableEq ι] in
theorem Ends.firings_eq (hends : m.Ends turn ending) : ending.firings = firings turn.past := by
  cases hresult : ending.result with
  | ok id =>
    obtain ⟨_, _, _, hfirings⟩ := hends.of_ok hresult
    exact hfirings
  | error error =>
    rcases hends.of_error hresult with ⟨_, htrace, _⟩ | ⟨_, hfirings, _⟩
    · rw [Outcome.firings, htrace]
      rfl
    · exact hfirings

theorem Takes.exists_turn_after (hturn : m.Takes current event context turn) (hfiring : firing ∈ firings turn.past) :
    ∃ after, m.Takes current event context after ∧ m.id? after.key = some firing.settled ∧
      ∃ past, after.past = past ++ [.fired firing] := by
  induction hturn with
  | first hkey => cases hfiring
  | @next turn turn' hturn hnext ih =>
    obtain ⟨t, latest, past, hpast, _, hfirings, hfires⟩ := hnext.exists_firing
    rw [hpast, firings_concat, hfirings] at hfiring
    rcases List.mem_append.1 hfiring with hbefore | hlatest
    · exact ih hbefore
    · obtain rfl : firing = latest := List.mem_singleton.1 hlatest
      exact ⟨turn', hturn.next hnext, hfires.settled, past, hpast⟩

/-- The run ends with the firing that has come to rest in `id`. It answers that state, unless it has used up its limit. -/
structure EndsWith (m : Machine ι κ ν γ) (id : ι) (firing : Firing ι) (o : Outcome ι κ ν γ ι) : Prop where
  trace_eq : ∃ past, o.trace = past ++ [.fired firing]
  result_eq : o.result = if o.firings.length < m.limit then .ok id else .error (.limitReached m.limit id)

/-- **A run that comes to rest in a terminal state ends there.** -/
theorem Terminal.endsWith (hterminal : m.Terminal key state) (hcoherent : m.Coherent)
    (hfiring : firing ∈ (m.process current event context).firings) (hsettled : firing.settled = state.id) :
    m.EndsWith state.id firing (m.process current event context) := by
  have hcurrent : current ∈ m.ids := by
    by_contra hunknown
    have hkey : m.key? current = none := if_neg hunknown
    rw [process, hkey] at hfiring
    cases hfiring
  obtain ⟨last, hlast, hends⟩ := exists_last hcurrent event context
  rw [hends.firings_eq] at hfiring
  obtain ⟨after, hafter, hid, past, hpast⟩ := hlast.exists_turn_after hfiring
  -- Only one key has the identity of the terminal state, so the turn after the firing is a turn there.
  have hkey : after.key = key := by
    have hkeys := (key?_eq_some_iff hcoherent.nodup).2 (hsettled ▸ hid)
    have hkeys' := (key?_eq_some_iff hcoherent.nodup).2 (id?_eq_of_state? hterminal.state?_eq)
    exact Option.some.inj (hkeys.symm.trans hkeys')
  rw [hafter.process_eq, hterminal.outcome_eq hkey]
  refine ⟨⟨past, hpast⟩, ?_⟩
  rw [hafter.counted.count_eq]
  rfl

/-! ### Whole runs -/

/-- **A final state at the top level is where a machine ends.** In a machine that a definition gives, every run from there answers that state, does nothing at all and leaves the context as it is; so does every run of a whole row of them, recorded or not, and the history does not grow. A run that comes to rest there fires nothing after that and does nothing else. No completion is owed, and the run succeeds unless it has used up its limit. -/
theorem absorbing_of_build (hbuild : Machine.build declarations = .ok m) (hfinal : m.isFinal id = true)
    (htop : m.superstate? id = none) :
    (∀ event context, m.process id event context = ⟨.ok id, context, []⟩) ∧
      (∀ history sendings, m.outcomes id history sendings =
        sendings.map fun sending => ⟨.ok (id, history), sending.context, []⟩) ∧
      m.owed id = none ∧ (∀ key, m.key? id = some key → m.completion key = none) ∧
      ∀ current event context firing, firing ∈ (m.process current event context).firings → firing.settled = id →
        m.EndsWith id firing (m.process current event context) := by
  have hcoherent := coherent_of_build hbuild
  obtain ⟨key, state, hkey, rfl, hterminal⟩ := terminal_of_build hbuild hfinal htop
  have hprocess := hterminal.process_eq (limit_pos_of_build hbuild) hkey
  refine ⟨hprocess, fun history sendings => ?_, ?_, fun other hother => ?_, fun current event context firing => ?_⟩
  · induction sendings with
    | nil => rfl
    | cons sending rest ih =>
      have hrecorded : m.processRecording sending.clock state.id sending.event history sending.context =
          ⟨.ok (state.id, history), sending.context, []⟩ := by
        rw [processRecording, hprocess]
        simp [Outcome.firings, History.appendAll, Except.map]
      rw [outcomes, hrecorded, List.map_cons, ← ih]
  · rw [← hcoherent.completion_eq (id?_eq_of_key? hkey), hterminal.completion_eq]
  · obtain rfl := Option.some.inj (hkey.symm.trans hother)
    exact hterminal.completion_eq
  · exact hterminal.endsWith hcoherent

/-- A candle that is lit, burns down by itself and is then burnt out. -/
def candle : List (Declaration Nat Unit Unit Nat) := [
  .initial 0 none,
  .final 2 none,
  .rule { source := 0, target := 1, trigger := some (.event ()) },
  .rule { source := 1, target := 2, action := some fun _ => modify (· + 1) }]

/-- The candle burns out, and lighting it again does nothing. Where only two transitions may fire, it burns out as well, but the run has used up its limit. -/
theorem candle_absorbing : ∃ m, Machine.build candle = .ok m ∧ m.isFinal 2 = true ∧ m.superstate? 2 = none ∧
    (∃ firing, firing ∈ (m.process 0 ⟨(), ()⟩ 7).firings ∧ firing.settled = 2 ∧
      m.EndsWith 2 firing (m.process 0 ⟨(), ()⟩ 7)) ∧
    (m.process 0 ⟨(), ()⟩ 7).result = .ok 2 ∧ m.process 2 ⟨(), ()⟩ 8 = ⟨.ok 2, 8, []⟩ ∧
    ∃ short, Machine.build (candle ++ [.limit 2]) = .ok short ∧ short.isFinal 2 = true ∧ short.superstate? 2 = none ∧
      (∃ firing, firing ∈ (short.process 0 ⟨(), ()⟩ 7).firings ∧ firing.settled = 2 ∧
        short.EndsWith 2 firing (short.process 0 ⟨(), ()⟩ 7)) ∧
      (short.process 0 ⟨(), ()⟩ 7).result = .error (.limitReached 2 2) := by
  have hbuild : Machine.build candle = .ok (Draft.ofDeclarations candle).freeze := rfl
  have hshort : Machine.build (candle ++ [.limit 2]) = .ok (Draft.ofDeclarations (candle ++ [.limit 2])).freeze := rfl
  have hfinal : (Draft.ofDeclarations candle).freeze.isFinal 2 = true := rfl
  have hshortFinal : (Draft.ofDeclarations (candle ++ [.limit 2])).freeze.isFinal 2 = true := rfl
  obtain ⟨hagain, _, _, _, hends⟩ := absorbing_of_build hbuild hfinal rfl
  obtain ⟨_, _, _, _, hshortEnds⟩ := absorbing_of_build hshort hshortFinal rfl
  have hfiring : ⟨1, 1, 2, 2, .external, 1⟩ ∈ ((Draft.ofDeclarations candle).freeze.process 0 ⟨(), ()⟩ 7).firings :=
    List.mem_of_getElem? (i := 1) rfl
  have hshortFiring : ⟨1, 1, 2, 2, .external, 1⟩ ∈
      ((Draft.ofDeclarations (candle ++ [.limit 2])).freeze.process 0 ⟨(), ()⟩ 7).firings :=
    List.mem_of_getElem? (i := 1) rfl
  exact ⟨_, hbuild, hfinal, rfl, ⟨_, hfiring, rfl, hends 0 ⟨(), ()⟩ 7 _ hfiring rfl⟩, rfl, hagain ⟨(), ()⟩ 8,
    _, hshort, hshortFinal, rfl, ⟨_, hshortFiring, rfl, hshortEnds 0 ⟨(), ()⟩ 7 _ hshortFiring rfl⟩, rfl⟩

end Machine

end NestedMachine
