import NestedMachine.Proofs.Machine.Cascade
import NestedMachine.Proofs.Run.Bound
import NestedMachine.Run.Recording

/-!
# What a history tells

A recorded run is the run with a record for each firing, and could as well be recorded while it goes on, one turn after another (`processRecording_eq_proceedRecording`). The firings of a run are in order: each begins where the one before has come to rest (`Connects`), and each is that of the transition that was chosen for it (`Performs`). Both are kept by every turn (`Takes.recounted`). Connected firings stay connected when more are appended, so the records of many runs, each from where the one before has come to rest, are one connected history, and its path goes through all the states in which the machine has rested (`Connects.path`).
-/

namespace NestedMachine

variable {ι κ ν γ α : Type}

/-! ### Connected firings -/

/-- Each firing begins where the one before has come to rest. The first begins in the first state, and the last has come to rest in the last. -/
inductive Connects : ι → List (Firing ι) → ι → Prop where
  | nil (id : ι) : Connects id [] id
  | cons {firing : Firing ι} {rest : List (Firing ι)} {last : ι} (hrest : Connects firing.settled rest last) :
      Connects firing.origin (firing :: rest) last

theorem Connects.append {first middle last : ι} {firings more : List (Firing ι)} (hfirings : Connects first firings middle)
    (hmore : Connects middle more last) : Connects first (firings ++ more) last := by
  induction hfirings with
  | nil _ => exact hmore
  | cons _ ih => exact .cons (ih hmore)

theorem Connects.concat {first : ι} {firings : List (Firing ι)} {firing : Firing ι}
    (hfirings : Connects first firings firing.origin) : Connects first (firings ++ [firing]) firing.settled :=
  hfirings.append (.cons (.nil _))

namespace History

variable {history : History ι} {first last : ι}

theorem path_nil (hnil : history.records = []) : history.path = [] := by
  simp [path, hnil]

theorem path_eq (hconnects : Connects first (history.records.map Record.toFiring) last) (hne : history.records ≠ []) :
    history.path = first :: history.records.map (·.settled) := by
  obtain ⟨records⟩ := history
  cases records with
  | nil => exact absurd rfl hne
  | cons record rest =>
    cases hconnects
    rfl

end History

theorem Connects.path {first last : ι} {records : List (Record ι)}
    (hconnects : Connects first (records.map Record.toFiring) last) :
    (first :: records.map (·.settled)).getLast? = some last ∧
      ∀ i record, records[i]? = some record → (first :: records.map (·.settled))[i]? = some record.origin ∧
        (first :: records.map (·.settled))[i + 1]? = some record.settled := by
  induction records generalizing first with
  | nil =>
    cases hconnects
    exact ⟨rfl, by simp⟩
  | cons head rest ih =>
    cases hconnects with
    | cons hrest =>
      obtain ⟨hlast, hmiddle⟩ := ih hrest
      refine ⟨by rw [List.map_cons, List.getLast?_cons_cons]; exact hlast, fun i record hrecord => ?_⟩
      cases i with
      | zero =>
        obtain rfl := Option.some.inj hrecord
        exact ⟨rfl, rfl⟩
      | succ i => exact hmiddle i record hrecord

/-! ### Recording while a run goes on -/

/-- A run together with what it has fired. -/
def Run.observe (run : Run ι κ ν γ α) : Run ι κ ν γ (α × List (Firing ι)) := fun context =>
  let outcome := run context
  ⟨outcome.result.map (·, outcome.firings), outcome.context, outcome.trace⟩

theorem Run.map_apply {β : Type} (f : α → β) (run : Run ι κ ν γ α) (context : γ) :
    (f <$> run) context = ⟨(run context).result.map f, (run context).context, (run context).trace⟩ := by
  rw [map_eq_pure_bind]
  match hrun : run context with
  | ⟨.error _, _, _⟩ => exact bind_apply_of_error hrun
  | ⟨.ok _, _, _⟩ => simp [bind_apply_of_ok hrun, pure_apply, Except.map]

namespace Machine

open Activity

variable {m : Machine ι κ ν γ}

/-- Takes steps like `proceed`, and records what each of them has fired before it takes the next. -/
def proceedRecording [DecidableEq κ] (m : Machine ι κ ν γ) (clock : Nat → Instant) :
    (budget count : Nat) → Key → Option (Signal ι κ ν) → History ι → Run ι κ ν γ (ι × History ι)
  | 0, _, key, _, _ => do
    let state ← m.lookup key
    Run.fail (.limitReached m.limit state.id)
  | budget + 1, count, key, signal, history => do
    let (result, more) ← (m.step count key signal).observe
    let history := history.appendAll (more.map (Firing.record clock))
    match result with
    | none =>
      let state ← m.lookup key
      return (state.id, history)
    | some settled => m.proceedRecording clock budget (count + 1) settled (m.completion settled) history

section recording

variable [DecidableEq κ]

theorem proceedRecording_apply (m : Machine ι κ ν γ) (clock : Nat → Instant) (budget count : Nat) (key : Key)
    (signal : Option (Signal ι κ ν)) (history : History ι) (context : γ) :
    m.proceedRecording clock budget count key signal history context =
      let outcome := m.proceed budget count key signal context
      ⟨outcome.result.map (·, history.appendAll (outcome.firings.map (Firing.record clock))), outcome.context,
        outcome.trace⟩ := by
  induction budget generalizing count key signal history context with
  | zero =>
    rw [proceedRecording, proceed]
    cases hstate : m.state? key with
    | none => simp [lookup, hstate, Run.bind_apply_of_error (Run.fail_apply _ _), Except.map]
    | some state => simp [lookup, hstate, Run.fail_apply, Except.map]
  | succ budget ih =>
    rw [proceedRecording, proceed]
    rcases hstep : m.step count key signal context with ⟨error | result, context', trace⟩
    · have hobserve : (m.step count key signal).observe context = ⟨.error error, context', trace⟩ := by
        rw [Run.observe, hstep]
        rfl
      simp only [Run.bind_apply_of_error hobserve, Run.bind_apply_of_error hstep, Except.map]
    · have hobserve : (m.step count key signal).observe context = ⟨.ok (result, firings trace), context', trace⟩ := by
        rw [Run.observe, hstep]
        rfl
      rw [Run.bind_apply_of_ok hobserve, Run.bind_apply_of_ok hstep]
      cases result with
      | none =>
        cases hstate : m.state? key with
        | none => simp [lookup, hstate, Run.map_apply, Run.fail_apply, Except.map]
        | some state => simp [lookup, hstate, Run.pure_apply, Except.map, Outcome.firings, firings]
      | some settled => simp [ih, History.appendAll, Outcome.firings, firings]

variable [DecidableEq ι]

/-- **A recorded run could be recorded while it goes on.** -/
theorem processRecording_eq_proceedRecording {current : ι} {key : Key} (hkey : m.key? current = some key)
    (clock : Nat → Instant) (event : Event κ ν) (history : History ι) : m.processRecording clock current event history =
      m.proceedRecording clock m.limit 0 key (some (.event event)) history := by
  funext context
  rw [proceedRecording_apply]
  simp only [processRecording, process, hkey]

end recording

/-! ### What each record tells -/

section performs

variable [DecidableEq ι]

def Encloses (m : Machine ι κ ν γ) (outer inner : ι) : Prop :=
  ∃ ancestor key, m.key? outer = some ancestor ∧ m.key? inner = some key ∧ ancestor ∈ m.hierarchy.chain key

/-- The firing is that of an ordinary transition of the machine, which leaves the state in which the machine rested, or one that contains it, and leads to the state in which it rests then, or to one that contains that. -/
structure Performs (m : Machine ι κ ν γ) (t : Transition ι κ ν γ) (firing : Firing ι) : Prop where
  mem : t ∈ m.table.all
  kind_ne_initial : t.kind ≠ .initial
  source_eq : t.source = some firing.source
  target_eq : t.target = firing.target
  kind_eq : t.kind = firing.kind
  source_encloses : m.Encloses firing.source firing.origin
  target_encloses : m.Encloses firing.target firing.settled

theorem Fires.performs [DecidableEq κ] {count : Nat} {key settled : Key} {signal : Option (Signal ι κ ν)}
    {t : Transition ι κ ν γ} {firing : Firing ι} (hfires : m.Fires count key signal t settled firing)
    (hcoherent : m.Coherent) (hfaithful : m.resolver.Faithful) : m.Performs t firing := by
  have hkey? : ∀ {key id}, m.id? key = some id → m.key? id = some key := (key?_eq_some_iff hcoherent.nodup).2
  obtain ⟨⟨active, hactive, hleaving⟩, _⟩ := mem_triggered_iff.1 (hfires.triggered hfaithful)
  obtain ⟨hall, hkind, rfl⟩ := hcoherent.mem_leaving_iff.1 hleaving
  have htarget := hcoherent.id?_target t hall
  have hdescends := hcoherent.descends (hcoherent.contains_target hall)
  exact {
    mem := hall
    kind_ne_initial := hkind
    source_eq := (hcoherent.id?_source t hall).symm.trans hfires.source
    target_eq := hfires.target
    kind_eq := hfires.kind
    source_encloses :=
      ⟨t.sourceKey, key, hkey? hfires.source, hkey? hfires.origin, (m.hierarchy.activeChain_sublist _).subset hactive⟩
    target_encloses := by
      refine ⟨t.targetKey, settled, hkey? (hfires.target ▸ htarget), hkey? hfires.settled, ?_⟩
      rw [hfires.settled_eq]
      exact hdescends.mem_chain hcoherent }

variable [DecidableEq κ] {current : ι} {event : Event κ ν} {context : γ} {turn : Turn ι κ ν γ}

/-- The firings behind a turn are connected and numbered, and each performs the transition that was chosen for it. -/
structure Recounted (m : Machine ι κ ν γ) (current : ι) (turn : Turn ι κ ν γ) : Prop where
  connects : Connects current (firings turn.past) (restsIn current turn.past)
  steps_eq : (firings turn.past).map Firing.step = List.range (firings turn.past).length
  performs : m.Coherent → m.resolver.Faithful → List.Forall₂ m.Performs (choices turn.past) (firings turn.past)

theorem Takes.recounted (hturn : m.Takes current event context turn) : m.Recounted current turn := by
  induction hturn with
  | first _ => exact ⟨.nil current, rfl, fun _ _ => .nil⟩
  | @next turn turn' hturn hnext ih =>
    have hcounted := hturn.counted
    obtain ⟨t, firing, past, hpast, hchoices, hfirings, hfires⟩ := hnext.exists_firing
    have hfired : firings turn'.past = firings turn.past ++ [firing] := by
      rw [hpast, firings_concat, hfirings]
      rfl
    have hchosen : choices turn'.past = choices turn.past ++ [t] := by
      rw [hpast, choices_concat, hchoices]
      exact List.append_nil _
    have hrests : restsIn current turn'.past = firing.settled := by
      rw [restsIn, hfired]
      simp
    -- The firing begins at the key of the turn, and that is where the one before it has come to rest.
    have horigin : restsIn current turn.past = firing.origin :=
      Option.some.inj (hcounted.rests.symm.trans hfires.origin)
    refine ⟨?_, ?_, fun hcoherent hfaithful => ?_⟩
    · rw [hfired, hrests]
      exact Connects.concat (horigin ▸ ih.connects)
    · rw [hfired, List.map_append, ih.steps_eq, List.length_append, List.length_singleton, List.range_succ,
        List.map_singleton, hfires.step, hcounted.count_eq]
    · rw [hfired, hchosen]
      exact List.rel_append (ih.performs hcoherent hfaithful) (.cons (hfires.performs hcoherent hfaithful) .nil)

end performs

/-! ### Histories -/

section histories

variable [DecidableEq ι] [DecidableEq κ]

/-- The records tell what has happened in a trace that begins in `current` and ends in `next`: one record for each transition that was chosen, in the order in which they fired. That a record tells of a transition of the machine takes a resolver that answers one of its candidates. -/
structure Recounts (m : Machine ι κ ν γ) (current : ι) (trace : List (Activity ι κ ν γ)) (records : List (Record ι))
    (next : ι) : Prop where
  firings_eq : records.map Record.toFiring = firings trace
  steps_eq : records.map (·.step) = List.range records.length
  connects : Connects current (records.map Record.toFiring) next
  performs : m.resolver.Faithful → List.Forall₂ m.Performs (choices trace) (records.map Record.toFiring)

variable {current next : ι} {event : Event κ ν} {context : γ}

omit [DecidableEq ι] [DecidableEq κ] in
theorem map_toFiring_record (clock : Nat → Instant) (fired : List (Firing ι)) :
    (fired.map (Firing.record clock)).map Record.toFiring = fired := by
  rw [List.map_map]
  exact List.map_id fired

theorem Coherent.recounts (hcoherent : m.Coherent) (hresult : (m.process current event context).result = .ok next)
    (clock : Nat → Instant) : m.Recounts current (m.process current event context).trace
      ((m.process current event context).firings.map (Firing.record clock)) next := by
  have hcurrent : current ∈ m.ids := by
    by_contra hcurrent
    have hkey : m.key? current = none := if_neg hcurrent
    rw [process, hkey] at hresult
    cases hresult
  obtain ⟨last, hlast, hends⟩ := exists_last hcurrent event context
  obtain ⟨hnext, _, hchoices, hfirings⟩ := hends.of_ok hresult
  have hrecounted := hlast.recounted
  have hrests : restsIn current last.past = next := Option.some.inj (hlast.counted.rests.symm.trans hnext)
  refine ⟨map_toFiring_record clock _, ?_, ?_, fun hfaithful => ?_⟩
  · rw [hfirings, List.map_map, List.length_map]
    exact hrecounted.steps_eq
  · rw [map_toFiring_record, hfirings, ← hrests]
    exact hrecounted.connects
  · rw [map_toFiring_record, hfirings, hchoices]
    exact hrecounted.performs hcoherent hfaithful

/-- What a caller has recorded since it came to `first` with an empty history, and what its runs have fired: each event is sent to the state that the run before has answered, and all runs have succeeded. -/
inductive Chronicle (m : Machine ι κ ν γ) (first : ι) : List (Firing ι) → History ι → ι → Prop where
  | begin : Chronicle m first [] {} first
  | record {fired : List (Firing ι)} {history history' : History ι} {current next : ι}
      (hpast : Chronicle m first fired history current) (clock : Nat → Instant) (event : Event κ ν) (context : γ)
      (hresult : (m.processRecording clock current event history context).result = .ok (next, history')) :
      Chronicle m first (fired ++ (m.process current event context).firings) history' next

theorem processRecording_eq_ok {clock : Nat → Instant} {history history' : History ι}
    (hresult : (m.processRecording clock current event history context).result = .ok (next, history')) :
    (m.process current event context).result = .ok next ∧
      history' = history.appendAll ((m.process current event context).firings.map (Firing.record clock)) := by
  cases hcase : (m.process current event context).result with
  | error error =>
    rw [processRecording, hcase] at hresult
    cases hresult
  | ok id =>
    rw [processRecording, hcase] at hresult
    cases hresult
    exact ⟨rfl, rfl⟩

theorem Chronicle.connects (hcoherent : m.Coherent) {first : ι} {fired : List (Firing ι)} {history : History ι}
    (hchronicle : m.Chronicle first fired history current) :
    history.records.map Record.toFiring = fired ∧ Connects first fired current := by
  induction hchronicle with
  | begin => exact ⟨rfl, .nil first⟩
  | record _ clock _ _ hresult ih =>
    obtain ⟨hprocess, rfl⟩ := processRecording_eq_ok hresult
    have hmore := (hcoherent.recounts hprocess clock).connects
    rw [map_toFiring_record] at hmore
    refine ⟨?_, ih.2.append hmore⟩
    rw [History.appendAll, List.map_append, map_toFiring_record, ih.1]

variable {declarations : List (Declaration ι κ ν γ)}

/-- **A history is a faithful and connected account.** A recorded run does what the run does and ends as it does, and could be recorded while it goes on; if it succeeds, the new records tell what has happened in it. Over many runs, each from the state that the one before has answered, the path of the history goes from the first state to the last, from one record to the next, and is empty if nothing has fired. -/
theorem history_of_build (hbuild : Machine.build declarations = .ok m) :
    (∀ clock current event history context,
      (m.processRecording clock current event history context).context = (m.process current event context).context ∧
        (m.processRecording clock current event history context).trace = (m.process current event context).trace ∧
        (∀ error, (m.processRecording clock current event history context).result = .error error ↔
          (m.process current event context).result = .error error) ∧
        (∀ key, m.key? current = some key → m.processRecording clock current event history =
          m.proceedRecording clock m.limit 0 key (some (.event event)) history) ∧
        ∀ next, (m.process current event context).result = .ok next → ∃ records,
          (m.processRecording clock current event history context).result = .ok (next, history.appendAll records) ∧
            m.Recounts current (m.process current event context).trace records next) ∧
      ∀ first fired history current, m.Chronicle first fired history current →
        history.records.map Record.toFiring = fired ∧ (fired = [] → history.path = [] ∧ current = first) ∧
          (fired ≠ [] → history.path.length = history.records.length + 1 ∧ history.path.head? = some first ∧
            history.path.getLast? = some current ∧ ∀ i record, history.records[i]? = some record →
              history.path[i]? = some record.origin ∧ history.path[i + 1]? = some record.settled) := by
  have hcoherent := coherent_of_build hbuild
  refine ⟨fun clock current event history context => ⟨rfl, rfl, fun error => ?_, fun key hkey => ?_,
    fun next hresult => ?_⟩, fun first fired history current hchronicle => ?_⟩
  · cases hresult : (m.process current event context).result <;> simp [processRecording, hresult, Except.map]
  · exact processRecording_eq_proceedRecording hkey clock event history
  · exact ⟨_, by rw [processRecording, hresult]; rfl, hcoherent.recounts hresult clock⟩
  · obtain ⟨rfl, hconnects⟩ := hchronicle.connects hcoherent
    refine ⟨rfl, fun hnil => ?_, fun hne => ?_⟩
    · rw [hnil] at hconnects
      cases hconnects
      exact ⟨History.path_nil (List.map_eq_nil_iff.1 hnil), rfl⟩
    · rw [History.path_eq hconnects fun hnil => hne (List.map_eq_nil_iff.2 hnil)]
      exact ⟨by simp, rfl, hconnects.path⟩

theorem player_history : Machine.build Player.declarations = .ok Player.machine ∧ Player.machine.resolver.Faithful ∧
    (∃ records, Player.machine.Recounts .sounding (Player.machine.process .sounding ⟨.runOut, ()⟩ ()).trace records .stopped) ∧
    ∃ fired history, Player.machine.Chronicle .stopped fired history .stopped ∧ fired.length = 3 ∧
      history.path = [.stopped, .sounding, .ended, .stopped] ∧ history.path.length = history.records.length + 1 := by
  let clock : Nat → Instant := fun step => ⟨0, step⟩
  obtain ⟨hrun, hruns⟩ := history_of_build Player.build_eq
  obtain ⟨records, _, hrecounts⟩ := (hrun clock .sounding ⟨.runOut, ()⟩ {} ()).2.2.2.2 .stopped rfl
  have hbegin : Player.machine.Chronicle .stopped [] {} .stopped := .begin
  have hchronicle := (hbegin.record clock ⟨.play, ()⟩ () rfl).record clock ⟨.runOut, ()⟩ () rfl
  have hpath := (hruns .stopped _ _ .stopped hchronicle).2.2 (List.cons_ne_nil _ _)
  exact ⟨rfl, Resolver.faithful_reject, ⟨records, hrecounts⟩, _, _, hchronicle, rfl, rfl, hpath.1⟩

end histories

end Machine

end NestedMachine
