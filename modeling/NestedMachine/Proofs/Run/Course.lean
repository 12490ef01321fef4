import NestedMachine.Proofs.Run.Configuration
import Mathlib.Data.List.TakeWhile

/-!
# Steps, runs and courses of runs

A step takes the active chain of the state in which the machine rests to that of the state in which it rests afterwards, and so does a run of steps, of which `ensures_proceed` says in one statement where it ends and what has fired. A `Course` is what a caller does with a machine: it starts the machine and then sends events, each to the state that the run before has answered. Over a whole course the crossings keep to one stack, as `KeepsStack` says, and every state that a start answers, or a run that fired something, is a leaf (`RestsInLeaf`).
-/

namespace NestedMachine.Machine

variable {ι κ ν γ : Type} {m : Machine ι κ ν γ}
variable {base : List Key} {firings : List (Firing ι)} {now : Moment ι κ ν γ} {key : Key}

/-! ### Steps -/

/-- How things stand after a step from `key`: as before if nothing has fired, and else with one more firing and in a leaf. -/
def AfterStep (m : Machine ι κ ν γ) (base : List Key) (firings : List (Firing ι)) (key : Key) :
    Option Key → Moment ι κ ν γ → Prop
  | none, now => m.Account base (m.hierarchy.activeChain key) firings now
  | some settled, now => m.hierarchy.Contains settled ∧ m.hierarchy.IsLeaf settled ∧
      ∃ firing, m.Account base (m.hierarchy.activeChain settled) (firings ++ [firing]) now

theorem ensures_step [DecidableEq κ] (hcoherent : m.Coherent) (hkey : m.hierarchy.Contains key)
    (hnow : m.Account base (m.hierarchy.activeChain key) firings now) (count : Nat)
    (signal : Option (Signal ι κ ν)) :
    (m.step count key signal).Ensures now (m.AfterStep base firings key) (m.FailsInOrder base) := by
  have hoffer : (signal.forM fun signal => m.offer signal (m.hierarchy.activeChain key)).Keeps
      (m.Account base (m.hierarchy.activeChain key) firings) (m.FailsInOrder base) :=
    keeps_offer_pending (fun key _ => keeps_account_lookup key) fun _ _ _ => account_bears (by simp [Call.role])
  apply hnow.ensures_lookup
  intro origin _
  apply (hoffer now hnow).bind
  intro _ now hnow
  have hselect : (m.select origin.id key signal).Ensures now
      (fun _ => m.Account base (m.hierarchy.activeChain key) firings) (m.FailsInOrder base) := by
    exact (ensures_select key (fun _ => account_bears (by simp [Call.role]))
      (fun _ => account_bears (by simp [Call.role])) hnow).mono_done fun _ _ hchosen => hchosen.2
  apply hselect.bind
  intro chosen now hnow
  cases chosen with
  | none => exact Run.ensures_pure hnow
  | some t =>
    apply Run.ensures_bind
    apply Run.ensures_note
    apply (ensures_fire hcoherent hkey (hnow.chose t signal now.context) t signal).bind
    rintro _ now ⟨htarget, rfl, hnow⟩
    have hdescends := hcoherent.descends htarget
    apply hnow.ensures_lookup
    intro source _
    apply hnow.ensures_lookup
    intro resting _
    apply Run.ensures_bind
    apply Run.ensures_note
    exact Run.ensures_pure ⟨hdescends.contains hcoherent htarget, hdescends.isLeaf hcoherent, _,
      hnow.fired _ now.context⟩

/-! ### Runs -/

/-- How things stand after a run from `key` that answers `id`: the machine rests where it was if nothing has fired, and else in a leaf. -/
def AfterRun (m : Machine ι κ ν γ) (base : List Key) (firings : List (Firing ι)) (key : Key) (id : ι)
    (now : Moment ι κ ν γ) : Prop :=
  ∃ final more, m.id? final = some id ∧ m.Account base (m.hierarchy.activeChain final) (firings ++ more) now ∧
    (more = [] ∧ final = key ∨ more ≠ [] ∧ m.hierarchy.IsLeaf final)

theorem ensures_proceed [DecidableEq κ] (hcoherent : m.Coherent) (hkey : m.hierarchy.Contains key)
    (hnow : m.Account base (m.hierarchy.activeChain key) firings now) (budget count : Nat)
    (signal : Option (Signal ι κ ν)) :
    (m.proceed budget count key signal).Ensures now (m.AfterRun base firings key) (m.FailsInOrder base) := by
  induction budget generalizing count key signal firings now with
  | zero =>
    apply hnow.ensures_lookup
    intro state hstate
    refine Run.ensures_fail ⟨_, _, hnow, fun id hid => ⟨key, ?_, rfl⟩⟩
    obtain rfl : state.id = id := Option.some.inj hid
    exact id?_eq_of_state? hstate
  | succ budget ih =>
    apply (ensures_step hcoherent hkey hnow count signal).bind
    intro result now hresult
    cases result with
    | none =>
      apply Account.ensures_lookup hresult
      intro state hstate
      refine Run.ensures_pure ⟨key, [], id?_eq_of_state? hstate, ?_, .inl ⟨rfl, rfl⟩⟩
      rw [List.append_nil]
      exact hresult
    | some settled =>
      obtain ⟨hcontains, hleaf, firing, hnow⟩ := hresult
      refine (ih hcontains hnow (count + 1) _).mono_done fun id now hrest => ?_
      obtain ⟨final, more, hid, haccount, hfinal⟩ := hrest
      refine ⟨final, firing :: more, hid, by simpa using haccount, .inr ⟨List.cons_ne_nil _ _, ?_⟩⟩
      rcases hfinal with ⟨_, rfl⟩ | ⟨_, hleaf⟩
      · exact hleaf
      · exact hleaf

theorem ensures_start (hcoherent : m.Coherent) (context : γ) :
    (m.start).Ensures ⟨context, []⟩
      (fun id now => ∃ final, m.id? final = some id ∧ m.hierarchy.IsLeaf final ∧
        m.Account [] (m.hierarchy.activeChain final) [] now) (m.FailsInOrder []) := by
  have hnow : m.Account [] (m.hierarchy.activeChain .root) [] ⟨context, []⟩ := by
    rw [Hierarchy.activeChain_root]
    exact m.account_nil [] context
  apply (ensures_enterDefaults hcoherent (Hierarchy.contains_root _) hnow).bind
  rintro _ now ⟨rfl, hnow⟩
  have hleaf := (hcoherent.descends (Hierarchy.contains_root _)).isLeaf hcoherent
  apply hnow.ensures_lookup
  intro state hstate
  exact Run.ensures_pure ⟨_, id?_eq_of_state? hstate, hleaf, hnow⟩

theorem ensures_process [DecidableEq ι] [DecidableEq κ] (hcoherent : m.Coherent) {current : ι}
    (hcurrent : m.key? current = some key) (hnow : m.Account base (m.hierarchy.activeChain key) firings now)
    (event : Event κ ν) :
    (m.process current event).Ensures now (m.AfterRun base firings key) (m.FailsInOrder base) := by
  have hkey := hcoherent.contains_of_id? ((key?_eq_some_iff hcoherent.nodup).1 hcurrent)
  unfold process
  rw [hcurrent]
  exact ensures_proceed hcoherent hkey hnow m.limit 0 _

/-! ### The stack of a course -/

section course

variable [DecidableEq ι]

/-- The calls of one caller so far: all that has happened in them, and the result of the last. Each event is sent to the state that the call before has answered; the context may have changed in between. -/
inductive Course [DecidableEq κ] (m : Machine ι κ ν γ) : List (Activity ι κ ν γ) → Except (RunError ι) ι → Prop where
  | start (context : γ) : Course m (m.start context).trace (m.start context).result
  | process {past : List (Activity ι κ ν γ)} {current : ι} (hpast : Course m past (.ok current))
      (event : Event κ ν) (context : γ) :
      Course m (past ++ (m.process current event context).trace) (m.process current event context).result

/-- The crossings of a trace keep to a stack that is `base` at first: none of them crosses the root, each calls its callback, and the stack that they lead to is the active chain of the state in which the machine rests according to the result. -/
structure KeepsStack (m : Machine ι κ ν γ) (base : List Key) (trace : List (Activity ι κ ν γ))
    (result : Except (RunError ι) ι) : Prop where
  key_ne_root : ∀ crossing ∈ Activity.crossings trace, crossing.key ≠ .root
  calls_eq : Activity.crossingCalls trace = (Activity.crossings trace).filterMap m.crossingCall?
  replay_eq : ∃ stack, m.hierarchy.replay base (Activity.crossings trace) = some stack ∧
    ∀ id, restsIn? result = some id → ∃ key, m.key? id = some key ∧ stack = m.hierarchy.activeChain key

theorem Account.keepsStack {stack : List Key} {result : Except (RunError ι) ι} (hnodup : m.ids.Nodup)
    (hbase : .root ∉ base) (hnow : m.Account base stack firings now)
    (hresult : ∀ id, restsIn? result = some id → ∃ key, m.id? key = some id ∧ stack = m.hierarchy.activeChain key) :
    m.KeepsStack base now.past result where
  key_ne_root := Hierarchy.ne_root_of_replay hbase hnow.replay_eq
  calls_eq := hnow.calls_eq
  replay_eq := by
    refine ⟨stack, hnow.replay_eq, fun id hid => ?_⟩
    obtain ⟨key, hkey, hstack⟩ := hresult id hid
    exact ⟨key, (key?_eq_some_iff hnodup).2 hkey, hstack⟩

theorem keepsStack_of_ensures {run : Run ι κ ν γ ι} {done : ι → Moment ι κ ν γ → Prop} (hnodup : m.ids.Nodup)
    (hbase : .root ∉ base) (hrun : run.Ensures now done (m.FailsInOrder base))
    (hdone : ∀ id now, done id now → ∃ final firings, m.id? final = some id ∧
      m.Account base (m.hierarchy.activeChain final) firings now) :
    m.KeepsStack base (now.past ++ (run now.context).trace) (run now.context).result := by
  cases hresult : (run now.context).result with
  | ok id =>
    obtain ⟨final, firings, hid, haccount⟩ := hdone _ _ (hrun.of_ok hresult)
    refine haccount.keepsStack hnodup hbase fun id' hid' => ⟨final, ?_, rfl⟩
    exact Option.some.inj hid' ▸ hid
  | error error =>
    obtain ⟨stack, firings, haccount, hrests⟩ := hrun.of_error hresult
    exact haccount.keepsStack hnodup hbase hrests

theorem KeepsStack.account {past : List (Activity ι κ ν γ)} {current : ι}
    (hpast : m.KeepsStack base past (.ok current)) (context : γ) :
    ∃ key, m.key? current = some key ∧
      m.Account base (m.hierarchy.activeChain key) (past.filterMap Activity.firing?) ⟨context, past⟩ := by
  obtain ⟨stack, hreplay, hrests⟩ := hpast.replay_eq
  obtain ⟨key, hkey, rfl⟩ := hrests current rfl
  exact ⟨key, hkey, hreplay, hpast.calls_eq, rfl⟩

theorem keepsStack_process [DecidableEq κ] (hcoherent : m.Coherent) (hbase : .root ∉ base) {current : ι}
    (hcurrent : m.key? current = some key) (hnow : m.Account base (m.hierarchy.activeChain key) firings now)
    (event : Event κ ν) :
    m.KeepsStack base (now.past ++ (m.process current event now.context).trace)
      (m.process current event now.context).result := by
  have hprocess := ensures_process hcoherent hcurrent hnow event
  refine keepsStack_of_ensures hcoherent.nodup hbase hprocess fun id now hrun => ?_
  obtain ⟨final, more, hid, haccount, _⟩ := hrun
  exact ⟨final, _, hid, haccount⟩

variable [DecidableEq κ] {declarations : List (Declaration ι κ ν γ)}

/-- **The active states are always those on the chain of the state in which the machine rests.** In every course of runs, and in every single run from a state whose chain is active, only the innermost active state is left, only a direct substate of it is entered, and never the root. A run that fails keeps to this as far as it goes. -/
theorem active_configuration_of_build (hbuild : Machine.build declarations = .ok m) :
    (∀ trace result, m.Course trace result → m.KeepsStack [] trace result) ∧
      ∀ current key event context, m.key? current = some key →
        m.KeepsStack (m.hierarchy.activeChain key) (m.process current event context).trace
          (m.process current event context).result := by
  have hcoherent := coherent_of_build hbuild
  constructor
  · intro trace result hcourse
    induction hcourse with
    | start context =>
      have hstart := ensures_start hcoherent context
      refine keepsStack_of_ensures hcoherent.nodup List.not_mem_nil hstart fun id now hrun => ?_
      obtain ⟨final, hid, _, haccount⟩ := hrun
      exact ⟨final, _, hid, haccount⟩
    | process _ event context ih =>
      obtain ⟨key, hcurrent, hnow⟩ := ih.account context
      exact keepsStack_process hcoherent List.not_mem_nil hcurrent hnow event
  · intro current key event context hcurrent
    have hroot : .root ∉ m.hierarchy.activeChain key := fun hmem => by simpa using List.mem_takeWhile_imp hmem
    exact keepsStack_process hcoherent hroot hcurrent (m.account_nil _ context) event

theorem player_active_configuration :
    Machine.build Player.declarations = .ok Player.machine ∧ Player.machine.key? .paused = some ⟨4⟩ ∧
      Player.machine.KeepsStack [] (Player.machine.start ()).trace (Player.machine.start ()).result ∧
      Player.machine.KeepsStack [⟨4⟩, ⟨2⟩] (Player.machine.process .paused ⟨.stop, ()⟩ ()).trace
        (Player.machine.process .paused ⟨.stop, ()⟩ ()).result :=
  ⟨rfl, rfl, (active_configuration_of_build Player.build_eq).1 _ _ (.start ()),
    (active_configuration_of_build Player.build_eq).2 .paused ⟨4⟩ ⟨.stop, ()⟩ () rfl⟩

example : Activity.crossings (Player.machine.process .paused ⟨.stop, ()⟩ ()).trace =
    [.left ⟨4⟩, .left ⟨2⟩, .entered ⟨1⟩] := rfl

/-! ### Resting in leaves -/

omit [DecidableEq κ] in
/-- The identity is that of a state without substates, and no initial transition waits there. -/
def RestsInLeaf (m : Machine ι κ ν γ) (id : ι) : Prop :=
  ∃ key, m.key? id = some key ∧ m.hierarchy.IsLeaf key ∧ m.table.initialOf key = none

omit [DecidableEq κ] in
theorem Coherent.restsInLeaf (hcoherent : m.Coherent) {id : ι} (hid : m.id? key = some id)
    (hleaf : m.hierarchy.IsLeaf key) : m.RestsInLeaf id :=
  ⟨key, (key?_eq_some_iff hcoherent.nodup).2 hid, hleaf, hcoherent.initialOf_eq_none_iff.2 hleaf⟩

/-- **A machine comes to rest in leaves.** A start that succeeds answers one; a run that succeeds does if it began in one or fired something, and answers where it began if it fired nothing. For the way down to a leaf from the root or from any state ends, each step of it leads to a direct substate, and it stays inside the state where it began. -/
theorem leaves_of_build (hbuild : Machine.build declarations = .ok m) :
    (∀ context id, (m.start context).result = .ok id → m.RestsInLeaf id) ∧
      (∀ current event context next, current ∈ m.ids → (m.process current event context).result = .ok next →
        (m.RestsInLeaf current ∨ (m.process current event context).firings ≠ [] → m.RestsInLeaf next) ∧
          ((m.process current event context).firings = [] → next = current)) ∧
      ∀ key, m.hierarchy.Contains key →
        m.Descends key (m.defaults key) (m.restingKey key) ∧
          (∀ t ∈ m.defaults key, m.hierarchy.parent t.targetKey = some t.sourceKey) ∧
          m.restingKey key ∈ m.hierarchy.states ∧ m.hierarchy.IsLeaf (m.restingKey key) ∧
          key ∈ m.hierarchy.chain (m.restingKey key) := by
  have hcoherent := coherent_of_build hbuild
  refine ⟨fun context id hstart => ?_, fun current event context next hcurrent hprocess => ?_, fun key hkey => ?_⟩
  · obtain ⟨final, hid, hleaf, _⟩ := (ensures_start hcoherent context).of_ok hstart
    exact hcoherent.restsInLeaf hid hleaf
  · have hkey : m.key? current = some (.ofPosition (m.ids.idxOf current)) := if_pos hcurrent
    have hrun := ensures_process hcoherent hkey (m.account_nil _ context) event
    obtain ⟨final, more, hid, haccount, hfinal⟩ := hrun.of_ok hprocess
    have hfirings : (m.process current event context).firings = more := haccount.firings_eq
    rw [hfirings]
    rcases hfinal with ⟨rfl, rfl⟩ | ⟨hfired, hleaf⟩
    · obtain rfl : next = current :=
        Option.some.inj (hid.symm.trans ((key?_eq_some_iff hcoherent.nodup).1 hkey))
      exact ⟨fun hor => hor.resolve_right fun hne => hne rfl, fun _ => rfl⟩
    · exact ⟨fun _ => hcoherent.restsInLeaf hid hleaf, fun hnone => absurd hnone hfired⟩
  · have hdescends := hcoherent.descends hkey
    have hleaf := hdescends.isLeaf hcoherent
    have hroot : m.restingKey key ≠ .root := fun heq => (heq ▸ hleaf) (isComposite_root_of_build hbuild)
    exact ⟨hdescends, hdescends.parent_of_mem hcoherent,
      Hierarchy.mem_states.2 ⟨hroot, hdescends.contains hcoherent hkey⟩, hleaf, hdescends.mem_chain hcoherent⟩

theorem player_leaves : Machine.build Player.declarations = .ok Player.machine ∧
    .stopped ∈ Player.machine.ids ∧
    (Player.machine.process .stopped ⟨.play, ()⟩ ()).result = .ok .sounding ∧
    (Player.machine.process .stopped ⟨.play, ()⟩ ()).firings ≠ [] ∧ Player.machine.RestsInLeaf .sounding := by
  have hplay : (Player.machine.process .stopped ⟨.play, ()⟩ ()).result = .ok .sounding := rfl
  have hfired : (Player.machine.process .stopped ⟨.play, ()⟩ ()).firings ≠ [] := List.cons_ne_nil _ _
  have hstopped : .stopped ∈ Player.machine.ids := by decide
  exact ⟨rfl, hstopped, hplay, hfired,
    ((leaves_of_build Player.build_eq).2.1 .stopped ⟨.play, ()⟩ () .sounding hstopped hplay).1 (.inr hfired)⟩

end course

end NestedMachine.Machine
