import NestedMachine.Proofs.Run.Turn

/-!
# Where a run comes to rest

A step that is taken for what is owed offers nothing to anyone: without a signal there is nothing to offer, and the completion of a composite state is consumed by the final state that has completed it (`offer_completion`). So all that such a step does before it fires something is to ask guards, and it fires nothing just if all of them refuse (`step_eq_none_iff`, `ready_result_iff`).

The last step of a run that has fired anything is one of these (`Takes.after_firing`), and so nothing but guards is called after the last firing. If the guards depend on a view of the context that none of them changes (`Guard.DependsOn`), they would refuse once more (`Coherent.refuses_of_step`), and the run would end where it has ended.
-/

namespace NestedMachine

variable {ι κ ν γ δ : Type}

/-- The guard answers by the signal and by a view of the context, and leaves that view as it is. What it does to the rest of the context, such as to a log, is nothing that it looks at. -/
structure Guard.DependsOn (guard : Guard ι κ ν γ) (view : γ → δ) : Prop where
  view_eq : ∀ signal context, view ((guard signal).call context).2 = view context
  answer_eq : ∀ signal context context', view context = view context' →
    ((guard signal).call context).1 = ((guard signal).call context').1

namespace Transition

variable {t : Transition ι κ ν γ} {signal : Option (Signal ι κ ν)} {context context' : γ} {view : γ → δ}

/-- The transition has a guard, and in this context the guard answers that it is not allowed. -/
def Refuses (t : Transition ι κ ν γ) (signal : Option (Signal ι κ ν)) (context : γ) : Prop :=
  ∃ guard, t.guard = some guard ∧ ((guard signal).call context).1 = .ok false

theorem refuses_congr (hguard : ∀ guard ∈ t.guard, guard.DependsOn view) (hview : view context = view context') :
    t.Refuses signal context ↔ t.Refuses signal context' := by
  refine exists_congr fun guard => and_congr_right fun hsome => ?_
  rw [(hguard guard hsome).answer_eq signal context context' hview]

end Transition

theorem Outcome.eq_of_result {α : Type} {o : Outcome ι κ ν γ α} {result : Except (RunError ι) α}
    (hresult : o.result = result) : o = ⟨result, o.context, o.trace⟩ := by
  rw [← hresult]

namespace Machine

open Activity

variable {m : Machine ι κ ν γ} {key : Key} {t : Transition ι κ ν γ} {signal : Option (Signal ι κ ν)}
variable {context context' : γ} {candidates : List (Transition ι κ ν γ)} {trace : List (Activity ι κ ν γ)}
variable {view : γ → δ}

/-! ### Asking guards -/

theorem invoke_result_eq_ok_iff {α : Type} {call : Call ι κ ν γ} {callback : Callback ι γ α} {answer : α} :
    (Run.invoke call callback context).result = .ok answer ↔ (callback.call context).1 = .ok answer := by
  unfold Run.invoke
  split
  · next hcall => simp [hcall]
  · next hcall => simp [hcall]

theorem bind_result_ne {α β : Type} {run : Run ι κ ν γ α} {next : α → Run ι κ ν γ β} {answer : β}
    (hnext : ∀ middle context, (next middle context).result ≠ .ok answer) (context : γ) :
    ((run >>= next) context).result ≠ .ok answer := by
  rcases hrun : run context with ⟨error | middle, context', trace⟩
  · simp [Run.bind_apply_of_error hrun]
  · rw [Run.bind_apply_of_ok hrun]
    exact hnext middle context'

theorem isReady_result_iff : (isReady signal t context).result = .ok false ↔ t.Refuses signal context := by
  unfold isReady Transition.Refuses
  cases t.guard with
  | none => simp [Run.pure_apply]
  | some guard => simp [invoke_result_eq_ok_iff]

theorem keeps_view_isReady {seen : δ} (hguard : ∀ guard ∈ t.guard, guard.DependsOn view) :
    (isReady signal t).Keeps (fun now => view now.context = seen) (fun _ now => view now.context = seen) := by
  intro now hnow
  unfold isReady
  split
  · exact Run.ensures_pure hnow
  · next guard hsome =>
    have hview := ((hguard guard hsome).view_eq signal now.context).trans hnow
    apply Run.ensures_invoke
    · intro answer context hcall
      rwa [hcall] at hview
    · intro fault context hcall
      rwa [hcall] at hview

theorem isReady_view (hguard : ∀ guard ∈ t.guard, guard.DependsOn view) (signal : Option (Signal ι κ ν)) (context : γ) :
    view (isReady signal t context).context = view context :=
  (keeps_view_isReady hguard ⟨context, []⟩ rfl).always

theorem ready_view (hguards : ∀ t ∈ candidates, ∀ guard ∈ t.guard, guard.DependsOn view)
    (signal : Option (Signal ι κ ν)) (context : γ) : view (ready signal candidates context).context = view context := by
  have hready : (ready signal candidates).Keeps (fun now => view now.context = view context)
      (fun _ now => view now.context = view context) := by
    induction candidates with
    | nil => exact Run.keeps_pure []
    | cons t rest ih =>
      obtain ⟨hguard, hguards⟩ := List.forall_mem_cons.1 hguards
      exact (keeps_view_isReady hguard).bind fun _ => (ih hguards).bind fun _ => Run.keeps_pure _
  exact (hready ⟨context, []⟩ rfl).always

theorem ready_cons_result_iff {rest : List (Transition ι κ ν γ)} :
    (ready signal (t :: rest) context).result = .ok [] ↔ (isReady signal t context).result = .ok false ∧
      (ready signal rest (isReady signal t context).context).result = .ok [] := by
  rw [ready]
  rcases hfirst : isReady signal t context with ⟨error | answer, context', trace⟩
  · simp [Run.bind_apply_of_error hfirst]
  · rw [Run.bind_apply_of_ok hfirst]
    rcases hrest : ready signal rest context' with ⟨error | others, after, more⟩
    · simp [Run.bind_apply_of_error hrest]
    · rw [Run.bind_apply_of_ok hrest, Run.pure_apply]
      cases answer with
      | true => simp
      | false => simp

theorem ready_result_iff (hguards : ∀ t ∈ candidates, ∀ guard ∈ t.guard, guard.DependsOn view) :
    (ready signal candidates context).result = .ok [] ↔ ∀ t ∈ candidates, t.Refuses signal context := by
  induction candidates generalizing context with
  | nil => simp [ready, Run.pure_apply]
  | cons t rest ih =>
    obtain ⟨hguard, hguards⟩ := List.forall_mem_cons.1 hguards
    rw [ready_cons_result_iff, isReady_result_iff, ih hguards, List.forall_mem_cons]
    have hview := isReady_view hguard signal context
    refine and_congr_right fun _ => forall₂_congr fun other hother => ?_
    exact Transition.refuses_congr (hguards other hother) hview

/-- Nothing is done but to ask guards. -/
def OnlyAsks (signal : Option (Signal ι κ ν)) (trace : List (Activity ι κ ν γ)) : Prop :=
  ∃ asked : List (Transition ι κ ν γ), trace = asked.map fun t => .called (.guard t signal)

theorem OnlyAsks.firings_eq (hasks : OnlyAsks signal trace) : firings trace = [] := by
  obtain ⟨asked, rfl⟩ := hasks
  rw [firings, List.filterMap_map, List.filterMap_eq_nil_iff]
  intro t _
  rfl

theorem onlyAsks_ready (signal : Option (Signal ι κ ν)) (candidates : List (Transition ι κ ν γ)) (context : γ) :
    OnlyAsks signal (ready signal candidates context).trace := by
  have hguard : ∀ t, Run.Bears (fun now : Moment ι κ ν γ => OnlyAsks signal now.past)
      (fun _ now => OnlyAsks signal now.past) (.guard t signal) := by
    refine fun t => ⟨fun now hnow context => ?_, fun _ _ hnow => hnow⟩
    obtain ⟨asked, hasked⟩ := hnow
    exact ⟨asked ++ [t], by simp [hasked]⟩
  have hready : (ready signal candidates).Ensures ⟨context, []⟩ (fun _ now => OnlyAsks signal now.past)
      (fun _ now => OnlyAsks signal now.past) :=
    (ensures_ready hguard candidates ⟨[], rfl⟩).mono_done fun _ _ hdone => hdone.2
  exact hready.always

/-! ### Steps that fire nothing -/

theorem choose_result_ne_none {state : ι} (hne : candidates ≠ []) :
    (m.choose state signal candidates context).result ≠ .ok none := by
  match candidates with
  | [] => exact absurd rfl hne
  | [only] => simp [choose, Run.pure_apply]
  | first :: second :: rest =>
    rw [choose, map_eq_pure_bind]
    · exact bind_result_ne (fun _ _ => by simp [Run.pure_apply]) context
    · simp
    · simp

variable [DecidableEq κ]

theorem select_eq_none_iff {state : ι} : m.select state key signal context = ⟨.ok none, context', trace⟩ ↔
    ready signal (m.triggered key signal) context = ⟨.ok [], context', trace⟩ := by
  rw [select]
  rcases hready : ready signal (m.triggered key signal) context with ⟨error | _ | ⟨t, rest⟩, after, asked⟩
  · simp [Run.bind_apply_of_error hready]
  · simp [Run.bind_apply_of_ok hready, choose, Run.pure_apply]
  · have hsome : (m.choose state signal (t :: rest) after).result ≠ .ok none :=
      choose_result_ne_none (List.cons_ne_nil t rest)
    simp [Run.bind_apply_of_ok hready, hsome]

omit [DecidableEq κ] in
theorem offer_of_isFinal {state : State ι κ ν γ} (hstate : m.state? key = some state) (hfinal : state.isFinal = true)
    (signal : Signal ι κ ν) : m.offer signal (m.hierarchy.activeChain key) = pure () := by
  have hroot : key ≠ .root := by
    rintro rfl
    cases hstate
  rw [Hierarchy.activeChain_of_ne_root hroot, offer, lookup_of_state? hstate, pure_bind, if_pos hfinal]

omit [DecidableEq κ] in
theorem offer_completion {state : State ι κ ν γ} (hstate : m.state? key = some state) :
    ((m.completion key).forM fun signal => m.offer signal (m.hierarchy.activeChain key)) = pure () := by
  simp only [completion, hstate]
  split
  · next hfinal => exact offer_of_isFinal hstate hfinal.1 _
  · rfl

/-- **A step for what is owed fires nothing just if no transition is ready.** Then it has asked guards and done nothing else. -/
theorem step_eq_none_iff {state : State ι κ ν γ} (hstate : m.state? key = some state) {count : Nat} :
    m.step count key (m.completion key) context = ⟨.ok none, context', trace⟩ ↔
      ready (m.completion key) (m.triggered key (m.completion key)) context = ⟨.ok [], context', trace⟩ := by
  rw [step, lookup_of_state? hstate, pure_bind, offer_completion hstate, pure_bind, ← select_eq_none_iff]
  rcases hselect : m.select state.id key (m.completion key) context with ⟨error | _ | t, after, told⟩
  · simp [Run.bind_apply_of_error hselect]
  · simp [Run.bind_apply_of_ok hselect, Run.pure_apply]
  · -- Once a transition has been selected, the step answers where it leads, or fails.
    rw [Run.bind_apply_of_ok hselect]
    refine iff_of_false (fun heq => ?_) (by simp)
    refine bind_result_ne (fun _ => ?_) after (congrArg Outcome.result heq)
    refine bind_result_ne fun settled => bind_result_ne fun source => bind_result_ne fun resting => ?_
    exact bind_result_ne fun _ _ => by simp [Run.pure_apply]

theorem onlyAsks_of_step {state : State ι κ ν γ} (hstate : m.state? key = some state) {count : Nat}
    (hstep : m.step count key (m.completion key) context = ⟨.ok none, context', trace⟩) :
    OnlyAsks (m.completion key) trace := by
  have hasks := onlyAsks_ready (m.completion key) (m.triggered key (m.completion key)) context
  rwa [(step_eq_none_iff hstate).1 hstep] at hasks

/-- The guards of the machine depend on this view of the context alone. -/
def GuardsDependOn (m : Machine ι κ ν γ) (view : γ → δ) : Prop :=
  ∀ t ∈ m.table.all, ∀ guard ∈ t.guard, guard.DependsOn view

namespace Coherent

variable (hcoherent : m.Coherent) (hguards : m.GuardsDependOn view) {state : State ι κ ν γ}
include hcoherent hguards

theorem dependsOn_of_triggered (ht : t ∈ m.triggered key signal) : ∀ guard ∈ t.guard, guard.DependsOn view :=
  hguards t (hcoherent.ordinary_of_triggered ht).1

theorem step_result_iff (hstate : m.state? key = some state) {count : Nat} :
    (m.step count key (m.completion key) context).result = .ok none ↔
      ∀ t ∈ m.triggered key (m.completion key), t.Refuses (m.completion key) context := by
  rw [← ready_result_iff fun _ ht => hcoherent.dependsOn_of_triggered hguards ht]
  constructor
  · intro hresult
    rw [(step_eq_none_iff hstate).1 (Outcome.eq_of_result hresult)]
  · intro hresult
    rw [(step_eq_none_iff hstate).2 (Outcome.eq_of_result hresult)]

theorem refuses_of_step (hstate : m.state? key = some state) {count : Nat}
    (hstep : m.step count key (m.completion key) context = ⟨.ok none, context', trace⟩) :
    ∀ t ∈ m.triggered key (m.completion key), t.Refuses (m.completion key) context' := by
  have hview : view context' = view context := by
    have hready : view (ready (m.completion key) (m.triggered key (m.completion key)) context).context = view context :=
      ready_view (fun _ ht => hcoherent.dependsOn_of_triggered hguards ht) _ _
    rwa [(step_eq_none_iff hstate).1 hstep] at hready
  have hrefuses := (hcoherent.step_result_iff hguards hstate).1 (congrArg Outcome.result hstep)
  intro t ht
  exact (Transition.refuses_congr (hcoherent.dependsOn_of_triggered hguards ht) hview).2 (hrefuses t ht)

end Coherent

/-! ### The last step of a run -/

variable [DecidableEq ι] {current id : ι} {event : Event κ ν} {turn : Turn ι κ ν γ}

theorem Takes.after_firing (hturn : m.Takes current event context turn) (hfired : firings turn.past ≠ []) :
    turn.signal = m.completion turn.key ∧
      ∃ past firing, turn.past = past ++ [.fired firing] ∧ m.id? turn.key = some firing.settled := by
  cases hturn with
  | first hkey => exact absurd rfl hfired
  | next hbefore hnext =>
    obtain ⟨t, firing, past, hpast, _, _, hfires⟩ := hnext.exists_firing
    have hsignal : turn.signal = m.completion turn.key := by
      obtain ⟨_, _⟩ := hnext
      rfl
    exact ⟨hsignal, past, firing, hpast, hfires.settled⟩

/-- No transition is pending in this context while the machine rests in `id`, whose key is `key`. -/
structure Stable (m : Machine ι κ ν γ) (key : Key) (id : ι) (context : γ) : Prop where
  id?_eq : m.id? key = some id
  /-- What leaves the state or a state around it, and waits for what is owed, has a guard that answers false. -/
  refuses : ∀ t ∈ m.table.all, t.kind ≠ .initial → t.sourceKey ∈ m.hierarchy.chain key →
    t.awaits (m.owed id) = true → t.Refuses (m.owed id) context
  /-- One more step fires nothing. -/
  step_result : ∀ count, (m.step count key (m.owed id) context).result = .ok none
  /-- A run that goes on from here ends here. -/
  proceed_result : ∀ budget count, (m.proceed (budget + 1) count key (m.owed id) context).result = .ok id ∧
    (m.proceed (budget + 1) count key (m.owed id) context).firings = []

theorem Coherent.stable_of_refuses (hcoherent : m.Coherent) (hguards : m.GuardsDependOn view)
    (hid : m.id? key = some id) (hrefuses : ∀ t ∈ m.triggered key (m.owed id), t.Refuses (m.owed id) context) :
    m.Stable key id context := by
  obtain ⟨state, hstate, rfl⟩ := exists_state_of_id? hid
  have howed := hcoherent.completion_eq hid
  have hstep : ∀ count, (m.step count key (m.owed state.id) context).result = .ok none := by
    intro count
    rw [← howed] at hrefuses ⊢
    exact (hcoherent.step_result_iff hguards hstate).2 hrefuses
  refine ⟨hid, fun t ht hkind hsource hawaits => ?_, hstep, fun budget count => ?_⟩
  · have hroot : t.sourceKey ≠ .root := fun hroot => hkind (hcoherent.kind_of_root t ht hroot)
    have hactive := (hcoherent.forest.mem_activeChain_iff (hcoherent.contains_of_id? hid)).2 ⟨hsource, hroot⟩
    exact hrefuses t (mem_triggered_iff.2 ⟨⟨_, hactive, hcoherent.mem_leaving_iff.2 ⟨ht, hkind, rfl⟩⟩, hawaits⟩)
  · have hrests := Outcome.eq_of_result (hstep count)
    have hfirings : firings (m.step count key (m.owed state.id) context).trace = [] := by
      rw [← howed] at hrests ⊢
      exact (onlyAsks_of_step hstate hrests).firings_eq
    rw [proceed, Run.bind_apply_of_ok hrests]
    simp only [lookup_of_state? hstate, pure_bind, Run.pure_apply, List.append_nil]
    exact ⟨trivial, hfirings⟩

/-- **A run that has fired something comes to rest where nothing is pending.** After the last firing it has done nothing but ask guards, each of them for what is owed. If guards depend on a view of the context that none of them changes, all that leave an active state and wait for what is owed would refuse in the context that is left behind, and one more step would fire nothing. -/
theorem stable_of_build {declarations : List (Declaration ι κ ν γ)} (hbuild : Machine.build declarations = .ok m)
    (hresult : (m.process current event context).result = .ok id)
    (hfired : (m.process current event context).firings ≠ []) :
    (∃ past firing rest, (m.process current event context).trace = past ++ .fired firing :: rest ∧
        firing.settled = id ∧ OnlyAsks (m.owed id) rest) ∧
      ∀ {δ : Type} (view : γ → δ), m.GuardsDependOn view →
        ∃ key, m.Stable key id (m.process current event context).context := by
  have hcoherent := coherent_of_build hbuild
  have hcurrent : current ∈ m.ids := by
    by_contra hunknown
    have hkey : m.key? current = none := if_neg hunknown
    rw [process, hkey] at hresult
    cases hresult
  obtain ⟨last, hlast, hends⟩ := exists_last hcurrent event context
  generalize m.process current event context = ending at hresult hfired hends ⊢
  obtain ⟨hid, _, _, hfirings⟩ := hends.of_ok hresult
  obtain ⟨hsignal, past, firing, hpast, hsettled⟩ := hlast.after_firing (hfirings ▸ hfired)
  have howed := hcoherent.completion_eq hid
  cases hends with
  | limit _ _ => cases hresult
  | fails _ _ => cases hresult
  | rests _ hstep hstate =>
    obtain rfl := Except.ok.inj hresult
    rw [hsignal] at hstep
    refine ⟨⟨past, firing, _, ?_, ?_, howed ▸ onlyAsks_of_step hstate hstep⟩, fun view hguards => ⟨last.key, ?_⟩⟩
    · simp [hpast]
    · exact Option.some.inj (hsettled.symm.trans hid)
    · refine hcoherent.stable_of_refuses hguards hid ?_
      exact howed ▸ hcoherent.refuses_of_step hguards hstate hstep

/-- Adds to a level. The context is the level and what has been written down of it. -/
def pour : Callback Nat (Nat × List Nat) Unit := modify fun (level, log) => (level + 1, log)

/-- Writes the level down, and says whether it has come to two. -/
def isFull : Guard Nat Unit Unit (Nat × List Nat) := fun _ => do
  let (level, log) ← get
  set (level, log ++ [level])
  return decide (2 ≤ level)

/-- A tank that is open until it is full. -/
def tank : List (Declaration Nat Unit Unit (Nat × List Nat)) := [
  .initial 0 none,
  .rule { source := 0, target := 1, trigger := some (.event ()), action := some fun _ => pour },
  .rule { source := 1, target := 2, guard := some isFull }]

/-- The guard has written down that the tank is not full, and would not find it full another time. -/
theorem tank_stable : ∃ m, Machine.build tank = .ok m ∧ (m.process 0 ⟨(), ()⟩ (0, [])).result = .ok 1 ∧
    (m.process 0 ⟨(), ()⟩ (0, [])).firings ≠ [] ∧ m.GuardsDependOn Prod.fst ∧
    (m.process 0 ⟨(), ()⟩ (0, [])).context = (1, [1]) ∧
    ∃ key, m.Stable key 1 (m.process 0 ⟨(), ()⟩ (0, [])).context := by
  have hbuild : Machine.build tank = .ok (Draft.ofDeclarations tank).freeze := rfl
  have hresult : ((Draft.ofDeclarations tank).freeze.process 0 ⟨(), ()⟩ (0, [])).result = .ok 1 := rfl
  have hfired : ((Draft.ofDeclarations tank).freeze.process 0 ⟨(), ()⟩ (0, [])).firings ≠ [] := List.cons_ne_nil _ _
  have hfull : isFull.DependsOn Prod.fst := {
    view_eq := fun _ _ => rfl
    answer_eq := by
      intro signal context context' hlevel
      show Except.ok (decide (2 ≤ context.1)) = Except.ok (decide (2 ≤ context'.1))
      rw [hlevel] }
  have hguards : (Draft.ofDeclarations tank).freeze.GuardsDependOn Prod.fst := by
    refine List.forall_mem_cons.2 ⟨?_, List.forall_mem_cons.2 ⟨?_, List.forall_mem_cons.2 ⟨?_, ?_⟩⟩⟩
    · intro guard hguard
      cases hguard
    · intro guard hguard
      cases hguard
    · intro guard hguard
      cases hguard
      exact hfull
    · simp
  exact ⟨_, hbuild, hresult, hfired, hguards, rfl, (stable_of_build hbuild hresult hfired).2 Prod.fst hguards⟩

end Machine

end NestedMachine
