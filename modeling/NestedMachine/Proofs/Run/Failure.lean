import NestedMachine.Proofs.Machine.Cascade
import NestedMachine.Proofs.Run.Parts
import NestedMachine.Proofs.Run.Route

/-!
# How a run can fail

A run looks states up by key, asks for routes and reads positions from the table, and each of these can fail on its face. In a machine that a definition gives none of them does: every key that a run meets is that of a state, a transition that is chosen leaves an active state and so has a route, and the table files no position out of range. What is left are the failures that are not the machine's own, which are those of callbacks, and the limit of an event (`failures_of_build`).

The resolver has to answer one of its candidates for this. Otherwise it could answer a transition of another machine, which has no route here.
-/

namespace NestedMachine.Machine

variable {ι κ ν γ : Type} {m : Machine ι κ ν γ} {key active : Key} {now : Moment ι κ ν γ}

/-- A callback has failed, in one of these parts. -/
def FailsIn (roles : Role → Prop) (error : RunError ι) (_ : Moment ι κ ν γ) : Prop :=
  ∃ role place fault, error = .failed role place fault ∧ roles role

theorem bears_of_role {roles : Role → Prop} {call : Call ι κ ν γ} (hrole : roles call.role) :
    Run.Bears (fun _ => True) (FailsIn roles) call where
  outlasts _ _ _ := trivial
  allows fault _ _ := ⟨call.role, call.place, fault, rfl, hrole⟩

/-! ### What is looked up is there -/

namespace Coherent

variable (hcoherent : m.Coherent)
include hcoherent

theorem ensures_lookup {done : State ι κ ν γ → Moment ι κ ν γ → Prop} {failed : RunError ι → Moment ι κ ν γ → Prop}
    (hkey : key ∈ m.hierarchy.states) (hdone : ∀ state, m.state? key = some state → done state now) :
    (m.lookup key).Ensures now done failed := by
  refine Run.ensures_lookup hdone fun hnone => ?_
  obtain ⟨state, hstate⟩ := hcoherent.mem_states_iff.1 hkey
  rw [hnone] at hstate
  cases hstate

theorem keeps_lookup {P : Moment ι κ ν γ → Prop} {failed : RunError ι → Moment ι κ ν γ → Prop}
    (hkey : key ∈ m.hierarchy.states) : (m.lookup key).Keeps P failed :=
  fun _ hnow => hcoherent.ensures_lookup hkey fun _ _ => hnow

theorem target_mem_states_of_mem_defaults (hkey : m.hierarchy.Contains key) {t : Transition ι κ ν γ}
    (ht : t ∈ m.defaults key) : t.targetKey ∈ m.hierarchy.states := by
  have hparent := (hcoherent.descends hkey).parent_of_mem hcoherent t ht
  exact Hierarchy.parent_isSome_iff.1 (by rw [hparent]; rfl)

theorem restingKey_mem_states (hroot : m.hierarchy.IsComposite .root) (hkey : m.hierarchy.Contains key) :
    m.restingKey key ∈ m.hierarchy.states := by
  have hdescends := hcoherent.descends hkey
  refine Hierarchy.mem_states.2 ⟨fun heq => ?_, hdescends.contains hcoherent hkey⟩
  have hleaf := hdescends.isLeaf hcoherent
  rw [heq] at hleaf
  exact hleaf hroot

theorem exists_route_of_triggered [DecidableEq κ] (hactive : m.hierarchy.Contains active) {t : Transition ι κ ν γ}
    {signal : Option (Signal ι κ ν)} (ht : t ∈ m.triggered active signal) :
    t.sourceKey ∈ m.hierarchy.states ∧ t.targetKey ∈ m.hierarchy.states ∧
      ∃ route, m.hierarchy.route active t.sourceKey t.targetKey t.kind = .ok route ∧
        ∀ key ∈ route.exits ++ route.entries, key ∈ m.hierarchy.states := by
  obtain ⟨⟨source, hsource, hleaving⟩, _⟩ := mem_triggered_iff.1 ht
  obtain ⟨hall, _, rfl⟩ := hcoherent.mem_leaving_iff.1 hleaving
  have htarget := hcoherent.target_mem_states hall
  exact ⟨hcoherent.forest.mem_states_of_mem_activeChain hactive hsource, htarget,
    hcoherent.forest.exists_route hactive hsource htarget t.kind⟩

/-! ### The parts of a run -/

theorem keeps_leave_failsIn (hkey : key ∈ m.hierarchy.states) :
    (m.leave key).Keeps (fun _ => True) (FailsIn fun _ => True) :=
  keeps_leave (hcoherent.keeps_lookup hkey) (Run.keeps_note fun _ _ => trivial) fun _ => bears_of_role trivial

theorem keeps_enter_failsIn {roles : Role → Prop} (hentry : roles .entry) (hkey : key ∈ m.hierarchy.states) :
    (m.enter key).Keeps (fun _ => True) (FailsIn roles) :=
  keeps_enter (hcoherent.keeps_lookup hkey) (Run.keeps_note fun _ _ => trivial) fun _ => bears_of_role hentry

theorem ensures_enterDefaults_failsIn {roles : Role → Prop} (hentry : roles .entry) (hinitial : roles .initialAction)
    (hkey : m.hierarchy.Contains key) :
    (m.enterDefaults key).Ensures now (fun settled _ => settled = m.restingKey key) (FailsIn roles) := by
  refine (ensures_enterDefaults_of_keeps (fun _ => bears_of_role hinitial) (fun t ht => ?_) trivial).mono_done
    fun _ _ hsettled => hsettled.1
  exact hcoherent.keeps_enter_failsIn hentry (hcoherent.target_mem_states_of_mem_defaults hkey ht)

theorem ensures_fire_failsIn [DecidableEq κ] (hactive : m.hierarchy.Contains active) {t : Transition ι κ ν γ}
    {signal : Option (Signal ι κ ν)} (ht : t ∈ m.triggered active signal) :
    (m.fire active t signal).Ensures now (fun settled _ => settled = m.restingKey t.targetKey)
      (FailsIn fun _ => True) := by
  obtain ⟨_, htarget, route, hroute, hstates⟩ := hcoherent.exists_route_of_triggered hactive ht
  refine (ensures_fire_of_keeps ?_ ?_ (bears_of_role trivial) (fun _ => bears_of_role trivial) ?_ trivial).mono_done
    fun _ _ hsettled => hsettled.1
  · intro states herror
    rw [hroute] at herror
    cases herror
  · intro other hother
    obtain rfl := Except.ok.inj (hroute.symm.trans hother)
    exact ⟨fun key hkey => hcoherent.keeps_leave_failsIn (hstates key (List.mem_append_left _ hkey)),
      fun key hkey => hcoherent.keeps_enter_failsIn trivial (hstates key (List.mem_append_right _ hkey))⟩
  · intro hop hhop
    exact hcoherent.keeps_enter_failsIn trivial
      (hcoherent.target_mem_states_of_mem_defaults (Hierarchy.mem_states.1 htarget).2 hhop)

theorem ensures_step_failsIn [DecidableEq κ] (hroot : m.hierarchy.IsComposite .root) (hfaithful : m.resolver.Faithful)
    (hkey : key ∈ m.hierarchy.states) (count : Nat) (signal : Option (Signal ι κ ν)) :
    (m.step count key signal).Ensures now (fun result _ => ∀ settled ∈ result, settled ∈ m.hierarchy.states)
      (FailsIn fun _ => True) := by
  have hcontains := (Hierarchy.mem_states.1 hkey).2
  have hoffer : (signal.forM fun signal => m.offer signal (m.hierarchy.activeChain key)).Keeps (fun _ => True)
      (FailsIn fun _ => True) := by
    refine keeps_offer_pending (fun active hactive => hcoherent.keeps_lookup ?_) fun _ _ _ => bears_of_role trivial
    exact hcoherent.forest.mem_states_of_mem_activeChain hcontains hactive
  apply Run.ensures_bind
  apply hcoherent.ensures_lookup hkey
  intro origin _
  apply (hoffer now trivial).bind
  intro _ now _
  apply (ensures_select key (fun _ => bears_of_role trivial) (fun _ => bears_of_role trivial) trivial).bind
  intro chosen now hchosen
  cases chosen with
  | none => exact Run.ensures_pure (by simp)
  | some t =>
    -- A candidate leaves an active state, so it has a route; what else a resolver could answer need not have one.
    have ht := hchosen.1 hfaithful t rfl
    obtain ⟨hsource, htarget, _⟩ := hcoherent.exists_route_of_triggered hcontains ht
    have hsettled := hcoherent.restingKey_mem_states hroot (Hierarchy.mem_states.1 htarget).2
    apply Run.ensures_bind
    apply Run.ensures_note
    apply (hcoherent.ensures_fire_failsIn hcontains ht).bind
    rintro _ now rfl
    apply Run.ensures_bind
    apply hcoherent.ensures_lookup hsource
    intro source _
    apply Run.ensures_bind
    apply hcoherent.ensures_lookup hsettled
    intro resting _
    apply Run.ensures_bind
    apply Run.ensures_note
    refine Run.ensures_pure fun settled hmem => ?_
    obtain rfl := Option.some.inj hmem
    exact hsettled

theorem ensures_proceed_failsIn [DecidableEq κ] (hroot : m.hierarchy.IsComposite .root)
    (hfaithful : m.resolver.Faithful) (hkey : key ∈ m.hierarchy.states) (budget count : Nat)
    (signal : Option (Signal ι κ ν)) :
    (m.proceed budget count key signal).Ensures now (fun id _ => id ∈ m.ids)
      (fun error now => (∃ id ∈ m.ids, error = .limitReached m.limit id) ∨ FailsIn (fun _ => True) error now) := by
  induction budget generalizing count key signal now with
  | zero =>
    apply Run.ensures_bind
    refine hcoherent.ensures_lookup hkey fun state hstate => ?_
    exact Run.ensures_fail (.inl ⟨state.id, mem_ids_of_state? hstate, rfl⟩)
  | succ budget ih =>
    apply ((hcoherent.ensures_step_failsIn hroot hfaithful hkey count signal).mono (fun _ _ => id) fun _ _ => .inr).bind
    intro result now hresult
    cases result with
    | none =>
      apply Run.ensures_bind
      refine hcoherent.ensures_lookup hkey fun state hstate => ?_
      exact Run.ensures_pure (mem_ids_of_state? hstate)
    | some settled => exact ih (hresult settled rfl) (count + 1) _

theorem ensures_start_failsIn (hroot : m.hierarchy.IsComposite .root) (context : γ) :
    (m.start).Ensures ⟨context, []⟩ (fun id _ => id ∈ m.ids)
      (FailsIn fun role => role = .entry ∨ role = .initialAction) := by
  have hcontains := Hierarchy.contains_root m.hierarchy
  apply (hcoherent.ensures_enterDefaults_failsIn (.inl rfl) (.inr rfl) hcontains).bind
  rintro _ now rfl
  apply Run.ensures_bind
  apply hcoherent.ensures_lookup (hcoherent.restingKey_mem_states hroot hcontains)
  intro state hstate
  exact Run.ensures_pure (mem_ids_of_state? hstate)

theorem ensures_process_failsIn [DecidableEq ι] [DecidableEq κ] (hroot : m.hierarchy.IsComposite .root)
    (hfaithful : m.resolver.Faithful) {current : ι} (hcurrent : current ∈ m.ids) (event : Event κ ν) (context : γ) :
    (m.process current event).Ensures ⟨context, []⟩ (fun id _ => id ∈ m.ids)
      (fun error now => (∃ id ∈ m.ids, error = .limitReached m.limit id) ∨ FailsIn (fun _ => True) error now) := by
  have hkey : m.key? current = some (.ofPosition (m.ids.idxOf current)) := if_pos hcurrent
  obtain ⟨state, hstate, _⟩ := exists_state_of_id? ((key?_eq_some_iff hcoherent.nodup).1 hkey)
  unfold process
  rw [hkey]
  exact hcoherent.ensures_proceed_failsIn hroot hfaithful (hcoherent.mem_states_iff.2 ⟨state, hstate⟩) m.limit 0 _

end Coherent

/-! ### Whole runs -/

variable [DecidableEq ι] [DecidableEq κ] {declarations : List (Declaration ι κ ν γ)}

/-- **A run fails only where a callback does, or at the limit.** A start that does not answer a state fails in an entry callback or in the action of an initial transition. A run from a state of the machine that does not answer a state has used up the limit or fails in a callback. From any other state nothing is done at all, and the error names that state. -/
theorem failures_of_build [ToString ι] (hbuild : Machine.build declarations = .ok m)
    (hfaithful : m.resolver.Faithful) :
    (∀ context, (∃ id ∈ m.ids, (m.start context).result = .ok id) ∨
        ∃ role place fault, (m.start context).result = .error (.failed role place fault) ∧
          (role = .entry ∨ role = .initialAction)) ∧
      (∀ current event context,
        (current ∈ m.ids →
            (∃ id ∈ m.ids, (m.process current event context).result = .ok id) ∨
              (∃ id ∈ m.ids, (m.process current event context).result = .error (.limitReached m.limit id)) ∨
                ∃ role place fault, (m.process current event context).result = .error (.failed role place fault)) ∧
          (current ∉ m.ids →
            m.process current event context = ⟨.error (.unknownState current), context, []⟩ ∧
              (RunError.unknownState current).message = "Unknown state " ++ toString current)) ∧
      m.table.Covers m.hierarchy.size := by
  have hcoherent := coherent_of_build hbuild
  have hroot := isComposite_root_of_build hbuild
  refine ⟨fun context => ?_, fun current event context => ⟨fun hcurrent => ?_, fun hcurrent => ?_⟩, ?_⟩
  · have hstart := hcoherent.ensures_start_failsIn hroot context
    cases hresult : (m.start context).result with
    | ok id => exact .inl ⟨id, hstart.of_ok hresult, rfl⟩
    | error error =>
      obtain ⟨role, place, fault, rfl, hrole⟩ := hstart.of_error hresult
      exact .inr ⟨role, place, fault, rfl, hrole⟩
  · have hprocess := hcoherent.ensures_process_failsIn hroot hfaithful hcurrent event context
    cases hresult : (m.process current event context).result with
    | ok id => exact .inl ⟨id, hprocess.of_ok hresult, rfl⟩
    | error error =>
      rcases hprocess.of_error hresult with ⟨id, hid, rfl⟩ | ⟨role, place, fault, rfl, _⟩
      · exact .inr (.inl ⟨id, hid, rfl⟩)
      · exact .inr (.inr ⟨role, place, fault, rfl⟩)
  · have hkey : m.key? current = none := if_neg hcurrent
    exact ⟨by rw [process, hkey]; rfl, rfl⟩
  · obtain ⟨_, _, _, _, _, rfl⟩ := Draft.build_eq_ok_iff.1 hbuild
    exact Table.covers_ofList _ _

/-- A fuse has blown once it is asked for too much, and says so instead of entering that state. -/
def fuse : List (Declaration Nat Unit Unit Unit) := [
  .initial 0 none,
  .state 1 { onEntry := Callback.raise "blown" },
  .rule { source := 0, target := 1, trigger := some (.event ()) }]

theorem fuse_failures : ∃ m, Machine.build fuse = .ok m ∧ m.resolver.Faithful ∧ 0 ∈ m.ids ∧ 7 ∉ m.ids ∧
    (m.process 0 ⟨(), ()⟩ ()).result = .error (.failed .entry (.state 1) (.raised "blown")) ∧
    ((∃ id ∈ m.ids, (m.process 0 ⟨(), ()⟩ ()).result = .ok id) ∨
      (∃ id ∈ m.ids, (m.process 0 ⟨(), ()⟩ ()).result = .error (.limitReached m.limit id)) ∨
        ∃ role place fault, (m.process 0 ⟨(), ()⟩ ()).result = .error (.failed role place fault)) ∧
    m.process 7 ⟨(), ()⟩ () = ⟨.error (.unknownState 7), (), []⟩ := by
  have hbuild : Machine.build fuse = .ok (Draft.ofDeclarations fuse).freeze := rfl
  have hfaithful : (Draft.ofDeclarations fuse).freeze.resolver.Faithful := Resolver.faithful_reject
  obtain ⟨_, hprocess, _⟩ := failures_of_build hbuild hfaithful
  have hknown : 0 ∈ (Draft.ofDeclarations fuse).freeze.ids := by decide
  have hunknown : 7 ∉ (Draft.ofDeclarations fuse).freeze.ids := by decide
  exact ⟨_, hbuild, hfaithful, hknown, hunknown, rfl, (hprocess 0 ⟨(), ()⟩ ()).1 hknown,
    ((hprocess 7 ⟨(), ()⟩ ()).2 hunknown).1⟩

end NestedMachine.Machine
