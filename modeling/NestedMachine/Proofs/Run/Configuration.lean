import NestedMachine.Proofs.Machine.Cascade
import NestedMachine.Proofs.Run.Crossing
import NestedMachine.Proofs.Run.Parts
import NestedMachine.Proofs.Run.Route

/-!
# The active configuration

While a machine rests in a state, exactly the states on its chain are active. The invariant is an `Account` whose stack is the active chain of the state in which the machine rests, and there is one lemma for each part of a run that says what the part does to it: `ensures_leaveAll`, `ensures_enterAll`, `ensures_enterDefaults`, `ensures_fire`, `ensures_step` and `ensures_proceed`. Of a part that fails they say that what it did until then was in order (`FailsInOrder`).

None of this asks anything of the resolver. A transition that is none of the candidates, or not even one of the machine, either has a route from the active state to a state of the machine, which is then walked like any other, or makes the run fail.
-/

namespace NestedMachine.Machine

variable {ι κ ν γ : Type} {m : Machine ι κ ν γ}

/-- The state in which the machine rests according to a result: the answer, or the state in which the limit was reached. -/
def restsIn? : Except (RunError ι) ι → Option ι
  | .ok id => some id
  | .error (.limitReached _ id) => some id
  | .error _ => none

/-- The crossings up to the failure are in order, and if the error says where the machine rests then that is so. -/
def FailsInOrder (m : Machine ι κ ν γ) (base : List Key) (error : RunError ι) (now : Moment ι κ ν γ) : Prop :=
  ∃ stack firings, m.Account base stack firings now ∧
    ∀ id, restsIn? (.error error) = some id → ∃ key, m.id? key = some id ∧ stack = m.hierarchy.activeChain key

variable {base stack rest : List Key} {firings : List (Firing ι)} {now : Moment ι κ ν γ} {key inner active target : Key}

theorem Account.failsInOrder (hnow : m.Account base stack firings now) {error : RunError ι}
    (herror : restsIn? (.error error) = none) : m.FailsInOrder base error now :=
  ⟨stack, firings, hnow, by simp [herror]⟩

theorem Account.ensures_lookup {α : Type} {next : State ι κ ν γ → Run ι κ ν γ α} {done : α → Moment ι κ ν γ → Prop}
    (hnow : m.Account base stack firings now)
    (hnext : ∀ state, m.state? key = some state → (next state).Ensures now done (m.FailsInOrder base)) :
    (m.lookup key >>= next).Ensures now done (m.FailsInOrder base) := by
  apply Run.ensures_bind
  apply Run.ensures_lookup
  · exact hnext
  · intro _
    exact hnow.failsInOrder rfl

/-! ### Leaving -/

theorem ensures_leave (hnow : m.Account base stack firings now) (htop : key ≠ .root → stack = key :: rest) :
    (m.leave key).Ensures now (fun _ now => key ≠ .root ∧ m.Account base rest firings now) (m.FailsInOrder base) := by
  apply hnow.ensures_lookup
  intro state hstate
  have hroot : key ≠ .root := by
    rintro rfl
    simp at hstate
  obtain rfl := htop hroot
  apply Run.ensures_bind
  apply Run.ensures_note
  -- The account is settled only after the exit callback, since a crossing and its call go together.
  have hreplay := m.hierarchy.replay_left rest key
  cases hfinal : state.isFinal with
  | true =>
    have hcall : m.crossingCall? (.left key) = none := by simp [crossingCall?, hstate, hfinal]
    have hcalls : Activity.crossingCalls [.left key] = [Crossing.left key].filterMap m.crossingCall? := by
      rw [List.filterMap_cons_none hcall]
      rfl
    exact Run.ensures_pure ⟨hroot, hnow.append [.left key] hreplay hcalls rfl now.context⟩
  | false =>
    have hcall : m.crossingCall? (.left key) = some (.exit state.id) := by simp [crossingCall?, hstate, hfinal]
    have hcalls : Activity.crossingCalls [.left key, .called (.exit state.id)] =
        [Crossing.left key].filterMap m.crossingCall? := by
      rw [List.filterMap_cons_some hcall]
      rfl
    have hleft : ∀ context, m.Account base rest firings
        ⟨context, (now.past ++ [.left key]) ++ [.called (.exit state.id)]⟩ := by
      intro context
      rw [List.append_assoc]
      exact hnow.append [.left key, .called (.exit state.id)] hreplay hcalls rfl context
    apply Run.ensures_invoke
    · intro _ context _
      exact ⟨hroot, hleft context⟩
    · intro _ context _
      exact (hleft context).failsInOrder rfl

theorem ensures_leaveAll {exits : List Key} (rest : List Key)
    (hnow : m.Account base ((exits ++ rest).takeWhile (· ≠ .root)) firings now) :
    (exits.forM m.leave).Ensures now
      (fun _ now => .root ∉ exits ∧ m.Account base (rest.takeWhile (· ≠ .root)) firings now) (m.FailsInOrder base) := by
  induction exits generalizing now with
  | nil => exact Run.ensures_pure ⟨List.not_mem_nil, hnow⟩
  | cons key exits ih =>
    have htop : key ≠ .root → (key :: exits ++ rest).takeWhile (· ≠ .root) =
        key :: (exits ++ rest).takeWhile (· ≠ .root) := fun hroot => by simp [hroot]
    apply (ensures_leave hnow htop).bind
    intro _ now hleft
    refine (ih hleft.2).mono_done fun _ now hrest => ⟨?_, hrest.2⟩
    simp [hleft.1.symm, hrest.1]

/-! ### Entering -/

theorem ensures_enter (hnow : m.Account base stack firings now)
    (hparent : m.hierarchy.parent key = some (stack.headD .root)) :
    (m.enter key).Ensures now (fun _ => m.Account base (key :: stack) firings) (m.FailsInOrder base) := by
  apply hnow.ensures_lookup
  intro state hstate
  apply Run.ensures_bind
  apply Run.ensures_note
  have hcall : m.crossingCall? (.entered key) = some (.entry state.id) := by simp [crossingCall?, hstate]
  have hcalls : Activity.crossingCalls [.entered key, .called (.entry state.id)] =
      [Crossing.entered key].filterMap m.crossingCall? := by
    rw [List.filterMap_cons_some hcall]
    rfl
  have hentered : ∀ context, m.Account base (key :: stack) firings
      ⟨context, (now.past ++ [.entered key]) ++ [.called (.entry state.id)]⟩ := by
    intro context
    rw [List.append_assoc]
    exact hnow.append [.entered key, .called (.entry state.id)] (Hierarchy.replay_entered hparent) hcalls rfl context
  apply Run.ensures_invoke
  · intro _ context _
    exact hentered context
  · intro _ context _
    exact (hentered context).failsInOrder rfl

theorem headD_activeChain (h : Hierarchy) (key : Key) : (h.activeChain key).headD .root = key := by
  by_cases hroot : key = .root
  · simp [hroot]
  · simp [Hierarchy.activeChain_of_ne_root hroot]

theorem ensures_enter_substate (hforest : m.hierarchy.Forest) (hparent : m.hierarchy.parent key = some inner)
    (hnow : m.Account base (m.hierarchy.activeChain inner) firings now) :
    (m.enter key).Ensures now (fun _ => m.Account base (m.hierarchy.activeChain key) firings) (m.FailsInOrder base) := by
  rw [hforest.activeChain_of_parent hparent]
  exact ensures_enter hnow (by rw [headD_activeChain, hparent])

theorem ensures_enterAll (hforest : m.hierarchy.Forest) {entries : List Key} (htarget : m.hierarchy.Contains target)
    (hchain : m.hierarchy.chain target = entries.reverse ++ m.hierarchy.chain inner)
    (hnow : m.Account base (m.hierarchy.activeChain inner) firings now) :
    (entries.forM m.enter).Ensures now (fun _ => m.Account base (m.hierarchy.activeChain target) firings)
      (m.FailsInOrder base) := by
  induction entries generalizing inner now with
  | nil =>
    have heq : m.hierarchy.activeChain target = m.hierarchy.activeChain inner := by
      simp only [Hierarchy.activeChain, hchain, List.reverse_nil, List.nil_append]
    exact Run.ensures_pure (heq ▸ hnow)
  | cons key entries ih =>
    rw [List.reverse_cons, List.append_assoc, List.singleton_append] at hchain
    have hkey := hforest.chain_of_append hchain htarget
    have hparent : m.hierarchy.parent key = some inner := by
      cases hparent : m.hierarchy.parent key with
      | none =>
        rw [Hierarchy.chain_of_parent_none hparent] at hkey
        exact absurd (List.cons.inj hkey).2.symm (List.cons_ne_nil _ _)
      | some superstate =>
        rw [hforest.chain_of_parent hparent] at hkey
        obtain ⟨rfl, _⟩ := List.cons.inj (List.cons.inj hkey).2
        rfl
    apply (ensures_enter_substate hforest hparent hnow).bind
    intro _ now hentered
    exact ih (by rw [hchain, hkey]) hentered

/-! ### The parts that leave and enter nothing -/

theorem keeps_account_lookup (key : Key) :
    (m.lookup key).Keeps (m.Account base stack firings) (m.FailsInOrder base) :=
  Run.keeps_lookup fun _ hnow => hnow.failsInOrder rfl

theorem account_bears {call : Call ι κ ν γ} (hcall : call.role ≠ .entry ∧ call.role ≠ .exit) :
    Run.Bears (m.Account base stack firings) (m.FailsInOrder base) call where
  outlasts _ hnow context := hnow.called hcall context
  allows _ _ hnow := hnow.failsInOrder rfl

/-! ### Firing -/

theorem ensures_descend (hcoherent : m.Coherent) {hops : List (Transition ι κ ν γ)} {leaf : Key}
    (hdescends : m.Descends key hops leaf) (hnow : m.Account base (m.hierarchy.activeChain key) firings now) :
    (hops.forM m.enterDefault).Ensures now (fun _ => m.Account base (m.hierarchy.activeChain leaf) firings)
      (m.FailsInOrder base) := by
  induction hdescends generalizing now with
  | stop _ => exact Run.ensures_pure hnow
  | hop hinitial _ ih =>
    have hparent := hcoherent.parent_of_initialOf hinitial
    apply Run.ensures_bind
    apply (keeps_actInitial (account_bears (by simp [Call.role])) now hnow).bind
    intro _ now hnow
    refine (ensures_enter_substate hcoherent.forest hparent hnow).mono_done fun _ now hentered => ?_
    exact ih hentered

theorem ensures_enterDefaults (hcoherent : m.Coherent) (hkey : m.hierarchy.Contains key)
    (hnow : m.Account base (m.hierarchy.activeChain key) firings now) :
    (m.enterDefaults key).Ensures now
      (fun settled now => settled = m.restingKey key ∧ m.Account base (m.hierarchy.activeChain settled) firings now)
      (m.FailsInOrder base) := by
  apply (ensures_descend hcoherent (hcoherent.descends hkey) hnow).bind
  intro _ now hnow
  exact Run.ensures_pure ⟨rfl, hnow⟩

/-- **A transition leads from an active chain to that of the leaf below its target**, whatever its ends and its kind. -/
theorem ensures_fire (hcoherent : m.Coherent) (hactive : m.hierarchy.Contains active)
    (hnow : m.Account base (m.hierarchy.activeChain active) firings now) (t : Transition ι κ ν γ)
    (signal : Option (Signal ι κ ν)) :
    (m.fire active t signal).Ensures now
      (fun settled now => m.hierarchy.Contains t.targetKey ∧ settled = m.restingKey t.targetKey ∧
        m.Account base (m.hierarchy.activeChain settled) firings now) (m.FailsInOrder base) := by
  apply Run.ensures_bind
  refine Run.ensures_ofPath (fun route hroute => ?_) fun _ _ => hnow.failsInOrder rfl
  obtain ⟨htarget, hwalk⟩ := hcoherent.forest.route_spec hactive hroute
  rw [Hierarchy.activeChain] at hnow
  rcases hwalk with ⟨hroot, hchain⟩ | ⟨inner, hup, hdown⟩
  · -- The exits end with the root, so they are never completed.
    rw [hchain, ← List.append_nil route.exits] at hnow
    apply (ensures_leaveAll [] hnow).bind
    intro _ now hleft
    exact absurd hroot hleft.1
  · rw [hup] at hnow
    apply (ensures_leaveAll _ hnow).bind
    intro _ now hleft
    apply (keeps_act (account_bears (by simp [Call.role])) now hleft.2).bind
    intro _ now hacted
    apply (ensures_enterAll hcoherent.forest htarget hdown hacted).bind
    intro _ now hentered
    refine (ensures_enterDefaults hcoherent htarget hentered).mono_done fun settled now hsettled => ?_
    exact ⟨htarget, hsettled⟩

end NestedMachine.Machine
