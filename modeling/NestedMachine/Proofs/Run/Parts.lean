import NestedMachine.Proofs.Run.Ensures

/-!
# What goes through the parts of a run

A part of a run keeps a condition if the lookups, the crossings and the calls in it do. That is said here once for each part, whatever the condition is, so that an argument about a run has to look only at those. What a part answers is said along with it: `ensures_select` that the chosen transition is one of those that the signal triggers, as far as the resolver answers one of its candidates (`Resolver.Faithful`), and `ensures_fire_of_keeps` where the machine rests once a transition has fired.
-/

namespace NestedMachine

variable {ι κ ν γ α β : Type}

/-- What the resolver answers is always one of the candidates. That is what is expected of a resolver, and both resolvers of this library keep to it. -/
def Resolver.Faithful (resolver : Resolver ι κ ν γ) : Prop :=
  ∀ state signal candidates context t context',
    (resolver state signal candidates).call context = (.ok t, context') → t ∈ candidates

theorem Resolver.faithful_reject : (Resolver.reject : Resolver ι κ ν γ).Faithful := by
  intro state signal candidates context t context' hcall
  cases hcall

theorem Resolver.faithful_nearest [ToString ι] : (Resolver.nearest : Resolver ι κ ν γ).Faithful := by
  intro state signal candidates context t context' hcall
  cases candidates with
  | nil => cases hcall
  | cons first rest =>
    cases hcall
    exact List.mem_cons_self

namespace Run

variable {P : Moment ι κ ν γ → Prop} {failed : RunError ι → Moment ι κ ν γ → Prop}

/-- The condition outlasts a call, and `failed` allows for a failure there. -/
structure Bears (P : Moment ι κ ν γ → Prop) (failed : RunError ι → Moment ι κ ν γ → Prop) (call : Call ι κ ν γ) :
    Prop where
  outlasts : ∀ now, P now → ∀ context, P ⟨context, now.past ++ [.called call]⟩
  allows : ∀ fault now, P now → failed (.failed call.role call.place fault) now

theorem Bears.invoke {call : Call ι κ ν γ} (hcall : Bears P failed call) (callback : Callback ι γ α) :
    (invoke call callback).Keeps P failed := keeps_invoke hcall.outlasts hcall.allows

theorem keeps_note {activity : Activity ι κ ν γ}
    (hnote : ∀ now, P now → P ⟨now.context, now.past ++ [activity]⟩) : (note activity).Keeps P failed :=
  fun now hnow => ensures_note (hnote now hnow)

theorem keeps_forM {list : List β} {part : β → Run ι κ ν γ Unit} (hpart : ∀ b ∈ list, (part b).Keeps P failed) :
    (list.forM part).Keeps P failed := by
  induction list with
  | nil => exact keeps_pure ()
  | cons b rest ih =>
    refine (hpart b List.mem_cons_self).bind fun _ => ih fun other hother => ?_
    exact hpart other (List.mem_cons_of_mem _ hother)

end Run

namespace Machine

variable {m : Machine ι κ ν γ} {key : Key} {t : Transition ι κ ν γ} {signal : Option (Signal ι κ ν)}
variable {P : Moment ι κ ν γ → Prop} {failed : RunError ι → Moment ι κ ν γ → Prop} {now : Moment ι κ ν γ}

/-! ### Offering -/

theorem keeps_offer {signal : Signal ι κ ν} {keys : List Key} (hlookup : ∀ key ∈ keys, (m.lookup key).Keeps P failed)
    (hevent : ∀ id, Run.Bears P failed (.event id signal)) : (m.offer signal keys).Keeps P failed := by
  induction keys with
  | nil => exact Run.keeps_pure ()
  | cons key rest ih =>
    refine (hlookup key List.mem_cons_self).bind fun state => ?_
    split
    · exact Run.keeps_pure ()
    · refine ((hevent state.id).invoke _).bind fun consumed => ?_
      split
      · exact Run.keeps_pure ()
      · exact ih fun other hother => hlookup other (List.mem_cons_of_mem _ hother)

theorem keeps_offer_pending {keys : List Key} (hlookup : ∀ key ∈ keys, (m.lookup key).Keeps P failed)
    (hevent : ∀ id told, signal = some told → Run.Bears P failed (.event id told)) :
    (signal.forM fun told => m.offer told keys).Keeps P failed := by
  cases signal with
  | none => exact Run.keeps_pure ()
  | some told => exact keeps_offer hlookup fun id => hevent id told rfl

/-! ### Selecting -/

theorem mem_triggered_iff [DecidableEq κ] : t ∈ m.triggered key signal ↔
    (∃ active ∈ m.hierarchy.activeChain key, t ∈ m.table.leaving active) ∧ t.awaits signal = true := by
  rw [triggered, List.mem_filter, List.mem_flatMap]

theorem keeps_isReady (hguard : Run.Bears P failed (.guard t signal)) : (isReady signal t).Keeps P failed := by
  unfold isReady
  split
  · exact Run.keeps_pure true
  · exact hguard.invoke _

theorem ensures_ready (hguard : ∀ t, Run.Bears P failed (.guard t signal)) (candidates : List (Transition ι κ ν γ))
    (hnow : P now) :
    (ready signal candidates).Ensures now (fun found now => found ⊆ candidates ∧ P now) failed := by
  induction candidates generalizing now with
  | nil => exact Run.ensures_pure ⟨List.Subset.refl _, hnow⟩
  | cons t rest ih =>
    apply (keeps_isReady (hguard t) now hnow).bind
    intro isReady now hnow
    apply (ih hnow).bind
    intro others now hothers
    refine Run.ensures_pure ⟨?_, hothers.2⟩
    cases isReady with
    | true => exact List.cons_subset_cons t hothers.1
    | false => exact List.subset_cons_of_subset t hothers.1

theorem ensures_choose {state : ι} (hresolver : ∀ candidates, Run.Bears P failed (.resolver state signal candidates))
    (candidates : List (Transition ι κ ν γ)) (hnow : P now) :
    (m.choose state signal candidates).Ensures now
      (fun chosen now => (m.resolver.Faithful → ∀ t ∈ chosen, t ∈ candidates) ∧ P now) failed := by
  match candidates with
  | [] => exact Run.ensures_pure ⟨by simp, hnow⟩
  | [only] => exact Run.ensures_pure ⟨by simp, hnow⟩
  | first :: second :: rest =>
    have hasked := (hresolver (first :: second :: rest)).outlasts now hnow
    rw [choose, map_eq_pure_bind]
    · apply Run.ensures_bind
      apply Run.ensures_invoke
      · intro t context hcall
        refine Run.ensures_pure ⟨fun hfaithful t' ht' => ?_, hasked context⟩
        obtain rfl := Option.some.inj ht'
        exact hfaithful _ _ _ _ _ _ hcall
      · intro fault context _
        exact (hresolver _).allows fault _ (hasked context)
    · simp
    · simp

theorem ensures_select [DecidableEq κ] {state : ι} (key : Key) (hguard : ∀ t, Run.Bears P failed (.guard t signal))
    (hresolver : ∀ candidates, Run.Bears P failed (.resolver state signal candidates)) (hnow : P now) :
    (m.select state key signal).Ensures now
      (fun chosen now => (m.resolver.Faithful → ∀ t ∈ chosen, t ∈ m.triggered key signal) ∧ P now) failed := by
  apply (ensures_ready hguard _ hnow).bind
  intro candidates now hready
  refine (ensures_choose hresolver candidates hready.2).mono_done fun chosen now hchosen => ?_
  exact ⟨fun hfaithful t ht => hready.1 (hchosen.1 hfaithful t ht), hchosen.2⟩

/-! ### Firing -/

theorem keeps_leave (hlookup : (m.lookup key).Keeps P failed) (hleft : (Run.note (.left key)).Keeps P failed)
    (hexit : ∀ id, Run.Bears P failed (.exit id)) : (m.leave key).Keeps P failed := by
  refine hlookup.bind fun state => hleft.bind fun _ => ?_
  split
  · exact Run.keeps_pure ()
  · exact (hexit state.id).invoke _

theorem keeps_enter (hlookup : (m.lookup key).Keeps P failed) (hentered : (Run.note (.entered key)).Keeps P failed)
    (hentry : ∀ id, Run.Bears P failed (.entry id)) : (m.enter key).Keeps P failed :=
  hlookup.bind fun state => hentered.bind fun _ => (hentry state.id).invoke _

theorem keeps_act (haction : Run.Bears P failed (.action t signal)) : (act t signal).Keeps P failed := by
  unfold act
  split
  · exact Run.keeps_pure ()
  · exact haction.invoke _

theorem keeps_actInitial (haction : Run.Bears P failed (.initialAction t)) : (actInitial t).Keeps P failed := by
  unfold actInitial
  split
  · exact Run.keeps_pure ()
  · exact haction.invoke _

theorem ensures_enterDefaults_of_keeps (haction : ∀ t, Run.Bears P failed (.initialAction t))
    (henter : ∀ t ∈ m.defaults key, (m.enter t.targetKey).Keeps P failed) (hnow : P now) :
    (m.enterDefaults key).Ensures now (fun settled now => settled = m.restingKey key ∧ P now) failed := by
  have hdefaults : ((m.defaults key).forM m.enterDefault).Keeps P failed := by
    refine Run.keeps_forM fun t ht => ?_
    exact (keeps_actInitial (haction t)).bind fun _ => henter t ht
  apply (hdefaults now hnow).bind
  intro _ now hnow
  exact Run.ensures_pure ⟨rfl, hnow⟩

theorem ensures_fire_of_keeps {active : Key}
    (hpath : ∀ states, m.hierarchy.route active t.sourceKey t.targetKey t.kind = .error states →
      failed (.unrelated states) now)
    (hwalk : ∀ route, m.hierarchy.route active t.sourceKey t.targetKey t.kind = .ok route →
      (∀ key ∈ route.exits, (m.leave key).Keeps P failed) ∧ ∀ key ∈ route.entries, (m.enter key).Keeps P failed)
    (haction : Run.Bears P failed (.action t signal)) (hinitial : ∀ t, Run.Bears P failed (.initialAction t))
    (henter : ∀ hop ∈ m.defaults t.targetKey, (m.enter hop.targetKey).Keeps P failed) (hnow : P now) :
    (m.fire active t signal).Ensures now (fun settled now => settled = m.restingKey t.targetKey ∧ P now) failed := by
  apply Run.ensures_bind
  refine Run.ensures_ofPath (fun route hroute => ?_) hpath
  obtain ⟨hexits, hentries⟩ := hwalk route hroute
  apply (Run.keeps_forM hexits now hnow).bind
  intro _ now hnow
  apply (keeps_act haction now hnow).bind
  intro _ now hnow
  apply (Run.keeps_forM hentries now hnow).bind
  intro _ now hnow
  exact ensures_enterDefaults_of_keeps hinitial henter hnow

/-- The condition goes through all that is done while a transition fires, whichever it is, apart from its action: states are looked up and crossed, and called for that. -/
structure WithstandsFiring (P : Moment ι κ ν γ → Prop) (failed : RunError ι → Moment ι κ ν γ → Prop) : Prop where
  dangling : ∀ key now, P now → failed (.danglingKey key) now
  unrelated : ∀ states now, P now → failed (.unrelated states) now
  left : ∀ key now, P now → P ⟨now.context, now.past ++ [.left key]⟩
  entered : ∀ key now, P now → P ⟨now.context, now.past ++ [.entered key]⟩
  exit : ∀ id, Run.Bears P failed (.exit id)
  entry : ∀ id, Run.Bears P failed (.entry id)
  initialAction : ∀ t, Run.Bears P failed (.initialAction t)

namespace WithstandsFiring

variable (hfiring : WithstandsFiring P failed)
include hfiring

theorem lookup (key : Key) : (m.lookup key).Keeps P failed := Run.keeps_lookup (hfiring.dangling key)

theorem leave (key : Key) : (m.leave key).Keeps P failed :=
  keeps_leave (hfiring.lookup key) (Run.keeps_note (hfiring.left key)) hfiring.exit

theorem enter (key : Key) : (m.enter key).Keeps P failed :=
  keeps_enter (hfiring.lookup key) (Run.keeps_note (hfiring.entered key)) hfiring.entry

theorem ensures_fire (haction : Run.Bears P failed (.action t signal)) (active : Key) (hnow : P now) :
    (m.fire active t signal).Ensures now (fun settled now => settled = m.restingKey t.targetKey ∧ P now) failed := by
  refine ensures_fire_of_keeps (fun states _ => hfiring.unrelated states now hnow) (fun route _ => ?_) haction
    hfiring.initialAction (fun hop _ => hfiring.enter hop.targetKey) hnow
  exact ⟨fun key _ => hfiring.leave key, fun key _ => hfiring.enter key⟩

theorem keeps_fire (haction : Run.Bears P failed (.action t signal)) (active : Key) :
    (m.fire active t signal).Keeps P failed :=
  fun _ hnow => (hfiring.ensures_fire haction active hnow).mono_done fun _ _ hdone => hdone.2

end WithstandsFiring

end Machine

/-! ### Calls of some sort only -/

/-- All that has been called so far is of this sort. -/
def OnlyCalls (allowed : Call ι κ ν γ → Prop) (now : Moment ι κ ν γ) : Prop :=
  ∀ call, .called call ∈ now.past → allowed call

section onlyCalls

variable {m : Machine ι κ ν γ} {allowed : Call ι κ ν γ → Prop} {call : Call ι κ ν γ} {now : Moment ι κ ν γ}

theorem onlyCalls_nil (context : γ) : OnlyCalls allowed ⟨context, []⟩ := by simp [OnlyCalls]

theorem OnlyCalls.concat (hnow : OnlyCalls allowed now) {activity : Activity ι κ ν γ}
    (hactivity : ∀ call, activity = .called call → allowed call) (context : γ) :
    OnlyCalls allowed ⟨context, now.past ++ [activity]⟩ := by
  intro call hcall
  rcases List.mem_append.1 hcall with hbefore | hlast
  · exact hnow call hbefore
  · exact hactivity call (List.mem_singleton.1 hlast).symm

theorem onlyCalls_bears (hcall : allowed call) : Run.Bears (OnlyCalls allowed) (fun _ => OnlyCalls allowed) call where
  outlasts _ hnow := hnow.concat fun _ heq => Activity.called.inj heq ▸ hcall
  allows _ _ hnow := hnow

theorem onlyCalls_lookup (key : Key) : (m.lookup key).Keeps (OnlyCalls allowed) fun _ => OnlyCalls allowed :=
  Run.keeps_lookup fun _ hnow => hnow

theorem onlyCalls_note {activity : Activity ι κ ν γ} (hactivity : activity.call? = none) :
    (Run.note activity).Keeps (OnlyCalls allowed) fun _ => OnlyCalls allowed := by
  refine Run.keeps_note fun now hnow => hnow.concat (fun call heq => ?_) now.context
  rw [heq] at hactivity
  cases hactivity

theorem onlyCalls_enter (hentry : ∀ id, allowed (.entry id)) (key : Key) :
    (m.enter key).Keeps (OnlyCalls allowed) fun _ => OnlyCalls allowed :=
  Machine.keeps_enter (onlyCalls_lookup key) (onlyCalls_note rfl) fun id => onlyCalls_bears (hentry id)

theorem onlyCalls_fire {t : Transition ι κ ν γ} {signal : Option (Signal ι κ ν)} (hexit : ∀ id, allowed (.exit id))
    (haction : allowed (.action t signal)) (hentry : ∀ id, allowed (.entry id))
    (hinitial : ∀ t, allowed (.initialAction t)) (active : Key) :
    (m.fire active t signal).Keeps (OnlyCalls allowed) fun _ => OnlyCalls allowed := by
  have hfiring : Machine.WithstandsFiring (OnlyCalls allowed) (fun _ => OnlyCalls allowed) := {
    dangling := fun _ _ hnow => hnow
    unrelated := fun _ _ hnow => hnow
    left := fun _ now hnow => hnow.concat (by simp) now.context
    entered := fun _ now hnow => hnow.concat (by simp) now.context
    exit := fun id => onlyCalls_bears (hexit id)
    entry := fun id => onlyCalls_bears (hentry id)
    initialAction := fun t => onlyCalls_bears (hinitial t) }
  exact hfiring.keeps_fire (onlyCalls_bears haction) active

end onlyCalls

end NestedMachine
