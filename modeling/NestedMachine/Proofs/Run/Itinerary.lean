import NestedMachine.Proofs.Hierarchy.Meeting
import NestedMachine.Proofs.Run.Attribution

/-!
# What a firing does

Whatever a transition does when it fires is settled before it begins, but for the answers of the callbacks. `fireTrace` writes it down: which states are left and entered, in which order, and what is called in between. `enact` does what is written down, with the callbacks that the machine has for the calls, up to the first that fails. Firing the transition is just that (`Coherent.fire_eq`).
-/

namespace NestedMachine

variable {ι κ ν γ : Type}

/-- The key where the ends of the transition meet, if the transition leaves and enters that as well. -/
def Transition.boundary (t : Transition ι κ ν γ) (common : Key) : List Key :=
  t.kind.boundary t.sourceKey t.targetKey common

namespace Machine

/-! ### What is written down -/

/-- Leaving a state. The exit callback of a final state is not called. -/
def leaveTrace (m : Machine ι κ ν γ) (key : Key) : List (Activity ι κ ν γ) :=
  match m.state? key with
  | none => []
  | some state => .left key :: if state.isFinal then [] else [.called (.exit state.id)]

def enterTrace (m : Machine ι κ ν γ) (key : Key) : List (Activity ι κ ν γ) :=
  match m.state? key with
  | none => []
  | some state => [.entered key, .called (.entry state.id)]

/-- The action of an ordinary transition, if it has one. -/
def actTrace (t : Transition ι κ ν γ) (signal : Option (Signal ι κ ν)) : List (Activity ι κ ν γ) :=
  if t.action.isSome then [.called (.action t signal)] else []

/-- Following an initial transition: its action, if it has one, and its target. -/
def defaultTrace (m : Machine ι κ ν γ) (t : Transition ι κ ν γ) : List (Activity ι κ ν γ) :=
  (if t.action.isSome then [.called (.initialAction t)] else []) ++ m.enterTrace t.targetKey

/-- Firing a transition while the machine rests in `active`, where `common` is the key at which its ends meet and `hops` are the initial transitions on the way down from its target. -/
def fireTrace (m : Machine ι κ ν γ) (active common : Key) (t : Transition ι κ ν γ) (signal : Option (Signal ι κ ν))
    (hops : List (Transition ι κ ν γ)) : List (Activity ι κ ν γ) :=
  (m.hierarchy.below common active ++ t.boundary common).flatMap m.leaveTrace ++
    (actTrace t signal ++
      ((t.boundary common ++ (m.hierarchy.below common t.targetKey).reverse).flatMap m.enterTrace ++
        hops.flatMap m.defaultTrace))

variable [DecidableEq ι] {m : Machine ι κ ν γ} {key active common leaf : Key} {t : Transition ι κ ν γ}
variable {signal : Option (Signal ι κ ν)} {hops : List (Transition ι κ ν γ)} {call : Call ι κ ν γ}
variable {trace more : List (Activity ι κ ν γ)} {context : γ}

/-! ### Doing what is written down -/

/-- Makes a call with the callback that the machine has for it. -/
def makeCall (m : Machine ι κ ν γ) (call : Call ι κ ν γ) : Run ι κ ν γ Unit := fun context =>
  match m.perform call context with
  | (none, context) => ⟨.ok (), context, [.called call]⟩
  | (some fault, context) => ⟨.error (.failed call.role call.place fault), context, [.called call]⟩

/-- Does what is written down, up to the first call that fails. -/
def enact (m : Machine ι κ ν γ) : List (Activity ι κ ν γ) → Run ι κ ν γ Unit
  | [] => pure ()
  | .called call :: rest => do
    m.makeCall call
    m.enact rest
  | activity :: rest => do
    Run.note activity
    m.enact rest

theorem enact_append (m : Machine ι κ ν γ) (trace more : List (Activity ι κ ν γ)) :
    m.enact (trace ++ more) = (do
      m.enact trace
      m.enact more) := by
  induction trace with
  | nil => rfl
  | cons activity rest ih => cases activity <;> simp only [List.cons_append, enact, ih, bind_assoc]

theorem enact_note (m : Machine ι κ ν γ) {activity : Activity ι κ ν γ} (hactivity : activity.call? = none)
    (rest : List (Activity ι κ ν γ)) : m.enact (activity :: rest) = (do
      Run.note activity
      m.enact rest) := by
  cases activity with
  | called call => cases hactivity
  | _ => rfl

theorem forM_eq_enact {β : Type} {list : List β} {part : β → Run ι κ ν γ Unit} {written : β → List (Activity ι κ ν γ)}
    (hpart : ∀ b ∈ list, part b = m.enact (written b)) : list.forM part = m.enact (list.flatMap written) := by
  induction list with
  | nil => rfl
  | cons b rest ih =>
    obtain ⟨hfirst, hrest⟩ := List.forall_mem_cons.1 hpart
    have hcons : (b :: rest).forM part = (do
        part b
        rest.forM part) := rfl
    rw [hcons, List.flatMap_cons, enact_append, hfirst, ih hrest]

theorem invoke_eq_enact {callback : Callback ι γ Unit} (heffect : m.effect? call = some callback.effect) :
    Run.invoke call callback = m.enact [.called call] := by
  have hcall : Run.invoke call callback = m.makeCall call := by
    funext context
    rw [Run.invoke, makeCall, perform, heffect]
    simp only [Callback.effect]
    cases callback.call context with
    | mk answer after => cases answer <;> rfl
  rw [enact, hcall, enact, bind_pure_unit]

theorem enact_cases (m : Machine ι κ ν γ) (trace : List (Activity ι κ ν γ)) (context : γ) :
    ((m.replay context (trace.filterMap Activity.call?)).1 = [] ∧
        m.enact trace context = ⟨.ok (), (m.replay context (trace.filterMap Activity.call?)).2, trace⟩) ∨
      (m.replay context (trace.filterMap Activity.call?)).1 ≠ [] ∧ (m.enact trace context).trace <+: trace ∧
        ∃ role place fault, (m.enact trace context).result = .error (.failed role place fault) := by
  induction trace generalizing context with
  | nil => exact .inl ⟨rfl, rfl⟩
  | cons activity rest ih =>
    cases hactivity : activity.call? with
    | none =>
      rw [List.filterMap_cons_none hactivity, m.enact_note hactivity, Run.bind_apply_of_ok (Run.note_apply activity context)]
      rcases ih context with ⟨hnone, hrest⟩ | ⟨hsome, hbegins, hresult⟩
      · exact .inl ⟨hnone, by rw [hrest]; rfl⟩
      · exact .inr ⟨hsome, List.cons_prefix_cons.2 ⟨rfl, hbegins⟩, hresult⟩
    | some call =>
      obtain rfl : activity = .called call := by
        cases activity <;> cases hactivity
        rfl
      rw [List.filterMap_cons_some hactivity, enact, replay]
      cases hperform : m.perform call context with
      | mk fault? after =>
        cases fault? with
        | none =>
          have hcall : m.makeCall call context = ⟨.ok (), after, [.called call]⟩ := by rw [makeCall, hperform]
          rw [Run.bind_apply_of_ok hcall]
          rcases ih after with ⟨hnone, hrest⟩ | ⟨hsome, hbegins, hresult⟩
          · exact .inl ⟨hnone, by rw [hrest]; rfl⟩
          · exact .inr ⟨hsome, List.cons_prefix_cons.2 ⟨rfl, hbegins⟩, hresult⟩
        | some fault =>
          have hcall : m.makeCall call context =
              ⟨.error (.failed call.role call.place fault), after, [.called call]⟩ := by rw [makeCall, hperform]
          rw [Run.bind_apply_of_error hcall]
          exact .inr ⟨List.cons_ne_nil _ _, List.cons_prefix_cons.2 ⟨rfl, List.nil_prefix⟩, _, _, _, rfl⟩

/-! ### The parts of a firing -/

theorem act_eq_enact (m : Machine ι κ ν γ) (t : Transition ι κ ν γ) (signal : Option (Signal ι κ ν)) :
    act t signal = m.enact (actTrace t signal) := by
  rw [act, actTrace]
  cases haction : t.action with
  | none => rfl
  | some action => exact invoke_eq_enact (by rw [effect?, haction, Option.map_some])

theorem actInitial_eq_enact (m : Machine ι κ ν γ) (t : Transition ι κ ν γ) :
    actInitial t = m.enact (if t.action.isSome then [.called (.initialAction t)] else []) := by
  rw [actInitial]
  cases haction : t.action with
  | none => rfl
  | some action => exact invoke_eq_enact (by rw [effect?, haction, Option.map_some])

namespace Coherent

variable (hcoherent : m.Coherent)
include hcoherent

theorem leave_eq_enact (hkey : key ∈ m.hierarchy.states) : m.leave key = m.enact (m.leaveTrace key) := by
  obtain ⟨state, hstate⟩ := hcoherent.mem_states_iff.1 hkey
  have heffect : m.effect? (.exit state.id) = some state.behavior.onExit.effect := by
    rw [effect?, hcoherent.behavior?_of_state? hstate, Option.map_some]
  rw [leave, leaveTrace, lookup_of_state? hstate, pure_bind, hstate]
  simp only [m.enact_note (show (Activity.left key).call? = none from rfl)]
  cases state.isFinal with
  | true => rfl
  | false => exact congrArg _ (funext fun _ => invoke_eq_enact heffect)

theorem enter_eq_enact (hkey : key ∈ m.hierarchy.states) : m.enter key = m.enact (m.enterTrace key) := by
  obtain ⟨state, hstate⟩ := hcoherent.mem_states_iff.1 hkey
  have heffect : m.effect? (.entry state.id) = some state.behavior.onEntry.effect := by
    rw [effect?, hcoherent.behavior?_of_state? hstate, Option.map_some]
  rw [enter, enterTrace, lookup_of_state? hstate, pure_bind, hstate]
  simp only [m.enact_note (show (Activity.entered key).call? = none from rfl), invoke_eq_enact heffect]

theorem enterDefault_eq_enact (ht : t ∈ m.table.all) : m.enterDefault t = m.enact (m.defaultTrace t) := by
  rw [enterDefault, defaultTrace, enact_append, m.actInitial_eq_enact t,
    hcoherent.enter_eq_enact (hcoherent.target_mem_states ht)]

/-- **Firing a transition is doing what is written down.** -/
theorem fire_eq (hactive : active ∈ m.hierarchy.states) (ht : t ∈ m.table.all) (hkind : t.kind ≠ .initial)
    (hsource : t.sourceKey ∈ m.hierarchy.chain active) (hcommon : common = m.hierarchy.meet t.sourceKey t.targetKey)
    (signal : Option (Signal ι κ ν)) : m.fire active t signal = (do
      m.enact (m.fireTrace active common t signal (m.defaults t.targetKey))
      return m.restingKey t.targetKey) := by
  obtain ⟨_, hcontains⟩ := Hierarchy.mem_states.1 hactive
  have hroute : m.hierarchy.route active t.sourceKey t.targetKey t.kind =
      .ok ⟨m.hierarchy.below common active ++ t.boundary common,
        t.boundary common ++ (m.hierarchy.below common t.targetKey).reverse⟩ := by
    rw [hcommon]
    exact hcoherent.forest.route_eq hcontains hsource (hcoherent.contains_target ht) t.kind
  have hstates : ∀ key ∈ (m.hierarchy.below common active ++ t.boundary common) ++
      (t.boundary common ++ (m.hierarchy.below common t.targetKey).reverse), key ∈ m.hierarchy.states := by
    have hroot : t.sourceKey ≠ .root := fun hroot => hkind (hcoherent.kind_of_root t ht hroot)
    have hsource' := (hcoherent.forest.mem_activeChain_iff hcontains).2 ⟨hsource, hroot⟩
    obtain ⟨route, hroute', hall⟩ :=
      hcoherent.forest.exists_route hcontains hsource' (hcoherent.target_mem_states ht) t.kind
    obtain rfl := Except.ok.inj (hroute.symm.trans hroute')
    exact hall
  have hexits := forM_eq_enact fun key hkey => hcoherent.leave_eq_enact (hstates key (List.mem_append_left _ hkey))
  have hentries := forM_eq_enact fun key hkey => hcoherent.enter_eq_enact (hstates key (List.mem_append_right _ hkey))
  have hdefaults := forM_eq_enact fun hop (hhop : hop ∈ m.defaults t.targetKey) =>
    hcoherent.enterDefault_eq_enact (hcoherent.initial_of_mem_descend hhop).1
  have hofPath : ∀ route : Route, (Run.ofPath (.ok route) : Run ι κ ν γ Route) = pure route := fun _ => rfl
  simp only [fire, hroute, hofPath, pure_bind, hexits, hentries, enterDefaults, hdefaults, m.act_eq_enact t signal,
    fireTrace, enact_append, bind_assoc]

end Coherent

/-! ### What is crossed -/

section crosses

/-- The activity leaves or enters the key, or calls the callback that goes with that. -/
def Crosses (m : Machine ι κ ν γ) (key : Key) : Activity ι κ ν γ → Prop
  | .left other | .entered other => other = key
  | .called (.exit id) | .called (.entry id) => m.id? key = some id
  | _ => False

variable {activity : Activity ι κ ν γ} {other : Key}

omit [DecidableEq ι] in
theorem Descends.isAncestor (hdescends : m.Descends key hops leaf) (hcoherent : m.Coherent) :
    ∀ hop ∈ hops, m.hierarchy.IsAncestor key hop.targetKey := by
  induction hdescends with
  | stop _ => simp
  | @hop key leaf t rest hinitial _ ih =>
    have hfirst : m.hierarchy.IsAncestor key t.targetKey :=
      (hcoherent.forest.isAncestor_iff (hcoherent.parent_of_initialOf hinitial)).2 (m.hierarchy.mem_chain_self key)
    refine List.forall_mem_cons.2 ⟨hfirst, fun hop hhop => ?_⟩
    exact hcoherent.forest.isAncestor_trans (Hierarchy.mem_chain_iff.2 (.inr hfirst)) (ih hop hhop)

namespace Coherent

variable (hcoherent : m.Coherent)
include hcoherent

theorem eq_of_crosses (hcrosses : m.Crosses key activity)
    (hactivity : activity ∈ m.leaveTrace other ∨ activity ∈ m.enterTrace other) : other = key := by
  rw [leaveTrace, enterTrace] at hactivity
  cases hstate : m.state? other with
  | none => simp [hstate] at hactivity
  | some state =>
    have hother := id?_eq_of_state? hstate
    have hcalled : m.id? key = some state.id → other = key := fun hkey =>
      (hcoherent.id?_inj (hcoherent.contains_of_id? hother) (hcoherent.contains_of_id? hkey)).1 (hother.trans hkey.symm)
    simp only [hstate, List.mem_cons, List.not_mem_nil, or_false] at hactivity
    rcases hactivity with (rfl | hexit) | rfl | rfl
    · exact hcrosses
    · split at hexit
      · cases hexit
      · obtain rfl := List.mem_singleton.1 hexit
        exact hcalled hcrosses
    · exact hcrosses
    · exact hcalled hcrosses

theorem of_crosses_fireTrace (hcommon : common ∈ m.hierarchy.chain t.targetKey)
    (hdescends : m.Descends t.targetKey hops leaf) (hcrosses : m.Crosses key activity)
    (hactivity : activity ∈ m.fireTrace active common t signal hops) :
    m.hierarchy.IsAncestor common key ∨ key ∈ t.boundary common := by
  rw [fireTrace] at hactivity
  rcases List.mem_append.1 hactivity with hexit | hactivity
  · obtain ⟨other, hother, hleave⟩ := List.mem_flatMap.1 hexit
    obtain rfl := hcoherent.eq_of_crosses hcrosses (.inl hleave)
    exact (List.mem_append.1 hother).imp_left fun hbelow => (Hierarchy.mem_below.1 hbelow).2
  rcases List.mem_append.1 hactivity with haction | hactivity
  · rw [actTrace] at haction
    split at haction
    · obtain rfl := List.mem_singleton.1 haction
      cases hcrosses
    · cases haction
  rcases List.mem_append.1 hactivity with hentry | hdefault
  · obtain ⟨other, hother, henter⟩ := List.mem_flatMap.1 hentry
    obtain rfl := hcoherent.eq_of_crosses hcrosses (.inr henter)
    refine (List.mem_append.1 hother).symm.imp_left fun hbelow => ?_
    exact (Hierarchy.mem_below.1 (List.mem_reverse.1 hbelow)).2
  · obtain ⟨hop, hhop, hdefault⟩ := List.mem_flatMap.1 hdefault
    rw [defaultTrace] at hdefault
    rcases List.mem_append.1 hdefault with haction | henter
    · split at haction
      · obtain rfl := List.mem_singleton.1 haction
        cases hcrosses
      · cases haction
    · obtain rfl := hcoherent.eq_of_crosses hcrosses (.inr henter)
      exact .inl (hcoherent.forest.isAncestor_trans hcommon (hdescends.isAncestor hcoherent hop hhop))

end Coherent

end crosses

/-! ### Machines from definitions -/

/-- What firing the transition comes to: it crosses what is written down, and comes to rest in `leaf`. -/
structure FiresAlong (m : Machine ι κ ν γ) (active common : Key) (t : Transition ι κ ν γ) (signal : Option (Signal ι κ ν))
    (hops : List (Transition ι κ ν γ)) (leaf : Key) (context : γ) (o : Outcome ι κ ν γ Key) : Prop where
  /-- Unless a callback fails, all of it is done. -/
  of_not_failed : (∀ role place fault, o.result ≠ .error (.failed role place fault)) →
    o.result = .ok leaf ∧ o.trace = m.fireTrace active common t signal hops
  /-- None does, if none fails when they are called in this order. -/
  of_replay : ∀ context', m.replay context ((m.fireTrace active common t signal hops).filterMap Activity.call?) =
    ([], context') → o = ⟨.ok leaf, context', m.fireTrace active common t signal hops⟩
  /-- If one does fail, some of it has been done. -/
  isPrefix : o.trace <+: m.fireTrace active common t signal hops

theorem firesAlong_enact (m : Machine ι κ ν γ) (active common : Key) (t : Transition ι κ ν γ)
    (signal : Option (Signal ι κ ν)) (hops : List (Transition ι κ ν γ)) (leaf : Key) (context : γ) :
    m.FiresAlong active common t signal hops leaf context ((do
      m.enact (m.fireTrace active common t signal hops)
      return leaf : Run ι κ ν γ Key) context) := by
  generalize hwritten : m.fireTrace active common t signal hops = written
  rcases m.enact_cases written context with ⟨hnone, henact⟩ | ⟨hsome, hbegins, role, place, fault, hresult⟩
  · rw [Run.bind_apply_of_ok henact, Run.pure_apply, List.append_nil]
    refine ⟨fun _ => ⟨rfl, hwritten.symm⟩, fun context' hreplay => ?_, hwritten ▸ List.prefix_rfl⟩
    rw [hwritten] at hreplay ⊢
    rw [hreplay]
  · generalize houtcome : m.enact written context = outcome at hbegins hresult
    obtain ⟨_, context', trace⟩ := outcome
    cases hresult
    rw [Run.bind_apply_of_error houtcome]
    refine ⟨fun hresult => absurd rfl (hresult role place fault), fun context' hreplay => ?_, hwritten ▸ hbegins⟩
    rw [hwritten] at hreplay
    exact absurd (congrArg Prod.fst hreplay) hsome

/-- **A transition leaves and enters just what it has to.** In a machine that a definition gives, the ends of an ordinary transition meet in one key, which is the deepest that contains both. The states strictly inside it are left, innermost first, and then that state itself if the transition is external and has it as an end; the action is run; the states down to the target are entered, outermost first; and the default substates of the target are entered down to a leaf. A local transition neither leaves nor enters the state in which its ends meet. -/
theorem firing_of_build {declarations : List (Declaration ι κ ν γ)} (hbuild : Machine.build declarations = .ok m)
    (hactive : active ∈ m.hierarchy.states) (ht : t ∈ m.table.all) (hkind : t.kind ≠ .initial)
    (hsource : t.sourceKey ∈ m.hierarchy.chain active) :
    ∃ common hops leaf,
      (∀ key, m.hierarchy.DeepestCommon key t.sourceKey t.targetKey ↔ key = common) ∧
      m.Descends t.targetKey hops leaf ∧ m.hierarchy.IsLeaf leaf ∧
      ∀ signal context,
        m.FiresAlong active common t signal hops leaf context (m.fire active t signal context) ∧
        (t.kind = .local → ∀ activity ∈ (m.fire active t signal context).trace, ¬ m.Crosses common activity) := by
  have hcoherent := coherent_of_build hbuild
  have hsourceKey := hcoherent.contains_source t ht
  have htargetKey := hcoherent.contains_target ht
  have hdeepest := hcoherent.forest.deepestCommon_meet hsourceKey htargetKey
  have hdescends := hcoherent.descends htargetKey
  refine ⟨_, _, _, fun key => ⟨hcoherent.forest.eq_meet hsourceKey htargetKey, fun heq => heq ▸ hdeepest⟩, hdescends,
    hdescends.isLeaf hcoherent, fun signal context => ?_⟩
  have hfires := m.firesAlong_enact active (m.hierarchy.meet t.sourceKey t.targetKey) t signal (m.defaults t.targetKey)
    (m.restingKey t.targetKey) context
  rw [← hcoherent.fire_eq hactive ht hkind hsource rfl signal] at hfires
  refine ⟨hfires, fun hlocal activity hactivity hcrosses => ?_⟩
  rcases hcoherent.of_crosses_fireTrace hdeepest.right hdescends hcrosses (hfires.isPrefix.subset hactivity) with
    hinside | hboundary
  · exact hcoherent.forest.not_isAncestor_self (hcoherent.forest.contains_of_mem_chain htargetKey hdeepest.right) hinside
  · obtain ⟨⟨hexternal, _⟩, _⟩ := Hierarchy.mem_boundary_iff.1 hboundary
    rw [hlocal] at hexternal
    cases hexternal

/-- A door rings when it is entered and when it is left. -/
def chime (door : Int) : Behavior Int Bool Unit (List Int) where
  onEntry := modify (· ++ [door])
  onExit := modify (· ++ [-door])

/-- A house with a hall, where one begins, and a study with a desk. One goes to the study through the front door, or without leaving the house. -/
def house : List (Declaration Int Bool Unit (List Int)) := [
  .initial 1 none,
  .composite { superstate := 1, default := 2, peers := [3] },
  .composite { superstate := 3, default := 4, action := some (modify (· ++ [100])) },
  .state 1 (chime 1), .state 2 (chime 2), .state 3 (chime 3), .state 4 (chime 4),
  .rule { source := 1, target := 3, action := some fun _ => modify (· ++ [0]) },
  .rule { source := 1, target := 3, kind := .local }]

def throughDoor : Transition Int Bool Unit (List Int) where
  source := some 1
  target := 3
  sourceKey := ⟨1⟩
  targetKey := ⟨3⟩
  kind := .external
  action := some fun _ => modify (· ++ [0])

def withinHouse : Transition Int Bool Unit (List Int) := { throughDoor with kind := .local, action := none }

/-- The door of the house rings for the external transition alone. Both come to rest at the desk. -/
theorem house_firing : ∃ m, Machine.build house = .ok m ∧ ⟨2⟩ ∈ m.hierarchy.states ∧
    throughDoor ∈ m.table.all ∧ withinHouse ∈ m.table.all ∧ ⟨1⟩ ∈ m.hierarchy.chain ⟨2⟩ ∧
    (m.fire ⟨2⟩ throughDoor none []).context = [-2, -1, 0, 1, 3, 100, 4] ∧
    (m.fire ⟨2⟩ withinHouse none []).context = [-2, 3, 100, 4] ∧
    (∃ common hops leaf, m.FiresAlong ⟨2⟩ common throughDoor none hops leaf [] (m.fire ⟨2⟩ throughDoor none [])) ∧
    ∃ common hops leaf, m.FiresAlong ⟨2⟩ common withinHouse none hops leaf [] (m.fire ⟨2⟩ withinHouse none []) ∧
      ∀ activity ∈ (m.fire ⟨2⟩ withinHouse none []).trace, ¬ m.Crosses common activity := by
  have hbuild : Machine.build house = .ok (Draft.ofDeclarations house).freeze := rfl
  have hhall : ⟨2⟩ ∈ (Draft.ofDeclarations house).freeze.hierarchy.states := by decide
  have hhouse : ⟨1⟩ ∈ (Draft.ofDeclarations house).freeze.hierarchy.chain ⟨2⟩ := by decide
  have hthrough : throughDoor ∈ (Draft.ofDeclarations house).freeze.table.all := List.mem_of_getElem? (i := 3) rfl
  have hwithin : withinHouse ∈ (Draft.ofDeclarations house).freeze.table.all := List.mem_of_getElem? (i := 4) rfl
  obtain ⟨common, hops, leaf, _, _, _, houtside⟩ := firing_of_build hbuild hhall hthrough (by decide) hhouse
  obtain ⟨common', hops', leaf', _, _, _, hinside⟩ := firing_of_build hbuild hhall hwithin (by decide) hhouse
  exact ⟨_, hbuild, hhall, hthrough, hwithin, hhouse, rfl, rfl, ⟨common, hops, leaf, (houtside none []).1⟩,
    common', hops', leaf', (hinside none []).1, (hinside none []).2 rfl⟩

end Machine

end NestedMachine
