import NestedMachine.Proofs.Machine.Depiction
import NestedMachine.Proofs.Run.Absorption
import NestedMachine.Proofs.Run.Attribution
import NestedMachine.Proofs.Run.Muting
import NestedMachine.Proofs.Run.Offering

/-!
# Bubbling

An event is offered to the state in which the machine rests, and then to the states around it. `Bubbles` follows it from one state to the next, up to the first that consumes it or fails, and what `offer` does is just that (`offer_of_bubbles`). Then the run goes on in the context that is left behind, and calls no event callback any more (`Poised.process_eq`).

Whether a state consumes the event is for the states around it to feel, and for nobody else. Two machines that differ in no more than that, and only inside states that an event leaves unmoved, come to the same end (`DiffersInConsuming.differsInOffers`): the one may ask states that the other does not, but that leaves no trace in the context, and without event callbacks the two are the same machine.
-/

namespace NestedMachine

variable {ι κ ν γ α : Type}

/-- The event callbacks of some states are called in turn, each in the context that the one before has left behind, until one consumes the signal or fails. -/
inductive Bubbles (signal : Signal ι κ ν) :
    List (State ι κ ν γ) → γ → (asked : List ι) → Except (RunError ι) Unit → (last : γ) → Prop where
  | top (context : γ) : Bubbles signal [] context [] (.ok ()) context
  | consumed {state : State ι κ ν γ} {above : List (State ι κ ν γ)} {context last : γ}
      (hcall : (state.behavior.onEvent signal).call context = (.ok true, last)) :
      Bubbles signal (state :: above) context [state.id] (.ok ()) last
  | failed {state : State ι κ ν γ} {above : List (State ι κ ν γ)} {fault : Fault ι} {context last : γ}
      (hcall : (state.behavior.onEvent signal).call context = (.error fault, last)) :
      Bubbles signal (state :: above) context [state.id] (.error (.failed .event (.state state.id) fault)) last
  | passed {state : State ι κ ν γ} {above : List (State ι κ ν γ)} {asked : List ι} {result : Except (RunError ι) Unit}
      {context context' last : γ} (hcall : (state.behavior.onEvent signal).call context = (.ok false, context'))
      (hrest : Bubbles signal above context' asked result last) :
      Bubbles signal (state :: above) context (state.id :: asked) result last

/-- What becomes of a run that begins with offers: if none of them fails, the rest is done in the context that they leave behind. -/
def afterOffers (signal : Signal ι κ ν) (asked : List ι) (result : Except (RunError ι) Unit) (last : γ)
    (rest : Run ι κ ν γ α) : Outcome ι κ ν γ α :=
  match result with
  | .ok () => ⟨(rest last).result, (rest last).context, Activity.offers signal asked ++ (rest last).trace⟩
  | .error error => ⟨.error error, last, Activity.offers signal asked⟩

/-- Whatever is offered to the state, it does not fail and leaves the context as it is. -/
def State.Unmoved (state : State ι κ ν γ) : Prop :=
  ∀ signal context, (state.behavior.onEvent signal).effect context = (none, context)

/-- The outcomes are the same but for the states to which the event has been offered. -/
structure DiffersInOffers (event : Event κ ν) (o o' : Outcome ι κ ν γ α) : Prop where
  result_eq : o'.result = o.result
  context_eq : o'.context = o.context
  exists_trace : ∃ asked asked' rest, o.trace = Activity.offers (.event event) asked ++ rest ∧
    o'.trace = Activity.offers (.event event) asked' ++ rest

namespace Machine

def activeStates (m : Machine ι κ ν γ) (key : Key) : List (State ι κ ν γ) :=
  (m.hierarchy.activeChain key).filterMap m.state?

/-- The states to which a signal may be offered while the machine rests in `key`, the state `origin`: none if that is final. -/
def audience (m : Machine ι κ ν γ) (key : Key) (origin : State ι κ ν γ) : List (State ι κ ν γ) :=
  if origin.isFinal then [] else m.activeStates key

/-- What is left of processing an event once it has been offered. -/
def resume [DecidableEq κ] (m : Machine ι κ ν γ) (origin : State ι κ ν γ) (key : Key) (event : Event κ ν) :
    Run ι κ ν γ ι := do
  let chosen ← m.select origin.id key (some (.event event))
  match ← m.conclude 0 origin key (some (.event event)) chosen with
  | none => return origin.id
  | some settled => m.proceed (m.limit - 1) 1 settled (m.completion settled)

/-- The machine may rest in `key`, the state `origin`, and fire something from there. A state around another one is not final. -/
structure Poised (m : Machine ι κ ν γ) (key : Key) (origin : State ι κ ν γ) : Prop where
  state?_eq : m.state? key = some origin
  limit_pos : 0 < m.limit
  isSome : ∀ other ∈ m.hierarchy.activeChain key, (m.state? other).isSome
  unfinal : origin.isFinal = false → ∀ state ∈ m.activeStates key, state.isFinal = false

/-- The machines are the same but for their event callbacks, and these differ only in what they answer, and only for states such that all states around them are unmoved. -/
structure DiffersInConsuming (m m' : Machine ι κ ν γ) : Prop where
  muted_eq : m'.muted = m.muted
  effect_eq : ∀ key state state', m.state? key = some state → m'.state? key = some state' → ∀ signal,
    (state'.behavior.onEvent signal).effect = (state.behavior.onEvent signal).effect
  unmoved : ∀ key state state', m.state? key = some state → m'.state? key = some state' →
    state'.behavior.onEvent ≠ state.behavior.onEvent → ∀ above upper, m.hierarchy.IsAncestor above key →
      m.state? above = some upper → upper.Unmoved

variable {m m' : Machine ι κ ν γ} {key : Key} {origin : State ι κ ν γ} {states : List (State ι κ ν γ)}
variable {signal : Signal ι κ ν} {event : Event κ ν} {asked : List ι} {result : Except (RunError ι) Unit}
variable {context last : γ}

/-! ### Up to the first that consumes it -/

theorem exists_bubbles (signal : Signal ι κ ν) (states : List (State ι κ ν γ)) (context : γ) :
    ∃ asked result last, Bubbles signal states context asked result last := by
  induction states generalizing context with
  | nil => exact ⟨_, _, _, .top context⟩
  | cons state above ih =>
    rcases hcall : (state.behavior.onEvent signal).call context with ⟨fault | _ | _, context'⟩
    · exact ⟨_, _, _, .failed hcall⟩
    · obtain ⟨asked, result, last, hrest⟩ := ih context'
      exact ⟨_, _, _, .passed hcall hrest⟩
    · exact ⟨_, _, _, .consumed hcall⟩

theorem offer_cons {state : State ι κ ν γ} (hstate : m.state? key = some state) (hfinal : state.isFinal = false)
    (signal : Signal ι κ ν) (rest : List Key) : m.offer signal (key :: rest) = (do
      let consumed ← Run.invoke (.event state.id signal) (state.behavior.onEvent signal)
      if consumed then pure () else m.offer signal rest) := by
  rw [offer, lookup_of_state? hstate, pure_bind, if_neg (by simp [hfinal])]

/-- **A signal is offered until it is consumed**, or until a state fails. -/
theorem offer_of_bubbles {keys : List Key} (hstates : states.map some = keys.map m.state?)
    (hunfinal : ∀ state ∈ states, state.isFinal = false) (hbubbles : Bubbles signal states context asked result last) :
    m.offer signal keys context = ⟨result, last, Activity.offers signal asked⟩ := by
  induction hbubbles generalizing keys with
  | top context =>
    obtain rfl : keys = [] := by simpa using hstates
    rfl
  | consumed hcall =>
    obtain ⟨key, rest, rfl, hstate, _⟩ := List.map_eq_cons_iff.1 hstates.symm
    rw [offer_cons hstate (hunfinal _ List.mem_cons_self), Run.bind_apply_of_ok (Run.invoke_of_ok hcall)]
    rfl
  | failed hcall =>
    obtain ⟨key, rest, rfl, hstate, _⟩ := List.map_eq_cons_iff.1 hstates.symm
    rw [offer_cons hstate (hunfinal _ List.mem_cons_self), Run.bind_apply_of_error (Run.invoke_of_error hcall)]
    rfl
  | passed hcall _ ih =>
    obtain ⟨key, rest, rfl, hstate, habove⟩ := List.map_eq_cons_iff.1 hstates.symm
    have hrest := ih habove.symm fun other hother => hunfinal other (List.mem_cons_of_mem _ hother)
    rw [offer_cons hstate (hunfinal _ List.mem_cons_self), Run.bind_apply_of_ok (Run.invoke_of_ok hcall),
      if_neg (by simp), hrest]
    rfl

theorem bind_offer_apply {keys : List Key}
    (hoffer : m.offer signal keys context = ⟨result, last, Activity.offers signal asked⟩) (rest : Run ι κ ν γ α) :
    (do
      m.offer signal keys
      rest) context = afterOffers signal asked result last rest := by
  cases result with
  | ok answer => exact Run.bind_apply_of_ok hoffer
  | error error => exact Run.bind_apply_of_error hoffer

theorem map_activeStates (hsome : ∀ other ∈ m.hierarchy.activeChain key, (m.state? other).isSome) :
    (m.activeStates key).map some = (m.hierarchy.activeChain key).map m.state? := by
  rw [activeStates]
  generalize m.hierarchy.activeChain key = keys at hsome ⊢
  induction keys with
  | nil => rfl
  | cons first rest ih =>
    obtain ⟨hfirst, hrest⟩ := List.forall_mem_cons.1 hsome
    obtain ⟨state, hstate⟩ := Option.isSome_iff_exists.1 hfirst
    rw [List.filterMap_cons_some hstate, List.map_cons, List.map_cons, hstate, ih hrest]

/-! ### What comes after that -/

section resume

variable [DecidableEq κ]

theorem resume_muted (m : Machine ι κ ν γ) (origin : State ι κ ν γ) :
    m.muted.resume origin.muted = m.resume origin := by
  funext key event
  simp only [resume, select_muted, conclude_muted]
  congr 1
  funext chosen
  congr 1
  funext fired
  cases fired with
  | none => rfl
  | some settled => exact m.proceed_muted (m.limit - 1) 1 settled

abbrev Unoffered : Moment ι κ ν γ → Prop := OnlyCalls fun call => call.role ≠ .event

omit [DecidableEq κ] in
theorem unoffered_conclude {told : Option (Signal ι κ ν)} (count : Nat) (origin : State ι κ ν γ) (key : Key)
    (chosen : Option (Transition ι κ ν γ)) :
    (m.conclude count origin key told chosen).Keeps Unoffered fun _ => Unoffered := by
  apply onlyCalls_conclude <;> simp [Call.role]

theorem unoffered_select (state : ι) (key : Key) (told : Option (Signal ι κ ν)) :
    (m.select state key told).Keeps Unoffered fun _ => Unoffered := by
  intro now hnow
  have hguard : ∀ t : Transition ι κ ν γ, Run.Bears Unoffered (fun _ => Unoffered) (.guard t told) :=
    fun t => onlyCalls_bears (by simp [Call.role])
  have hresolver : ∀ candidates : List (Transition ι κ ν γ),
      Run.Bears Unoffered (fun _ => Unoffered) (.resolver state told candidates) :=
    fun candidates => onlyCalls_bears (by simp [Call.role])
  exact (ensures_select key hguard hresolver hnow).mono_done fun _ _ hdone => hdone.2

theorem unoffered_proceed (budget count : Nat) (key : Key) :
    (m.proceed budget count key (m.completion key)).Keeps Unoffered fun _ => Unoffered := by
  induction budget generalizing count key with
  | zero => exact (onlyCalls_lookup key).bind fun state now hnow => Run.ensures_fail hnow
  | succ budget ih =>
    rw [proceed, step_completion]
    refine Run.Keeps.bind ?_ fun fired => ?_
    · exact (onlyCalls_lookup key).bind fun origin => (unoffered_select origin.id key _).bind fun chosen =>
        unoffered_conclude count origin key chosen
    · cases fired with
      | none => exact (onlyCalls_lookup key).bind fun state => Run.keeps_pure _
      | some settled => exact ih (count + 1) settled

theorem unoffered_resume (m : Machine ι κ ν γ) (origin : State ι κ ν γ) (key : Key) (event : Event κ ν) :
    (m.resume origin key event).Keeps Unoffered fun _ => Unoffered := by
  refine (unoffered_select origin.id key _).bind fun chosen => ?_
  refine (unoffered_conclude 0 origin key chosen).bind fun fired => ?_
  cases fired with
  | none => exact Run.keeps_pure _
  | some settled => exact unoffered_proceed (m.limit - 1) 1 settled

variable [DecidableEq ι] {current : ι}

theorem process_eq (hkey : m.key? current = some key) (horigin : m.state? key = some origin) (hlimit : 0 < m.limit)
    (event : Event κ ν) : m.process current event = (do
      m.offer (.event event) (m.hierarchy.activeChain key)
      m.resume origin key event) := by
  obtain ⟨budget, hbudget⟩ := Nat.exists_eq_succ_of_ne_zero (Nat.ne_of_gt hlimit)
  have hstep : m.step 0 key (some (.event event)) = (do
      m.offer (.event event) (m.hierarchy.activeChain key)
      let chosen ← m.select origin.id key (some (.event event))
      m.conclude 0 origin key (some (.event event)) chosen) := by
    rw [step, lookup_of_state? horigin, pure_bind]
    rfl
  have hprocess : m.process current event = m.proceed m.limit 0 key (some (.event event)) := by rw [process, hkey]
  rw [hprocess, hbudget, proceed, hstep, bind_assoc]
  refine bind_congr fun _ => ?_
  rw [resume, bind_assoc, hbudget]
  refine bind_congr fun chosen => bind_congr fun fired => ?_
  cases fired with
  | none => simp only [lookup_of_state? horigin, pure_bind]
  | some settled => rfl

/-- **An event is offered first.** What is done after that depends on the context that is left behind, and not on who was asked or who has consumed the event. -/
theorem Poised.process_eq (hpoised : m.Poised key origin) (hkey : m.key? current = some key)
    (hbubbles : Bubbles (.event event) (m.audience key origin) context asked result last) :
    m.process current event context = afterOffers (.event event) asked result last (m.resume origin key event) := by
  rw [Machine.process_eq hkey hpoised.state?_eq hpoised.limit_pos]
  apply bind_offer_apply
  unfold audience at hbubbles
  cases hfinal : origin.isFinal with
  | true =>
    rw [if_pos hfinal] at hbubbles
    rw [offer_of_isFinal hpoised.state?_eq hfinal]
    cases hbubbles
    rfl
  | false =>
    rw [hfinal, if_neg Bool.false_ne_true] at hbubbles
    exact offer_of_bubbles (map_activeStates hpoised.isSome) (hpoised.unfinal hfinal) hbubbles

end resume

/-! ### Machines where an event can be offered -/

theorem Coherent.isSome_state? (hcoherent : m.Coherent) (hkey : m.hierarchy.Contains key) :
    ∀ other ∈ m.hierarchy.activeChain key, (m.state? other).isSome := by
  intro other hother
  have hmem := hcoherent.forest.mem_states_of_mem_activeChain hkey hother
  exact Option.isSome_iff_exists.2 (hcoherent.mem_states_iff.1 hmem)

theorem poised_of_build [DecidableEq ι] {declarations : List (Declaration ι κ ν γ)}
    (hbuild : Machine.build declarations = .ok m) (horigin : m.state? key = some origin) : m.Poised key origin := by
  have hcoherent := coherent_of_build hbuild
  have hlimit := limit_pos_of_build hbuild
  obtain ⟨_, t, _, _, hdefects, rfl⟩ := Draft.build_eq_ok_iff.1 hbuild
  generalize (Draft.ofDeclarations declarations).freeze = m at *
  have hkey := hcoherent.contains_of_state? horigin
  refine ⟨horigin, hlimit, hcoherent.isSome_state? hkey, fun hfinal state hmem => ?_⟩
  obtain ⟨other, hother, hstate⟩ := List.mem_filterMap.1 hmem
  rcases Hierarchy.mem_chain_iff.1 ((m.hierarchy.activeChain_sublist key).subset hother) with rfl | hancestor
  · obtain rfl := Option.some.inj (horigin.symm.trans hstate)
    exact hfinal
  · by_contra hnot
    exact isLeaf_of_isFinal hdefects hstate (by simpa using hnot) (Hierarchy.isComposite_of_isAncestor hancestor)

end Machine

/-! ### Two rows of states -/

/-- Rows of states on the way up which differ in what is consumed, and only below states that are unmoved. -/
inductive SameButAnswers : List (State ι κ ν γ) → List (State ι κ ν γ) → Prop where
  | nil : SameButAnswers [] []
  | cons {state state' : State ι κ ν γ} {above above' : List (State ι κ ν γ)} (hmuted : state'.muted = state.muted)
      (heffect : ∀ signal, (state'.behavior.onEvent signal).effect = (state.behavior.onEvent signal).effect)
      (hunmoved : state'.behavior.onEvent ≠ state.behavior.onEvent → ∀ upper ∈ above, upper.Unmoved)
      (habove : SameButAnswers above above') : SameButAnswers (state :: above) (state' :: above')

section rows

variable {states states' : List (State ι κ ν γ)} {signal : Signal ι κ ν} {asked asked' : List ι}
variable {result result' : Except (RunError ι) Unit} {context last last' : γ}

theorem SameButAnswers.unmoved (hsame : SameButAnswers states states') (hunmoved : ∀ state ∈ states, state.Unmoved) :
    ∀ state ∈ states', state.Unmoved := by
  induction hsame with
  | nil => simp
  | cons _ heffect _ _ ih =>
    obtain ⟨hfirst, hrest⟩ := List.forall_mem_cons.1 hunmoved
    refine List.forall_mem_cons.2 ⟨fun signal context => ?_, ih hrest⟩
    rw [heffect]
    exact hfirst signal context

theorem Bubbles.of_unmoved (hbubbles : Bubbles signal states context asked result last)
    (hunmoved : ∀ state ∈ states, state.Unmoved) : result = .ok () ∧ last = context := by
  induction hbubbles with
  | top context => exact ⟨rfl, rfl⟩
  | @consumed state _ context _ hcall =>
    have heffect := hunmoved state List.mem_cons_self signal context
    rw [Callback.effect_of_ok hcall] at heffect
    exact ⟨rfl, congrArg Prod.snd heffect⟩
  | @failed state _ _ context _ hcall =>
    have heffect := hunmoved state List.mem_cons_self signal context
    rw [Callback.effect_of_error hcall] at heffect
    cases heffect
  | @passed state _ _ _ context _ _ hcall _ ih =>
    obtain ⟨hfirst, hrest⟩ := List.forall_mem_cons.1 hunmoved
    have heffect := hfirst signal context
    rw [Callback.effect_of_ok hcall] at heffect
    obtain ⟨hresult, hlast⟩ := ih hrest
    exact ⟨hresult, hlast.trans (congrArg Prod.snd heffect)⟩

theorem ne_of_answers {state state' : State ι κ ν γ} {answer answer' : Except (Fault ι) Bool} {last last' : γ}
    (hcall' : (state'.behavior.onEvent signal).call context = (answer', last'))
    (hcall : (state.behavior.onEvent signal).call context = (answer, last)) (hne : answer' ≠ answer) :
    state'.behavior.onEvent ≠ state.behavior.onEvent := by
  intro heq
  rw [heq, hcall] at hcall'
  exact hne (congrArg Prod.fst hcall').symm

theorem Bubbles.agree (hsame : SameButAnswers states states')
    (hbubbles : Bubbles signal states context asked result last)
    (hbubbles' : Bubbles signal states' context asked' result' last') : result' = result ∧ last' = last := by
  induction hsame generalizing context asked asked' with
  | nil =>
    cases hbubbles
    cases hbubbles'
    exact ⟨rfl, rfl⟩
  | @cons state state' _ _ hmuted heffect hunmoved habove ih =>
    have heq := congrFun (heffect signal) context
    cases hbubbles with
    | consumed hcall =>
      rw [Callback.effect_of_ok hcall] at heq
      cases hbubbles' with
      | consumed hcall' =>
        rw [Callback.effect_of_ok hcall'] at heq
        exact ⟨rfl, congrArg Prod.snd heq⟩
      | failed hcall' =>
        rw [Callback.effect_of_error hcall'] at heq
        cases heq
      | passed hcall' hrest' =>
        -- Only the second offer goes on, and nothing that it comes to is moved.
        rw [Callback.effect_of_ok hcall'] at heq
        have hne := ne_of_answers hcall' hcall (by simp)
        obtain ⟨hresult, hlast⟩ := hrest'.of_unmoved (habove.unmoved (hunmoved hne))
        exact ⟨hresult, hlast.trans (congrArg Prod.snd heq)⟩
    | failed hcall =>
      rw [Callback.effect_of_error hcall] at heq
      cases hbubbles' with
      | failed hcall' =>
        rw [Callback.effect_of_error hcall'] at heq
        cases heq
        exact ⟨by rw [State.id_eq_of_muted hmuted], rfl⟩
      | consumed hcall' | passed hcall' _ =>
        rw [Callback.effect_of_ok hcall'] at heq
        cases heq
    | passed hcall hrest =>
      rw [Callback.effect_of_ok hcall] at heq
      cases hbubbles' with
      | consumed hcall' =>
        -- Here it is the first that goes on.
        rw [Callback.effect_of_ok hcall'] at heq
        have hne := ne_of_answers hcall' hcall (by simp)
        obtain ⟨hresult, hlast⟩ := hrest.of_unmoved (hunmoved hne)
        exact ⟨hresult.symm, (congrArg Prod.snd heq).trans hlast.symm⟩
      | failed hcall' =>
        rw [Callback.effect_of_error hcall'] at heq
        cases heq
      | passed hcall' hrest' =>
        rw [Callback.effect_of_ok hcall'] at heq
        obtain rfl := congrArg Prod.snd heq
        exact ih hrest hrest'

end rows

/-! ### Two machines -/

namespace Machine

variable {m m' : Machine ι κ ν γ} {key : Key} {origin : State ι κ ν γ}

namespace DiffersInConsuming

variable (hdiffers : m.DiffersInConsuming m')
include hdiffers

theorem hierarchy_eq : m'.hierarchy = m.hierarchy := by
  have hhierarchy : m'.muted.hierarchy = m.muted.hierarchy := by rw [hdiffers.muted_eq]
  exact hhierarchy

theorem exists_state {state : State ι κ ν γ} (hstate : m.state? key = some state) :
    ∃ state', m'.state? key = some state' ∧ state'.muted = state.muted := by
  have hmuted : (m'.state? key).map State.muted = (m.state? key).map State.muted := by
    rw [← state?_muted, ← state?_muted, hdiffers.muted_eq]
  rw [hstate, Option.map_some] at hmuted
  exact Option.map_eq_some_iff.1 hmuted

theorem sameButAnswers (hcoherent : m.Coherent) (hkey : m.hierarchy.Contains key) :
    SameButAnswers (m.activeStates key) (m'.activeStates key) := by
  rw [activeStates, activeStates, hdiffers.hierarchy_eq]
  obtain ⟨above, habove⟩ := hcoherent.forest key hkey
  induction habove with
  | root =>
    rw [Hierarchy.activeChain_root]
    exact .nil
  | @nested key superstate _ hparent habove ih =>
    obtain ⟨state, hstate⟩ := hcoherent.mem_states_iff.1 (Hierarchy.parent_isSome_iff.1 (by rw [hparent]; rfl))
    obtain ⟨state', hstate', hmuted⟩ := hdiffers.exists_state hstate
    rw [hcoherent.forest.activeChain_of_parent hparent, List.filterMap_cons_some hstate,
      List.filterMap_cons_some hstate']
    refine .cons hmuted (hdiffers.effect_eq key state state' hstate hstate') (fun hne upper hupper => ?_)
      (ih habove.contains)
    obtain ⟨other, hother, hsome⟩ := List.mem_filterMap.1 hupper
    have hinside := (m.hierarchy.activeChain_sublist superstate).subset hother
    have hancestor := (hcoherent.forest.isAncestor_iff hparent).2 hinside
    exact hdiffers.unmoved key state state' hstate hstate' hne other upper hancestor hsome

theorem poised (hpoised : m.Poised key origin) : ∃ origin', m'.Poised key origin' ∧ origin'.muted = origin.muted := by
  obtain ⟨origin', horigin', hmuted⟩ := hdiffers.exists_state hpoised.state?_eq
  refine ⟨origin', ⟨horigin', ?_, fun other hother => ?_, fun hfinal state' hmem => ?_⟩, hmuted⟩
  · have hlimit : m'.muted.limit = m.muted.limit := by rw [hdiffers.muted_eq]
    exact hlimit ▸ hpoised.limit_pos
  · rw [hdiffers.hierarchy_eq] at hother
    obtain ⟨state, hstate⟩ := Option.isSome_iff_exists.1 (hpoised.isSome other hother)
    obtain ⟨state', hstate', _⟩ := hdiffers.exists_state hstate
    rw [hstate', Option.isSome_some]
  · rw [activeStates, hdiffers.hierarchy_eq] at hmem
    obtain ⟨other, hother, hstate'⟩ := List.mem_filterMap.1 hmem
    obtain ⟨state, hstate⟩ := Option.isSome_iff_exists.1 (hpoised.isSome other hother)
    obtain ⟨_, hsome, hstates⟩ := hdiffers.exists_state hstate
    obtain rfl := Option.some.inj (hstate'.symm.trans hsome)
    rw [State.isFinal_eq_of_muted hmuted] at hfinal
    rw [State.isFinal_eq_of_muted hstates]
    exact hpoised.unfinal hfinal state (List.mem_filterMap.2 ⟨other, hother, hstate⟩)

variable [DecidableEq ι] [DecidableEq κ] {current : ι}

theorem differsInOffers (hcoherent : m.Coherent) (hpoised : m.Poised key origin) (hkey : m.key? current = some key)
    (event : Event κ ν) (context : γ) :
    DiffersInOffers event (m.process current event context) (m'.process current event context) := by
  obtain ⟨origin', hpoised', hmuted⟩ := hdiffers.poised hpoised
  have hkey' : m'.key? current = some key := by rw [← key?_muted, hdiffers.muted_eq, key?_muted, hkey]
  have hresume : m'.resume origin' = m.resume origin := by
    rw [← m'.resume_muted, ← m.resume_muted, hdiffers.muted_eq, hmuted]
  have hsame : SameButAnswers (m.audience key origin) (m'.audience key origin') := by
    rw [audience, audience, State.isFinal_eq_of_muted hmuted]
    split
    · exact .nil
    · exact hdiffers.sameButAnswers hcoherent (hcoherent.contains_of_state? hpoised.state?_eq)
  obtain ⟨asked, result, last, hbubbles⟩ := exists_bubbles (.event event) (m.audience key origin) context
  obtain ⟨asked', result', last', hbubbles'⟩ := exists_bubbles (.event event) (m'.audience key origin') context
  obtain ⟨rfl, rfl⟩ := hbubbles.agree hsame hbubbles'
  rw [hpoised.process_eq hkey hbubbles, hpoised'.process_eq hkey' hbubbles', hresume]
  cases result' with
  | ok answer => exact ⟨rfl, rfl, asked, asked', _, rfl, rfl⟩
  | error error => exact ⟨rfl, rfl, asked, asked', [], (List.append_nil _).symm, (List.append_nil _).symm⟩

end DiffersInConsuming

/-! ### Offering in a machine -/

variable [DecidableEq ι] [DecidableEq κ] {current : ι} {declarations : List (Declaration ι κ ν γ)}

/-- **Bubbling is an exact prefix, and consumption blocks no transition.** An event is offered to the state in which the machine rests and to those around it, up to the first that consumes it or fails, and to nobody if that state is final. No event callback is called after that, and what is done depends on the context that is left behind. So a machine that differs only in what is consumed, and only inside states that an event leaves unmoved, comes to the same result and the same context. -/
theorem bubbling_of_build (hbuild : Machine.build declarations = .ok m) (hkey : m.key? current = some key)
    (event : Event κ ν) : ∃ origin states, m.state? key = some origin ∧
      (if origin.isFinal then states = [] else states.map some = (m.hierarchy.activeChain key).map m.state?) ∧
      ∀ context, (∃ asked result last, Bubbles (.event event) states context asked result last ∧
          m.process current event context = afterOffers (.event event) asked result last (m.resume origin key event) ∧
          ∀ call, .called call ∈ (m.resume origin key event last).trace → call.role ≠ .event) ∧
        ∀ m', m.DiffersInConsuming m' →
          DiffersInOffers event (m.process current event context) (m'.process current event context) := by
  have hcoherent := coherent_of_build hbuild
  obtain ⟨origin, horigin, _⟩ := exists_state_of_id? (id?_eq_of_key? hkey)
  have hpoised := poised_of_build hbuild horigin
  refine ⟨origin, m.audience key origin, horigin, ?_, fun context => ⟨?_, fun m' hdiffers => ?_⟩⟩
  · unfold audience
    split
    · rfl
    · exact map_activeStates hpoised.isSome
  · obtain ⟨asked, result, last, hbubbles⟩ := exists_bubbles (.event event) (m.audience key origin) context
    have hrest := (m.unoffered_resume origin key event ⟨last, []⟩ (onlyCalls_nil last)).always
    exact ⟨asked, result, last, hbubbles, hpoised.process_eq hkey hbubbles, hrest⟩
  · exact hdiffers.differsInOffers hcoherent hpoised hkey event context

/-- A bell rings in a room 1 of a house 0. Whoever is in the room counts that, and may go to the door alone. Either way everybody leaves for the garden. -/
def bell (alone : Bool) : List (Declaration Nat Unit Unit Nat) := [
  .initial 0 none,
  .composite { superstate := 0, default := 1 },
  .state 1 { onEvent := fun _ => do
    modify (· + 1)
    return alone },
  .rule { source := 0, target := 2, trigger := some (.event ()) }]

theorem bell_differsInConsuming : (Draft.ofDeclarations (bell true)).freeze.DiffersInConsuming
    (Draft.ofDeclarations (bell false)).freeze where
  muted_eq := rfl
  effect_eq key state state' hstate hstate' := by
    match key with
    | ⟨0⟩ => cases hstate
    | ⟨1⟩ | ⟨2⟩ | ⟨3⟩ =>
      cases hstate
      cases hstate'
      exact fun _ => rfl
    | ⟨position + 4⟩ => cases hstate
  unmoved key state state' hstate hstate' hne above upper hancestor hupper := by
    match key with
    | ⟨0⟩ => cases hstate
    | ⟨1⟩ | ⟨3⟩ =>
      cases hstate
      cases hstate'
      exact absurd rfl hne
    | ⟨2⟩ =>
      have habove : above ∈ [⟨1⟩, Key.root] := hancestor
      rcases List.mem_pair.1 habove with rfl | rfl
      · cases hupper
        exact fun _ _ => rfl
      · cases hupper
    | ⟨position + 4⟩ => cases hstate

theorem bell_bubbling : ∃ m m', Machine.build (bell true) = .ok m ∧ Machine.build (bell false) = .ok m' ∧
    m.key? 1 = some ⟨2⟩ ∧ m.DiffersInConsuming m' ∧
    DiffersInOffers ⟨(), ()⟩ (m.process 1 ⟨(), ()⟩ 0) (m'.process 1 ⟨(), ()⟩ 0) ∧
    (m.process 1 ⟨(), ()⟩ 0).result = .ok 2 ∧ (m.process 1 ⟨(), ()⟩ 0).context = 1 ∧
    (m.process 1 ⟨(), ()⟩ 0).calls = [.event 1 (.event ⟨(), ()⟩), .exit 1, .exit 0, .entry 2] ∧
    (m'.process 1 ⟨(), ()⟩ 0).calls =
      [.event 1 (.event ⟨(), ()⟩), .event 0 (.event ⟨(), ()⟩), .exit 1, .exit 0, .entry 2] := by
  have hbuild : Machine.build (bell true) = .ok (Draft.ofDeclarations (bell true)).freeze := rfl
  have hkey : (Draft.ofDeclarations (bell true)).freeze.key? 1 = some ⟨2⟩ := rfl
  obtain ⟨_, _, _, _, hbubbling⟩ := bubbling_of_build hbuild hkey ⟨(), ()⟩
  exact ⟨_, _, hbuild, rfl, hkey, bell_differsInConsuming, (hbubbling 0).2 _ bell_differsInConsuming, rfl, rfl, rfl,
    rfl⟩

end Machine

end NestedMachine
