import NestedMachine.Proofs.Run.Settings
import NestedMachine.Proofs.Run.Turn
import NestedMachine.Definition.Build

/-!
# Ambiguity

A step looks for the transitions that are eligible: the signal triggers them, and their guards hold. Only where there are several of them does the resolver have a part in the step. So a step in which there are not is the one that a machine without any resolver would take (`Decided.step_eq`), and that step is the same in all machines that differ in nothing but their resolvers (`plainStep_withResolver`). Two such machines take the same turns for as long as nothing is ambiguous (`Takes.withResolver`).

The resolver that refuses to choose lets no ambiguity pass: the run fails in the step in which there is one. So whatever has succeeded with it was never ambiguous (`unambiguous_of_reject`).
-/

namespace NestedMachine

variable {ι κ ν γ α β : Type}

namespace Run

theorem bind_apply_congr {run : Run ι κ ν γ α} {next next' : α → Run ι κ ν γ β} {context : γ}
    (hnext : ∀ answer, (run context).result = .ok answer →
      next answer (run context).context = next' answer (run context).context) :
    (run >>= next) context = (run >>= next') context := by
  match hrun : run context with
  | ⟨.error _, _, _⟩ => rw [bind_apply_of_error hrun, bind_apply_of_error hrun]
  | ⟨.ok answer, context', _⟩ =>
    rw [hrun] at hnext
    rw [bind_apply_of_ok hrun, bind_apply_of_ok hrun, hnext answer rfl]

end Run

namespace Machine

variable {m m' : Machine ι κ ν γ} {turn turn' : Turn ι κ ν γ} {ending : Outcome ι κ ν γ ι}
variable {key : Key} {signal : Option (Signal ι κ ν)} {candidates : List (Transition ι κ ν γ)}

/-! ### The parts of a step -/

/-- The transitions that could fire in a step, nearest first: once the signal has been offered, those that it triggers and whose guards hold. -/
def eligible [DecidableEq κ] (m : Machine ι κ ν γ) (key : Key) (signal : Option (Signal ι κ ν)) :
    Run ι κ ν γ (List (Transition ι κ ν γ)) := do
  signal.forM fun told => m.offer told (m.hierarchy.activeChain key)
  ready signal (m.triggered key signal)

/-- What is left of a step from the state `origin` once it is known whether a transition fires, and which. -/
def conclude (m : Machine ι κ ν γ) (count : Nat) (origin : State ι κ ν γ) (key : Key)
    (signal : Option (Signal ι κ ν)) : Option (Transition ι κ ν γ) → Run ι κ ν γ (Option Key)
  | none => pure none
  | some t => do
    Run.note (.chose t signal)
    let settled ← m.fire key t signal
    let source ← m.lookup t.sourceKey
    let resting ← m.lookup settled
    Run.note (.fired ⟨origin.id, source.id, t.target, resting.id, t.kind, count⟩)
    return some settled

/-- A step without a resolver, which fires the nearest of the transitions that are eligible. -/
def plainStep [DecidableEq κ] (m : Machine ι κ ν γ) (count : Nat) (key : Key) (signal : Option (Signal ι κ ν)) :
    Run ι κ ν γ (Option Key) := do
  let origin ← m.lookup key
  let candidates ← m.eligible key signal
  m.conclude count origin key signal candidates.head?

/-- At most one transition is eligible in the step of this turn. -/
def Decided [DecidableEq κ] (m : Machine ι κ ν γ) (turn : Turn ι κ ν γ) : Prop :=
  ∀ candidates, (m.eligible turn.key turn.signal turn.context).result = .ok candidates → candidates.length ≤ 1

/-- No step of the run has several transitions to choose from. -/
def Unambiguous [DecidableEq ι] [DecidableEq κ] (m : Machine ι κ ν γ) (current : ι) (event : Event κ ν) (context : γ) :
    Prop :=
  ∀ turn, m.Takes current event context turn → turn.count < m.limit → m.Decided turn

theorem onlyCalls_conclude {allowed : Call ι κ ν γ → Prop} (hexit : ∀ id, allowed (.exit id))
    (haction : ∀ t, allowed (.action t signal)) (hentry : ∀ id, allowed (.entry id))
    (hinitial : ∀ t, allowed (.initialAction t)) (count : Nat) (origin : State ι κ ν γ) (key : Key)
    (chosen : Option (Transition ι κ ν γ)) :
    (m.conclude count origin key signal chosen).Keeps (OnlyCalls allowed) fun _ => OnlyCalls allowed := by
  cases chosen with
  | none => exact Run.keeps_pure none
  | some t =>
    have hfire := onlyCalls_fire (m := m) hexit (haction t) hentry hinitial key
    exact (onlyCalls_note rfl).bind fun _ => hfire.bind fun settled => (onlyCalls_lookup _).bind fun source =>
      (onlyCalls_lookup _).bind fun resting => (onlyCalls_note rfl).bind fun _ => Run.keeps_pure _

theorem choose_eq_of_length_le (hlength : candidates.length ≤ 1) (state : ι) (signal : Option (Signal ι κ ν)) :
    m.choose state signal candidates = pure candidates.head? := by
  match candidates with
  | [] => rfl
  | [_] => rfl
  | _ :: _ :: _ => simp at hlength

section step

variable [DecidableEq κ]

theorem step_eq (m : Machine ι κ ν γ) (count : Nat) (key : Key) (signal : Option (Signal ι κ ν)) :
    m.step count key signal = (do
      let origin ← m.lookup key
      let candidates ← m.eligible key signal
      let chosen ← m.choose origin.id signal candidates
      m.conclude count origin key signal chosen) := by
  have hstep : m.step count key signal = (do
      let origin ← m.lookup key
      signal.forM fun told => m.offer told (m.hierarchy.activeChain key)
      let chosen ← m.select origin.id key signal
      m.conclude count origin key signal chosen) := rfl
  simp only [hstep, eligible, select, bind_assoc]

theorem Decided.step_eq (hdecided : m.Decided turn) (count : Nat) :
    m.step count turn.key turn.signal turn.context = m.plainStep count turn.key turn.signal turn.context := by
  rw [Machine.step_eq, plainStep, lookup]
  cases m.state? turn.key with
  | none => rfl
  | some origin =>
    rw [pure_bind, pure_bind]
    apply Run.bind_apply_congr
    intro candidates heligible
    rw [choose_eq_of_length_le (hdecided candidates heligible), pure_bind]

/-! ### Another resolver -/

omit [DecidableEq κ] in
def withResolver (m : Machine ι κ ν γ) (resolver : Resolver ι κ ν γ) : Machine ι κ ν γ := { m with resolver }

variable {resolver : Resolver ι κ ν γ}

theorem eligible_withResolver (m : Machine ι κ ν γ) (resolver : Resolver ι κ ν γ) :
    (m.withResolver resolver).eligible = m.eligible := by
  have hoffer : (m.withResolver resolver).offer = m.offer := m.offer_withSettings m.limit resolver
  funext key signal
  rw [eligible, hoffer]
  rfl

omit [DecidableEq κ] in
theorem conclude_withResolver (m : Machine ι κ ν γ) (resolver : Resolver ι κ ν γ) :
    (m.withResolver resolver).conclude = m.conclude := by
  have hfire : (m.withResolver resolver).fire = m.fire := m.fire_withSettings m.limit resolver
  funext count origin key signal chosen
  cases chosen with
  | none => rfl
  | some t =>
    rw [conclude, hfire]
    rfl

theorem plainStep_withResolver (m : Machine ι κ ν γ) (resolver : Resolver ι κ ν γ) :
    (m.withResolver resolver).plainStep = m.plainStep := by
  funext count key signal
  rw [plainStep, eligible_withResolver, conclude_withResolver]
  rfl

theorem Decided.withResolver (hdecided : m.Decided turn) : (m.withResolver resolver).Decided turn := by
  rw [Decided, eligible_withResolver]
  exact hdecided

theorem Decided.step_withResolver (hdecided : m.Decided turn) : (m.withResolver resolver).step turn.count turn.key
    turn.signal turn.context = m.step turn.count turn.key turn.signal turn.context := by
  rw [hdecided.withResolver.step_eq, plainStep_withResolver, hdecided.step_eq]

/-! ### The loop -/

theorem Next.withResolver (hnext : m.Next turn turn') (hdecided : m.Decided turn) :
    (m.withResolver resolver).Next turn turn' := by
  obtain ⟨hcount, hstep⟩ := hnext
  exact .intro hcount (hdecided.step_withResolver.trans hstep)

theorem Ends.withResolver (hends : m.Ends turn ending) (hdecided : turn.count < m.limit → m.Decided turn) :
    (m.withResolver resolver).Ends turn ending := by
  cases hends with
  | limit hcount hstate => exact .limit hcount hstate
  | rests hcount hstep hstate => exact .rests hcount ((hdecided hcount).step_withResolver.trans hstep) hstate
  | fails hcount hstep => exact .fails hcount ((hdecided hcount).step_withResolver.trans hstep)

variable [DecidableEq ι] {current : ι} {event : Event κ ν} {context : γ}

theorem Takes.withResolver (hturn : m.Takes current event context turn)
    (hunambiguous : m.Unambiguous current event context) :
    (m.withResolver resolver).Takes current event context turn := by
  induction hturn with
  | first hkey => exact .first hkey
  | next hturn hnext ih => exact ih.next (hnext.withResolver (hunambiguous _ hturn hnext.count_lt))

/-- **A run without ambiguity is the same with any resolver.** -/
theorem process_withResolver (hunambiguous : m.Unambiguous current event context) (resolver : Resolver ι κ ν γ) :
    (m.withResolver resolver).process current event context = m.process current event context := by
  by_cases hcurrent : current ∈ m.ids
  · obtain ⟨last, hlast, hends⟩ := exists_last hcurrent event context
    rw [(hlast.withResolver hunambiguous).process_eq]
    exact outcome_eq_of_ends (hends.withResolver (hunambiguous last hlast))
  · have hkey : m.key? current = none := if_neg hcurrent
    have hkey' : (m.withResolver resolver).key? current = none := hkey
    rw [process, process, hkey, hkey']

end step

/-! ### The resolver is not asked -/

abbrev Unasked : Moment ι κ ν γ → Prop := OnlyCalls fun call => call.role ≠ .resolver

variable [DecidableEq κ]

theorem unasked_eligible (key : Key) (signal : Option (Signal ι κ ν)) :
    (m.eligible key signal).Keeps Unasked fun _ => Unasked := by
  refine Run.Keeps.bind (keeps_offer_pending (fun key _ => onlyCalls_lookup key) ?_) fun _ now hnow => ?_
  · exact fun id told _ => onlyCalls_bears (by simp [Call.role])
  · have hguard : ∀ t : Transition ι κ ν γ, Run.Bears Unasked (fun _ => Unasked) (.guard t signal) :=
      fun t => onlyCalls_bears (by simp [Call.role])
    exact (ensures_ready hguard (m.triggered key signal) hnow).mono_done fun _ _ hdone => hdone.2

theorem unasked_plainStep (count : Nat) (key : Key) (signal : Option (Signal ι κ ν)) :
    (m.plainStep count key signal).Keeps Unasked fun _ => Unasked := by
  refine (onlyCalls_lookup key).bind fun origin => (unasked_eligible key signal).bind fun candidates => ?_
  apply onlyCalls_conclude <;> simp [Call.role]

variable [DecidableEq ι] {current : ι} {event : Event κ ν} {context : γ}

theorem unasked_process (hunambiguous : m.Unambiguous current event context) :
    Unasked ⟨(m.process current event context).context, (m.process current event context).trace⟩ := by
  refine always_process_of_lt (onlyCalls_nil context) fun turn hturn hcount hpast => ?_
  have hplain := unasked_plainStep (m := m) turn.count turn.key turn.signal turn.toMoment hpast
  exact hplain.congr ((hunambiguous turn hturn hcount).step_eq turn.count)

/-! ### The resolver that refuses to choose -/

omit [DecidableEq ι] in
theorem step_of_reject (hreject : m.resolver = Resolver.reject) {origin : State ι κ ν γ}
    (horigin : m.state? key = some origin) {context : γ}
    (heligible : (m.eligible key signal context).result = .ok candidates) (hmany : 1 < candidates.length) (count : Nat) :
    (m.step count key signal context).result =
      .error (.failed .resolver (.state origin.id) (.ambiguous origin.id (candidates.map Transition.edge))) := by
  obtain ⟨first, second, rest, rfl⟩ : ∃ first second rest, candidates = first :: second :: rest := by
    match candidates with
    | first :: second :: rest => exact ⟨first, second, rest, rfl⟩
  generalize houtcome : m.eligible key signal context = outcome at *
  obtain ⟨_, context', trace⟩ := outcome
  cases heligible
  have hchoose : m.choose origin.id signal (first :: second :: rest) context' =
      ⟨.error (.failed .resolver (.state origin.id) (.ambiguous origin.id ((first :: second :: rest).map Transition.edge))),
        context', [.called (.resolver origin.id signal (first :: second :: rest))]⟩ := by
    rw [choose, hreject] <;> simp
    rfl
  rw [step_eq, lookup_of_state? horigin, pure_bind, Run.bind_apply_of_ok houtcome, Run.bind_apply_of_error hchoose]

theorem unambiguous_of_reject (hreject : m.resolver = Resolver.reject)
    (hresult : ∀ place fault, (m.process current event context).result ≠ .error (.failed .resolver place fault)) :
    m.Unambiguous current event context := by
  intro turn hturn hcount candidates heligible
  by_contra hmany
  obtain ⟨origin, horigin⟩ := hturn.exists_state
  have hstep := step_of_reject hreject horigin heligible (Nat.lt_of_not_le hmany) turn.count
  generalize houtcome : m.step turn.count turn.key turn.signal turn.context = outcome at hstep
  obtain ⟨_, context', trace⟩ := outcome
  cases hstep
  rw [hturn.process_eq, outcome_eq_of_ends (Ends.fails hcount houtcome)] at hresult
  exact hresult _ _ rfl

/-! ### Two runs -/

/-- **Resolvers are asked only where there is a choice.** Of two machines that differ in nothing but their resolvers, the one does what the other one does, and neither asks its resolver, if no step of the run has several eligible transitions. So all that succeeds in a machine that refuses to choose comes out the same with any other resolver. -/
theorem resolver_irrelevant (hsame : m' = m.withResolver m'.resolver) (current : ι) (event : Event κ ν) (context : γ) :
    (m.Unambiguous current event context →
        m'.process current event context = m.process current event context ∧
          (∀ call, .called call ∈ (m.process current event context).trace → call.role ≠ .resolver) ∧
          ∀ call, .called call ∈ (m'.process current event context).trace → call.role ≠ .resolver) ∧
      (m.resolver = Resolver.reject → ∀ id, (m.process current event context).result = .ok id →
        m.Unambiguous current event context ∧ m'.process current event context = m.process current event context) := by
  have hagree : m.Unambiguous current event context →
      m'.process current event context = m.process current event context := by
    intro hunambiguous
    rw [hsame]
    exact process_withResolver hunambiguous m'.resolver
  refine ⟨fun hunambiguous => ?_, fun hreject id hresult => ?_⟩
  · refine ⟨hagree hunambiguous, unasked_process hunambiguous, ?_⟩
    rw [hagree hunambiguous]
    exact unasked_process hunambiguous
  · have hunambiguous : m.Unambiguous current event context :=
      unambiguous_of_reject hreject fun place fault herror => by rw [hresult] at herror; cases herror
    exact ⟨hunambiguous, hagree hunambiguous⟩

/-- A path that comes to a brook: the bridge bears those who weigh little, and the ford takes those who weigh enough. Beyond either of them is the same meadow. -/
def brook : List (Declaration Nat Unit Unit Nat) := [
  .initial 0 none,
  .rule { source := 0, target := 1, trigger := some (.event ()), guard := some fun _ => return decide ((← get) ≤ 5) },
  .rule { source := 0, target := 2, trigger := some (.event ()), guard := some fun _ => return decide (3 ≤ (← get)) },
  .rule { source := 1, target := 3 },
  .rule { source := 2, target := 3 }]

/-- Whoever weighs 2 can only take the bridge, with any resolver and with none. Whoever weighs 4 has a choice, and there the resolvers differ. -/
theorem brook_resolver_irrelevant : ∃ m, Machine.build brook = .ok m ∧ m.resolver = Resolver.reject ∧
    m.withResolver Resolver.nearest = m.withResolver (m.withResolver Resolver.nearest).resolver ∧
    (m.process 0 ⟨(), ()⟩ 2).result = .ok 3 ∧ (m.process 0 ⟨(), ()⟩ 2).firings.length = 2 ∧
    m.Unambiguous 0 ⟨(), ()⟩ 2 ∧
    (m.withResolver Resolver.nearest).process 0 ⟨(), ()⟩ 2 = m.process 0 ⟨(), ()⟩ 2 ∧
    (∀ call, .called call ∈ (m.process 0 ⟨(), ()⟩ 2).trace → call.role ≠ .resolver) ∧
    (m.process 0 ⟨(), ()⟩ 4).result =
      .error (.failed .resolver (.state 0) (.ambiguous 0 [⟨some 0, 1⟩, ⟨some 0, 2⟩])) ∧
    ((m.withResolver Resolver.nearest).process 0 ⟨(), ()⟩ 4).result = .ok 3 := by
  have hbuild : Machine.build brook = .ok (Draft.ofDeclarations brook).freeze := rfl
  have hnearest : (Draft.ofDeclarations brook).freeze.withResolver Resolver.nearest =
      (Draft.ofDeclarations brook).freeze.withResolver
        ((Draft.ofDeclarations brook).freeze.withResolver Resolver.nearest).resolver := rfl
  have hboth := resolver_irrelevant hnearest 0 ⟨(), ()⟩ 2
  obtain ⟨hunambiguous, hsame⟩ := hboth.2 rfl 3 rfl
  exact ⟨_, hbuild, rfl, hnearest, rfl, rfl, hunambiguous, hsame, (hboth.1 hunambiguous).2.1, rfl, rfl⟩

end Machine

end NestedMachine
