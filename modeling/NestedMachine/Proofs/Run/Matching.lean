import NestedMachine.Proofs.Machine.Renumbering
import NestedMachine.Proofs.Run.Failure

/-!
# Transitions in another order

Where the resolver refuses to choose, the order in which transitions were registered has no part in what a run comes to. Two runs match if from every context they leave the same one behind and come to answers that are related, or to errors that are alike (`Run.Matches`). The parts of a run on one of two reordered machines match those on the other, up to the keys. Only the selection looks at a list whose order differs, and it looks at its length alone, if the guards do nothing but read (`Twins.matches_select`): none is ready in both machines, or one and the same, or several, and then both fail and name the same candidates. By induction on the limit all runs match (`process_matches_of_build`).
-/

namespace NestedMachine

variable {ι κ ν γ α β : Type}

/-- The errors are the same, but for the order in which the candidates of an ambiguity are named. -/
inductive RunError.Alike : RunError ι → RunError ι → Prop where
  | same (error : RunError ι) : Alike error error
  | ambiguous (role : Role) (place : Place ι) (state : ι) {candidates candidates' : List (Edge ι)}
      (hperm : candidates.Perm candidates') :
      Alike (.failed role place (.ambiguous state candidates)) (.failed role place (.ambiguous state candidates'))

/-- Both are answers, which are related, or both are errors, which are alike. -/
inductive Agree (R : α → β → Prop) : Except (RunError ι) α → Except (RunError ι) β → Prop where
  | ok {a : α} {b : β} (hab : R a b) : Agree R (.ok a) (.ok b)
  | error {error error' : RunError ι} (halike : error.Alike error') : Agree R (.error error) (.error error')

namespace Run

/-- From every context the runs leave the same context behind, and their results agree. -/
def Matches (R : α → β → Prop) (run : Run ι κ ν γ α) (run' : Run ι κ ν γ β) : Prop :=
  ∀ context, (run context).context = (run' context).context ∧ Agree R (run context).result (run' context).result

theorem Matches.mono {R S : α → β → Prop} {run : Run ι κ ν γ α} {run' : Run ι κ ν γ β} (hrun : Matches R run run')
    (himp : ∀ a b, R a b → S a b) : Matches S run run' := by
  intro context
  obtain ⟨hcontext, hresult⟩ := hrun context
  refine ⟨hcontext, ?_⟩
  generalize (run context).result = result at hresult ⊢
  generalize (run' context).result = result' at hresult ⊢
  cases hresult with
  | ok hab => exact .ok (himp _ _ hab)
  | error halike => exact .error halike

theorem matches_same (run : Run ι κ ν γ α) : Matches Eq run run := by
  intro context
  refine ⟨rfl, ?_⟩
  cases (run context).result with
  | ok answer => exact .ok rfl
  | error error => exact .error (.same error)

theorem matches_pure {R : α → β → Prop} {a : α} {b : β} (hab : R a b) :
    Matches R (pure a : Run ι κ ν γ α) (pure b) := fun _ => ⟨rfl, .ok hab⟩

theorem matches_note (activity activity' : Activity ι κ ν γ) : Matches Eq (note activity) (note activity') :=
  fun _ => ⟨rfl, .ok rfl⟩

theorem matches_invoke {call call' : Call ι κ ν γ} (hrole : call.role = call'.role) (hplace : call.place = call'.place)
    (callback : Callback ι γ α) : Matches Eq (invoke call callback) (invoke call' callback) := by
  intro context
  unfold invoke
  -- Of a call the error repeats the role and the place, and no argument.
  rw [hrole, hplace]
  split
  · exact ⟨rfl, .ok rfl⟩
  · exact ⟨rfl, .error (.same _)⟩

theorem Matches.bind {α' β' : Type} {R : α → α' → Prop} {S : β → β' → Prop} {run : Run ι κ ν γ α}
    {run' : Run ι κ ν γ α'} {next : α → Run ι κ ν γ β} {next' : α' → Run ι κ ν γ β'} (hrun : Matches R run run')
    (hnext : ∀ a a', R a a' → Matches S (next a) (next' a')) : Matches S (run >>= next) (run' >>= next') := by
  intro context
  obtain ⟨hcontext, hresult⟩ := hrun context
  cases hcase : run context with
  | mk result context₁ trace =>
    cases hcase' : run' context with
    | mk result' context₁' trace' =>
      rw [hcase, hcase'] at hcontext hresult
      obtain rfl : context₁ = context₁' := hcontext
      cases hresult with
      | ok haa' =>
        rw [bind_apply_of_ok hcase, bind_apply_of_ok hcase']
        exact hnext _ _ haa' context₁
      | error halike =>
        rw [bind_apply_of_error hcase, bind_apply_of_error hcase']
        exact ⟨rfl, .error halike⟩

theorem matches_forM {R : α → β → Prop} {list : List α} {list' : List β} {part : α → Run ι κ ν γ Unit}
    {part' : β → Run ι κ ν γ Unit} (hlist : List.Forall₂ R list list')
    (hpart : ∀ a b, R a b → Matches Eq (part a) (part' b)) : Matches Eq (list.forM part) (list'.forM part') := by
  induction hlist with
  | nil => exact matches_same _
  | cons hab _ ih => exact (hpart _ _ hab).bind fun _ _ _ => ih

end Run

/-! ### Guards that do nothing but read -/

/-- The guard always answers, and leaves the context as it is. -/
def Guard.ReadsOnly (guard : Guard ι κ ν γ) : Prop :=
  ∀ signal context, ∃ answer, (guard signal).call context = (.ok answer, context)

/-- What the guard of a transition answers, if it answers at all. -/
def Transition.holds (t : Transition ι κ ν γ) (signal : Option (Signal ι κ ν)) (context : γ) : Bool :=
  match (t.permits signal).call context with
  | (.ok answer, _) => answer
  | (.error _, _) => false

theorem Transition.holds_eq {t t' : Transition ι κ ν γ} (hclause : t.clause = t'.clause) : t.holds = t'.holds := by
  unfold holds permits
  rw [guard_eq hclause]

namespace Machine

def GuardsReadOnly (m : Machine ι κ ν γ) : Prop :=
  ∀ clause ∈ m.ordinaryClauses, ∀ guard ∈ clause.guard, guard.ReadsOnly

variable {signal : Option (Signal ι κ ν)}

theorem isReady_apply {t : Transition ι κ ν γ} (hguard : ∀ guard ∈ t.guard, guard.ReadsOnly)
    (signal : Option (Signal ι κ ν)) (context : γ) :
    ∃ trace, isReady signal t context = ⟨.ok (t.holds signal context), context, trace⟩ := by
  unfold isReady Transition.holds Transition.permits
  cases hcase : t.guard with
  | none => exact ⟨[], rfl⟩
  | some guard =>
    obtain ⟨answer, hanswer⟩ := hguard guard hcase signal context
    refine ⟨[.called (.guard t signal)], ?_⟩
    simp only [Run.invoke, hanswer]

theorem ready_apply {candidates : List (Transition ι κ ν γ)}
    (hguards : ∀ t ∈ candidates, ∀ guard ∈ t.guard, guard.ReadsOnly) (signal : Option (Signal ι κ ν)) (context : γ) :
    ∃ trace, ready signal candidates context = ⟨.ok (candidates.filter (·.holds signal context)), context, trace⟩ := by
  induction candidates with
  | nil => exact ⟨[], rfl⟩
  | cons t rest ih =>
    obtain ⟨first, hfirst⟩ := isReady_apply (hguards t List.mem_cons_self) signal context
    obtain ⟨others, hothers⟩ := ih fun other hother => hguards other (List.mem_cons_of_mem _ hother)
    refine ⟨first ++ others, ?_⟩
    rw [ready, Run.bind_apply_of_ok hfirst, Run.bind_apply_of_ok hothers, List.filter_cons]
    simp only [Run.pure_apply, List.append_nil]

variable {m m' : Machine ι κ ν γ}

open Run

theorem matches_choose (hresolver : m.resolver = .reject) (hresolver' : m'.resolver = .reject)
    {candidates candidates' : List (Transition ι κ ν γ)}
    (hperm : (candidates.map Transition.clause).Perm (candidates'.map Transition.clause)) (state : ι)
    (signal : Option (Signal ι κ ν)) :
    Matches (Option.Rel fun t t' => t.clause = t'.clause ∧ t ∈ candidates ∧ t' ∈ candidates')
      (m.choose state signal candidates) (m'.choose state signal candidates') := by
  have hlength : candidates.length = candidates'.length := by simpa using hperm.length_eq
  match candidates, candidates' with
  | [], [] => exact matches_pure .none
  | [t], [t'] =>
    have hclause : t.clause = t'.clause := by simpa using hperm
    exact matches_pure (.some ⟨hclause, List.mem_cons_self, List.mem_cons_self⟩)
  | first :: second :: rest, first' :: second' :: rest' =>
    have hedges := hperm.map fun clause => clause.edge
    rw [List.map_map, List.map_map] at hedges
    intro context
    rw [choose, choose, hresolver, hresolver']
    · exact ⟨rfl, .error (.ambiguous .resolver (.state state) state hedges)⟩
    all_goals simp
  | [], _ :: _ => cases hlength
  | _ :: _, [] => cases hlength
  | [_], _ :: _ :: _ => cases hlength
  | _ :: _ :: _, [_] => cases hlength

variable {t t' : Transition ι κ ν γ}

theorem matches_act (hclause : t.clause = t'.clause) : Matches Eq (act t signal) (act t' signal) := by
  have hplace : (Call.action t signal).place = (Call.action t' signal).place :=
    congrArg Place.transition (Transition.edge_eq hclause)
  unfold act
  rw [Transition.action_eq hclause]
  split
  · exact matches_same _
  · exact matches_invoke (by rfl) hplace _

theorem matches_actInitial (hclause : t.clause = t'.clause) : Matches Eq (actInitial t) (actInitial t') := by
  have hplace : (Call.initialAction t).place = (Call.initialAction t').place :=
    congrArg Place.transition (Transition.edge_eq hclause)
  unfold actInitial
  rw [Transition.action_eq hclause]
  split
  · exact matches_same _
  · exact matches_invoke (by rfl) hplace _

variable [DecidableEq κ] {key key' : Key}

theorem Coherent.clause_mem_of_triggered (hcoherent : m.Coherent) (ht : t ∈ m.triggered key signal) :
    t ∈ m.table.all ∧ t.clause ∈ m.ordinaryClauses := by
  obtain ⟨⟨active, _, hleaving⟩, _⟩ := mem_triggered_iff.1 ht
  obtain ⟨hall, hkind, _⟩ := hcoherent.mem_leaving_iff.1 hleaving
  exact ⟨hall, List.mem_filter.2 ⟨List.mem_map_of_mem hall, decide_eq_true hkind⟩⟩

theorem Coherent.select_apply (hcoherent : m.Coherent) (hguards : m.GuardsReadOnly) (state : ι) (key : Key)
    (signal : Option (Signal ι κ ν)) (context : γ) :
    let candidates := (m.triggered key signal).filter (·.holds signal context)
    (m.select state key signal context).result = (m.choose state signal candidates context).result ∧
      (m.select state key signal context).context = (m.choose state signal candidates context).context := by
  have hread : ∀ t ∈ m.triggered key signal, ∀ guard ∈ t.guard, guard.ReadsOnly :=
    fun t ht => hguards t.clause (hcoherent.clause_mem_of_triggered ht).2
  obtain ⟨trace, hready⟩ := ready_apply hread signal context
  rw [select, bind_apply_of_ok hready]
  exact ⟨rfl, rfl⟩

variable [DecidableEq ι]

namespace Twins

open List

variable (htwins : m.Twins m') {a a' : Key}
include htwins

/-! ### Offering and selecting -/

omit [DecidableEq κ] in
theorem lookup_eq (ha : Corresponds m m' a a') : m.lookup a = m'.lookup a' := by
  rw [lookup, lookup, ← htwins.state?_eq ha]
  cases hstate : m.state? a with
  | some state => rfl
  | none =>
    have hroot : a = .root := (htwins.left.id?_eq_none_iff ha.left).1 (by rw [id?, hstate, Option.map_none])
    rw [hroot, (htwins.eq_root_iff ha).1 hroot]

omit [DecidableEq κ] in
theorem offer_eq {keys keys' : List Key} (hkeys : Forall₂ (Corresponds m m') keys keys') (told : Signal ι κ ν) :
    m.offer told keys = m'.offer told keys' := by
  induction hkeys with
  | nil => rfl
  | cons ha _ ih => rw [offer, offer, htwins.lookup_eq ha, ih]

omit [DecidableEq κ] in
theorem guardsReadOnly (hguards : m.GuardsReadOnly) : m'.GuardsReadOnly :=
  fun clause hclause => hguards clause (htwins.reordered.ordinary_perm.mem_iff.2 hclause)

theorem matches_select (hresolver : m.resolver = .reject) (hresolver' : m'.resolver = .reject)
    (hguards : m.GuardsReadOnly) (ha : Corresponds m m' a a') (state : ι) :
    Matches (Option.Rel fun t t' => Twin m m' t t' ∧ t ∈ m.triggered a signal) (m.select state a signal)
      (m'.select state a' signal) := by
  intro context
  -- The guards read the context in which the step offers its signal, so both machines keep the same transitions.
  have hperm : (((m.triggered a signal).filter (·.holds signal context)).map Transition.clause).Perm
      (((m'.triggered a' signal).filter (·.holds signal context)).map Transition.clause) :=
    perm_map_filter (fun t _ t' _ hclause => by rw [Transition.holds_eq hclause]) (htwins.triggered_perm ha signal)
  obtain ⟨hresult, hcontext⟩ := htwins.left.select_apply hguards state a signal context
  obtain ⟨hresult', hcontext'⟩ :=
    htwins.right.select_apply (htwins.guardsReadOnly hguards) state a' signal context
  have hchoose := matches_choose hresolver hresolver' hperm state signal
  rw [hresult, hresult', hcontext, hcontext']
  refine (hchoose.mono fun chosen chosen' hchosen => ?_) context
  cases hchosen with
  | none => exact .none
  | some ht =>
    obtain ⟨hclause, hmem, hmem'⟩ := ht
    -- Without keys the two are equal, and each is a transition of its machine; so their keys correspond.
    have htriggered := List.mem_of_mem_filter hmem
    have htriggered' := List.mem_of_mem_filter hmem'
    exact .some ⟨htwins.twin (htwins.left.clause_mem_of_triggered htriggered).1
      (htwins.right.clause_mem_of_triggered htriggered').1 hclause, htriggered⟩

/-! ### Firing -/

omit [DecidableEq κ] in
theorem matches_leave (ha : Corresponds m m' a a') : Matches Eq (m.leave a) (m'.leave a') := by
  rw [leave, leave, htwins.lookup_eq ha]
  refine (matches_same _).bind fun state _ hstate => ?_
  subst hstate
  exact (matches_note _ _).bind fun _ _ _ => matches_same _

omit [DecidableEq κ] in
theorem matches_enter (ha : Corresponds m m' a a') : Matches Eq (m.enter a) (m'.enter a') := by
  rw [enter, enter, htwins.lookup_eq ha]
  refine (matches_same _).bind fun state _ hstate => ?_
  subst hstate
  exact (matches_note _ _).bind fun _ _ _ => matches_same _

omit [DecidableEq κ] in
theorem matches_enterDefault (ht : Twin m m' t t') : Matches Eq (m.enterDefault t) (m'.enterDefault t') :=
  (matches_actInitial ht.clause_eq).bind fun _ _ _ => htwins.matches_enter ht.target

omit [DecidableEq κ] in
theorem matches_enterDefaults (ha : Corresponds m m' a a') :
    Matches (Corresponds m m') (m.enterDefaults a) (m'.enterDefaults a') := by
  obtain ⟨hdefaults, hresting⟩ := htwins.defaults ha
  exact (matches_forM hdefaults fun _ _ ht => htwins.matches_enterDefault ht).bind fun _ _ _ => matches_pure hresting

theorem matches_fire (ha : Corresponds m m' a a') (ht : Twin m m' t t') (htriggered : t ∈ m.triggered a signal) :
    Matches (Corresponds m m') (m.fire a t signal) (m'.fire a' t' signal) := by
  -- A failure to find a route would name keys, which are not the same in both machines. But there is a route.
  obtain ⟨_, _, route, hroute, _⟩ := htwins.left.exists_route_of_triggered ha.left htriggered
  obtain ⟨route', hroute', hexits, hentries⟩ := htwins.route ha ht.source ht.target hroute
  rw [Transition.kind_eq ht.clause_eq] at hroute'
  rw [fire, fire, hroute, hroute']
  refine (matches_pure (R := fun found found' => found = route ∧ found' = route') ⟨rfl, rfl⟩).bind fun _ _ hfound => ?_
  obtain ⟨rfl, rfl⟩ := hfound
  refine (matches_forM hexits fun _ _ => htwins.matches_leave).bind fun _ _ _ => ?_
  refine (matches_act ht.clause_eq).bind fun _ _ _ => ?_
  refine (matches_forM hentries fun _ _ => htwins.matches_enter).bind fun _ _ _ => ?_
  exact htwins.matches_enterDefaults ht.target

/-! ### Steps and runs -/

omit [DecidableEq κ] in
theorem completion_eq (ha : Corresponds m m' a a') : m.completion a = m'.completion a' := by
  have hnested : (m.hierarchy.parent a).any (· ≠ .root) = (m'.hierarchy.parent a').any (· ≠ .root) := by
    have hparents := htwins.parent ha
    generalize m.hierarchy.parent a = parent at hparents ⊢
    generalize m'.hierarchy.parent a' = parent' at hparents ⊢
    cases hparents with
    | none => rfl
    | some hparent => simp [htwins.eq_root_iff hparent]
  rw [completion, completion, htwins.state?_eq ha, hnested]

section

variable (hresolver : m.resolver = .reject) (hresolver' : m'.resolver = .reject) (hguards : m.GuardsReadOnly)
include hresolver hresolver' hguards

/-- **The steps match**: both fire nothing, or both come to rest in the same state. -/
theorem matches_step (ha : Corresponds m m' a a') (count : Nat) (signal : Option (Signal ι κ ν)) :
    Matches (Option.Rel (Corresponds m m')) (m.step count a signal) (m'.step count a' signal) := by
  rw [step, step, htwins.lookup_eq ha]
  refine (matches_same _).bind fun origin _ horigin => ?_
  subst horigin
  simp only [htwins.offer_eq (htwins.activeChain ha)]
  refine (matches_same _).bind fun _ _ _ => ?_
  refine (htwins.matches_select hresolver hresolver' hguards ha origin.id).bind fun chosen chosen' hchosen => ?_
  cases hchosen with
  | none => exact matches_pure .none
  | some ht =>
    obtain ⟨ht, htriggered⟩ := ht
    refine (matches_note _ _).bind fun _ _ _ => ?_
    refine (htwins.matches_fire ha ht htriggered).bind fun settled settled' hsettled => ?_
    rw [htwins.lookup_eq ht.source, htwins.lookup_eq hsettled]
    refine (matches_same _).bind fun _ _ _ => (matches_same _).bind fun _ _ _ => ?_
    exact (matches_note _ _).bind fun _ _ _ => matches_pure (.some hsettled)

theorem matches_proceed (ha : Corresponds m m' a a') (budget count : Nat) (signal : Option (Signal ι κ ν)) :
    Matches Eq (m.proceed budget count a signal) (m'.proceed budget count a' signal) := by
  induction budget generalizing a a' count signal with
  | zero =>
    rw [proceed, proceed, htwins.lookup_eq ha, htwins.reordered.limit_eq]
    exact matches_same _
  | succ budget ih =>
    rw [proceed, proceed]
    refine (htwins.matches_step hresolver hresolver' hguards ha count signal).bind fun settled settled' hsettled => ?_
    cases hsettled with
    | none =>
      rw [htwins.lookup_eq ha]
      exact matches_same _
    | some hsettled =>
      simp only [htwins.completion_eq hsettled]
      exact ih hsettled _ _

theorem matches_process (current : ι) (event : Event κ ν) :
    Matches Eq (m.process current event) (m'.process current event) := by
  have hkeys := htwins.key? current
  unfold process
  generalize m.key? current = key at hkeys ⊢
  generalize m'.key? current = key' at hkeys ⊢
  cases hkeys with
  | none => exact matches_same _
  | some ha =>
    rw [htwins.reordered.limit_eq]
    exact htwins.matches_proceed hresolver hresolver' hguards ha _ _ _

end

end Twins

/-- **The order of transitions does not matter** where ambiguity is refused and guards do nothing but read. Two machines that definitions give, with the same ordinary transitions in two orders and all else the same, leave the same context behind after every event and come to the same state; or both fail with the same error, and where that is an ambiguity, its candidates are named in some other order. -/
theorem process_matches_of_build {declarations declarations' : List (Declaration ι κ ν γ)}
    (hbuild : Machine.build declarations = .ok m) (hbuild' : Machine.build declarations' = .ok m')
    (hreordered : m.Reordered m') (hresolver : m.resolver = .reject) (hresolver' : m'.resolver = .reject)
    (hguards : m.GuardsReadOnly) (current : ι) (event : Event κ ν) (context : γ) :
    (m.process current event context).context = (m'.process current event context).context ∧
      Agree Eq (m.process current event context).result (m'.process current event context).result := by
  have htwins : m.Twins m' := ⟨coherent_of_build hbuild, coherent_of_build hbuild', hreordered⟩
  exact htwins.matches_process hresolver hresolver' hguards current event context

/-- A fork with one way that is open to all and one that is open only at zero. -/
def fork : List (Declaration Nat Unit Unit Nat) := [
  .initial 0 none,
  .rule { source := 0, target := 1, trigger := some (.event ()) },
  .rule { source := 0, target := 2, trigger := some (.event ()), guard := some fun _ => return decide ((← get) = 0) }]

/-- At zero the fork cannot be passed, and its two ways are named in the order in which they were declared. At one it can be passed, in one way. -/
theorem fork_matches : ∃ m m', Machine.build fork = .ok m ∧ Machine.build fork.reverse = .ok m' ∧ m.Reordered m' ∧
    m.resolver = .reject ∧ m'.resolver = .reject ∧ m.GuardsReadOnly ∧
    (m.process 0 ⟨(), ()⟩ 0).result = .error (.failed .resolver (.state 0) (.ambiguous 0 [⟨some 0, 1⟩, ⟨some 0, 2⟩])) ∧
    (m'.process 0 ⟨(), ()⟩ 0).result = .error (.failed .resolver (.state 0) (.ambiguous 0 [⟨some 0, 2⟩, ⟨some 0, 1⟩])) ∧
    Agree Eq (m.process 0 ⟨(), ()⟩ 0).result (m'.process 0 ⟨(), ()⟩ 0).result ∧
    (m.process 0 ⟨(), ()⟩ 1).result = .ok 1 ∧
    Agree Eq (m.process 0 ⟨(), ()⟩ 1).result (m'.process 0 ⟨(), ()⟩ 1).result := by
  have hbuild : Machine.build fork = .ok (Draft.ofDeclarations fork).freeze := rfl
  have hbuild' : Machine.build fork.reverse = .ok (Draft.ofDeclarations fork.reverse).freeze := rfl
  have hreordered := ((depicts_of_build hbuild).alike (depicts_of_build hbuild') (List.reverse_perm _).symm rfl rfl).reordered
  have hguards : (Draft.ofDeclarations fork).freeze.GuardsReadOnly := by
    intro clause hclause guard hguard
    obtain ⟨hmem, hkind⟩ := List.mem_filter.1 hclause
    rw [(depicts_of_build hbuild).clauses_eq] at hmem
    simp only [fork, Definition.clauses, List.filterMap_cons, Declaration.clause?, List.filterMap_nil, List.mem_cons,
      List.not_mem_nil, or_false] at hmem
    rcases hmem with rfl | rfl | rfl
    · simp at hkind
    · cases hguard
    · cases hguard
      exact fun _ _ => ⟨_, rfl⟩
  have hmatches := process_matches_of_build hbuild hbuild' hreordered rfl rfl hguards 0 ⟨(), ()⟩
  exact ⟨_, _, hbuild, hbuild', hreordered, rfl, rfl, hguards, rfl, rfl, (hmatches 0).2, rfl, (hmatches 1).2⟩

end Machine

end NestedMachine
