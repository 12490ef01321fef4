import NestedMachine.Proofs.Hierarchy.Meeting
import NestedMachine.Proofs.Machine.Depiction
import NestedMachine.Proofs.Run.Attention

/-!
# Which transition is selected

A selection looks at entries of the table, each a transition with its position there. Which of them, and in which order, depends on the nesting and on the signal alone: `Examines` says that they are the ordinary transitions that leave the active state or a state around it and that wait for the signal, those of deeper sources first, and those of one source in the order of registration. There is only one such list (`Examines.unique`), and its transitions are those that are `triggered` (`Coherent.map_examined`, `Coherent.examines_examined`).

The guards of these entries answer in turn (`Answers`), each in the context that the one before has left behind. What comes of their answers is spelled out by `Machine.Selects`, which is what `select` does, no more and no less (`selects_iff`).
-/

namespace NestedMachine

variable {ι κ ν γ α : Type}

/-- The calls that ask the guards of transitions, one for each that has a guard. -/
def asked (signal : Option (Signal ι κ ν)) (ts : List (Transition ι κ ν γ)) : List (Activity ι κ ν γ) :=
  (ts.filter (·.guard.isSome)).map fun t => .called (.guard t signal)

/-- What has been answered with yes, in the same order. -/
def allowed (answers : List (α × Bool)) : List α := (answers.filter Prod.snd).map Prod.fst

/-- The entries are allowed or not, as their guards answer in turn. They begin in one context and leave another behind. -/
inductive Answers (signal : Option (Signal ι κ ν)) : γ → List ((Transition ι κ ν γ × Nat) × Bool) → γ → Prop where
  | nil (context : γ) : Answers signal context [] context
  | cons {entry : Transition ι κ ν γ × Nat} {answer : Bool} {rest : List ((Transition ι κ ν γ × Nat) × Bool)}
      {context context' last : γ} (hanswer : (entry.1.permits signal).call context = (.ok answer, context'))
      (hrest : Answers signal context' rest last) : Answers signal context ((entry, answer) :: rest) last

/-- What a selection in the state `id` comes to, if these entries are examined. -/
inductive Machine.Selects (m : Machine ι κ ν γ) (id : ι) (signal : Option (Signal ι κ ν))
    (entries : List (Transition ι κ ν γ × Nat)) (context : γ) :
    Outcome ι κ ν γ (Option (Transition ι κ ν γ)) → Prop where
  /-- A guard fails, and those after it are not asked. -/
  | fails {answers : List ((Transition ι κ ν γ × Nat) × Bool)} {entry : Transition ι κ ν γ × Nat}
      {after : List (Transition ι κ ν γ × Nat)} {fault : Fault ι} {context' last : γ}
      (hentries : entries = answers.map Prod.fst ++ entry :: after) (hanswers : Answers signal context answers context')
      (hfault : (entry.1.permits signal).call context' = (.error fault, last)) :
      Selects m id signal entries context ⟨.error (.failed .guard (.transition entry.1.edge) fault), last,
        asked signal ((answers.map Prod.fst ++ [entry]).map Prod.fst)⟩
  /-- None is allowed. -/
  | nothing {answers : List ((Transition ι κ ν γ × Nat) × Bool)} {context' : γ}
      (hentries : entries = answers.map Prod.fst) (hanswers : Answers signal context answers context')
      (hallowed : allowed answers = []) :
      Selects m id signal entries context ⟨.ok none, context', asked signal (entries.map Prod.fst)⟩
  /-- One is allowed, and is selected unasked. -/
  | only {answers : List ((Transition ι κ ν γ × Nat) × Bool)} {entry : Transition ι κ ν γ × Nat} {context' : γ}
      (hentries : entries = answers.map Prod.fst) (hanswers : Answers signal context answers context')
      (hallowed : allowed answers = [entry]) :
      Selects m id signal entries context ⟨.ok (some entry.1), context', asked signal (entries.map Prod.fst)⟩
  /-- Several are allowed, and the resolver chooses. -/
  | chooses {answers : List ((Transition ι κ ν γ × Nat) × Bool)} {t : Transition ι κ ν γ} {context' last : γ}
      (hentries : entries = answers.map Prod.fst) (hanswers : Answers signal context answers context')
      (hallowed : 2 ≤ (allowed answers).length)
      (hcall : (m.resolver id signal ((allowed answers).map Prod.fst)).call context' = (.ok t, last)) :
      Selects m id signal entries context ⟨.ok (some t), last,
        asked signal (entries.map Prod.fst) ++ [.called (.resolver id signal ((allowed answers).map Prod.fst))]⟩
  /-- Several are allowed, and the resolver fails. -/
  | refuses {answers : List ((Transition ι κ ν γ × Nat) × Bool)} {fault : Fault ι} {context' last : γ}
      (hentries : entries = answers.map Prod.fst) (hanswers : Answers signal context answers context')
      (hallowed : 2 ≤ (allowed answers).length)
      (hcall : (m.resolver id signal ((allowed answers).map Prod.fst)).call context' = (.error fault, last)) :
      Selects m id signal entries context ⟨.error (.failed .resolver (.state id) fault), last,
        asked signal (entries.map Prod.fst) ++ [.called (.resolver id signal ((allowed answers).map Prod.fst))]⟩

namespace Machine

variable {m : Machine ι κ ν γ} {key : Key} {id : ι} {t : Transition ι κ ν γ} {signal : Option (Signal ι κ ν)}
variable {answers : List ((Transition ι κ ν γ × Nat) × Bool)} {entries : List (Transition ι κ ν γ × Nat)}
variable {context context' last : γ} {answer : Bool} {fault : Fault ι}

/-! ### Asking guards in turn -/

theorem asked_append (signal : Option (Signal ι κ ν)) (ts more : List (Transition ι κ ν γ)) :
    asked signal (ts ++ more) = asked signal ts ++ asked signal more := by
  simp [asked]

theorem asked_cons (signal : Option (Signal ι κ ν)) (t : Transition ι κ ν γ) (rest : List (Transition ι κ ν γ)) :
    asked signal (t :: rest) = asked signal [t] ++ asked signal rest :=
  asked_append signal [t] rest

theorem mem_asked_iff {call : Call ι κ ν γ} {ts : List (Transition ι κ ν γ)} :
    .called call ∈ asked signal ts ↔ ∃ t ∈ ts, t.guard.isSome ∧ call = .guard t signal := by
  simp only [asked, List.mem_map, List.mem_filter, Activity.called.injEq, and_assoc]
  refine exists_congr fun t => and_congr_right fun _ => and_congr_right fun _ => ?_
  exact eq_comm

theorem isReady_of_ok (hcall : (t.permits signal).call context = (.ok answer, context')) :
    isReady signal t context = ⟨.ok answer, context', asked signal [t]⟩ := by
  unfold Transition.permits at hcall
  unfold isReady asked
  cases hguard : t.guard with
  | none =>
    rw [hguard] at hcall
    cases hcall
    simp [hguard, Run.pure_apply]
  | some guard =>
    rw [hguard] at hcall
    simp [hguard, Run.invoke_of_ok hcall]

theorem isReady_of_error (hcall : (t.permits signal).call context = (.error fault, context')) :
    isReady signal t context = ⟨.error (.failed .guard (.transition t.edge) fault), context', asked signal [t]⟩ := by
  unfold Transition.permits at hcall
  unfold isReady asked
  cases hguard : t.guard with
  | none =>
    rw [hguard] at hcall
    cases hcall
  | some guard =>
    rw [hguard] at hcall
    simp [hguard, Run.invoke_of_error hcall, Call.role, Call.place]

theorem ready_of_answers (hanswers : Answers signal context answers context') :
    ready signal ((answers.map Prod.fst).map Prod.fst) context =
      ⟨.ok ((allowed answers).map Prod.fst), context', asked signal ((answers.map Prod.fst).map Prod.fst)⟩ := by
  induction hanswers with
  | nil _ => rfl
  | @cons entry answer rest context _ last hanswer _ ih =>
    rw [List.map_cons, List.map_cons, asked_cons signal entry.1 ((rest.map Prod.fst).map Prod.fst), ready,
      Run.bind_apply_of_ok (isReady_of_ok hanswer), Run.bind_apply_of_ok ih, Run.pure_apply, List.append_nil]
    cases answer with
    | true => rfl
    | false => rfl

theorem ready_of_fault (hanswers : Answers signal context answers context') {after : List (Transition ι κ ν γ)}
    (hfault : (t.permits signal).call context' = (.error fault, last)) :
    ready signal ((answers.map Prod.fst).map Prod.fst ++ t :: after) context =
      ⟨.error (.failed .guard (.transition t.edge) fault), last,
        asked signal ((answers.map Prod.fst).map Prod.fst ++ [t])⟩ := by
  induction hanswers with
  | nil _ => exact Run.bind_apply_of_error (isReady_of_error hfault)
  | cons hanswer _ ih =>
    rw [List.map_cons, List.map_cons, List.cons_append, ready, Run.bind_apply_of_ok (isReady_of_ok hanswer),
      Run.bind_apply_of_error (ih hfault), List.cons_append, ← asked_cons]

theorem exists_answers (signal : Option (Signal ι κ ν)) (entries : List (Transition ι κ ν γ × Nat)) (context : γ) :
    (∃ answers context', entries = answers.map Prod.fst ∧ Answers signal context answers context') ∨
      ∃ answers entry after fault context' last, entries = answers.map Prod.fst ++ entry :: after ∧
        Answers signal context answers context' ∧ (entry.1.permits signal).call context' = (.error fault, last) := by
  induction entries generalizing context with
  | nil => exact .inl ⟨[], context, rfl, .nil context⟩
  | cons first rest ih =>
    rcases hcall : (first.1.permits signal).call context with ⟨fault | answer, context'⟩
    · exact .inr ⟨[], first, rest, fault, context, context', rfl, .nil context, hcall⟩
    · rcases ih context' with ⟨answers, last, rfl, hanswers⟩ |
        ⟨answers, entry, after, fault, middle, last, rfl, hanswers, hfault⟩
      · exact .inl ⟨(first, answer) :: answers, last, rfl, .cons hcall hanswers⟩
      · exact .inr ⟨(first, answer) :: answers, entry, after, fault, middle, last, rfl, .cons hcall hanswers, hfault⟩

/-! ### What is examined -/

/-- The entries are what is to be examined for a signal while the machine rests in `key`, each of them once, in order. -/
structure Examines (m : Machine ι κ ν γ) (key : Key) (signal : Option (Signal ι κ ν))
    (entries : List (Transition ι κ ν γ × Nat)) : Prop where
  /-- They are the ordinary transitions that leave the state or one around it and wait for the signal. -/
  mem_iff : ∀ t position, (t, position) ∈ entries ↔ m.table.all[position]? = some t ∧ t.kind ≠ .initial ∧
    t.sourceKey ∈ m.hierarchy.chain key ∧ t.trigger = signal.map Signal.trigger
  nodup : (entries.map Prod.snd).Nodup
  /-- Those of deeper sources come first, and those of one source in the order of registration. -/
  pairwise : entries.Pairwise fun entry later =>
    m.hierarchy.depth later.1.sourceKey < m.hierarchy.depth entry.1.sourceKey ∨
      entry.1.sourceKey = later.1.sourceKey ∧ entry.2 < later.2

theorem Examines.unique {others : List (Transition ι κ ν γ × Nat)} (hentries : m.Examines key signal entries)
    (hothers : m.Examines key signal others) : entries = others := by
  have hperm : entries.Perm others := by
    rw [List.perm_ext_iff_of_nodup hentries.nodup.of_map hothers.nodup.of_map]
    rintro ⟨t, position⟩
    rw [hentries.mem_iff, hothers.mem_iff]
  -- No two entries come each before the other.
  refine hperm.eq_of_pairwise (fun entry later _ _ hbefore hafter => ?_) hentries.pairwise hothers.pairwise
  rcases hbefore with hdepth | ⟨hsource, hposition⟩
  · rcases hafter with hdepth' | ⟨hsource', _⟩
    · omega
    · rw [hsource'] at hdepth
      exact absurd hdepth (Nat.lt_irrefl _)
  · rcases hafter with hdepth' | ⟨_, hposition'⟩
    · rw [hsource] at hdepth'
      exact absurd hdepth' (Nat.lt_irrefl _)
    · omega

section examines

variable [DecidableEq κ]

def examined (m : Machine ι κ ν γ) (key : Key) (signal : Option (Signal ι κ ν)) : List (Transition ι κ ν γ × Nat) :=
  (m.hierarchy.activeChain key).flatMap fun source =>
    m.table.all.zipIdx.filter fun entry => entry.1.LeavesFrom source ∧ entry.1.awaits signal

theorem mem_examined_iff {position : Nat} : (t, position) ∈ m.examined key signal ↔
    m.table.all[position]? = some t ∧ t.kind ≠ .initial ∧ t.sourceKey ∈ m.hierarchy.activeChain key ∧
      t.trigger = signal.map Signal.trigger := by
  simp only [examined, List.mem_flatMap, List.mem_filter, List.mem_zipIdx_iff_getElem?, decide_eq_true_eq,
    Transition.awaits_iff, Transition.LeavesFrom]
  constructor
  · rintro ⟨_, hactive, hget, ⟨hkind, rfl⟩, htrigger⟩
    exact ⟨hget, hkind, hactive, htrigger⟩
  · rintro ⟨hget, hkind, hactive, htrigger⟩
    exact ⟨_, hactive, hget, ⟨hkind, rfl⟩, htrigger⟩

theorem Coherent.map_examined (hcoherent : m.Coherent) :
    (m.examined key signal).map Prod.fst = m.triggered key signal := by
  rw [examined, triggered, List.map_flatMap, List.filter_flatMap]
  congr 1
  funext source
  have hall : m.table.all = m.table.all.zipIdx.map Prod.fst := (List.zipIdx_map_fst 0 _).symm
  rw [hcoherent.leaving_eq, List.filter_filter]
  conv_rhs => rw [hall]
  rw [List.filter_map]
  congr 2
  funext entry
  simp [Bool.and_comm]

theorem pairwise_examined (m : Machine ι κ ν γ) (signal : Option (Signal ι κ ν))
    (hlevels : (m.hierarchy.activeChain key).Pairwise fun state above =>
      m.hierarchy.depth above < m.hierarchy.depth state) :
    (m.examined key signal).Pairwise fun entry later =>
      m.hierarchy.depth later.1.sourceKey < m.hierarchy.depth entry.1.sourceKey ∨
        entry.1.sourceKey = later.1.sourceKey ∧ entry.2 < later.2 := by
  have hleaves : ∀ source entry, entry ∈ (m.table.all.zipIdx.filter fun entry =>
      decide (entry.1.LeavesFrom source ∧ entry.1.awaits signal)) → entry.1.sourceKey = source := by
    intro source entry hentry
    exact (of_decide_eq_true (List.mem_filter.1 hentry).2).1.2
  have hpositions : m.table.all.zipIdx.Pairwise fun entry later => entry.2 < later.2 := by
    have hrange : (m.table.all.zipIdx.map Prod.snd).Pairwise (· < ·) := by
      rw [List.zipIdx_map_snd]
      exact List.pairwise_lt_range'
    exact List.pairwise_map.1 hrange
  rw [examined, List.pairwise_flatMap]
  refine ⟨fun source _ => ?_, hlevels.imp fun hdepth entry hentry later hlater => .inl ?_⟩
  · refine (hpositions.filter _).imp_of_mem fun hentry hlater hlt => .inr ⟨?_, hlt⟩
    rw [hleaves source _ hentry, hleaves source _ hlater]
  · rw [hleaves _ _ hentry, hleaves _ _ hlater]
    exact hdepth

theorem Coherent.examines_examined (hcoherent : m.Coherent) (hkey : m.hierarchy.Contains key) :
    m.Examines key signal (m.examined key signal) := by
  have hmem : ∀ t position, (t, position) ∈ m.examined key signal ↔ m.table.all[position]? = some t ∧
      t.kind ≠ .initial ∧ t.sourceKey ∈ m.hierarchy.chain key ∧ t.trigger = signal.map Signal.trigger := by
    intro t position
    rw [mem_examined_iff, hcoherent.forest.mem_activeChain_iff hkey]
    refine and_congr_right fun hget => and_congr_right fun hkind => and_congr_left fun _ => and_iff_left ?_
    exact fun hroot => hkind (hcoherent.kind_of_root t (List.mem_of_getElem? hget) hroot)
  have hlevels : (m.hierarchy.activeChain key).Pairwise fun state above =>
      m.hierarchy.depth above < m.hierarchy.depth state :=
    (hcoherent.forest.pairwise_depth hkey).sublist (m.hierarchy.activeChain_sublist key)
  have hpairwise := m.pairwise_examined signal hlevels
  refine ⟨hmem, List.pairwise_map.2 (hpairwise.imp_of_mem ?_), hpairwise⟩
  rintro ⟨t, position⟩ ⟨other, position'⟩ hentry hlater hbefore rfl
  have hsame := ((hmem t position).1 hentry).1.symm.trans ((hmem other position).1 hlater).1
  obtain rfl := Option.some.inj hsame
  rcases hbefore with hdepth | ⟨_, hposition⟩
  · exact Nat.lt_irrefl _ hdepth
  · exact Nat.lt_irrefl _ hposition

/-! ### What comes of it -/

omit [DecidableEq κ] in
theorem choose_of_two_le {candidates : List (Transition ι κ ν γ)} (hlength : 2 ≤ candidates.length) (id : ι)
    (signal : Option (Signal ι κ ν)) : m.choose id signal candidates =
      some <$> Run.invoke (.resolver id signal candidates) (m.resolver id signal candidates) := by
  match candidates with
  | _ :: _ :: _ => rfl

variable {outcome : Outcome ι κ ν γ (Option (Transition ι κ ν γ))}

theorem Selects.select_eq (hselects : m.Selects id signal entries context outcome)
    (hentries : entries.map Prod.fst = m.triggered key signal) : m.select id key signal context = outcome := by
  rw [select, ← hentries]
  cases hselects with
  | fails hsplit hanswers hfault =>
    subst hsplit
    rw [List.map_append, List.map_cons, Run.bind_apply_of_error (ready_of_fault hanswers hfault), List.map_append]
    rfl
  | nothing hsplit hanswers hallowed =>
    subst hsplit
    rw [Run.bind_apply_of_ok (ready_of_answers hanswers), hallowed]
    simp [choose, Run.pure_apply]
  | only hsplit hanswers hallowed =>
    subst hsplit
    rw [Run.bind_apply_of_ok (ready_of_answers hanswers), hallowed]
    simp [choose, Run.pure_apply]
  | chooses hsplit hanswers hallowed hcall =>
    subst hsplit
    have hlength := (List.length_map Prod.fst).trans_ge hallowed
    rw [Run.bind_apply_of_ok (ready_of_answers hanswers), choose_of_two_le hlength, map_eq_pure_bind,
      Run.bind_apply_of_ok (Run.invoke_of_ok hcall)]
    rfl
  | refuses hsplit hanswers hallowed hcall =>
    subst hsplit
    have hlength := (List.length_map Prod.fst).trans_ge hallowed
    rw [Run.bind_apply_of_ok (ready_of_answers hanswers), choose_of_two_le hlength, map_eq_pure_bind,
      Run.bind_apply_of_error (Run.invoke_of_error hcall)]
    rfl

omit [DecidableEq κ] in
theorem exists_selects (m : Machine ι κ ν γ) (id : ι) (signal : Option (Signal ι κ ν))
    (entries : List (Transition ι κ ν γ × Nat)) (context : γ) :
    ∃ outcome, m.Selects id signal entries context outcome := by
  rcases exists_answers signal entries context with ⟨answers, context', hsplit, hanswers⟩ |
    ⟨answers, entry, after, fault, context', last, hsplit, hanswers, hfault⟩
  · match hallowed : allowed answers with
    | [] => exact ⟨_, .nothing hsplit hanswers hallowed⟩
    | [entry] => exact ⟨_, .only hsplit hanswers hallowed⟩
    | first :: second :: rest =>
      have hlength : 2 ≤ (allowed answers).length := by simp [hallowed]
      rcases hcall : (m.resolver id signal ((allowed answers).map Prod.fst)).call context' with ⟨fault | t, last⟩
      · exact ⟨_, .refuses hsplit hanswers hlength hcall⟩
      · exact ⟨_, .chooses hsplit hanswers hlength hcall⟩
  · exact ⟨_, .fails hsplit hanswers hfault⟩

/-- **Selection is just this.** -/
theorem selects_iff (hentries : entries.map Prod.fst = m.triggered key signal) :
    m.Selects id signal entries context outcome ↔ m.select id key signal context = outcome := by
  refine ⟨fun hselects => hselects.select_eq hentries, ?_⟩
  rintro rfl
  obtain ⟨outcome, hselects⟩ := m.exists_selects id signal entries context
  rwa [hselects.select_eq hentries]

/-! ### Which guards are asked -/

omit [DecidableEq κ] in
theorem Selects.of_asked (hselects : m.Selects id signal entries context outcome) {told : Option (Signal ι κ ν)}
    (hasked : .called (.guard t told) ∈ outcome.trace) : told = signal ∧ t ∈ entries.map Prod.fst := by
  have hmem : ∀ ts : List (Transition ι κ ν γ), .called (.guard t told) ∈ asked signal ts → told = signal ∧ t ∈ ts := by
    intro ts hasked
    obtain ⟨_, hts, _, heq⟩ := mem_asked_iff.1 hasked
    cases heq
    exact ⟨rfl, hts⟩
  cases hselects with
  | fails hsplit _ _ =>
    obtain ⟨htold, ht⟩ := hmem _ hasked
    refine ⟨htold, List.map_subset _ ?_ ht⟩
    simp [hsplit]
  | nothing _ _ _ | only _ _ _ => exact hmem _ hasked
  | chooses _ _ _ _ | refuses _ _ _ _ => exact hmem _ (by simpa using hasked)

omit [DecidableEq κ] in
theorem Selects.mem_trace (hselects : m.Selects id signal entries context outcome)
    (hresult : ∀ place fault, outcome.result ≠ .error (.failed .guard place fault)) (ht : t ∈ entries.map Prod.fst)
    (hguard : t.guard.isSome) : .called (.guard t signal) ∈ outcome.trace := by
  have hasked : .called (.guard t signal) ∈ asked signal (entries.map Prod.fst) := mem_asked_iff.2 ⟨t, ht, hguard, rfl⟩
  cases hselects with
  | fails _ _ _ => exact absurd rfl (hresult _ _)
  | nothing _ _ _ | only _ _ _ => exact hasked
  | chooses _ _ _ _ | refuses _ _ _ _ => exact List.mem_append_left _ hasked

end examines

/-! ### Selecting in a machine -/

section build

variable [DecidableEq κ]

/-- A selection in the state `id`, whose key is `key`, examines what is to be examined, and comes to what that comes to. -/
structure SelectsExactly (m : Machine ι κ ν γ) (key : Key) (id : ι) (signal : Option (Signal ι κ ν)) : Prop where
  existsUnique_examines : ∃! entries, m.Examines key signal entries
  selects_iff : ∀ entries, m.Examines key signal entries → ∀ context outcome,
    m.Selects id signal entries context outcome ↔ m.select id key signal context = outcome
  /-- No guard is asked but those of ordinary transitions that leave the state or one around it and wait for the signal. -/
  of_asked : ∀ context t told, .called (.guard t told) ∈ (m.select id key signal context).trace →
    told = signal ∧ t ∈ m.table.all ∧ t.kind ≠ .initial ∧ t.sourceKey ∈ m.hierarchy.chain key ∧
      t.trigger = signal.map Signal.trigger
  /-- Unless a guard fails, each of these is asked, whichever others hold. -/
  asked : ∀ context, (∀ place fault, (m.select id key signal context).result ≠ .error (.failed .guard place fault)) →
    ∀ t ∈ m.table.all, t.kind ≠ .initial → t.sourceKey ∈ m.hierarchy.chain key → t.trigger = signal.map Signal.trigger →
      t.guard.isSome → .called (.guard t signal) ∈ (m.select id key signal context).trace

theorem Coherent.selectsExactly (hcoherent : m.Coherent) (hkey : m.hierarchy.Contains key) (id : ι)
    (signal : Option (Signal ι κ ν)) : m.SelectsExactly key id signal := by
  have hexamined : m.Examines key signal (m.examined key signal) := hcoherent.examines_examined hkey
  have hmem : ∀ t, t ∈ (m.examined key signal).map Prod.fst ↔ t ∈ m.table.all ∧ t.kind ≠ .initial ∧
      t.sourceKey ∈ m.hierarchy.chain key ∧ t.trigger = signal.map Signal.trigger := by
    intro t
    simp only [List.mem_map, Prod.exists, exists_and_right, exists_eq_right, hexamined.mem_iff]
    rw [← List.mem_iff_getElem?]
  have hselects : ∀ context, m.Selects id signal (m.examined key signal) context (m.select id key signal context) :=
    fun context => (selects_iff hcoherent.map_examined).2 rfl
  refine ⟨⟨_, hexamined, fun others hothers => hothers.unique hexamined⟩, fun entries hentries context outcome => ?_,
    fun context t told hasked => ?_, fun context hresult t ht hkind hsource htrigger hguard => ?_⟩
  · rw [hentries.unique hexamined]
    exact selects_iff hcoherent.map_examined
  · obtain ⟨htold, ht⟩ := (hselects context).of_asked hasked
    exact ⟨htold, (hmem t).1 ht⟩
  · exact (hselects context).mem_trace hresult ((hmem t).2 ⟨ht, hkind, hsource, htrigger⟩) hguard

variable [DecidableEq ι] {declarations : List (Declaration ι κ ν γ)}

/-- **Selection is exact.** Whatever state of a machine is active and whatever the signal, the guards that are asked are those of the ordinary transitions that leave the state or one around it and wait for the signal, nearest first, and those of one source in the order in which they were declared. The first that fails ends the selection. If none fails, those that are allowed decide it: it is for the resolver to choose only among several. -/
theorem selectsExactly_of_build (hbuild : Machine.build declarations = .ok m) (hid : m.id? key = some id)
    (signal : Option (Signal ι κ ν)) :
    m.table.all.map Transition.clause = Definition.clauses declarations ∧ m.SelectsExactly key id signal :=
  ⟨(depicts_of_build hbuild).clauses_eq,
    (coherent_of_build hbuild).selectsExactly ((coherent_of_build hbuild).contains_of_id? hid) id signal⟩

/-- A guard that puts down its number, and answers. -/
def sign (number : Nat) (isOpen : Bool) : Guard Nat Unit Unit (List Nat) := fun _ => do
  modify (· ++ [number])
  return isOpen

/-- A crossroads 1 in a town 0. Three roads lead away from it, and one out of the town. -/
def crossroads : List (Declaration Nat Unit Unit (List Nat)) := [
  .initial 0 none,
  .composite { superstate := 0, default := 1 },
  .rule { source := 0, target := 2, trigger := some (.event ()), guard := some (sign 20 true) },
  .rule { source := 1, target := 3, trigger := some (.event ()), guard := some (sign 10 false) },
  .rule { source := 1, target := 3, guard := some (sign 12 true) },
  .rule { source := 1, target := 2, trigger := some (.event ()), guard := some (sign 11 true) }]

/-- The signs at the crossroads are read before the one that leads out of the town, although that was put up first, and it is read although another road is open. -/
theorem crossroads_selectsExactly : ∃ m, Machine.build crossroads = .ok m ∧ m.id? ⟨2⟩ = some 1 ∧
    m.table.all.map Transition.clause = Definition.clauses crossroads ∧
    m.SelectsExactly ⟨2⟩ 1 (some (.event ⟨(), ()⟩)) ∧
    (m.select 1 ⟨2⟩ (some (.event ⟨(), ()⟩)) []).context = [10, 11, 20] ∧
    (m.select 1 ⟨2⟩ (some (.event ⟨(), ()⟩)) []).result =
      .error (.failed .resolver (.state 1) (.ambiguous 1 [⟨some 1, 2⟩, ⟨some 0, 2⟩])) := by
  have hbuild : Machine.build crossroads = .ok (Draft.ofDeclarations crossroads).freeze := rfl
  have hid : (Draft.ofDeclarations crossroads).freeze.id? ⟨2⟩ = some 1 := rfl
  obtain ⟨hclauses, hexact⟩ := selectsExactly_of_build hbuild hid (some (.event ⟨(), ()⟩))
  exact ⟨_, hbuild, hid, hclauses, hexact, rfl, rfl⟩

end build

end Machine

end NestedMachine
