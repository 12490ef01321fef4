import NestedMachine.Proofs.Run.Ambiguity
import NestedMachine.Proofs.Run.Selection

/-!
# Inner transitions come before outer ones

The resolver `nearest` takes the first candidate it is handed. That this is the right one is a matter of the order in which transitions are examined: what guards allow is a part of that, in the same order, so its first entry is one of the deepest source, and of several there the one registered first (`isNearest_iff_head?`). Which transition a turn is to fire can then be said without the resolver (`Machine.Prefers`), and with it, that is the one that every step chooses, and the resolver never fails (`ensures_step_of_nearest`). From the steps it carries over to runs, of any length and with whatever end (`overridesOuter_of_build`).
-/

namespace NestedMachine.Machine

open Activity

variable {ι κ ν γ : Type} {m : Machine ι κ ν γ} {turn turn' : Turn ι κ ν γ} {t : Transition ι κ ν γ}
variable {key : Key} {signal : Option (Signal ι κ ν)} {now : Moment ι κ ν γ}
variable {chosen candidates : List (Transition ι κ ν γ)}

/-- Of these entries it is one of the deepest source, and the first of those of its source. -/
structure IsNearest (m : Machine ι κ ν γ) (entries : List (Transition ι κ ν γ × Nat))
    (entry : Transition ι κ ν γ × Nat) : Prop where
  mem : entry ∈ entries
  deepest : ∀ other ∈ entries, m.hierarchy.depth other.1.sourceKey ≤ m.hierarchy.depth entry.1.sourceKey
  earliest : ∀ other ∈ entries, other.1.sourceKey = entry.1.sourceKey → entry.2 ≤ other.2

/-- In this turn the transition is preferred. Once the signal has been offered, the guards of all that is to be examined answer, and of what they allow the transition is the nearest. -/
inductive Prefers (m : Machine ι κ ν γ) (turn : Turn ι κ ν γ) (t : Transition ι κ ν γ) : Prop where
  | intro {offered last : γ} {trace : List (Activity ι κ ν γ)} {answers : List ((Transition ι κ ν γ × Nat) × Bool)}
      {position : Nat}
      (hoffer : (turn.signal.forM fun told => m.offer told (m.hierarchy.activeChain turn.key)) turn.context =
        ⟨.ok (), offered, trace⟩)
      (hexamines : m.Examines turn.key turn.signal (answers.map Prod.fst))
      (hanswers : Answers turn.signal offered answers last) (hnearest : m.IsNearest (allowed answers) (t, position)) :
      Prefers m turn t

/-! ### The first entry -/

theorem isNearest_iff_head? {entries : List (Transition ι κ ν γ × Nat)} {entry : Transition ι κ ν γ × Nat}
    (hordered : entries.Pairwise fun entry later =>
      m.hierarchy.depth later.1.sourceKey < m.hierarchy.depth entry.1.sourceKey ∨
        entry.1.sourceKey = later.1.sourceKey ∧ entry.2 < later.2) :
    m.IsNearest entries entry ↔ entries.head? = some entry := by
  cases entries with
  | nil => simpa using fun hnearest => List.not_mem_nil (IsNearest.mem hnearest)
  | cons first rest =>
    have hbefore := (List.pairwise_cons.1 hordered).1
    rw [List.head?_cons, Option.some.injEq]
    refine ⟨fun hnearest => ?_, ?_⟩
    · rcases List.mem_cons.1 hnearest.mem with rfl | hmem
      · rfl
      · -- What stands behind the first entry is either less deep, or of the same source and later.
        exfalso
        rcases hbefore entry hmem with hdepth | ⟨hsource, hposition⟩
        · exact Nat.not_le.2 hdepth (hnearest.deepest first List.mem_cons_self)
        · exact Nat.not_le.2 hposition (hnearest.earliest first List.mem_cons_self hsource)
    · rintro rfl
      refine ⟨List.mem_cons_self, fun other hother => ?_, fun other hother hsource => ?_⟩
      · rcases List.mem_cons.1 hother with rfl | hother
        · exact Nat.le_refl _
        · rcases hbefore other hother with hdepth | ⟨hsource, _⟩
          · exact Nat.le_of_lt hdepth
          · rw [hsource]
      · rcases List.mem_cons.1 hother with rfl | hother
        · exact Nat.le_refl _
        · rcases hbefore other hother with hdepth | ⟨_, hposition⟩
          · exact absurd (hsource ▸ hdepth) (Nat.lt_irrefl _)
          · exact Nat.le_of_lt hposition

theorem allowed_sublist {α : Type} (answers : List (α × Bool)) : (allowed answers).Sublist (answers.map Prod.fst) :=
  List.filter_sublist.map _

theorem Examines.isNearest_iff {answers : List ((Transition ι κ ν γ × Nat) × Bool)} {entry : Transition ι κ ν γ × Nat}
    (hexamines : m.Examines key signal (answers.map Prod.fst)) :
    m.IsNearest (allowed answers) entry ↔ (allowed answers).head? = some entry :=
  isNearest_iff_head? (hexamines.pairwise.sublist (allowed_sublist answers))

theorem Coherent.prefers_iff [DecidableEq κ] (hcoherent : m.Coherent) (hkey : m.hierarchy.Contains turn.key) :
    m.Prefers turn t ↔ ∃ candidates,
      (m.eligible turn.key turn.signal turn.context).result = .ok candidates ∧ candidates.head? = some t := by
  have hexamined : m.Examines turn.key turn.signal (m.examined turn.key turn.signal) :=
    hcoherent.examines_examined hkey
  constructor
  · rintro (@⟨_, _, _, answers, _, hoffer, hexamines, hanswers, hnearest⟩)
    have hready := ready_of_answers hanswers
    rw [hexamines.unique hexamined, hcoherent.map_examined] at hready
    have heligible : (m.eligible turn.key turn.signal turn.context).result = .ok ((allowed answers).map Prod.fst) := by
      rw [eligible, Run.bind_apply_of_ok hoffer, hready]
    refine ⟨_, heligible, ?_⟩
    rw [List.head?_map, hexamines.isNearest_iff.1 hnearest]
    rfl
  · rintro ⟨candidates, heligible, hhead⟩
    rcases hoffer : (turn.signal.forM fun told => m.offer told (m.hierarchy.activeChain turn.key)) turn.context
      with ⟨_ | _, offered, trace⟩
    · rw [eligible, Run.bind_apply_of_error hoffer] at heligible
      cases heligible
    · rw [eligible, Run.bind_apply_of_ok hoffer, ← hcoherent.map_examined] at heligible
      rcases exists_answers turn.signal (m.examined turn.key turn.signal) offered with
        ⟨answers, last, hsplit, hanswers⟩ | ⟨answers, entry, after, fault, middle, last, hsplit, hanswers, hfault⟩
      · rw [hsplit] at hexamined heligible
        rw [ready_of_answers hanswers] at heligible
        obtain rfl := Except.ok.inj heligible
        rw [List.head?_map, Option.map_eq_some_iff] at hhead
        obtain ⟨⟨_, position⟩, hfirst, rfl⟩ := hhead
        exact ⟨hoffer, hexamined, hanswers, hexamined.isNearest_iff.2 hfirst⟩
      · rw [hsplit, List.map_append, List.map_cons, ready_of_fault hanswers hfault] at heligible
        cases heligible

/-! ### What a step chooses -/

theorem choices_append (past trace : List (Activity ι κ ν γ)) : choices (past ++ trace) = choices past ++ choices trace :=
  List.filterMap_append

def Chosen (chosen : List (Transition ι κ ν γ)) (now : Moment ι κ ν γ) : Prop := choices now.past = chosen

/-- These transitions have been chosen, and it is not the resolver that has failed. -/
def FailsElsewhere (chosen : List (Transition ι κ ν γ)) (error : RunError ι) (now : Moment ι κ ν γ) : Prop :=
  Chosen chosen now ∧ ∀ place fault, error ≠ .failed .resolver place fault

theorem Chosen.concat (hnow : Chosen chosen now) {activity : Activity ι κ ν γ} (hchoice : activity.choice? = none)
    (context : γ) : Chosen chosen ⟨context, now.past ++ [activity]⟩ := by
  rw [Chosen, choices_concat, hchoice, Option.toList_none, List.append_nil]
  exact hnow

theorem chosen_bears {call : Call ι κ ν γ} (hrole : call.role ≠ .resolver) :
    Run.Bears (Chosen chosen) (FailsElsewhere chosen) call where
  outlasts _ hnow := hnow.concat rfl
  allows _ _ hnow := ⟨hnow, fun _ _ heq => hrole (RunError.failed.inj heq).1⟩

theorem chosen_withstandsFiring : WithstandsFiring (Chosen chosen) (FailsElsewhere chosen) where
  dangling _ _ hnow := ⟨hnow, by simp⟩
  unrelated _ _ hnow := ⟨hnow, by simp⟩
  left _ now hnow := hnow.concat rfl now.context
  entered _ now hnow := hnow.concat rfl now.context
  exit _ := chosen_bears (by simp [Call.role])
  entry _ := chosen_bears (by simp [Call.role])
  initialAction _ := chosen_bears (by simp [Call.role])

theorem chosen_fire (active : Key) (t : Transition ι κ ν γ) (signal : Option (Signal ι κ ν)) :
    (m.fire active t signal).Keeps (Chosen chosen) (FailsElsewhere chosen) :=
  chosen_withstandsFiring.keeps_fire (chosen_bears (by simp [Call.role])) active

theorem chosen_eligible [DecidableEq κ] (key : Key) (signal : Option (Signal ι κ ν)) :
    (m.eligible key signal).Keeps (Chosen chosen) (FailsElsewhere chosen) := by
  refine Run.Keeps.bind (keeps_offer_pending (fun key _ => chosen_withstandsFiring.lookup key) ?_) fun _ now hnow => ?_
  · exact fun id told _ => chosen_bears (by simp [Call.role])
  · have hguard : ∀ t : Transition ι κ ν γ, Run.Bears (Chosen chosen) (FailsElsewhere chosen) (.guard t signal) :=
      fun t => chosen_bears (by simp [Call.role])
    exact (ensures_ready hguard (m.triggered key signal) hnow).mono_done fun _ _ hdone => hdone.2

theorem ensures_conclude (hnow : Chosen chosen now) (count : Nat) (origin : State ι κ ν γ) (key : Key)
    (signal : Option (Signal ι κ ν)) (given : Option (Transition ι κ ν γ)) :
    (m.conclude count origin key signal given).Ensures now (fun _ => Chosen (chosen ++ given.toList))
      (FailsElsewhere (chosen ++ given.toList)) := by
  cases given with
  | none =>
    rw [Option.toList_none, List.append_nil]
    exact Run.ensures_pure hnow
  | some t =>
    have hchosen : Chosen (chosen ++ [t]) ⟨now.context, now.past ++ [.chose t signal]⟩ := by
      rw [Chosen, choices_concat, hnow]
      rfl
    apply Run.ensures_bind
    apply Run.ensures_note
    refine ((chosen_fire key t signal).bind fun settled => (chosen_withstandsFiring.lookup t.sourceKey).bind fun source =>
      (chosen_withstandsFiring.lookup settled).bind fun resting => Run.Keeps.bind ?_ fun _ => Run.keeps_pure _) _ hchosen
    exact Run.keeps_note fun now hnow => hnow.concat rfl now.context

/-- What has been chosen after this turn is what had been before, and the transition that the turn prefers, if there is one. -/
def ChosenAfter (m : Machine ι κ ν γ) (turn : Turn ι κ ν γ) (now : Moment ι κ ν γ) : Prop :=
  ∃ preferred, (∀ t, m.Prefers turn t ↔ preferred = some t) ∧ Chosen (choices turn.past ++ preferred.toList) now

theorem Next.choices_eq [DecidableEq κ] (hnext : m.Next turn turn') : choices turn'.past =
    choices turn.past ++ choices (m.step turn.count turn.key turn.signal turn.context).trace := by
  obtain ⟨_, hstep⟩ := hnext
  rw [hstep, ← choices_append]

section nearest

variable [ToString ι] (hnearest : m.resolver = Resolver.nearest)
include hnearest

theorem ensures_choose_of_nearest (hnow : Chosen chosen now) (id : ι) (signal : Option (Signal ι κ ν))
    (candidates : List (Transition ι κ ν γ)) (failed : RunError ι → Moment ι κ ν γ → Prop) :
    (m.choose id signal candidates).Ensures now
      (fun given now => given = candidates.head? ∧ Chosen chosen now) failed := by
  match candidates with
  | [] => exact Run.ensures_pure ⟨rfl, hnow⟩
  | [only] => exact Run.ensures_pure ⟨rfl, hnow⟩
  | first :: second :: rest =>
    rw [choose_of_two_le (by simp), map_eq_pure_bind, hnearest]
    apply Run.ensures_bind
    apply Run.ensures_invoke
    · rintro t context hcall
      cases hcall
      exact Run.ensures_pure ⟨rfl, hnow.concat rfl _⟩
    · rintro fault context hcall
      cases hcall

variable [DecidableEq κ]

/-- **A step chooses what is preferred**, and if it fails, then not because of the resolver. -/
theorem Coherent.ensures_step_of_nearest (hcoherent : m.Coherent) {origin : State ι κ ν γ}
    (horigin : m.state? turn.key = some origin) :
    (m.step turn.count turn.key turn.signal).Ensures turn.toMoment (fun _ => m.ChosenAfter turn)
      (fun error now => m.ChosenAfter turn now ∧ ∀ place fault, error ≠ .failed .resolver place fault) := by
  have hkey : m.hierarchy.Contains turn.key := hcoherent.contains_of_id? (id?_eq_of_state? horigin)
  have hbefore : Chosen (choices turn.past) turn.toMoment := rfl
  rw [step_eq, lookup_of_state? horigin, pure_bind]
  refine Run.ensures_bind ((chosen_eligible turn.key turn.signal _ hbefore).and_result.mono ?_ ?_)
  · rintro candidates now ⟨hresult, hnow⟩
    have hpreferred : ∀ t, m.Prefers turn t ↔ candidates.head? = some t := by
      intro t
      rw [hcoherent.prefers_iff hkey, hresult]
      simp
    apply (ensures_choose_of_nearest hnearest hnow origin.id turn.signal candidates _).bind
    rintro _ now ⟨rfl, hnow⟩
    refine (ensures_conclude hnow turn.count origin turn.key turn.signal _).mono ?_ ?_
    · exact fun _ _ hafter => ⟨_, hpreferred, hafter⟩
    · exact fun _ _ hafter => ⟨⟨_, hpreferred, hafter.1⟩, hafter.2⟩
  · rintro error now ⟨hresult, hnow, herror⟩
    have hnone : ∀ t, m.Prefers turn t ↔ (none : Option (Transition ι κ ν γ)) = some t := by
      intro t
      rw [hcoherent.prefers_iff hkey, hresult]
      simp
    refine ⟨⟨none, hnone, ?_⟩, herror⟩
    rw [Option.toList_none, List.append_nil]
    exact hnow

variable [DecidableEq ι] {current : ι} {event : Event κ ν} {context : γ}

theorem Coherent.exists_choices_step (hcoherent : m.Coherent) (hturn : m.Takes current event context turn) :
    ∃ preferred, (∀ t, m.Prefers turn t ↔ preferred = some t) ∧
      choices (m.step turn.count turn.key turn.signal turn.context).trace = preferred.toList := by
  obtain ⟨origin, horigin⟩ := hturn.exists_state
  have hstep := (hcoherent.ensures_step_of_nearest hnearest horigin).mono_failed fun _ _ hafter => hafter.1
  obtain ⟨preferred, hpreferred, hchosen⟩ := hstep.always
  rw [Chosen, choices_append] at hchosen
  exact ⟨preferred, hpreferred, List.append_cancel_left hchosen⟩

theorem Coherent.exists_prefers_of_mem_choices (hcoherent : m.Coherent)
    (ht : t ∈ choices (m.process current event context).trace) :
    ∃ turn, m.Takes current event context turn ∧ turn.count < m.limit ∧ m.Prefers turn t := by
  refine always_process_of_lt (P := fun now => ∀ t ∈ choices now.past,
    ∃ turn, m.Takes current event context turn ∧ turn.count < m.limit ∧ m.Prefers turn t)
    (by simp [choices]) (fun turn hturn hcount hbefore => ?_) t ht
  obtain ⟨origin, horigin⟩ := hturn.exists_state
  have hmem : ∀ now, m.ChosenAfter turn now → ∀ t ∈ choices now.past,
      ∃ turn, m.Takes current event context turn ∧ turn.count < m.limit ∧ m.Prefers turn t := by
    rintro now ⟨preferred, hpreferred, hchosen⟩ t ht
    rw [hchosen, List.mem_append, Option.mem_toList] at ht
    rcases ht with ht | ht
    · exact hbefore t ht
    · exact ⟨turn, hturn, hcount, (hpreferred t).2 ht⟩
  exact (hcoherent.ensures_step_of_nearest hnearest horigin).mono (fun _ => hmem) fun _ now hafter => hmem now hafter.1

theorem Coherent.result_ne_of_nearest (hcoherent : m.Coherent) (place : Place ι) (fault : Fault ι) :
    (m.process current event context).result ≠ .error (.failed .resolver place fault) := by
  by_cases hcurrent : current ∈ m.ids
  · obtain ⟨last, hlast, hends⟩ := exists_last hcurrent event context
    obtain ⟨origin, horigin⟩ := hlast.exists_state
    generalize m.process current event context = ending at *
    cases hends with
    | limit _ _ => simp
    | rests _ _ _ => simp
    | fails _ hstep =>
      have hfails := (hcoherent.ensures_step_of_nearest hnearest horigin).of_error (congrArg Outcome.result hstep)
      exact fun heq => hfails.2 place fault (Except.error.inj heq)
  · have hkey : m.key? current = none := if_neg hcurrent
    simp [process, hkey, Run.fail_apply]

end nearest

/-! ### Runs -/

/-- While the machine processes an event, inner transitions come before outer ones. -/
structure OverridesOuter [DecidableEq ι] [DecidableEq κ] (m : Machine ι κ ν γ) (current : ι) (event : Event κ ν)
    (context : γ) : Prop where
  result_ne : ∀ place fault, (m.process current event context).result ≠ .error (.failed .resolver place fault)
  /-- A step chooses the transition that it prefers, if it prefers one, and no other. -/
  exists_choices_step : ∀ turn, m.Takes current event context turn → turn.count < m.limit →
    ∃ preferred, (∀ t, m.Prefers turn t ↔ preferred = some t) ∧
      choices (m.step turn.count turn.key turn.signal turn.context).trace = preferred.toList
  /-- What fires, and leads to another step, is what was preferred. -/
  prefers_of_next : ∀ turn turn', m.Takes current event context turn → m.Next turn turn' →
    ∃ t firing past, turn'.past = past ++ [.fired firing] ∧
      m.Fires turn.count turn.key turn.signal t turn'.key firing ∧ m.Prefers turn t
  exists_prefers_of_mem : ∀ t ∈ choices (m.process current event context).trace,
    ∃ turn, m.Takes current event context turn ∧ turn.count < m.limit ∧ m.Prefers turn t

variable [DecidableEq ι] [DecidableEq κ] [ToString ι] {declarations : List (Declaration ι κ ν γ)}

theorem Coherent.overridesOuter (hcoherent : m.Coherent) (hnearest : m.resolver = Resolver.nearest) (current : ι)
    (event : Event κ ν) (context : γ) : m.OverridesOuter current event context where
  result_ne := hcoherent.result_ne_of_nearest hnearest
  exists_choices_step turn hturn _ := hcoherent.exists_choices_step hnearest hturn
  prefers_of_next turn turn' hturn hnext := by
    obtain ⟨preferred, hpreferred, hchoices⟩ := hcoherent.exists_choices_step hnearest hturn
    obtain ⟨t, firing, past, hpast, hchosen, _, hfires⟩ := hnext.exists_firing
    refine ⟨t, firing, past, hpast, hfires, (hpreferred t).2 (Option.toList_eq_singleton_iff.1 ?_)⟩
    have hafter : choices turn'.past = choices past := by
      rw [hpast, choices_concat]
      exact List.append_nil _
    rw [hnext.choices_eq, hchosen] at hafter
    rw [← hchoices, List.append_cancel_left hafter]
  exists_prefers_of_mem _ ht := hcoherent.exists_prefers_of_mem_choices hnearest ht

/-- **With the resolver `nearest`, inner transitions override outer ones**, in runs of any length. Whatever the machine processes, it never fails because of its resolver. Each step chooses, among all transitions that leave the active state or a state around it and whose triggers and guards pass, one whose source is deepest, and of those of that source the one registered first. -/
theorem overridesOuter_of_build (hbuild : Machine.build declarations = .ok m) (hnearest : m.resolver = Resolver.nearest)
    (current : ι) (event : Event κ ν) (context : γ) :
    m.table.all.map Transition.clause = Definition.clauses declarations ∧ m.OverridesOuter current event context :=
  ⟨(depicts_of_build hbuild).clauses_eq, (coherent_of_build hbuild).overridesOuter hnearest current event context⟩

/-- At the crossroads two roads are open, and one leads out of the town. The one at the crossroads is taken, and then none leads further. -/
theorem crossroads_overridesOuter : ∃ m, Machine.build (crossroads ++ [.resolver Resolver.nearest]) = .ok m ∧
    m.resolver = Resolver.nearest ∧
    m.table.all.map Transition.clause = Definition.clauses (crossroads ++ [.resolver Resolver.nearest]) ∧
    m.OverridesOuter 1 ⟨(), ()⟩ [] ∧
    (m.process 1 ⟨(), ()⟩ []).result = .ok 2 ∧
    (choices (m.process 1 ⟨(), ()⟩ []).trace).map Transition.edge = [⟨some 1, 2⟩] := by
  have hbuild : Machine.build (crossroads ++ [.resolver Resolver.nearest]) =
      .ok (Draft.ofDeclarations (crossroads ++ [.resolver Resolver.nearest])).freeze := rfl
  obtain ⟨hclauses, hoverrides⟩ := overridesOuter_of_build hbuild rfl 1 ⟨(), ()⟩ []
  exact ⟨_, hbuild, rfl, hclauses, hoverrides, rfl, rfl⟩

end NestedMachine.Machine
