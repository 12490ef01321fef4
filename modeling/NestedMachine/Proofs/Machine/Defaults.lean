import NestedMachine.Proofs.Machine.Depiction

/-!
# Default substates

That a state with substates has an initial transition is not checked when a machine is built. It comes of how states are nested: a composite declaration that nests states adds the initial transition of their superstate in the same breath, and one that is refused gives no machine at all. Nor is it checked that a state without substates has none, or that no initial transition has a trigger or a guard. A rule may ask for such a transition, but not in a machine: leading inside its source it is the second one there, and leading elsewhere it is a defect (`exists_composite_of_initialSource?`).
-/

namespace NestedMachine

variable {ι κ ν γ : Type}

theorem eq_of_nodup_filterMap {α β : Type} {f : α → Option β} {l : List α} (hnodup : (l.filterMap f).Nodup) {a a' : α}
    {b : β} (ha : a ∈ l) (ha' : a' ∈ l) (hb : f a = some b) (hb' : f a' = some b) : a = a' := by
  have hpairwise := List.pairwise_filterMap.1 hnodup
  induction hpairwise with
  | nil => cases ha
  | @cons first rest hfirst hrest ih =>
    rcases List.mem_cons.1 ha with rfl | hin
    · rcases List.mem_cons.1 ha' with heq | hin'
      · exact heq.symm
      · exact absurd rfl (hfirst a' hin' b hb b hb')
    · rcases List.mem_cons.1 ha' with rfl | hin'
      · exact absurd rfl (hfirst a hin b hb' b hb)
      · exact ih (hnodup.sublist ((List.sublist_cons_self first rest).filterMap f)) hin hin'

/-- The declaration states an initial transition between two states, finished or not. -/
def Declaration.AsksForInitial : Declaration ι κ ν γ → Prop
  | .rule r => r.kind = .initial
  | .sketch s => s.kind = .initial
  | _ => False

theorem Sketch.kind_of_rule {sketch : Sketch ι κ ν γ} {rule : Rule ι κ ν γ} (hrule : sketch.rule = .ok rule) :
    rule.kind = sketch.kind := by
  unfold Sketch.rule at hrule
  split at hrule
  · cases hrule
  · cases hrule
  · split at hrule
    · cases hrule
    · split at hrule
      · cases hrule
      · exact congrArg Rule.kind (Except.ok.inj hrule).symm

namespace Definition

variable {declarations : List (Declaration ι κ ν γ)}

theorem Consistent.exists_composite (hconsistent : Consistent declarations) {declaration : Declaration ι κ ν γ}
    (hdeclaration : declaration ∈ declarations) {id substate : ι} (hinitial : declaration.initialSource? = some id)
    (hnests : Nests declarations id substate) : ∃ c, declaration = .composite c := by
  obtain ⟨_, hcomposite, c, rfl, hsuperstate, _⟩ := hnests
  have hsource : (Declaration.composite c : Declaration ι κ ν γ).initialSource? = some id := congrArg some hsuperstate
  exact ⟨c, eq_of_nodup_filterMap hconsistent.initialSources_nodup hdeclaration hcomposite hinitial hsource⟩

theorem Consistent.exists_stray (hconsistent : Consistent declarations) {declaration : Declaration ι κ ν γ}
    (hdeclaration : declaration ∈ declarations) (hasks : declaration.AsksForInitial) :
    ∃ source target, declaration.link? = some ⟨⟨some source, target⟩, .initial⟩ ∧
      ∀ substate, ¬ Nests declarations source substate := by
  have hfree : ∀ source, declaration.initialSource? = some source →
      ∀ substate, ¬ Nests declarations source substate := by
    intro source hinitial substate hnests
    -- With a substate, the source has its initial transition from a composite declaration, and from no other.
    obtain ⟨c, rfl⟩ := hconsistent.exists_composite hdeclaration hinitial hnests
    exact hasks
  have hrule : ∀ rule : Rule ι κ ν γ, rule.kind = .initial → declaration.link? = some rule.link →
      declaration.link? = some ⟨⟨some rule.source, rule.target⟩, .initial⟩ ∧
        ∀ substate, ¬ Nests declarations rule.source substate := by
    intro rule hkind hlink
    rw [Rule.link, hkind] at hlink
    exact ⟨hlink, hfree rule.source (Declaration.initialSource?_eq_some_iff.2 ⟨_, hlink, rfl, rfl⟩)⟩
  cases declaration with
  | rule rule => exact ⟨rule.source, rule.target, hrule rule hasks rfl⟩
  | sketch sketch =>
    obtain ⟨rule, hsketch⟩ := hconsistent.sketches_finished sketch hdeclaration
    have hkind : rule.kind = .initial := (Sketch.kind_of_rule hsketch).trans hasks
    exact ⟨rule.source, rule.target, hrule rule hkind (by rw [Declaration.link?, hsketch]; rfl)⟩
  | _ => cases hasks

end Definition

namespace Machine

open Definition

variable {m : Machine ι κ ν γ} {declarations : List (Declaration ι κ ν γ)} {declaration : Declaration ι κ ν γ}

/-- **No machine has an initial transition that a rule asked for.** A definition in which one does gives no machine, whatever else it declares and in whatever order. If nothing is refused then the source of the rule is not composite, and the transition is reported as a defect. -/
theorem error_of_asksForInitial [DecidableEq ι] (hdeclaration : declaration ∈ declarations)
    (hasks : declaration.AsksForInitial) : (∃ error, Machine.build declarations = .error error) ∧
      ((Draft.ofDeclarations declarations).refused = none →
        ∃ source target, declaration.link? = some ⟨⟨some source, target⟩, .initial⟩ ∧
          ¬ Definition.IsComposite declarations source ∧
          .strayInitial ⟨some source, target⟩ ∈ Definition.strayInitials declarations) := by
  classical
  have hreported : (Draft.ofDeclarations declarations).refused = none →
      ∃ source target, declaration.link? = some ⟨⟨some source, target⟩, .initial⟩ ∧
        ¬ Definition.IsComposite declarations source ∧
        .strayInitial ⟨some source, target⟩ ∈ Definition.strayInitials declarations := by
    intro hrefused
    have hconsistent := Draft.refused_ofDeclarations_iff.1 hrefused
    obtain ⟨source, target, hlink, hfree⟩ := hconsistent.exists_stray hdeclaration hasks
    refine ⟨source, target, hlink, fun ⟨substate, hnests⟩ => hfree substate hnests, ?_⟩
    have hmem := List.mem_filterMap.2 ⟨declaration, hdeclaration, hlink⟩
    have hstray : ¬ LeadsInside declarations ⟨some source, target⟩ := hfree target
    exact List.mem_map.2 ⟨_, List.mem_filter.2 ⟨hmem, decide_eq_true ⟨rfl, hstray⟩⟩, rfl⟩
  refine ⟨?_, hreported⟩
  cases hbuild : Machine.build declarations with
  | error error => exact ⟨error, rfl⟩
  | ok m =>
    obtain ⟨hconsistent, _, start, _, _, hdefects⟩ := build_eq_ok_iff_consistent.1 hbuild
    obtain ⟨source, target, _, _, hmem⟩ := hreported (Draft.refused_ofDeclarations_iff.2 hconsistent)
    have hdefect : Defect.strayInitial ⟨some source, target⟩ ∈ Definition.defects declarations start :=
      List.mem_append_left _ (List.mem_append_left _ (List.mem_append_right _ hmem))
    rw [hdefects] at hdefect
    cases hdefect

theorem player_error_of_asksForInitial :
    (∃ error, Machine.build (.rule { source := .playing, target := .sounding, kind := .initial } ::
      Player.declarations) = .error error) ∧
    .strayInitial ⟨some .stopped, .paused⟩ ∈ Definition.strayInitials
      (.rule { source := .stopped, target := .paused, kind := .initial } :: Player.declarations) := by
  have hasks : ∀ source target, (Declaration.rule { source, target, kind := .initial } :
      Declaration Player.Mode Player.Button Unit Unit).AsksForInitial := fun _ _ => rfl
  refine ⟨(error_of_asksForInitial List.mem_cons_self (hasks _ _)).1, ?_⟩
  have hrefused : (Draft.ofDeclarations
      (.rule { source := .stopped, target := .paused, kind := .initial } :: Player.declarations)).refused = none := rfl
  obtain ⟨source, target, hlink, _, hstray⟩ :=
    (error_of_asksForInitial List.mem_cons_self (hasks _ _)).2 hrefused
  obtain ⟨rfl, rfl⟩ : Player.Mode.stopped = source ∧ Player.Mode.paused = target := by
    simpa [Declaration.link?, Rule.link] using hlink
  exact hstray

/-- **The initial transitions of states all come from composite declarations**, if a definition gives a machine. -/
theorem exists_composite_of_initialSource? [DecidableEq ι] (hbuild : Machine.build declarations = .ok m)
    (hdeclaration : declaration ∈ declarations) {id : ι} (hinitial : declaration.initialSource? = some id) :
    ∃ c, declaration = .composite c := by
  obtain ⟨hconsistent, rfl, _⟩ := build_eq_ok_iff_consistent.1 hbuild
  have hcoherent := coherent_of_build hbuild
  have haligned := Draft.aligned_ofDeclarations declarations
  have hreflects := Draft.reflects_ofDeclarations (Draft.refused_ofDeclarations_iff.2 hconsistent)
  obtain ⟨link, hlink, hkind, hsource⟩ := Declaration.initialSource?_eq_some_iff.1 hinitial
  obtain ⟨t, ht, rfl⟩ := hreflects.exists_transition (List.mem_filterMap.2 ⟨declaration, hdeclaration, hlink⟩)
  -- The transition is not stray, so it leads into its source, and what is nested there was nested by a composite declaration.
  have hparent := hcoherent.parent_of_initial t ((Draft.all_freeze _).symm ▸ ht) hkind
  have hinside := (Draft.parent_target_iff haligned hreflects ht).1 hparent
  have hedge : t.edge.source = some id := hsource
  rw [LeadsInside, hedge] at hinside
  exact hconsistent.exists_composite hdeclaration hinitial hinside

theorem plain_of_initial [DecidableEq ι] (hbuild : Machine.build declarations = .ok m) {t : Transition ι κ ν γ}
    (ht : t ∈ m.table.all) (hkind : t.kind = .initial) : t.trigger = none ∧ t.guard = none := by
  have hclauses := (depicts_of_build hbuild).clauses_eq
  have hmem : t.clause ∈ clauses declarations := hclauses ▸ List.mem_map_of_mem ht
  obtain ⟨declaration, hdeclaration, hclause⟩ := List.mem_filterMap.1 hmem
  have hinitial : t.clause.kind = .initial := hkind
  have hrule : ∀ rule : Rule ι κ ν γ, rule.clause = t.clause → declaration.initialSource? = rule.initialSource? →
      ∃ c, declaration = .composite c := by
    intro rule hclause hsource
    rw [← hclause] at hinitial
    have hfound : declaration.initialSource? = some rule.source := hsource.trans (if_pos hinitial)
    exact exists_composite_of_initialSource? hbuild hdeclaration hfound
  cases declaration with
  | composite c =>
    have heq := Option.some.inj hclause
    exact ⟨congrArg Clause.trigger heq.symm, congrArg Clause.guard heq.symm⟩
  | initial target action =>
    have heq := Option.some.inj hclause
    exact ⟨congrArg Clause.trigger heq.symm, congrArg Clause.guard heq.symm⟩
  | rule rule =>
    obtain ⟨c, hc⟩ := hrule rule (Option.some.inj hclause) rfl
    cases hc
  | sketch sketch =>
    obtain ⟨rule, hsketch, hclause⟩ := Option.map_eq_some_iff.1 hclause
    obtain ⟨c, hc⟩ := hrule rule hclause (by rw [Declaration.initialSource?, hsketch, Option.bind_some])
    cases hc
  | _ => cases hclause

/-- The initial transitions of a machine fit its nesting. -/
structure DefaultsFit (m : Machine ι κ ν γ) : Prop where
  /-- The states with substates are those for which the table holds an initial transition. -/
  isComposite_iff : ∀ key, m.hierarchy.IsComposite key ↔ ∃ t, m.table.initialOf key = some t
  /-- What the table holds for a key is the one initial transition that leaves it. -/
  initialOf_eq_some_iff : ∀ key t, m.table.initialOf key = some t ↔ t ∈ m.table.all ∧ t.StartsFrom key
  initialOf_root : ∃ t, m.table.initialOf .root = some t
  oneInitialEach : OneInitialEach m.table.all
  /-- Initial transitions lead one level down, and wait for nothing. -/
  initial : ∀ t ∈ m.table.all, t.kind = .initial →
    m.hierarchy.parent t.targetKey = some t.sourceKey ∧ t.trigger = none ∧ t.guard = none
  /-- All others join states. -/
  ordinary : ∀ t ∈ m.table.all, t.kind ≠ .initial → t.sourceKey ≠ .root ∧ t.targetKey ≠ .root

theorem Coherent.target_ne_root (hcoherent : m.Coherent) {t : Transition ι κ ν γ} (ht : t ∈ m.table.all) :
    t.targetKey ≠ .root := (Hierarchy.mem_states.1 (hcoherent.target_mem_states ht)).1

/-- **A state has substates exactly if it has a default one.** In every machine that a definition gives, the root and the states with substates have one initial transition each, to a direct substate and without a trigger or a guard, and no other state has one. Ordinary transitions neither leave nor enter the root. -/
theorem defaults_fit_of_build [DecidableEq ι] (hbuild : Machine.build declarations = .ok m) : m.DefaultsFit := by
  have hcoherent := coherent_of_build hbuild
  have hone : OneInitialEach m.table.all := by
    obtain ⟨_, _, _, _, _, rfl⟩ := Draft.build_eq_ok_iff.1 hbuild
    rw [Draft.all_freeze]
    exact (Draft.aligned_ofDeclarations declarations).oneInitialEach
  have hcomposite : ∀ key, m.hierarchy.IsComposite key ↔ ∃ t, m.table.initialOf key = some t := by
    intro key
    rw [← Option.isSome_iff_exists, ← not_iff_not, Option.not_isSome_iff_eq_none]
    exact hcoherent.initialOf_eq_none_iff.symm
  exact {
    isComposite_iff := hcomposite
    initialOf_eq_some_iff := fun key t => by
      refine ⟨hcoherent.of_initialOf, fun ⟨ht, hstarts⟩ => ?_⟩
      rw [hcoherent.initialOf_eq, hone.find?_eq_some ht hstarts]
    initialOf_root := (hcomposite .root).1 (isComposite_root_of_build hbuild)
    oneInitialEach := hone
    initial := fun t ht hkind => ⟨hcoherent.parent_of_initial t ht hkind, plain_of_initial hbuild ht hkind⟩
    ordinary := fun t ht hkind =>
      ⟨fun hroot => hkind (hcoherent.kind_of_root t ht hroot), hcoherent.target_ne_root ht⟩ }

theorem player_defaults_fit : Machine.build Player.declarations = .ok Player.machine ∧ Player.machine.DefaultsFit ∧
    Player.machine.hierarchy.IsComposite ⟨2⟩ ∧ Player.machine.hierarchy.IsLeaf ⟨3⟩ ∧
    (Player.machine.table.initialOf ⟨2⟩).map Transition.target = some .sounding ∧
    (Player.machine.table.initialOf ⟨3⟩).map Transition.target = none :=
  ⟨Player.build_eq, defaults_fit_of_build Player.build_eq, by decide, by decide, rfl, rfl⟩

end Machine

end NestedMachine
