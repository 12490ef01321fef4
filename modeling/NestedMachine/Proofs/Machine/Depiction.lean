import NestedMachine.Proofs.Definition.Admission

/-!
# A machine as its declarations describe it

Everything that can be asked of a machine by the names of its states is answered by its declarations: `Depicts` has one condition for each question. Keys, and the order in which a machine keeps its states and transitions, play no part in the answers. Consistent declarations give a machine exactly if they name an initial state at the top level and have no defects (`build_eq_ok_iff_consistent`), and that machine is as they describe it (`depicts_of_build`).
-/

namespace NestedMachine

variable {ι κ ν γ : Type} [DecidableEq ι]

namespace Machine

def behavior? (m : Machine ι κ ν γ) (id : ι) : Option (Behavior ι κ ν γ) :=
  ((m.key? id).bind m.state?).map State.behavior

/-- The initial transition of a state, or that of the root, without its keys. -/
def initialClause? (m : Machine ι κ ν γ) (source : Option ι) : Option (Clause ι κ ν γ) :=
  ((source.elim (some .root) m.key?).bind m.table.initialOf).map Transition.clause

/-- The machine is what the declarations say. -/
structure Depicts (m : Machine ι κ ν γ) (declarations : List (Declaration ι κ ν γ)) : Prop where
  ids_eq : m.ids = Definition.states declarations
  superstate?_eq_some_iff : ∀ id superstate,
    m.superstate? id = some superstate ↔ Definition.Nests declarations superstate id
  isFinal_iff : ∀ id, m.isFinal id = true ↔ Definition.IsFinal declarations id
  behavior?_eq_some_iff : ∀ id behavior, m.behavior? id = some behavior ↔
    id ∈ Definition.states declarations ∧ ((id, behavior) ∈ Definition.behaviors declarations ∨
      (∀ other, (id, other) ∉ Definition.behaviors declarations) ∧ behavior = .passive)
  initialClause?_eq_some_iff : ∀ source clause, m.initialClause? source = some clause ↔
    clause ∈ Definition.clauses declarations ∧ clause.kind = .initial ∧ clause.edge.source = source
  clauses_eq : m.table.all.map Transition.clause = Definition.clauses declarations
  limit_eq : m.limit = Definition.limit declarations
  resolver_eq : m.resolver = Definition.resolver declarations

end Machine

namespace Draft

variable {d : Draft ι κ ν γ} {declarations : List (Declaration ι κ ν γ)} {id : ι}

/-! ### What a draft freezes to -/

theorem key?_freeze_of_mem (hid : id ∈ d.ids) : d.freeze.key? id = some (d.keyOf id) := by
  rw [Machine.key?, ids_freeze, if_pos hid]
  rfl

theorem key?_freeze_of_not_mem (hid : id ∉ d.ids) : d.freeze.key? id = none := by
  rw [Machine.key?, ids_freeze, if_neg hid]

theorem Aligned.state?_freeze (haligned : d.Aligned) {s : DraftState ι κ ν γ} (hs : s ∈ d.states) :
    d.freeze.state? (d.keyOf s.id) = some ⟨s.id, s.behavior.getD .passive, s.isFinal⟩ := by
  obtain ⟨position, hposition, rfl⟩ := List.getElem_of_mem hs
  have hlt : position < d.ids.length := by simpa [ids] using hposition
  have hindex : d.ids.idxOf d.states[position].id = position := by
    have hget := haligned.nodup.idxOf_getElem position hlt
    simpa [ids] using hget
  rw [keyOf, hindex, Machine.state?_ofPosition]
  simp [freeze, hposition]

theorem Aligned.eq_of_id_eq (haligned : d.Aligned) {s other : DraftState ι κ ν γ} (hs : s ∈ d.states)
    (hother : other ∈ d.states) (hid : s.id = other.id) : s = other :=
  List.inj_on_of_nodup_map haligned.nodup hs hother hid

theorem Aligned.superstate?_freeze (haligned : d.Aligned) (id : ι) : d.freeze.superstate? id = d.superstate? id := by
  by_cases hid : id ∈ d.ids
  · have hlookup : d.freeze.id? = d.id? := funext d.id?_freeze
    rw [Machine.superstate?, key?_freeze_of_mem hid, hlookup]
    rfl
  · rw [Machine.superstate?, key?_freeze_of_not_mem hid, haligned.superstate?_of_not_mem hid]
    rfl

theorem Aligned.isFinal_freeze (haligned : d.Aligned) (id : ι) : d.freeze.isFinal id = true ↔ d.IsFinal id := by
  by_cases hid : id ∈ d.ids
  · obtain ⟨s, hs, rfl⟩ := List.mem_map.1 hid
    rw [Machine.isFinal, key?_freeze_of_mem hid, Option.bind_some, haligned.state?_freeze hs]
    constructor
    · intro hfinal
      exact ⟨s, hs, rfl, hfinal⟩
    · rintro ⟨other, hother, heq, hfinal⟩
      rwa [haligned.eq_of_id_eq hother hs heq] at hfinal
  · rw [Machine.isFinal, key?_freeze_of_not_mem hid]
    refine iff_of_false (by simp) ?_
    rintro ⟨s, hs, rfl, _⟩
    exact hid (List.mem_map_of_mem hs)

theorem Aligned.behavior?_freeze (haligned : d.Aligned) (id : ι) (behavior : Behavior ι κ ν γ) :
    d.freeze.behavior? id = some behavior ↔
      id ∈ d.ids ∧ (d.Behaves id behavior ∨ (∀ other, ¬ d.Behaves id other) ∧ behavior = .passive) := by
  by_cases hid : id ∈ d.ids
  · obtain ⟨s, hs, rfl⟩ := List.mem_map.1 hid
    have hbehaves : ∀ other, d.Behaves s.id other ↔ s.behavior = some other := by
      intro other
      constructor
      · rintro ⟨s', hs', heq, hbehavior⟩
        rwa [haligned.eq_of_id_eq hs' hs heq] at hbehavior
      · intro hbehavior
        exact ⟨s, hs, rfl, hbehavior⟩
    rw [Machine.behavior?, key?_freeze_of_mem hid, Option.bind_some, haligned.state?_freeze hs]
    cases hbehavior : s.behavior <;> simp [hbehaves, hbehavior, hid, eq_comm]
  · rw [Machine.behavior?, key?_freeze_of_not_mem hid]
    simp [hid]

theorem Aligned.initialClause?_freeze (haligned : d.Aligned) (source : Option ι) (clause : Clause ι κ ν γ) :
    d.freeze.initialClause? source = some clause ↔
      clause ∈ d.transitions.map Transition.clause ∧ clause.kind = .initial ∧ clause.edge.source = source := by
  have hstarts : ∀ t ∈ d.transitions, t.StartsFrom (d.placeOf source) ↔ t.kind = .initial ∧ t.source = source := by
    intro t ht
    rw [Transition.StartsFrom, (haligned.names t ht).sourceKey_eq, placeOf_inj (haligned.names t ht).source_mem]
  have hfound : (d.freeze.table.initialOf (d.placeOf source)).map Transition.clause = some clause ↔
      clause ∈ d.transitions.map Transition.clause ∧ clause.kind = .initial ∧ clause.edge.source = source := by
    rw [haligned.initialOf_freeze, Option.map_eq_some_iff, List.mem_map]
    constructor
    · rintro ⟨t, hfind, rfl⟩
      have ht := List.mem_of_find?_eq_some hfind
      exact ⟨⟨t, ht, rfl⟩, (hstarts t ht).1 (by simpa using List.find?_some hfind)⟩
    · rintro ⟨⟨t, ht, rfl⟩, hinitial⟩
      exact ⟨t, haligned.oneInitialEach.find?_eq_some ht ((hstarts t ht).2 hinitial), rfl⟩
  cases source with
  | none => exact hfound
  | some id =>
    by_cases hid : id ∈ d.ids
    · rw [Machine.initialClause?, Option.elim_some, key?_freeze_of_mem hid]
      exact hfound
    · rw [Machine.initialClause?, Option.elim_some, key?_freeze_of_not_mem hid]
      refine iff_of_false (by simp) ?_
      rintro ⟨hclause, _, hsource⟩
      obtain ⟨t, ht, rfl⟩ := List.mem_map.1 hclause
      exact hid ((haligned.names t ht).source_mem id hsource)

theorem Aligned.isComposite_freeze (haligned : d.Aligned) (hnested : d.NestsAs declarations) (id : ι) :
    d.freeze.isComposite id = true ↔ Definition.IsComposite declarations id := by
  by_cases hid : id ∈ d.ids
  · rw [Machine.isComposite, key?_freeze_of_mem hid, Option.any_some, decide_eq_true_iff]
    exact isComposite_keyOf_iff haligned hnested hid
  · rw [Machine.isComposite, key?_freeze_of_not_mem hid]
    refine iff_of_false (by simp) ?_
    rintro ⟨substate, hnests⟩
    exact hid (mem_of_nests haligned hnested hnests).1

theorem depicts_freeze (hrefused : (ofDeclarations declarations).refused = none) :
    (ofDeclarations declarations).freeze.Depicts declarations := by
  have haligned := aligned_ofDeclarations declarations
  have hreflects := reflects_ofDeclarations hrefused
  have hsettings := settings_ofDeclarations hrefused
  exact {
    ids_eq := by rw [ids_freeze, hreflects.ids_eq]
    superstate?_eq_some_iff := fun id superstate => by
      rw [haligned.superstate?_freeze, hreflects.superstate?_eq_some_iff]
    isFinal_iff := fun id => by rw [haligned.isFinal_freeze, hreflects.isFinal_iff]
    behavior?_eq_some_iff := fun id behavior => by
      simp only [haligned.behavior?_freeze, hreflects.ids_eq, behaves_ofDeclarations_iff hrefused]
    initialClause?_eq_some_iff := fun source clause => by
      rw [haligned.initialClause?_freeze, clauses_ofDeclarations hrefused]
    clauses_eq := by rw [all_freeze, clauses_ofDeclarations hrefused]
    limit_eq := hsettings.1
    resolver_eq := hsettings.2 }

end Draft

namespace Machine

open Definition

variable {m : Machine ι κ ν γ} {declarations : List (Declaration ι κ ν γ)}

/-- **What it takes for declarations to give a machine**, and which machine it is. -/
theorem build_eq_ok_iff_consistent : Machine.build declarations = .ok m ↔
    Consistent declarations ∧ m = (Draft.ofDeclarations declarations).freeze ∧
      ∃ target ∈ initialTargets declarations, (∀ superstate, ¬ Nests declarations superstate target) ∧
        Definition.defects declarations target = [] := by
  rw [← Draft.refused_ofDeclarations_iff, Machine.build, Draft.build_eq_ok_iff]
  refine and_congr_right fun hrefused => ?_
  have haligned := Draft.aligned_ofDeclarations declarations
  have hreflects := Draft.reflects_ofDeclarations hrefused
  have hnested : ∀ id, (Draft.ofDeclarations declarations).superstate? id = none ↔
      ∀ superstate, ¬ Nests declarations superstate id := by
    intro id
    simp only [Option.eq_none_iff_forall_ne_some, ne_eq, hreflects.superstate?_eq_some_iff]
  constructor
  · rintro ⟨t, hinitial, hsuperstate, hdefects, rfl⟩
    have hlink := Draft.mem_links_of_topInitial haligned hreflects hinitial
    have hnames := haligned.names t (Draft.topInitial_eq_some hinitial).1
    rw [hnames.targetKey_eq, Draft.defects_freeze haligned hreflects hnames.target_mem] at hdefects
    exact ⟨rfl, t.target, mem_initialTargets_iff.2 hlink, (hnested t.target).1 hsuperstate, hdefects⟩
  · rintro ⟨rfl, target, htarget, hsuperstate, hdefects⟩
    obtain ⟨t, hinitial, rfl, hkey, hmem⟩ :=
      Draft.topInitial_of_mem haligned hreflects (mem_initialTargets_iff.1 htarget)
    rw [← Draft.defects_freeze haligned hreflects hmem, ← hkey] at hdefects
    exact ⟨t, hinitial, (hnested t.target).2 hsuperstate, hdefects, rfl⟩

theorem depicts_of_build (hbuild : Machine.build declarations = .ok m) : m.Depicts declarations := by
  obtain ⟨hconsistent, rfl, _⟩ := build_eq_ok_iff_consistent.1 hbuild
  exact Draft.depicts_freeze (Draft.refused_ofDeclarations_iff.2 hconsistent)

theorem isComposite_iff_of_build (hbuild : Machine.build declarations = .ok m) (id : ι) :
    m.isComposite id = true ↔ Definition.IsComposite declarations id := by
  obtain ⟨hconsistent, rfl, _⟩ := build_eq_ok_iff_consistent.1 hbuild
  have hreflects := Draft.reflects_ofDeclarations (Draft.refused_ofDeclarations_iff.2 hconsistent)
  exact (Draft.aligned_ofDeclarations declarations).isComposite_freeze hreflects.superstate?_eq_some_iff id

theorem Depicts.links_eq (hdepicts : m.Depicts declarations) :
    m.table.all.map Transition.link = links declarations := by
  rw [links_eq_map_clauses, ← hdepicts.clauses_eq, List.map_map]
  rfl

theorem Depicts.initialState_eq_some_iff (hdepicts : m.Depicts declarations) {target : ι} :
    m.initialState = some target ↔ ⟨⟨none, target⟩, .initial⟩ ∈ links declarations := by
  have hstate : m.initialState = (m.initialClause? none).map fun clause => clause.edge.target := by
    rw [initialClause?, Option.map_map]
    rfl
  simp only [hstate, Option.map_eq_some_iff, hdepicts.initialClause?_eq_some_iff, links_eq_map_clauses, List.mem_map]
  constructor
  · rintro ⟨⟨⟨⟨source, target⟩, kind⟩, trigger, guard, action⟩, ⟨hclause, rfl, rfl⟩, rfl⟩
    exact ⟨_, hclause, rfl⟩
  · rintro ⟨clause, hclause, hlink⟩
    exact ⟨clause, ⟨hclause, congrArg Link.kind hlink, congrArg (fun link => link.edge.source) hlink⟩,
      congrArg (fun link => link.edge.target) hlink⟩

theorem limit_pos_of_build (hbuild : Machine.build declarations = .ok m) : 0 < m.limit := by
  obtain ⟨hconsistent, _⟩ := build_eq_ok_iff_consistent.1 hbuild
  rw [(depicts_of_build hbuild).limit_eq, Definition.limit]
  cases hlast : (Definition.limits declarations).getLast? with
  | none => decide
  | some limit =>
    refine Nat.pos_of_ne_zero fun hzero => hconsistent.limits_ne_zero ?_
    exact hzero ▸ List.mem_of_getLast? hlast

end Machine

end NestedMachine
