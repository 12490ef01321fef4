import NestedMachine.Proofs.Definition.Declared
import NestedMachine.Definition.Build

/-!
# What every machine keeps to

`Coherent` collects what the states, the nesting and the transitions of a machine have to do with each other: identities and keys correspond, the nesting is a forest, the table finds what was filed, transitions join states of the machine, an initial transition leads exactly one level down, and each state with substates has one. It holds of every machine that a definition gives (`coherent_of_build`), and already of a draft whose only defects are others than stray initial transitions (`coherent_freeze`).
-/

namespace NestedMachine

variable {ι κ ν γ : Type}

/-- States, nesting and transitions fit together. -/
structure Machine.Coherent (m : Machine ι κ ν γ) : Prop where
  nodup : m.ids.Nodup
  length_eq : m.hierarchy.superstates.length = m.states.length
  forest : m.hierarchy.Forest
  leaving_eq : ∀ key, m.table.leaving key = m.table.all.filter fun t => t.LeavesFrom key
  initialOf_eq : ∀ key, m.table.initialOf key = m.table.all.find? fun t => t.StartsFrom key
  contains_source : ∀ t ∈ m.table.all, m.hierarchy.Contains t.sourceKey
  id?_source : ∀ t ∈ m.table.all, m.id? t.sourceKey = t.source
  id?_target : ∀ t ∈ m.table.all, m.id? t.targetKey = some t.target
  kind_of_root : ∀ t ∈ m.table.all, t.sourceKey = .root → t.kind = .initial
  parent_of_initial : ∀ t ∈ m.table.all, t.kind = .initial → m.hierarchy.parent t.targetKey = some t.sourceKey
  default : ∀ key, m.hierarchy.IsComposite key → (m.table.initialOf key).isSome

namespace Machine

variable {m : Machine ι κ ν γ} {key : Key} {id : ι} {t : Transition ι κ ν γ}

/-! ### Keys and identities -/

@[simp] theorem state?_root (m : Machine ι κ ν γ) : m.state? .root = none := rfl

@[simp] theorem state?_ofPosition (m : Machine ι κ ν γ) (position : Nat) :
    m.state? (.ofPosition position) = m.states[position]? := rfl

theorem id?_ofPosition (m : Machine ι κ ν γ) (position : Nat) : m.id? (.ofPosition position) = m.ids[position]? := by
  simp [id?, ids]

theorem id?_eq_of_key? [DecidableEq ι] (hkey : m.key? id = some key) : m.id? key = some id := by
  unfold key? at hkey
  split at hkey
  · next hmem => rw [← Option.some.inj hkey, id?_ofPosition, List.getElem?_idxOf hmem]
  · simp at hkey

theorem key?_eq_some_iff [DecidableEq ι] (hnodup : m.ids.Nodup) : m.key? id = some key ↔ m.id? key = some id := by
  refine ⟨id?_eq_of_key?, fun hid => ?_⟩
  rcases key.eq_root_or_ofPosition with rfl | ⟨position, rfl⟩
  · simp [id?] at hid
  · rw [id?_ofPosition] at hid
    obtain ⟨hposition, hget⟩ := List.getElem?_eq_some_iff.1 hid
    rw [key?, if_pos (hget ▸ List.getElem_mem hposition), ← hget, hnodup.idxOf_getElem]

theorem id?_eq_of_state? {state : State ι κ ν γ} (hstate : m.state? key = some state) : m.id? key = some state.id := by
  rw [id?, hstate, Option.map_some]

theorem mem_ids_of_state? {state : State ι κ ν γ} (hstate : m.state? key = some state) : state.id ∈ m.ids := by
  rcases key.eq_root_or_ofPosition with rfl | ⟨position, rfl⟩
  · simp at hstate
  · exact List.mem_map_of_mem (List.mem_of_getElem? hstate)

theorem exists_state_of_id? (hid : m.id? key = some id) : ∃ state, m.state? key = some state ∧ state.id = id :=
  Option.map_eq_some_iff.1 hid

theorem mem_keyed_iff {state : State ι κ ν γ} : (key, state) ∈ m.keyed ↔ m.state? key = some state := by
  simp only [keyed, List.mem_map, Prod.mk.injEq, Prod.exists]
  constructor
  · rintro ⟨_, position, hmem, rfl, rfl⟩
    exact List.mem_zipIdx_iff_getElem?.1 hmem
  · intro hstate
    rcases key.eq_root_or_ofPosition with rfl | ⟨position, rfl⟩
    · simp at hstate
    · exact ⟨_, position, List.mem_zipIdx_iff_getElem?.2 hstate, rfl, rfl⟩

namespace Coherent

variable (hcoherent : m.Coherent)
include hcoherent

theorem mem_states_iff : key ∈ m.hierarchy.states ↔ ∃ state, m.state? key = some state := by
  rw [← Hierarchy.parent_isSome_iff]
  rcases key.eq_root_or_ofPosition with rfl | ⟨position, rfl⟩
  · simp
  · rw [← Option.isSome_iff_exists, Hierarchy.parent_ofPosition, state?_ofPosition]
    simp [hcoherent.length_eq]

theorem contains_of_state? {state : State ι κ ν γ} (hstate : m.state? key = some state) : m.hierarchy.Contains key :=
  (Hierarchy.mem_states.1 (hcoherent.mem_states_iff.2 ⟨state, hstate⟩)).2

theorem contains_of_id? (hid : m.id? key = some id) : m.hierarchy.Contains key := by
  obtain ⟨state, hstate, _⟩ := exists_state_of_id? hid
  exact hcoherent.contains_of_state? hstate

theorem id?_eq_none_iff (hkey : m.hierarchy.Contains key) : m.id? key = none ↔ key = .root := by
  refine ⟨fun hnone => ?_, fun hroot => hroot ▸ rfl⟩
  by_contra hroot
  obtain ⟨state, hstate⟩ := hcoherent.mem_states_iff.1 (Hierarchy.mem_states.2 ⟨hroot, hkey⟩)
  rw [id?_eq_of_state? hstate] at hnone
  cases hnone

section names

variable [DecidableEq ι]

theorem id?_inj {key' : Key} (hkey : m.hierarchy.Contains key) (hkey' : m.hierarchy.Contains key') :
    m.id? key = m.id? key' ↔ key = key' := by
  refine ⟨fun heq => ?_, congrArg m.id?⟩
  cases hid : m.id? key with
  | none =>
    rw [(hcoherent.id?_eq_none_iff hkey).1 hid, (hcoherent.id?_eq_none_iff hkey').1 (heq ▸ hid)]
  | some id =>
    have hfound := (key?_eq_some_iff hcoherent.nodup).2 hid
    have hfound' := (key?_eq_some_iff hcoherent.nodup).2 (heq ▸ hid)
    exact Option.some.inj (hfound.symm.trans hfound')

/-! What is asked of a state by name is asked of its key. -/

theorem superstate?_of_id? (hid : m.id? key = some id) :
    m.superstate? id = (m.hierarchy.parent key).bind m.id? := by
  rw [superstate?, (key?_eq_some_iff hcoherent.nodup).2 hid, Option.bind_some]

theorem isFinal_of_state? {state : State ι κ ν γ} (hstate : m.state? key = some state) :
    m.isFinal state.id = state.isFinal := by
  rw [isFinal, (key?_eq_some_iff hcoherent.nodup).2 (id?_eq_of_state? hstate), Option.bind_some, hstate, Option.any_some]

theorem superstate?_eq_none_iff (hid : m.id? key = some id) :
    m.superstate? id = none ↔ m.hierarchy.parent key = some .root := by
  obtain ⟨state, hstate, _⟩ := exists_state_of_id? hid
  obtain ⟨hroot, hcontains⟩ := Hierarchy.mem_states.1 (hcoherent.mem_states_iff.2 ⟨state, hstate⟩)
  obtain ⟨superstate, hparent⟩ := Hierarchy.exists_parent hcontains hroot
  rw [hcoherent.superstate?_of_id? hid, hparent, Option.bind_some,
    hcoherent.id?_eq_none_iff (hcoherent.forest.contains_parent hparent), Option.some.injEq]

end names

/-! ### Transitions -/

theorem mem_leaving_iff : t ∈ m.table.leaving key ↔ t ∈ m.table.all ∧ t.LeavesFrom key := by
  rw [hcoherent.leaving_eq]
  simp

theorem of_initialOf (hinitial : m.table.initialOf key = some t) : t ∈ m.table.all ∧ t.StartsFrom key := by
  rw [hcoherent.initialOf_eq] at hinitial
  exact ⟨List.mem_of_find?_eq_some hinitial, by simpa using List.find?_some hinitial⟩

theorem target_mem_states (ht : t ∈ m.table.all) : t.targetKey ∈ m.hierarchy.states := by
  obtain ⟨state, hstate, _⟩ := exists_state_of_id? (hcoherent.id?_target t ht)
  exact hcoherent.mem_states_iff.2 ⟨state, hstate⟩

theorem contains_target (ht : t ∈ m.table.all) : m.hierarchy.Contains t.targetKey :=
  (Hierarchy.mem_states.1 (hcoherent.target_mem_states ht)).2

theorem parent_of_initialOf (hinitial : m.table.initialOf key = some t) :
    m.hierarchy.parent t.targetKey = some key := by
  obtain ⟨ht, hkind, hsource⟩ := hcoherent.of_initialOf hinitial
  rw [hcoherent.parent_of_initial t ht hkind, hsource]

theorem initialOf_eq_none_iff : m.table.initialOf key = none ↔ m.hierarchy.IsLeaf key := by
  rw [Hierarchy.IsLeaf, ← Option.not_isSome_iff_eq_none]
  refine not_congr ⟨fun hsome => ?_, hcoherent.default key⟩
  obtain ⟨t, ht⟩ := Option.isSome_iff_exists.1 hsome
  exact Hierarchy.isComposite_iff.2 ⟨t.targetKey, hcoherent.parent_of_initialOf ht⟩

end Coherent

end Machine

/-! ### Machines from definitions -/

namespace Draft

section freeze

variable {d : Draft ι κ ν γ}

theorem ids_freeze (d : Draft ι κ ν γ) : d.freeze.ids = d.ids := by
  simp [Machine.ids, freeze, ids, Function.comp_def]

theorem id?_freeze (d : Draft ι κ ν γ) (key : Key) : d.freeze.id? key = d.id? key := by
  rcases key.eq_root_or_ofPosition with rfl | ⟨position, rfl⟩
  · rfl
  · rw [Machine.id?_ofPosition, ids_freeze, id?_ofPosition]

theorem all_freeze (d : Draft ι κ ν γ) : d.freeze.table.all = d.transitions := Table.all_ofList _ _

variable [DecidableEq ι] {declarations : List (Declaration ι κ ν γ)}

theorem Aligned.leaving_freeze (haligned : d.Aligned) (key : Key) :
    d.freeze.table.leaving key = d.transitions.filter fun t => t.LeavesFrom key := by
  by_cases hkey : d.hierarchy.Contains key
  · exact Table.leaving_ofList hkey _
  · have hnone : (d.transitions.filter fun t => t.LeavesFrom key) = [] := by
      rw [List.filter_eq_nil_iff]
      intro t ht hleaves
      have hsource : t.sourceKey = key := (of_decide_eq_true hleaves).2
      rw [(haligned.names t ht).sourceKey_eq] at hsource
      exact hkey (hsource ▸ haligned.contains_placeOf (haligned.names t ht).source_mem)
    rw [hnone]
    exact Table.leaving_ofList_of_le (Nat.le_of_not_lt hkey) _

theorem Aligned.initialOf_freeze (haligned : d.Aligned) (key : Key) :
    d.freeze.table.initialOf key = d.transitions.find? fun t => t.StartsFrom key := by
  by_cases hkey : d.hierarchy.Contains key
  · exact Table.initialOf_ofList hkey haligned.oneInitialEach
  · have hnone : (d.transitions.find? fun t => t.StartsFrom key) = none := by
      rw [List.find?_eq_none]
      intro t ht hstarts
      have hsource : t.sourceKey = key := (of_decide_eq_true hstarts).2
      rw [(haligned.names t ht).sourceKey_eq] at hsource
      exact hkey (hsource ▸ haligned.contains_placeOf (haligned.names t ht).source_mem)
    rw [hnone]
    exact Table.initialOf_ofList_of_le (Nat.le_of_not_lt hkey) _

theorem Aligned.id?_placeOf (haligned : d.Aligned) {t : Transition ι κ ν γ} (ht : t ∈ d.transitions) :
    d.id? t.sourceKey = t.source := by
  rw [(haligned.names t ht).sourceKey_eq]
  cases hsource : t.source with
  | none => rfl
  | some id => exact id?_keyOf ((haligned.names t ht).source_mem id hsource)

theorem exists_initial_of_parent (hrefused : (ofDeclarations declarations).refused = none)
    {child : Key} {superstate : ι} (hparent : (ofDeclarations declarations).hierarchy.parent child =
      some ((ofDeclarations declarations).keyOf superstate))
    (hsuperstate : superstate ∈ (ofDeclarations declarations).ids) :
    ∃ t ∈ (ofDeclarations declarations).transitions, t.StartsFrom ((ofDeclarations declarations).keyOf superstate) := by
  have haligned := aligned_ofDeclarations declarations
  have hreflects := reflects_ofDeclarations hrefused
  obtain ⟨source, hsource, rfl, _⟩ := haligned.exists_placeOf (Hierarchy.contains_of_parent hparent)
  obtain ⟨id, rfl⟩ : ∃ id, source = some id := by
    cases source with
    | none => simp [placeOf] at hparent
    | some id => exact ⟨id, rfl⟩
  have hnests := (hreflects.superstate?_eq_some_iff id superstate).1
    ((haligned.superstate?_eq_some_iff hsuperstate).2 hparent)
  obtain ⟨declaration, hdeclaration, c, rfl, rfl, _⟩ := hnests
  have hlink : ⟨⟨some c.superstate, c.default⟩, .initial⟩ ∈ Definition.links declarations :=
    List.mem_filterMap.2 ⟨_, hdeclaration, rfl⟩
  rw [← hreflects.links_eq] at hlink
  obtain ⟨t, ht, hlink⟩ := List.mem_map.1 hlink
  obtain ⟨hedge, hkind⟩ := Link.mk.inj hlink
  refine ⟨t, ht, hkind, ?_⟩
  rw [(haligned.names t ht).sourceKey_eq, show t.source = some c.superstate from congrArg Edge.source hedge]
  rfl

omit [DecidableEq ι] in
theorem topInitial_eq_some {t : Transition ι κ ν γ} (hinitial : d.topInitial = some t) :
    t ∈ d.transitions ∧ t.StartsFrom .root :=
  ⟨List.mem_of_find?_eq_some hinitial, by simpa [Transition.StartsFrom] using List.find?_some hinitial⟩

theorem coherent_freeze {initial : Transition ι κ ν γ} (hrefused : (ofDeclarations declarations).refused = none)
    (hinitial : (ofDeclarations declarations).topInitial = some initial)
    (hstray : (ofDeclarations declarations).freeze.strayInitials = []) :
    (ofDeclarations declarations).freeze.Coherent := by
  have haligned := aligned_ofDeclarations declarations
  generalize hd : ofDeclarations declarations = d at *
  exact {
    nodup := d.ids_freeze ▸ haligned.nodup
    length_eq := by
      have hlength := haligned.length_eq
      simpa [freeze, ids] using hlength
    forest := haligned.forest
    leaving_eq := fun key => by rw [haligned.leaving_freeze, all_freeze]
    initialOf_eq := fun key => by rw [haligned.initialOf_freeze, all_freeze]
    contains_source := fun t ht => by
      rw [all_freeze] at ht
      rw [(haligned.names t ht).sourceKey_eq]
      exact haligned.contains_placeOf (haligned.names t ht).source_mem
    id?_source := fun t ht => by
      rw [all_freeze] at ht
      rw [id?_freeze, haligned.id?_placeOf ht]
    id?_target := fun t ht => by
      rw [all_freeze] at ht
      rw [id?_freeze, (haligned.names t ht).targetKey_eq, id?_keyOf (haligned.names t ht).target_mem]
    kind_of_root := fun t ht hroot => by
      rw [all_freeze] at ht
      have hsource := haligned.id?_placeOf ht
      rw [hroot] at hsource
      exact (haligned.names t ht).kind_eq hsource.symm
    parent_of_initial := fun t ht hkind => by
      by_contra hparent
      have hmem : .strayInitial t.edge ∈ d.freeze.strayInitials :=
        List.mem_map.2 ⟨t, List.mem_filter.2 ⟨ht, by simp [hkind, hparent]⟩, rfl⟩
      simp [hstray] at hmem
    default := fun key hcomposite => by
      rw [haligned.initialOf_freeze, List.find?_isSome]
      obtain ⟨child, hparent⟩ := Hierarchy.isComposite_iff.1 hcomposite
      obtain ⟨source, hsource, rfl, _⟩ := haligned.exists_placeOf (haligned.forest.contains_parent hparent)
      cases source with
      | none => exact ⟨initial, (topInitial_eq_some hinitial).1, decide_eq_true (topInitial_eq_some hinitial).2⟩
      | some superstate =>
        subst hd
        obtain ⟨t, ht, hstarts⟩ := exists_initial_of_parent hrefused hparent (hsource superstate rfl)
        exact ⟨t, ht, decide_eq_true hstarts⟩ }

theorem build_eq_of_topInitial {t : Transition ι κ ν γ} (hrefused : d.refused = none)
    (hinitial : d.topInitial = some t) (hsuperstate : d.superstate? t.target = none) :
    d.build = if d.freeze.defects t.targetKey = [] then .ok d.freeze
      else .error (.defective (d.freeze.defects t.targetKey)) := by
  unfold build
  rw [hrefused, hinitial]
  simp only [hsuperstate]
  cases d.freeze.defects t.targetKey with
  | nil => rfl
  | cons defect rest => rw [if_neg (List.cons_ne_nil _ _)]

theorem reports_iff {t : Transition ι κ ν γ} {defect : Defect ι} (hrefused : d.refused = none)
    (hinitial : d.topInitial = some t) (hsuperstate : d.superstate? t.target = none) :
    (∃ defects, d.build = .error (.defective defects) ∧ defect ∈ defects) ↔ defect ∈ d.freeze.defects t.targetKey := by
  rw [build_eq_of_topInitial hrefused hinitial hsuperstate]
  by_cases hnil : d.freeze.defects t.targetKey = []
  · simp [hnil]
  · simp [hnil]

theorem build_eq_ok_iff {m : Machine ι κ ν γ} : d.build = .ok m ↔
    d.refused = none ∧ ∃ t, d.topInitial = some t ∧ d.superstate? t.target = none ∧
      d.freeze.defects t.targetKey = [] ∧ m = d.freeze := by
  unfold build
  cases hrefused : d.refused with
  | some error => simp
  | none =>
    cases hinitial : d.topInitial with
    | none => simp
    | some t =>
      cases hsuperstate : d.superstate? t.target with
      | some superstate => simp [hsuperstate]
      | none =>
        cases hdefects : d.freeze.defects t.targetKey with
        | nil =>
          simp only [hdefects, Option.some.injEq, exists_eq_left', hsuperstate, true_and, Except.ok.injEq]
          exact eq_comm
        | cons defect rest => simp [hsuperstate, hdefects]

end freeze

end Draft

/-- **Every machine that a definition gives fits together.** -/
theorem Machine.coherent_of_build [DecidableEq ι] {declarations : List (Declaration ι κ ν γ)} {m : Machine ι κ ν γ}
    (hbuild : Machine.build declarations = .ok m) : m.Coherent := by
  obtain ⟨hrefused, t, hinitial, _, hdefects, rfl⟩ := Draft.build_eq_ok_iff.1 hbuild
  refine Draft.coherent_freeze hrefused hinitial ?_
  simp only [Machine.defects, List.append_eq_nil_iff] at hdefects
  exact hdefects.1.1.2

theorem Machine.isComposite_root_of_build [DecidableEq ι] {declarations : List (Declaration ι κ ν γ)}
    {m : Machine ι κ ν γ} (hbuild : Machine.build declarations = .ok m) : m.hierarchy.IsComposite .root := by
  have hcoherent := Machine.coherent_of_build hbuild
  obtain ⟨_, t, hinitial, _, _, rfl⟩ := Draft.build_eq_ok_iff.1 hbuild
  obtain ⟨ht, hkind, hsource⟩ := Draft.topInitial_eq_some hinitial
  have hparent := hcoherent.parent_of_initial t ((Draft.all_freeze _).symm ▸ ht) hkind
  rw [hsource] at hparent
  exact Hierarchy.isComposite_iff.2 ⟨t.targetKey, hparent⟩

namespace Player

def machine : Machine Mode Button Unit Unit := (Draft.ofDeclarations declarations).freeze

theorem build_eq : Machine.build declarations = .ok machine := rfl

end Player

end NestedMachine
