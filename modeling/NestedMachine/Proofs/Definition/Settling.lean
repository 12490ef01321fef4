import NestedMachine.Proofs.Definition.Search
import NestedMachine.Proofs.Machine.Cascade

/-!
# Reported as unreachable, and never settled in

The search for unreachable states moves one level down at a time and treats a composite state like any other, whereas a machine only ever rests in leaves. `Settles` is the set of leaves in which firings settle: the leaf below the initial state, and with each leaf the leaf below the target of each transition that leaves it or a state that contains it. The two agree on leaves (`Coherent.reach_iff_settles`): a move from a state can be made from the leaf below it, which lies inside that state, and the way down to a leaf is made of moves. So a leaf is reported exactly if no sequence of firings settles in it.
-/

namespace NestedMachine

variable {ι κ ν γ : Type}

namespace Machine

variable {m : Machine ι κ ν γ} {start key leaf : Key}

/-- Some sequence of firings settles in this leaf, with triggers and guards left aside. -/
inductive Settles (m : Machine ι κ ν γ) (start : Key) : Key → Prop where
  | start : Settles m start (m.restingKey start)
  | fire {leaf : Key} {t : Transition ι κ ν γ} (hleaf : Settles m start leaf) (ht : t ∈ m.table.all)
      (hkind : t.kind ≠ .initial) (hsource : t.sourceKey ∈ m.hierarchy.chain leaf) :
      Settles m start (m.restingKey t.targetKey)

theorem mem_moves_of_initialOf {t : Transition ι κ ν γ} (hinitial : m.table.initialOf key = some t) :
    t.targetKey ∈ m.moves key :=
  mem_moves_iff.2 (.inl ⟨t, hinitial, rfl⟩)

theorem Descends.reach {hops : List (Transition ι κ ν γ)} (hdescends : m.Descends key hops leaf)
    (hreach : Reach m.moves start key) : Reach m.moves start leaf := by
  induction hdescends with
  | stop _ => exact hreach
  | hop hinitial _ ih => exact ih (hreach.tail (mem_moves_of_initialOf hinitial))

namespace Coherent

variable (hcoherent : m.Coherent)
include hcoherent

theorem contains_of_reach (hstart : m.hierarchy.Contains start) (hreach : Reach m.moves start key) :
    m.hierarchy.Contains key := by
  cases hreach with
  | refl => exact hstart
  | tail _ hmove =>
    obtain ⟨t, ht, rfl⟩ := exists_target_of_mem_moves hmove
    exact hcoherent.contains_target ht

theorem reach_of_settles (hstart : m.hierarchy.Contains start) (hsettles : m.Settles start leaf) :
    Reach m.moves start leaf := by
  induction hsettles with
  | start => exact (hcoherent.descends hstart).reach .refl
  | @fire leaf t _ ht hkind hsource ih =>
    have hleaving : t ∈ m.table.leaving t.sourceKey := hcoherent.mem_leaving_iff.2 ⟨ht, hkind, rfl⟩
    have hmove : t.targetKey ∈ m.moves leaf := mem_moves_iff.2 (.inr ⟨_, hsource, t, hleaving, rfl⟩)
    exact (hcoherent.descends (hcoherent.contains_target ht)).reach (ih.tail hmove)

theorem settles_of_reach (hstart : m.hierarchy.Contains start) (hreach : Reach m.moves start key) :
    m.Settles start (m.restingKey key) := by
  induction hreach with
  | refl => exact .start
  | @tail key target hreach hmove ih =>
    rcases mem_moves_iff.1 hmove with ⟨t, hinitial, rfl⟩ | ⟨active, hactive, t, ht, rfl⟩
    · rw [← hcoherent.restingKey_of_initialOf hinitial]
      exact ih
    · obtain ⟨hmem, hkind, rfl⟩ := hcoherent.mem_leaving_iff.1 ht
      have hinside := (hcoherent.descends (hcoherent.contains_of_reach hstart hreach)).mem_chain hcoherent
      exact ih.fire hmem hkind (hcoherent.forest.mem_chain_trans hactive hinside)

theorem reach_iff_settles (hstart : m.hierarchy.Contains start) (hleaf : m.hierarchy.IsLeaf key) :
    Reach m.moves start key ↔ m.Settles start key := by
  refine ⟨fun hreach => ?_, hcoherent.reach_of_settles hstart⟩
  have hsettles := hcoherent.settles_of_reach hstart hreach
  rwa [hcoherent.restingKey_of_isLeaf (hcoherent.contains_of_reach hstart hreach) hleaf] at hsettles

end Coherent

/-! ### What is reported -/

theorem unreachable_mem_defects_iff {id : ι} : .unreachable id ∈ m.defects start ↔
    ∃ key, m.id? key = some id ∧ m.hierarchy.IsLeaf key ∧ ¬ Reach m.moves start key := by
  have hother : .unreachable id ∈ m.defects start ↔ .unreachable id ∈ m.unreachables start := by
    simp only [defects, List.mem_append, unrelatedLocals, strayInitials, misusedFinals, finalDefects, List.mem_map,
      List.mem_flatMap]
    refine or_iff_right ?_
    rintro ((⟨t, _, h⟩ | ⟨t, _, h⟩) | ⟨⟨key, state⟩, _, h⟩)
    · cases h
    · cases h
    · rcases h with h | h
      · split at h <;> simp at h
      · split at h <;> simp at h
  rw [hother]
  simp only [unreachables, List.mem_map, List.mem_filter, decide_eq_true_eq, mem_reachable_iff, Prod.exists,
    mem_keyed_iff]
  constructor
  · rintro ⟨key, state, ⟨hstate, hleaf, hreach⟩, hid⟩
    obtain rfl : state.id = id := Defect.unreachable.inj hid
    exact ⟨key, id?_eq_of_state? hstate, hleaf, hreach⟩
  · rintro ⟨key, hid, hleaf, hreach⟩
    obtain ⟨state, hstate, rfl⟩ := exists_state_of_id? hid
    exact ⟨key, state, ⟨hstate, hleaf, hreach⟩, rfl⟩

/-- **A leaf is reported as unreachable exactly if no sequence of firings settles in it**, where nothing was refused, the initial state is at the top level and no initial transition is stray. A machine is accepted only if firings settle in every leaf. -/
theorem reported_unreachable_iff [DecidableEq ι] {declarations : List (Declaration ι κ ν γ)}
    {initial : Transition ι κ ν γ} (hrefused : (Draft.ofDeclarations declarations).refused = none)
    (hinitial : (Draft.ofDeclarations declarations).topInitial = some initial)
    (hsuperstate : (Draft.ofDeclarations declarations).superstate? initial.target = none)
    (hstray : (Draft.ofDeclarations declarations).freeze.strayInitials = []) :
    (∀ key id, (Draft.ofDeclarations declarations).freeze.hierarchy.IsLeaf key →
        (Draft.ofDeclarations declarations).freeze.id? key = some id →
        ((∃ defects, Machine.build declarations = .error (.defective defects) ∧ .unreachable id ∈ defects) ↔
          ¬ (Draft.ofDeclarations declarations).freeze.Settles initial.targetKey key)) ∧
      ∀ m, Machine.build declarations = .ok m →
        ∀ key ∈ m.hierarchy.states, m.hierarchy.IsLeaf key → m.Settles initial.targetKey key := by
  have hcoherent := Draft.coherent_freeze hrefused hinitial hstray
  have hreported : ∀ id, (∃ defects, Machine.build declarations = .error (.defective defects) ∧
      .unreachable id ∈ defects) ↔ .unreachable id ∈ (Draft.ofDeclarations declarations).freeze.defects
        initial.targetKey := fun _ => Draft.reports_iff hrefused hinitial hsuperstate
  have htarget : (Draft.ofDeclarations declarations).freeze.hierarchy.Contains initial.targetKey := by
    refine hcoherent.contains_target ?_
    rw [Draft.all_freeze]
    exact (Draft.topInitial_eq_some hinitial).1
  generalize hm : (Draft.ofDeclarations declarations).freeze = m at *
  have hiff : ∀ key id, m.hierarchy.IsLeaf key → m.id? key = some id →
      (.unreachable id ∈ m.defects initial.targetKey ↔ ¬ m.Settles initial.targetKey key) := by
    intro key id hleaf hid
    rw [unreachable_mem_defects_iff, ← hcoherent.reach_iff_settles htarget hleaf]
    constructor
    · rintro ⟨other, hother, _, hreach⟩
      have hsame := ((key?_eq_some_iff hcoherent.nodup).2 hother).symm.trans ((key?_eq_some_iff hcoherent.nodup).2 hid)
      exact Option.some.inj hsame ▸ hreach
    · exact fun hreach => ⟨key, hid, hleaf, hreach⟩
  refine ⟨fun key id hleaf hid => (hreported id).trans (hiff key id hleaf hid), ?_⟩
  intro accepted haccepted key hkey hleaf
  obtain rfl : accepted = m := by
    obtain ⟨_, _, _, _, _, rfl⟩ := Draft.build_eq_ok_iff.1 haccepted
    exact hm
  obtain ⟨state, hstate⟩ := hcoherent.mem_states_iff.1 hkey
  by_contra hsettles
  obtain ⟨defects, herror, _⟩ := (hreported _).2 ((hiff key state.id hleaf (id?_eq_of_state? hstate)).2 hsettles)
  rw [haccepted] at herror
  cases herror

theorem player_reported_unreachable :
    Machine.build Player.unfinished = .error (.defective [.unreachable .paused, .unreachable .ended]) ∧
      (Draft.ofDeclarations Player.unfinished).freeze.hierarchy.IsLeaf ⟨4⟩ ∧
      (Draft.ofDeclarations Player.unfinished).freeze.id? ⟨4⟩ = some .paused ∧
      ¬ (Draft.ofDeclarations Player.unfinished).freeze.Settles ⟨1⟩ ⟨4⟩ := by
  have hbuild : Machine.build Player.unfinished =
      .error (.defective [.unreachable .paused, .unreachable .ended]) := rfl
  have hleaf : (Draft.ofDeclarations Player.unfinished).freeze.hierarchy.IsLeaf ⟨4⟩ := by decide
  have hinitial : (Draft.ofDeclarations Player.unfinished).topInitial =
      some { source := none, target := .stopped, sourceKey := .root, targetKey := ⟨1⟩, kind := .initial } := rfl
  refine ⟨hbuild, hleaf, rfl, ?_⟩
  exact ((reported_unreachable_iff rfl hinitial rfl rfl).1 ⟨4⟩ .paused hleaf rfl).1 ⟨_, hbuild, List.mem_cons_self⟩

end Machine

end NestedMachine
