import NestedMachine.Proofs.Machine.Coherence
import NestedMachine.Run.Firing

/-!
# The way down to a leaf

`Descends` is the way down as a relation: initial transitions followed one after another, for as long as there is one. In a coherent machine each of them leads to a direct substate, so the way down is never longer than the hierarchy is deep, and the bound of `defaults` is not what ends it (`Coherent.descends`). It ends in a leaf, which is the state where it began or lies inside that state.
-/

namespace NestedMachine.Machine

variable {ι κ ν γ : Type} {m : Machine ι κ ν γ} {key leaf : Key} {hops : List (Transition ι κ ν γ)}

/-- The initial transitions that follow one another from `key` are `hops`, and they end in `leaf`, which has none. -/
inductive Descends (m : Machine ι κ ν γ) : Key → List (Transition ι κ ν γ) → Key → Prop where
  | stop {key : Key} (hnone : m.table.initialOf key = none) : Descends m key [] key
  | hop {key leaf : Key} {t : Transition ι κ ν γ} {rest : List (Transition ι κ ν γ)}
      (hinitial : m.table.initialOf key = some t) (hrest : Descends m t.targetKey rest leaf) :
      Descends m key (t :: rest) leaf

namespace Descends

theorem initialOf_eq_none (hdescends : m.Descends key hops leaf) : m.table.initialOf leaf = none := by
  induction hdescends with
  | stop hnone => exact hnone
  | hop _ _ ih => exact ih

theorem unique {hops' : List (Transition ι κ ν γ)} {leaf' : Key} (hdescends : m.Descends key hops leaf)
    (hother : m.Descends key hops' leaf') : hops = hops' ∧ leaf = leaf' := by
  induction hdescends generalizing hops' leaf' with
  | stop hnone =>
    cases hother with
    | stop _ => exact ⟨rfl, rfl⟩
    | hop hinitial _ => simp [hnone] at hinitial
  | hop hinitial _ ih =>
    cases hother with
    | stop hnone => simp [hnone] at hinitial
    | hop hinitial' hrest' =>
      obtain rfl := Option.some.inj (hinitial.symm.trans hinitial')
      obtain ⟨rfl, rfl⟩ := ih hrest'
      exact ⟨rfl, rfl⟩

theorem leaf_eq (hdescends : m.Descends key hops leaf) :
    (hops.getLast?.map Transition.targetKey).getD key = leaf := by
  induction hdescends with
  | stop _ => rfl
  | @hop key leaf t rest _ hrest ih =>
    rw [← ih, List.getLast?_cons]
    cases rest.getLast? <;> rfl

variable (hcoherent : m.Coherent)
include hcoherent

theorem isLeaf (hdescends : m.Descends key hops leaf) : m.hierarchy.IsLeaf leaf :=
  hcoherent.initialOf_eq_none_iff.1 hdescends.initialOf_eq_none

theorem contains (hdescends : m.Descends key hops leaf) (hkey : m.hierarchy.Contains key) :
    m.hierarchy.Contains leaf := by
  induction hdescends with
  | stop _ => exact hkey
  | hop hinitial _ ih => exact ih (hcoherent.contains_target (hcoherent.of_initialOf hinitial).1)

theorem mem_chain (hdescends : m.Descends key hops leaf) : key ∈ m.hierarchy.chain leaf := by
  induction hdescends with
  | stop _ => exact Hierarchy.mem_chain_self _ _
  | hop hinitial _ ih =>
    refine hcoherent.forest.mem_chain_trans ?_ ih
    rw [hcoherent.forest.chain_of_parent (hcoherent.parent_of_initialOf hinitial)]
    exact List.mem_cons_of_mem _ (Hierarchy.mem_chain_self _ _)

theorem parent_of_mem (hdescends : m.Descends key hops leaf) :
    ∀ t ∈ hops, m.hierarchy.parent t.targetKey = some t.sourceKey := by
  induction hdescends with
  | stop _ => simp
  | hop hinitial _ ih =>
    intro t ht
    rcases List.mem_cons.1 ht with rfl | ht
    · obtain ⟨hmem, hkind, _⟩ := hcoherent.of_initialOf hinitial
      exact hcoherent.parent_of_initial _ hmem hkind
    · exact ih t ht

end Descends

/-! ### The computed way down -/

theorem Coherent.descends_descend (hcoherent : m.Coherent) (hkey : m.hierarchy.Contains key) {bound : Nat}
    (hbound : m.hierarchy.size ≤ m.hierarchy.depth key + bound) :
    ∃ leaf, m.Descends key (m.descend bound key) leaf := by
  induction bound generalizing key with
  | zero => exact absurd (hcoherent.forest.depth_lt_size hkey) (Nat.not_lt.2 hbound)
  | succ bound ih =>
    rw [descend]
    cases hinitial : m.table.initialOf key with
    | none => exact ⟨key, .stop hinitial⟩
    | some t =>
      have hdepth := hcoherent.forest.depth_of_parent (hcoherent.parent_of_initialOf hinitial)
      have htarget := hcoherent.contains_target (hcoherent.of_initialOf hinitial).1
      obtain ⟨leaf, hrest⟩ := ih htarget (by omega)
      exact ⟨leaf, .hop hinitial hrest⟩

/-- **The way down that is computed is the whole way down**, from the root and from every state. -/
theorem Coherent.descends (hcoherent : m.Coherent) (hkey : m.hierarchy.Contains key) :
    m.Descends key (m.defaults key) (m.restingKey key) := by
  obtain ⟨leaf, hdescends⟩ := hcoherent.descends_descend hkey (Nat.le_add_left _ _)
  have hleaf : m.restingKey key = leaf := hdescends.leaf_eq
  rw [hleaf]
  exact hdescends

theorem Coherent.restingKey_of_initialOf (hcoherent : m.Coherent) {t : Transition ι κ ν γ}
    (hinitial : m.table.initialOf key = some t) : m.restingKey key = m.restingKey t.targetKey := by
  have hkey : m.hierarchy.Contains key := by
    obtain ⟨ht, _, rfl⟩ := hcoherent.of_initialOf hinitial
    exact hcoherent.contains_source t ht
  have htarget := hcoherent.contains_target (hcoherent.of_initialOf hinitial).1
  exact ((hcoherent.descends hkey).unique (.hop hinitial (hcoherent.descends htarget))).2

theorem Coherent.restingKey_of_isLeaf (hcoherent : m.Coherent) (hkey : m.hierarchy.Contains key)
    (hleaf : m.hierarchy.IsLeaf key) : m.restingKey key = key :=
  ((hcoherent.descends hkey).unique (.stop (hcoherent.initialOf_eq_none_iff.2 hleaf))).2

end NestedMachine.Machine
