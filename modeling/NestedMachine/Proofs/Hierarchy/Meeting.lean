import NestedMachine.Proofs.Hierarchy.Forest

/-!
# Where two ways up meet

Among the keys that contain two given ones there is a deepest, and just one: `meet` finds it, because whatever else contains both of them contains that one (`Forest.mem_chain_meet`). What a way up goes through before it reaches some key is what lies strictly inside that key (`Forest.takeWhile_chain`).
-/

namespace NestedMachine.Hierarchy

variable {h : Hierarchy} {key ancestor common a b c : Key}

/-- The deepest of all keys that contain both `a` and `b`, each of which counts as contained in itself. -/
structure DeepestCommon (h : Hierarchy) (common a b : Key) : Prop where
  left : common ∈ h.chain a
  right : common ∈ h.chain b
  deepest : ∀ other ∈ h.chain a, other ∈ h.chain b → h.depth other ≤ h.depth common

/-- What lies strictly inside `ancestor` on the way up from `key`, innermost first. -/
def below (h : Hierarchy) (ancestor key : Key) : List Key :=
  (h.chain key).filter fun other => h.IsAncestor ancestor other

theorem mem_below {other : Key} : other ∈ h.below ancestor key ↔ other ∈ h.chain key ∧ h.IsAncestor ancestor other := by
  simp [below]

theorem length_chain (h : Hierarchy) (key : Key) : (h.chain key).length = h.depth key + 1 := rfl

namespace Forest

variable (hforest : h.Forest)
include hforest

theorem length_takeWhile_chain (hmem : a ∈ h.chain b) :
    ((h.chain b).takeWhile (· ≠ a)).length + h.depth a = h.depth b := by
  have hlength := congrArg List.length (hforest.chain_split hmem)
  rw [List.length_append, length_chain, length_chain] at hlength
  omega

theorem depth_le_of_mem_chain (hmem : a ∈ h.chain b) : h.depth a ≤ h.depth b :=
  hforest.length_takeWhile_chain hmem ▸ Nat.le_add_left _ _

theorem pairwise_depth (hkey : h.Contains key) :
    (h.chain key).Pairwise fun state above => h.depth above < h.depth state := by
  obtain ⟨above, habove⟩ := hforest key hkey
  induction habove with
  | root => simp
  | nested hparent habove ih =>
    rw [hforest.chain_of_parent hparent, List.pairwise_cons]
    refine ⟨fun ancestor hmem => ?_, ih habove.contains⟩
    rw [hforest.depth_of_parent hparent]
    exact Nat.lt_succ_of_le (hforest.depth_le_of_mem_chain hmem)

theorem eq_of_mem_chain (hmem : a ∈ h.chain b) (hdepth : h.depth b ≤ h.depth a) : a = b := by
  have hlength := hforest.length_takeWhile_chain hmem
  have hnil : (h.chain b).takeWhile (· ≠ a) = [] := List.eq_nil_of_length_eq_zero (by omega)
  have hsplit := hforest.chain_split hmem
  rw [hnil, List.nil_append] at hsplit
  exact (List.cons.inj hsplit).1.symm

/-- **Whatever contains both contains the key where they meet.** -/
theorem mem_chain_meet (ha : h.Contains a) (hca : c ∈ h.chain a) (hcb : c ∈ h.chain b) : c ∈ h.chain (h.meet a b) := by
  unfold meet
  cases hfind : (h.chain a).find? (· ∈ h.chain b) with
  | none => exact absurd (decide_eq_true hcb) (List.find?_eq_none.1 hfind c hca)
  | some first =>
    obtain ⟨_, before, after, hchain, hbefore⟩ := List.find?_eq_some_iff_append.1 hfind
    show c ∈ h.chain first
    rw [hforest.chain_of_append hchain ha]
    rw [hchain] at hca
    exact (List.mem_append.1 hca).resolve_left fun hmem => by simpa [hcb] using hbefore c hmem

theorem deepestCommon_meet (ha : h.Contains a) (hb : h.Contains b) : h.DeepestCommon (h.meet a b) a b where
  left := (hforest.meet_mem ha hb).1
  right := (hforest.meet_mem ha hb).2
  deepest _ hleft hright := hforest.depth_le_of_mem_chain (hforest.mem_chain_meet ha hleft hright)

theorem eq_meet (ha : h.Contains a) (hb : h.Contains b) (hcommon : h.DeepestCommon common a b) :
    common = h.meet a b :=
  hforest.eq_of_mem_chain (hforest.mem_chain_meet ha hcommon.left hcommon.right)
    (hcommon.deepest _ (hforest.meet_mem ha hb).1 (hforest.meet_mem ha hb).2)

theorem not_isAncestor_self (hkey : h.Contains key) : ¬ h.IsAncestor key key := by
  obtain ⟨above, habove⟩ := hforest key hkey
  rw [IsAncestor, habove.ancestors_eq]
  exact habove.not_mem

theorem isAncestor_trans (hab : a ∈ h.chain b) (hbc : h.IsAncestor b c) : h.IsAncestor a c := by
  cases hparent : h.parent c with
  | none =>
    have hchain := chain_of_parent_none hparent
    rw [chain] at hchain
    rw [IsAncestor, (List.cons.inj hchain).2] at hbc
    cases hbc
  | some superstate =>
    rw [hforest.isAncestor_iff hparent] at hbc ⊢
    exact hforest.mem_chain_trans hab hbc

theorem below_self (hkey : h.Contains key) : h.below key key = [] := by
  refine List.filter_eq_nil_iff.2 fun other hother hinside => ?_
  have hinside : h.IsAncestor key other := of_decide_eq_true hinside
  -- Then each of the two contains the other, so they are the same.
  have hdepth := hforest.depth_le_of_mem_chain hother
  obtain rfl := hforest.eq_of_mem_chain (mem_chain_iff.2 (.inr hinside)) hdepth
  exact hforest.not_isAncestor_self hkey hinside

theorem takeWhile_chain (hkey : h.Contains key) (hmem : ancestor ∈ h.chain key) :
    (h.chain key).takeWhile (· ≠ ancestor) = h.below ancestor key := by
  obtain ⟨above, habove⟩ := hforest key hkey
  induction habove with
  | root =>
    obtain rfl : ancestor = .root := by simpa using hmem
    rw [hforest.below_self hkey]
    simp
  | @nested key superstate _ hparent habove ih =>
    have hchain := hforest.chain_of_parent hparent
    by_cases heq : key = ancestor
    · subst heq
      rw [hforest.below_self hkey, hchain]
      simp
    · rw [hchain, List.mem_cons] at hmem
      have hmem := hmem.resolve_left (Ne.symm heq)
      have hinside : h.IsAncestor ancestor key := (hforest.isAncestor_iff hparent).2 hmem
      rw [below, hchain, List.takeWhile_cons_of_pos (by simpa using heq), List.filter_cons_of_pos (by simpa using hinside),
        ih habove.contains hmem]
      rfl

end Forest

end NestedMachine.Hierarchy
