import NestedMachine.Hierarchy
import Mathlib.Data.List.Nodup
import Mathlib.Data.List.Perm.Subperm

/-!
# Hierarchies without cycles

A hierarchy is a forest under the root if the way up from each of its keys ends at the root. `climb` follows that way for a bounded number of hops; in a forest the bound is never what stops it (`Ascent.ancestors_eq`), so a chain can be read one level at a time (`chain_of_parent`). Growing keeps a forest a forest, and so does nesting a state where that closes no cycle (`Forest.nest`).
-/

namespace NestedMachine.Hierarchy

variable {h : Hierarchy} {key superstate : Key} {above : List Key}

/-- The list holds the keys above `key`, nearest first, all the way up to the root. -/
inductive Ascent (h : Hierarchy) : Key → List Key → Prop where
  | root : Ascent h .root []
  | nested {key superstate : Key} {above : List Key} (hparent : h.parent key = some superstate)
      (habove : Ascent h superstate above) : Ascent h key (superstate :: above)

/-- The way up from every key ends at the root. -/
def Forest (h : Hierarchy) : Prop := ∀ key, h.Contains key → ∃ above, h.Ascent key above

/-! ### One way up -/

theorem contains_root (h : Hierarchy) : h.Contains .root := Nat.succ_pos _

theorem contains_of_parent (hparent : h.parent key = some superstate) : h.Contains key :=
  (mem_states.1 (parent_isSome_iff.1 (by simp [hparent]))).2

theorem ne_root_of_parent (hparent : h.parent key = some superstate) : key ≠ .root := by
  rintro rfl
  simp at hparent

theorem exists_parent (hkey : h.Contains key) (hroot : key ≠ .root) : ∃ superstate, h.parent key = some superstate :=
  Option.isSome_iff_exists.1 (parent_isSome_iff.2 (mem_states.2 ⟨hroot, hkey⟩))

theorem isComposite_iff : h.IsComposite key ↔ ∃ child, h.parent child = some key := by
  rw [IsComposite, List.mem_iff_getElem?]
  constructor
  · rintro ⟨position, hposition⟩
    exact ⟨.ofPosition position, hposition⟩
  · rintro ⟨child, hparent⟩
    rcases child.eq_root_or_ofPosition with rfl | ⟨position, rfl⟩
    · simp at hparent
    · exact ⟨position, hparent⟩

theorem isComposite_of_isAncestor {ancestor : Key} (hancestor : h.IsAncestor ancestor key) : h.IsComposite ancestor := by
  have hclimb : ∀ hops key, ancestor ∈ h.climb hops key → h.IsComposite ancestor := by
    intro hops
    induction hops with
    | zero => simp [climb]
    | succ hops ih =>
      intro key hmem
      cases hparent : h.parent key with
      | none => simp [climb_succ_of_none hops hparent] at hmem
      | some superstate =>
        rw [climb_succ_of_some hops hparent] at hmem
        rcases List.mem_cons.1 hmem with rfl | hmem
        · exact isComposite_iff.2 ⟨key, hparent⟩
        · exact ih superstate hmem
  exact hclimb h.size key hancestor

theorem parent_eq_none (hkey : ¬ h.Contains key) : h.parent key = none := by
  rw [← Option.not_isSome_iff_eq_none, parent_isSome_iff, mem_states]
  exact fun hmem => hkey hmem.2

namespace Ascent

theorem contains (hkey : h.Ascent key above) : h.Contains key := by
  cases hkey with
  | root => exact contains_root h
  | nested hparent _ => exact contains_of_parent hparent

theorem unique {other : List Key} (hkey : h.Ascent key above) (hother : h.Ascent key other) : above = other := by
  induction hkey generalizing other with
  | root =>
    cases hother with
    | root => rfl
    | nested hparent _ => simp at hparent
  | nested hparent _ ih =>
    cases hother with
    | root => simp at hparent
    | nested hparent' habove' =>
      obtain rfl := Option.some.inj (hparent.symm.trans hparent')
      rw [ih habove']

theorem of_mem {ancestor : Key} (hkey : h.Ascent key above) (hmem : ancestor ∈ above) :
    ∃ rest, h.Ascent ancestor rest ∧ rest.length < above.length := by
  induction hkey with
  | root => simp at hmem
  | nested _ habove ih =>
    rcases List.mem_cons.1 hmem with rfl | hmem
    · exact ⟨_, habove, by simp⟩
    · obtain ⟨rest, hrest, hlength⟩ := ih hmem
      exact ⟨rest, hrest, by simp; omega⟩

theorem contains_of_mem {ancestor : Key} (hkey : h.Ascent key above) (hmem : ancestor ∈ above) :
    h.Contains ancestor := by
  obtain ⟨_, hrest, _⟩ := hkey.of_mem hmem
  exact hrest.contains

theorem not_mem (hkey : h.Ascent key above) : key ∉ above := by
  intro hmem
  obtain ⟨rest, hrest, hlength⟩ := hkey.of_mem hmem
  rw [hkey.unique hrest] at hlength
  exact Nat.lt_irrefl _ hlength

theorem nodup (hkey : h.Ascent key above) : (key :: above).Nodup := by
  induction hkey with
  | root => simp
  | nested hparent habove ih => exact List.nodup_cons.2 ⟨(habove.nested hparent).not_mem, ih⟩

theorem length_lt (hkey : h.Ascent key above) : above.length < h.size := by
  have hindexes : ((key :: above).map Key.index).Nodup :=
    hkey.nodup.map fun a b heq => congrArg Key.mk heq
  have hrange : (key :: above).map Key.index ⊆ List.range h.size := by
    intro index hindex
    obtain ⟨other, hother, rfl⟩ := List.mem_map.1 hindex
    rw [List.mem_range]
    rcases List.mem_cons.1 hother with rfl | hother
    · exact hkey.contains
    · exact hkey.contains_of_mem hother
  have hlength := (List.subperm_of_subset hindexes hrange).length_le
  simp at hlength
  omega

theorem climb_eq (hkey : h.Ascent key above) {hops : Nat} (hhops : above.length ≤ hops) :
    h.climb hops key = above := by
  induction hkey generalizing hops with
  | root =>
    cases hops with
    | zero => rfl
    | succ hops => exact climb_succ_of_none hops rfl
  | nested hparent _ ih =>
    cases hops with
    | zero => simp at hhops
    | succ hops => rw [climb_succ_of_some hops hparent, ih (by simpa using hhops)]

/-- **The bound of the climb is never what stops it.** -/
theorem ancestors_eq (hkey : h.Ascent key above) : h.ancestors key = above :=
  hkey.climb_eq (Nat.le_of_lt hkey.length_lt)

theorem chain_eq (hkey : h.Ascent key above) : h.chain key = key :: above := by
  rw [chain, hkey.ancestors_eq]

end Ascent

/-! ### Chains, one level at a time -/

theorem chain_of_parent_none (hparent : h.parent key = none) : h.chain key = [key] := by
  rw [chain, ancestors, size, climb_succ_of_none _ hparent]

theorem activeChain_of_ne_root (hroot : key ≠ .root) :
    h.activeChain key = key :: (h.ancestors key).takeWhile (· ≠ .root) := by
  simp [activeChain, chain, hroot]

theorem activeChain_sublist (h : Hierarchy) (key : Key) : (h.activeChain key).Sublist (h.chain key) :=
  List.takeWhile_sublist _

@[simp] theorem activeChain_root (h : Hierarchy) : h.activeChain .root = [] := by
  simp [activeChain]

namespace Forest

variable (hforest : h.Forest)
include hforest

theorem contains_parent (hparent : h.parent key = some superstate) : h.Contains superstate := by
  obtain ⟨above, habove⟩ := hforest key (contains_of_parent hparent)
  cases habove with
  | root => simp at hparent
  | nested hparent' habove =>
    obtain rfl := Option.some.inj (hparent.symm.trans hparent')
    exact habove.contains

theorem chain_of_parent (hparent : h.parent key = some superstate) : h.chain key = key :: h.chain superstate := by
  obtain ⟨above, habove⟩ := hforest superstate (hforest.contains_parent hparent)
  rw [(habove.nested hparent).chain_eq, habove.chain_eq]

theorem isAncestor_iff {ancestor : Key} (hparent : h.parent key = some superstate) :
    h.IsAncestor ancestor key ↔ ancestor ∈ h.chain superstate := by
  have hchain := hforest.chain_of_parent hparent
  rw [chain] at hchain
  rw [IsAncestor, (List.cons.inj hchain).2]

theorem depth_of_parent (hparent : h.parent key = some superstate) : h.depth key = h.depth superstate + 1 := by
  have hlength := congrArg List.length (hforest.chain_of_parent hparent)
  simpa [chain, depth] using hlength

theorem depth_lt_size (hkey : h.Contains key) : h.depth key < h.size := by
  obtain ⟨above, habove⟩ := hforest key hkey
  rw [depth, habove.ancestors_eq]
  exact habove.length_lt

theorem activeChain_of_parent (hparent : h.parent key = some superstate) :
    h.activeChain key = key :: h.activeChain superstate := by
  have hroot := ne_root_of_parent hparent
  simp [activeChain, hforest.chain_of_parent hparent, hroot]

theorem mem_activeChain_iff {ancestor : Key} (hkey : h.Contains key) :
    ancestor ∈ h.activeChain key ↔ ancestor ∈ h.chain key ∧ ancestor ≠ .root := by
  obtain ⟨above, habove⟩ := hforest key hkey
  induction habove with
  | root => simp
  | nested hparent habove ih =>
    have hroot := ne_root_of_parent hparent
    rw [hforest.activeChain_of_parent hparent, hforest.chain_of_parent hparent, List.mem_cons, List.mem_cons,
      ih habove.contains]
    grind

theorem contains_of_mem_chain {ancestor : Key} (hkey : h.Contains key) (hmem : ancestor ∈ h.chain key) :
    h.Contains ancestor := by
  obtain ⟨above, habove⟩ := hforest key hkey
  rw [habove.chain_eq] at hmem
  rcases List.mem_cons.1 hmem with rfl | hmem
  · exact hkey
  · exact habove.contains_of_mem hmem

theorem root_mem_chain (hkey : h.Contains key) : .root ∈ h.chain key := by
  obtain ⟨above, habove⟩ := hforest key hkey
  induction habove with
  | root => simp
  | nested hparent habove ih =>
    rw [hforest.chain_of_parent hparent]
    exact List.mem_cons_of_mem _ (ih habove.contains)

theorem nodup_chain (hkey : h.Contains key) : (h.chain key).Nodup := by
  obtain ⟨above, habove⟩ := hforest key hkey
  exact habove.chain_eq ▸ habove.nodup

theorem chain_split {ancestor : Key} (hmem : ancestor ∈ h.chain key) :
    h.chain key = (h.chain key).takeWhile (· ≠ ancestor) ++ h.chain ancestor := by
  by_cases hkey : h.Contains key
  · obtain ⟨above, habove⟩ := hforest key hkey
    induction habove with
    | root =>
      obtain rfl : ancestor = .root := by simpa using hmem
      simp
    | @nested key superstate _ hparent habove ih =>
      by_cases heq : key = ancestor
      · subst heq
        simp [chain]
      · rw [hforest.chain_of_parent hparent] at hmem ⊢
        have hrest := ih ((List.mem_cons.1 hmem).resolve_left (Ne.symm heq)) habove.contains
        rw [List.takeWhile_cons_of_pos (by simpa using heq), List.cons_append, ← hrest]
  · rw [chain_of_parent_none (parent_eq_none hkey)] at hmem ⊢
    obtain rfl := List.mem_singleton.1 hmem
    simp [chain_of_parent_none (parent_eq_none hkey)]

theorem chain_of_append {target : Key} {below above : List Key} (hchain : h.chain target = below ++ key :: above)
    (htarget : h.Contains target) : h.chain key = key :: above := by
  obtain ⟨rest, hrest⟩ := hforest target htarget
  have hmem : key ∈ h.chain target := hchain ▸ List.mem_append_right _ List.mem_cons_self
  have hnodup := hrest.nodup
  rw [← hrest.chain_eq, hchain] at hnodup
  have hbelow : key ∉ below := fun hkey =>
    (List.nodup_append.1 hnodup).2.2 key hkey key List.mem_cons_self rfl
  have hbelow_eq : (h.chain target).takeWhile (· ≠ key) = below := by
    have hall : ∀ other ∈ below, decide (other ≠ key) = true := by
      intro other hother
      refine decide_eq_true ?_
      rintro rfl
      exact hbelow hother
    rw [hchain, List.takeWhile_append_of_pos hall]
    simp
  have hsplit := hforest.chain_split hmem
  rw [hbelow_eq, hchain] at hsplit
  exact (List.append_cancel_left hsplit).symm

theorem mem_chain_trans {a b c : Key} (hab : a ∈ h.chain b) (hbc : b ∈ h.chain c) : a ∈ h.chain c := by
  rw [hforest.chain_split hbc]
  exact List.mem_append_right _ hab

theorem meet_mem {a b : Key} (ha : h.Contains a) (hb : h.Contains b) :
    h.meet a b ∈ h.chain a ∧ h.meet a b ∈ h.chain b := by
  unfold meet
  cases hfind : (h.chain a).find? (· ∈ h.chain b) with
  | none => exact ⟨hforest.root_mem_chain ha, hforest.root_mem_chain hb⟩
  | some common => exact ⟨List.mem_of_find?_eq_some hfind, by simpa using List.find?_some hfind⟩

end Forest

/-! ### Growing and nesting -/

theorem forest_rootOnly : rootOnly.Forest := by
  rintro ⟨index⟩ hkey
  obtain rfl : index = 0 := by simpa [Contains, size, rootOnly] using hkey
  exact ⟨[], .root⟩

theorem Ascent.congr {h' : Hierarchy} (hkey : h.Ascent key above)
    (hparent : ∀ other ∈ key :: above, h'.parent other = h.parent other) : h'.Ascent key above := by
  induction hkey with
  | root => exact .root
  | nested hkey _ ih =>
    refine .nested ((hparent _ List.mem_cons_self).trans hkey) (ih fun other hother => ?_)
    exact hparent other (List.mem_cons_of_mem _ hother)

theorem Forest.grow (hforest : h.Forest) : h.grow.Forest := by
  have hold : ∀ key, h.Contains key → ∃ above, h.grow.Ascent key above := by
    intro key hkey
    obtain ⟨above, habove⟩ := hforest key hkey
    refine ⟨above, habove.congr fun other hother => ?_⟩
    have hcontains : h.Contains other := (List.mem_cons.1 hother).elim (· ▸ hkey) habove.contains_of_mem
    rw [parent_grow, if_neg (Nat.ne_of_lt hcontains)]
  intro key hkey
  by_cases hnew : key.index = h.size
  · exact ⟨[.root], .nested (by rw [parent_grow, if_pos hnew]) .root⟩
  · refine hold key ?_
    simp only [Contains, size_grow] at hkey ⊢
    omega

theorem Ascent.nest {state : Key} (hkey : h.Ascent key above) (hstate : state ∈ h.states)
    (hmem : state ∉ key :: above) : (h.nest state superstate).Ascent key above := by
  refine hkey.congr fun other hother => ?_
  have hne : other ≠ state := by
    rintro rfl
    exact hmem hother
  rw [parent_nest _ _ _ _ hstate, if_neg hne]

theorem Forest.chain_nest {state : Key} (hforest : h.Forest) (hstate : state ∈ h.states) (hkey : h.Contains key)
    (hmem : state ∉ h.chain key) : (h.nest state superstate).chain key = h.chain key := by
  obtain ⟨above, habove⟩ := hforest key hkey
  rw [habove.chain_eq] at hmem ⊢
  exact (habove.nest hstate hmem).chain_eq

theorem Forest.nest {state : Key} (hforest : h.Forest) (hstate : state ∈ h.states)
    (hsuperstate : h.Contains superstate) (hacyclic : state ∉ h.chain superstate) :
    (h.nest state superstate).Forest := by
  obtain ⟨upper, hupper⟩ := hforest superstate hsuperstate
  rw [hupper.chain_eq] at hacyclic
  have hmoved : (h.nest state superstate).Ascent state (superstate :: upper) :=
    .nested (by rw [parent_nest _ _ _ _ hstate, if_pos rfl]) (hupper.nest hstate hacyclic)
  intro key hkey
  obtain ⟨above, habove⟩ := hforest key (by simpa [Contains] using hkey)
  clear hkey
  induction habove with
  | root => exact ⟨[], .root⟩
  | @nested key _ _ hparent _ ih =>
    by_cases heq : key = state
    · subst heq
      exact ⟨_, hmoved⟩
    · obtain ⟨rest, hrest⟩ := ih
      exact ⟨_, .nested (by rw [parent_nest _ _ _ _ hstate, if_neg heq, hparent]) hrest⟩

end NestedMachine.Hierarchy
