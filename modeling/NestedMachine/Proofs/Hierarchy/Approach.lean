import NestedMachine.Proofs.Hierarchy.Meeting
import NestedMachine.Proofs.Hierarchy.Rooted

/-!
# Two ways up that approach each other

Among the keys of a forest `meet` is the meet of the order in which a key comes after all that contain it: what contains both is what contains the key where they meet (`Forest.mem_chain_meet_iff`). As no two keys have the same chain (`Forest.eq_of_mem_chain_iff`), the laws of meets follow from those of conjunction.

That key can also be found without any chain, by two keys that go up until they are one (`Approaches`). The deeper one goes first, and from then on both go up together. No turn of this changes where the two meet (`Forest.meet_eq_of_approaches`), and it goes on until they are equal or one of them has no superstate, in which case they meet at the root (`Forest.meet_of_stuck`).

`MeetsInnermost` collects this. Keys without a state have a place in it: apart from themselves they meet everything at the root.
-/

namespace NestedMachine.Hierarchy

open Relation

variable {h : Hierarchy} {key above a b c a' b' : Key} {pair : Key × Key}

/-- One turn of the search for the key where two ways up meet. Of two keys the deeper goes up; keys that are equally deep, and not the same, go up together. -/
inductive Approaches (h : Hierarchy) : Key × Key → Key × Key → Prop where
  | left {a b above : Key} (hdepth : h.depth b < h.depth a) (hparent : h.parent a = some above) :
      Approaches h (a, b) (above, b)
  | right {a b above : Key} (hdepth : h.depth a < h.depth b) (hparent : h.parent b = some above) :
      Approaches h (a, b) (a, above)
  | both {a b a' b' : Key} (hdepth : h.depth a = h.depth b) (hne : a ≠ b) (hparent : h.parent a = some a')
      (hparent' : h.parent b = some b') : Approaches h (a, b) (a', b')

theorem exists_parent_of_depth_lt (hdepth : h.depth a < h.depth b) : ∃ above, h.parent b = some above := by
  cases hparent : h.parent b with
  | some above => exact ⟨above, rfl⟩
  | none =>
    have hchain := congrArg List.length (chain_of_parent_none hparent)
    rw [length_chain, List.length_singleton] at hchain
    omega

theorem cases_of_stuck (hstuck : ∀ next, ¬ h.Approaches (a, b) next) :
    a = b ∨ h.depth a = h.depth b ∧ (h.parent a = none ∨ h.parent b = none) := by
  rcases Nat.lt_trichotomy (h.depth a) (h.depth b) with hlt | hdepth | hlt
  · obtain ⟨above, hparent⟩ := exists_parent_of_depth_lt hlt
    exact absurd (.right hlt hparent) (hstuck _)
  · by_contra hmore
    obtain ⟨hne, hleft, hright⟩ : a ≠ b ∧ h.parent a ≠ none ∧ h.parent b ≠ none := by simpa [hdepth] using hmore
    obtain ⟨above, hparent⟩ := Option.ne_none_iff_exists'.1 hleft
    obtain ⟨above', hparent'⟩ := Option.ne_none_iff_exists'.1 hright
    exact hstuck _ (.both hdepth hne hparent hparent')
  · obtain ⟨above, hparent⟩ := exists_parent_of_depth_lt hlt
    exact absurd (.left hlt hparent) (hstuck _)

theorem eq_root_of_parent_eq_none (hkey : h.Contains key) (hparent : h.parent key = none) : key = .root := by
  by_contra hroot
  obtain ⟨above, habove⟩ := exists_parent hkey hroot
  rw [hparent] at habove
  cases habove

theorem eq_root_of_depth_eq_zero (hkey : h.Contains key) (hdepth : h.depth key = 0) : key = .root := by
  refine eq_root_of_parent_eq_none hkey ?_
  cases hparent : h.parent key with
  | none => rfl
  | some above =>
    rw [depth, ancestors, size, climb_succ_of_some _ hparent] at hdepth
    cases hdepth

@[simp] theorem depth_root (h : Hierarchy) : h.depth .root = 0 := by
  simp [depth]

/-! ### Keys that meet at the root -/

theorem meet_self (h : Hierarchy) (key : Key) : h.meet key key = key := by
  simp [meet, chain]

theorem meet_eq_root (hab : ∀ other ∈ h.chain a, other ∈ h.chain b → other = .root) : h.meet a b = .root := by
  unfold meet
  cases hfind : (h.chain a).find? (· ∈ h.chain b) with
  | none => rfl
  | some common => exact hab common (List.mem_of_find?_eq_some hfind) (by simpa using List.find?_some hfind)

namespace Forest

variable (hforest : h.Forest)
include hforest

theorem eq_root_of_mem_chain (hparent : h.parent a = none) (hne : a ≠ b) (hmem : a ∈ h.chain b) : a = .root := by
  by_cases hcontains : h.Contains b
  · exact eq_root_of_parent_eq_none (hforest.contains_of_mem_chain hcontains hmem) hparent
  · rw [chain_of_parent_none (parent_eq_none hcontains)] at hmem
    exact absurd (List.mem_singleton.1 hmem) hne

theorem meet_of_parent_eq_none (hne : a ≠ b) (hparent : h.parent a = none ∨ h.parent b = none) :
    h.meet a b = .root := by
  refine meet_eq_root fun other hleft hright => ?_
  rcases hparent with hparent | hparent
  · rw [chain_of_parent_none hparent] at hleft
    obtain rfl := List.mem_singleton.1 hleft
    exact hforest.eq_root_of_mem_chain hparent hne hright
  · rw [chain_of_parent_none hparent] at hright
    obtain rfl := List.mem_singleton.1 hright
    exact hforest.eq_root_of_mem_chain hparent hne.symm hleft

theorem meet_of_not_contains (hne : a ≠ b) (houtside : ¬ (h.Contains a ∧ h.Contains b)) : h.meet a b = .root :=
  hforest.meet_of_parent_eq_none hne ((not_and_or.1 houtside).imp parent_eq_none parent_eq_none)

/-! ### The meet of an order -/

theorem eq_of_mem_chain_iff (hsame : ∀ other, other ∈ h.chain a ↔ other ∈ h.chain b) : a = b := by
  have hab := (hsame a).1 (h.mem_chain_self a)
  have hba := (hsame b).2 (h.mem_chain_self b)
  exact hforest.eq_of_mem_chain hab (hforest.depth_le_of_mem_chain hba)

theorem mem_chain_meet_iff (ha : h.Contains a) (hb : h.Contains b) :
    c ∈ h.chain (h.meet a b) ↔ c ∈ h.chain a ∧ c ∈ h.chain b := by
  obtain ⟨hleft, hright⟩ := hforest.meet_mem ha hb
  refine ⟨fun hmem => ?_, fun hmem => hforest.mem_chain_meet ha hmem.1 hmem.2⟩
  exact ⟨hforest.mem_chain_trans hmem hleft, hforest.mem_chain_trans hmem hright⟩

theorem contains_meet (ha : h.Contains a) (hb : h.Contains b) : h.Contains (h.meet a b) :=
  hforest.contains_of_mem_chain ha (hforest.meet_mem ha hb).1

theorem meet_comm (a b : Key) : h.meet a b = h.meet b a := by
  by_cases hcontains : h.Contains a ∧ h.Contains b
  · obtain ⟨ha, hb⟩ := hcontains
    refine hforest.eq_of_mem_chain_iff fun other => ?_
    rw [hforest.mem_chain_meet_iff ha hb, hforest.mem_chain_meet_iff hb ha, and_comm]
  · by_cases heq : a = b
    · rw [heq]
    · rw [hforest.meet_of_not_contains heq hcontains,
        hforest.meet_of_not_contains (Ne.symm heq) fun hother => hcontains hother.symm]

theorem meet_assoc (ha : h.Contains a) (hb : h.Contains b) (hc : h.Contains c) :
    h.meet (h.meet a b) c = h.meet a (h.meet b c) := by
  refine hforest.eq_of_mem_chain_iff fun other => ?_
  rw [hforest.mem_chain_meet_iff (hforest.contains_meet ha hb) hc, hforest.mem_chain_meet_iff ha hb,
    hforest.mem_chain_meet_iff ha (hforest.contains_meet hb hc), hforest.mem_chain_meet_iff hb hc, and_assoc]

theorem meet_eq_left_iff (ha : h.Contains a) (hb : h.Contains b) :
    h.meet a b = a ↔ a = b ∨ h.IsAncestor a b := by
  rw [← mem_chain_iff]
  refine ⟨fun heq => heq ▸ (hforest.meet_mem ha hb).2, fun hmem => hforest.eq_of_mem_chain_iff fun other => ?_⟩
  rw [hforest.mem_chain_meet_iff ha hb]
  exact and_iff_left_of_imp fun hother => hforest.mem_chain_trans hother hmem

theorem disjoint_below_meet (ha : h.Contains a) (hb : h.Contains b) :
    (h.below (h.meet a b) a).Disjoint (h.below (h.meet a b) b) := by
  intro other hleft hright
  obtain ⟨hleft, hinside⟩ := mem_below.1 hleft
  obtain ⟨hright, _⟩ := mem_below.1 hright
  refine hforest.not_isAncestor_self (hforest.contains_meet ha hb) ?_
  rcases mem_chain_iff.1 (hforest.mem_chain_meet ha hleft hright) with rfl | houtside
  · exact hinside
  · exact hforest.isAncestor_trans (mem_chain_iff.2 (.inr hinside)) houtside

/-! ### The search -/

theorem meet_of_parent (hparent : h.parent a = some above) (hmem : a ∉ h.chain b) : h.meet a b = h.meet above b := by
  rw [meet, hforest.chain_of_parent hparent, List.find?_cons_of_neg (by simpa using hmem), meet]

theorem not_mem_chain_of_depth_lt (hdepth : h.depth b < h.depth a) : a ∉ h.chain b :=
  fun hmem => Nat.not_le_of_lt hdepth (hforest.depth_le_of_mem_chain hmem)

theorem meet_eq_of_approaches (hturn : h.Approaches (a, b) (a', b')) : h.meet a b = h.meet a' b' := by
  cases hturn with
  | left hdepth hparent => exact hforest.meet_of_parent hparent (hforest.not_mem_chain_of_depth_lt hdepth)
  | right hdepth hparent =>
    rw [hforest.meet_comm a b, hforest.meet_comm a b']
    exact hforest.meet_of_parent hparent (hforest.not_mem_chain_of_depth_lt hdepth)
  | both hdepth hne hparent hparent' =>
    -- After the first of them has gone up, the other one is the deeper.
    have hmem : a ∉ h.chain b := fun hmem => hne (hforest.eq_of_mem_chain hmem (Nat.le_of_eq hdepth.symm))
    have hlower : h.depth a' < h.depth b := by
      have habove := hforest.depth_of_parent hparent
      omega
    rw [hforest.meet_of_parent hparent hmem, hforest.meet_comm a' b, hforest.meet_comm a' b']
    exact hforest.meet_of_parent hparent' (hforest.not_mem_chain_of_depth_lt hlower)

theorem meet_eq_of_reflTransGen (hturns : ReflTransGen h.Approaches (a, b) pair) :
    h.meet a b = h.meet pair.1 pair.2 := by
  induction hturns with
  | refl => rfl
  | tail _ hturn ih => exact ih.trans (hforest.meet_eq_of_approaches hturn)

theorem ne_of_parent (hparent : h.parent key = some above) : above ≠ key := by
  rintro rfl
  have hdepth := hforest.depth_of_parent hparent
  omega

theorem approaches_wellFounded : WellFounded (Function.swap h.Approaches) := by
  refine Subrelation.wf (r := InvImage h.Climbs fun pair => [pair.1, pair.2]) ?_
    (InvImage.wf _ hforest.climbs_wellFounded)
  intro next pair hturn
  have hstay : ∀ key, key = key ∨ h.IsAbove key key := fun _ => .inl rfl
  cases hturn with
  | left _ hparent =>
    refine ⟨.cons (.inr hparent) (.cons (hstay _) .nil), fun heq => ?_⟩
    exact hforest.ne_of_parent hparent (List.cons.inj heq).1
  | right _ hparent =>
    refine ⟨.cons (hstay _) (.cons (.inr hparent) .nil), fun heq => ?_⟩
    exact hforest.ne_of_parent hparent (List.cons.inj (List.cons.inj heq).2).1
  | both _ _ hparent hparent' =>
    refine ⟨.cons (.inr hparent) (.cons (.inr hparent') .nil), fun heq => ?_⟩
    exact hforest.ne_of_parent hparent (List.cons.inj heq).1

theorem exists_stuck (pair : Key × Key) :
    ∃ last, ReflTransGen h.Approaches pair last ∧ ∀ next, ¬ h.Approaches last next := by
  induction pair using hforest.approaches_wellFounded.induction with
  | _ pair ih =>
    by_cases hstuck : ∃ next, h.Approaches pair next
    · obtain ⟨next, hturn⟩ := hstuck
      obtain ⟨last, hturns, hlast⟩ := ih next hturn
      exact ⟨last, .head hturn hturns, hlast⟩
    · exact ⟨pair, .refl, not_exists.1 hstuck⟩

/-- **Where the search ends**, the two keys are the one that was looked for, or have nothing in common but the root. -/
theorem meet_of_stuck (hturns : ReflTransGen h.Approaches (a, b) (a', b'))
    (hstuck : ∀ next, ¬ h.Approaches (a', b') next) : h.meet a b = if a' = b' then a' else .root := by
  rw [hforest.meet_eq_of_reflTransGen hturns]
  split
  · next heq => rw [heq, meet_self]
  · next hne => exact hforest.meet_of_parent_eq_none hne ((cases_of_stuck hstuck).resolve_left hne).2

theorem contains_of_approaches {next : Key × Key} (hturn : h.Approaches pair next)
    (hpair : h.Contains pair.1 ∧ h.Contains pair.2) : h.Contains next.1 ∧ h.Contains next.2 := by
  cases hturn with
  | left _ hparent => exact ⟨hforest.contains_parent hparent, hpair.2⟩
  | right _ hparent => exact ⟨hpair.1, hforest.contains_parent hparent⟩
  | both _ _ hparent hparent' => exact ⟨hforest.contains_parent hparent, hforest.contains_parent hparent'⟩

theorem contains_of_reflTransGen {last : Key × Key} (hturns : ReflTransGen h.Approaches pair last)
    (hpair : h.Contains pair.1 ∧ h.Contains pair.2) : h.Contains last.1 ∧ h.Contains last.2 := by
  induction hturns with
  | refl => exact hpair
  | tail _ hturn ih => exact hforest.contains_of_approaches hturn ih

omit hforest in
theorem eq_of_stuck (ha : h.Contains a) (hb : h.Contains b) (hstuck : ∀ next, ¬ h.Approaches (a, b) next) : a = b := by
  rcases cases_of_stuck hstuck with heq | ⟨hdepth, hparent | hparent⟩
  · exact heq
  · obtain rfl := eq_root_of_parent_eq_none ha hparent
    exact (eq_root_of_depth_eq_zero hb (hdepth.symm.trans h.depth_root)).symm
  · obtain rfl := eq_root_of_parent_eq_none hb hparent
    exact eq_root_of_depth_eq_zero ha (hdepth.trans h.depth_root)

theorem approaches_meet (ha : h.Contains a) (hb : h.Contains b) :
    ReflTransGen h.Approaches (a, b) (h.meet a b, h.meet a b) := by
  obtain ⟨⟨a', b'⟩, hturns, hstuck⟩ := hforest.exists_stuck (a, b)
  obtain ⟨ha', hb'⟩ : h.Contains a' ∧ h.Contains b' := hforest.contains_of_reflTransGen hturns ⟨ha, hb⟩
  obtain rfl := eq_of_stuck ha' hb' hstuck
  rw [hforest.meet_of_stuck hturns hstuck, if_pos rfl]
  exact hturns

end Forest

/-! ### What is known of `meet` -/

/-- `meet` is the meet of the order in which a key comes after all that contain it, and the search for it finds it. -/
structure MeetsInnermost (h : Hierarchy) : Prop where
  /-- The key where two keys meet contains both of them, each counting as contained in itself. -/
  mem_chain : ∀ a b, h.Contains a → h.Contains b → h.meet a b ∈ h.chain a ∧ h.meet a b ∈ h.chain b
  /-- Whatever else contains both contains it. -/
  mem_chain_meet : ∀ a b c, h.Contains a → h.Contains b → c ∈ h.chain a → c ∈ h.chain b → c ∈ h.chain (h.meet a b)
  self : ∀ key, h.meet key key = key
  comm : ∀ a b, h.meet a b = h.meet b a
  assoc : ∀ a b c, h.Contains a → h.Contains b → h.Contains c → h.meet (h.meet a b) c = h.meet a (h.meet b c)
  eq_left_iff : ∀ a b, h.Contains a → h.Contains b → (h.meet a b = a ↔ a = b ∨ h.IsAncestor a b)
  /-- The ways up to it have nothing in common, and are as long as there are levels in between. -/
  exists_paths : ∀ a b, h.Contains a → h.Contains b → ∃ left right,
    h.path a (h.meet a b) = .ok left ∧ h.path b (h.meet a b) = .ok right ∧ left.Disjoint right ∧
      left.length + h.depth (h.meet a b) = h.depth a ∧ right.length + h.depth (h.meet a b) = h.depth b
  /-- A key without a state meets all other keys at the root. -/
  eq_root : ∀ a b, a ≠ b → ¬ (h.Contains a ∧ h.Contains b) → h.meet a b = .root
  /-- The search for it ends, whatever keys it starts with, and so does every part of it. -/
  wellFounded : WellFounded (Function.swap h.Approaches)
  /-- No superstate is missing where the deeper of two keys is to go up. -/
  exists_parent : ∀ a b, h.depth a < h.depth b → ∃ above, h.parent b = some above
  /-- Two keys of the hierarchy go up until they are one. -/
  approaches : ∀ a b, h.Contains a → h.Contains b → ReflTransGen h.Approaches (a, b) (h.meet a b, h.meet a b)
  /-- The search answers the key that is left in the end, or the root if there are still two. -/
  eq_of_stuck : ∀ a b a' b', ReflTransGen h.Approaches (a, b) (a', b') → (∀ next, ¬ h.Approaches (a', b') next) →
    h.meet a b = if a' = b' then a' else .root

/-- **In a forest, keys meet in the innermost key that contains both.** -/
theorem Forest.meetsInnermost (hforest : h.Forest) : h.MeetsInnermost where
  mem_chain _ _ := hforest.meet_mem
  mem_chain_meet _ _ _ ha _ := hforest.mem_chain_meet ha
  self := h.meet_self
  comm := hforest.meet_comm
  assoc _ _ _ := hforest.meet_assoc
  eq_left_iff _ _ := hforest.meet_eq_left_iff
  exists_paths a b ha hb := by
    obtain ⟨hleft, hright⟩ := hforest.meet_mem ha hb
    have hdisjoint := hforest.disjoint_below_meet ha hb
    rw [← hforest.takeWhile_chain ha hleft, ← hforest.takeWhile_chain hb hright] at hdisjoint
    exact ⟨_, _, path_eq_ok_iff.2 ⟨hleft, rfl⟩, path_eq_ok_iff.2 ⟨hright, rfl⟩, hdisjoint,
      hforest.length_takeWhile_chain hleft, hforest.length_takeWhile_chain hright⟩
  eq_root _ _ := hforest.meet_of_not_contains
  wellFounded := hforest.approaches_wellFounded
  exists_parent _ _ := exists_parent_of_depth_lt
  approaches _ _ := hforest.approaches_meet
  eq_of_stuck _ _ _ _ := hforest.meet_of_stuck

end NestedMachine.Hierarchy
