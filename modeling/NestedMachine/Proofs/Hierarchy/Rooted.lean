import NestedMachine.Proofs.Hierarchy.Forest
import Mathlib.Algebra.GroupWithZero.Nat
import Mathlib.Data.List.Forall2
import Mathlib.Logic.Relation

/-!
# Ways up that end at the root

Every question about nesting is answered by going up: from a key to its superstate, and on from there. `Rooted` says of a hierarchy what such ways need. No state lies in itself, each state lies in one other state or under the root, and the root is so near that there are fewer hops to it than keys. A loop that goes up, with one key in hand or with several, therefore ends (`Rooted.climbs_wellFounded`), and `ancestors`, whose climb is bounded, lists a way to its very end (`Rooted.walk_ancestors`). Forests are rooted (`Forest.rooted`).
-/

namespace NestedMachine.Hierarchy

variable {h : Hierarchy} {key superstate : Key} {above : List Key}

def IsAbove (h : Hierarchy) (superstate key : Key) : Prop := h.parent key = some superstate

/-- The key that so many hops up lead to, if the way is that long. -/
def hop (h : Hierarchy) : (hops : Nat) → Key → Option Key
  | 0, key => some key
  | hops + 1, key => (h.parent key).bind (h.hop hops)

/-- The keys that are passed on the way up from `key`, to the end of that way: the last of them has no superstate. -/
inductive Walk (h : Hierarchy) : Key → List Key → Prop where
  | ends {key : Key} (hparent : h.parent key = none) : Walk h key []
  | goes {key superstate : Key} {above : List Key} (hparent : h.parent key = some superstate)
      (habove : Walk h superstate above) : Walk h key (superstate :: above)

/-- One turn of a loop that has several keys in hand: it moves some of them to their superstates, and at least one. -/
def Climbs (h : Hierarchy) (moved keys : List Key) : Prop :=
  List.Forall₂ (fun after before => after = before ∨ h.IsAbove after before) moved keys ∧ moved ≠ keys

/-- Every way up ends, and from a key of the hierarchy it ends at the root. -/
structure Rooted (h : Hierarchy) : Prop where
  /-- No key is above itself, over any number of levels. -/
  acyclic : ∀ key, ¬ Relation.TransGen h.IsAbove key key
  parent_root : h.parent .root = none
  /-- A state has one superstate, and that is the root or another state. -/
  parent_unique : ∀ key ∈ h.states, ∃! superstate, h.parent key = some superstate ∧ h.Contains superstate
  /-- The root is no more hops away than there are states. -/
  reaches_root : ∀ key, h.Contains key → ∃ hops ≤ h.states.length, h.hop hops key = some .root
  /-- No loop goes up for ever, whatever keys it starts with. -/
  climbs_wellFounded : WellFounded h.Climbs
  /-- The ancestors of a key are all that lies above it: the bound of their climb is not what ends it. -/
  walk_ancestors : ∀ key, h.Walk key (h.ancestors key)

/-! ### Forests are rooted -/

theorem states_length (h : Hierarchy) : h.states.length + 1 = h.size := by
  simp [states, size]

namespace Ascent

theorem hop_eq (hkey : h.Ascent key above) : h.hop above.length key = some .root := by
  induction hkey with
  | root => rfl
  | nested hparent _ ih =>
    show (h.parent _).bind _ = _
    rw [hparent]
    exact ih

theorem walk (hkey : h.Ascent key above) : h.Walk key above := by
  induction hkey with
  | root => exact .ends h.parent_root
  | nested hparent _ ih => exact .goes hparent ih

end Ascent

namespace Forest

variable (hforest : h.Forest)
include hforest

theorem depth_lt_of_transGen {ancestor : Key} (hpath : Relation.TransGen h.IsAbove ancestor key) :
    h.depth ancestor < h.depth key := by
  induction hpath with
  | single hparent =>
    have hdepth := hforest.depth_of_parent hparent
    omega
  | tail _ hparent ih =>
    have hdepth := hforest.depth_of_parent hparent
    omega

theorem walk_ancestors (key : Key) : h.Walk key (h.ancestors key) := by
  by_cases hkey : h.Contains key
  · obtain ⟨above, habove⟩ := hforest key hkey
    rw [habove.ancestors_eq]
    exact habove.walk
  · have hparent := parent_eq_none hkey
    have hnone : h.ancestors key = [] := climb_succ_of_none _ hparent
    rw [hnone]
    exact .ends hparent

theorem sum_depth_of_climbs {moved keys : List Key}
    (hmoved : List.Forall₂ (fun after before => after = before ∨ h.IsAbove after before) moved keys) :
    (moved.map h.depth).sum ≤ (keys.map h.depth).sum ∧
      (moved ≠ keys → (moved.map h.depth).sum < (keys.map h.depth).sum) := by
  induction hmoved with
  | nil => exact ⟨Nat.le_refl _, fun hne => absurd rfl hne⟩
  | @cons after before moved keys hfirst _ ih =>
    obtain ⟨hle, hlt⟩ := ih
    simp only [List.map_cons, List.sum_cons]
    rcases hfirst with rfl | hparent
    · refine ⟨by omega, fun hne => ?_⟩
      have := hlt fun heq => hne (by rw [heq])
      omega
    · have hdepth := hforest.depth_of_parent hparent
      exact ⟨by omega, fun _ => by omega⟩

theorem climbs_wellFounded : WellFounded h.Climbs := by
  refine Subrelation.wf (r := InvImage (· < ·) fun keys => (keys.map h.depth).sum) ?_ (InvImage.wf _ Nat.lt_wfRel.wf)
  intro moved keys hclimbs
  exact (hforest.sum_depth_of_climbs hclimbs.1).2 hclimbs.2

theorem rooted : h.Rooted where
  acyclic key hcycle := Nat.lt_irrefl _ (hforest.depth_lt_of_transGen hcycle)
  parent_root := h.parent_root
  parent_unique key hkey := by
    obtain ⟨hroot, hcontains⟩ := mem_states.1 hkey
    obtain ⟨superstate, hparent⟩ := exists_parent hcontains hroot
    refine ⟨superstate, ⟨hparent, hforest.contains_parent hparent⟩, fun other hother => ?_⟩
    exact Option.some.inj (hother.1.symm.trans hparent)
  reaches_root key hkey := by
    obtain ⟨above, habove⟩ := hforest key hkey
    have hlength := habove.length_lt
    have hstates := h.states_length
    exact ⟨above.length, by omega, habove.hop_eq⟩
  climbs_wellFounded := hforest.climbs_wellFounded
  walk_ancestors := hforest.walk_ancestors

end Forest

end NestedMachine.Hierarchy
