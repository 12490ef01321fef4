import NestedMachine.Proofs.Hierarchy.Meeting
import NestedMachine.Proofs.Hierarchy.Rooted
import Mathlib.Order.Preorder.Chain

/-!
# Ways from one key up to another

Several queries ask for a way up, each for something else about it: whether there is one, how long it is, what it passes. `Leads` is the way itself, which goes from superstate to superstate. In a forest there is at most one way from a key to another, and `path` finds it (`Forest.path_eq_ok_iff_leads`). A key is an ancestor exactly if a way of at least one level leads to it (`Forest.isAncestor_iff_transGen`). A way can be taken apart at each key that it passes (`Leads.split`).

`Lineage` collects what follows for the queries: they agree on all keys, those without a state included (`Forest.lineage`).
-/

namespace NestedMachine.Hierarchy

variable {h : Hierarchy} {state key ancestor superstate a b c : Key} {path way : List Key}

/-- The keys that are passed on the way up from one key to another. The first key is among them, and the last is not. -/
inductive Leads (h : Hierarchy) : Key → List Key → Key → Prop where
  | here (key : Key) : Leads h key [] key
  | up {key superstate ancestor : Key} {path : List Key} (hparent : h.parent key = some superstate)
      (hrest : Leads h superstate path ancestor) : Leads h key (key :: path) ancestor

/-! ### Taking ways apart -/

namespace Leads

theorem split (hpath : h.Leads a path c) (hmem : b ∈ path) :
    ∃ lower upper, path = lower ++ upper ∧ h.Leads a lower b ∧ h.Leads b upper c := by
  induction hpath with
  | here _ => cases hmem
  | @up key superstate ancestor path hparent hrest ih =>
    rcases List.mem_cons.1 hmem with rfl | hmem
    · exact ⟨[], _, rfl, .here b, .up hparent hrest⟩
    · obtain ⟨lower, upper, rfl, hlower, hupper⟩ := ih hmem
      exact ⟨key :: lower, upper, rfl, .up hparent hlower, hupper⟩

theorem parent_isSome (hpath : h.Leads a path b) : ∀ key ∈ path, (h.parent key).isSome := by
  induction hpath with
  | here _ => simp
  | up hparent _ ih => exact List.forall_mem_cons.2 ⟨by simp [hparent], ih⟩

end Leads

/-! ### The way in a forest -/

namespace Forest

variable (hforest : h.Forest)
include hforest

theorem isAncestor_iff_transGen : h.IsAncestor ancestor state ↔ Relation.TransGen h.IsAbove ancestor state := by
  constructor
  · intro hancestor
    -- The climb to the ancestors is a walk, and whatever is passed on a walk lies above its start.
    have hwalk := hforest.walk_ancestors state
    rw [IsAncestor] at hancestor
    generalize h.ancestors state = above at hwalk hancestor
    induction hwalk with
    | ends _ => cases hancestor
    | goes hparent _ ih =>
      rcases List.mem_cons.1 hancestor with rfl | hancestor
      · exact .single hparent
      · exact (ih hancestor).tail hparent
  · intro hpath
    induction hpath with
    | single hparent => exact (hforest.isAncestor_iff hparent).2 (h.mem_chain_self ancestor)
    | tail _ hparent ih => exact (hforest.isAncestor_iff hparent).2 (mem_chain_iff.2 (.inr ih))

theorem isStrictOrder : IsStrictOrder Key h.IsAncestor where
  irrefl key hself := hforest.rooted.acyclic key (hforest.isAncestor_iff_transGen.1 hself)
  trans _ _ _ hab hbc := hforest.isAncestor_trans (mem_chain_iff.2 (.inr hab)) hbc

theorem not_mem_chain_of_parent (hparent : h.parent key = some superstate) : key ∉ h.chain superstate :=
  fun hmem => hforest.isStrictOrder.irrefl key ((hforest.isAncestor_iff hparent).2 hmem)

theorem mem_chain_of_leads (hpath : h.Leads state path ancestor) : ancestor ∈ h.chain state := by
  induction hpath with
  | here key => exact h.mem_chain_self key
  | up hparent _ ih =>
    rw [hforest.chain_of_parent hparent]
    exact List.mem_cons_of_mem _ ih

theorem takeWhile_of_leads (hpath : h.Leads state path ancestor) :
    (h.chain state).takeWhile (· ≠ ancestor) = path := by
  induction hpath with
  | here key => simp [chain]
  | @up key superstate ancestor path hparent hrest ih =>
    have hne : key ≠ ancestor := by
      rintro rfl
      exact hforest.not_mem_chain_of_parent hparent (hforest.mem_chain_of_leads hrest)
    rw [hforest.chain_of_parent hparent, List.takeWhile_cons_of_pos (by simpa using hne), ih]

theorem leads_takeWhile (hmem : ancestor ∈ h.chain state) :
    h.Leads state ((h.chain state).takeWhile (· ≠ ancestor)) ancestor := by
  have hwalk := hforest.walk_ancestors state
  rw [chain] at hmem ⊢
  generalize h.ancestors state = above at hwalk hmem ⊢
  induction hwalk with
  | ends _ =>
    obtain rfl := List.mem_singleton.1 hmem
    simpa using Leads.here ancestor
  | @goes key superstate above hparent _ ih =>
    by_cases heq : key = ancestor
    · subst heq
      simpa using Leads.here key
    · rw [List.takeWhile_cons_of_pos (by simpa using heq)]
      exact .up hparent (ih ((List.mem_cons.1 hmem).resolve_left (Ne.symm heq)))

/-- **A path is the way up**, and there is one exactly if there is such a way. -/
theorem path_eq_ok_iff_leads : h.path state ancestor = .ok path ↔ h.Leads state path ancestor := by
  rw [path_eq_ok_iff]
  constructor
  · rintro ⟨hmem, rfl⟩
    exact hforest.leads_takeWhile hmem
  · intro hpath
    exact ⟨hforest.mem_chain_of_leads hpath, (hforest.takeWhile_of_leads hpath).symm⟩

theorem nodup_of_leads (hpath : h.Leads state path ancestor) : (path ++ [ancestor]).Nodup := by
  induction hpath with
  | here _ => exact List.nodup_singleton _
  | @up key superstate ancestor path hparent hrest ih =>
    refine List.nodup_cons.2 ⟨fun hmem => hforest.not_mem_chain_of_parent hparent ?_, ih⟩
    -- Were the key passed once more, it would lie above its own superstate.
    rcases List.mem_append.1 hmem with hmem | hmem
    · obtain ⟨_, _, _, hlower, _⟩ := hrest.split hmem
      exact hforest.mem_chain_of_leads hlower
    · obtain rfl := List.mem_singleton.1 hmem
      exact hforest.mem_chain_of_leads hrest

theorem length_of_leads (hpath : h.Leads state path ancestor) : path.length + h.depth ancestor = h.depth state := by
  induction hpath with
  | here _ => exact Nat.zero_add _
  | up hparent _ ih =>
    have hdepth := hforest.depth_of_parent hparent
    rw [List.length_cons]
    omega

theorem chain_eq_of_leads_root (hpath : h.Leads state path .root) : h.chain state = path ++ [.root] := by
  have hsplit := hforest.chain_split (hforest.mem_chain_of_leads hpath)
  rwa [hforest.takeWhile_of_leads hpath, chain_root] at hsplit

theorem mem_chain_or_mem_chain (ha : a ∈ h.chain state) (hb : b ∈ h.chain state) : a ∈ h.chain b ∨ b ∈ h.chain a := by
  rw [hforest.chain_split ha] at hb
  rcases List.mem_append.1 hb with hbelow | habove
  · obtain ⟨_, _, _, _, hupper⟩ := (hforest.leads_takeWhile ha).split hbelow
    exact .inl (hforest.mem_chain_of_leads hupper)
  · exact .inr habove

end Forest

/-! ### What the queries say -/

/-- The queries about ancestors, depths and paths agree with each other and with the superstates, for all keys. -/
structure Lineage (h : Hierarchy) : Prop where
  /-- The ancestors of a key are what is above it, over any number of levels. -/
  isAncestor_iff : ∀ ancestor state, h.IsAncestor ancestor state ↔ Relation.TransGen h.IsAbove ancestor state
  isStrictOrder : IsStrictOrder Key h.IsAncestor
  /-- Of two ancestors of one key, one is an ancestor of the other. -/
  isChain : ∀ state, IsChain h.IsAncestor {ancestor | h.IsAncestor ancestor state}
  /-- There is a path to a key exactly from itself and from what it contains. -/
  path_isOk_iff : ∀ state ancestor,
    (∃ path, h.path state ancestor = .ok path) ↔ ancestor = state ∨ h.IsAncestor ancestor state
  /-- Where there is none, the error names the two keys that were asked for. -/
  path_eq_error : ∀ state ancestor, ¬ (ancestor = state ∨ h.IsAncestor ancestor state) →
    h.path state ancestor = .error ⟨state, ancestor⟩ ∧ h.pathThrough state ancestor = .error ⟨state, ancestor⟩
  /-- A path goes from superstate to superstate, and never finds one missing. -/
  leads_of_path : ∀ state ancestor path, h.path state ancestor = .ok path →
    h.Leads state path ancestor ∧ ∀ key ∈ path, (h.parent key).isSome
  pathThrough_eq : ∀ state ancestor path, h.path state ancestor = .ok path →
    h.pathThrough state ancestor = .ok (path ++ [ancestor]) ∧ (path ++ [ancestor]).Nodup
  /-- It is as long as there are levels between its ends. -/
  length_path : ∀ state ancestor path, h.path state ancestor = .ok path →
    h.depth ancestor ≤ h.depth state ∧ path.length = h.depth state - h.depth ancestor
  /-- A path is made of the paths to and from any key on the way. -/
  path_append : ∀ state key ancestor way, h.pathThrough state ancestor = .ok way → key ∈ way →
    ∃ lower upper, h.path state key = .ok lower ∧ h.path key ancestor = .ok upper ∧
      h.path state ancestor = .ok (lower ++ upper)
  /-- The chain of a state is its path to the root, with the root. -/
  pathThrough_root : ∀ state, h.Contains state →
    h.pathThrough state .root = .ok (h.chain state) ∧ (h.chain state).length = h.depth state + 1

theorem pathThrough_eq_ok_iff : h.pathThrough state ancestor = .ok way ↔
    ∃ path, h.path state ancestor = .ok path ∧ way = path ++ [ancestor] := by
  unfold pathThrough
  cases h.path state ancestor with
  | error error => simp [Except.map]
  | ok path => simp [Except.map, eq_comm]

theorem Forest.lineage (hforest : h.Forest) : h.Lineage where
  isAncestor_iff ancestor state := hforest.isAncestor_iff_transGen
  isStrictOrder := hforest.isStrictOrder
  isChain state := by
    intro a ha b hb hne
    have hchain := hforest.mem_chain_or_mem_chain (mem_chain_iff.2 (.inr ha)) (mem_chain_iff.2 (.inr hb))
    rw [mem_chain_iff, mem_chain_iff] at hchain
    exact hchain.imp (·.resolve_left hne) (·.resolve_left (Ne.symm hne))
  path_isOk_iff state ancestor := by
    rw [← mem_chain_iff]
    refine ⟨fun ⟨path, hpath⟩ => (path_eq_ok_iff.1 hpath).1, fun hmem => ?_⟩
    exact ⟨_, path_eq_ok_iff.2 ⟨hmem, rfl⟩⟩
  path_eq_error state ancestor hmem := by
    rw [← mem_chain_iff] at hmem
    have herror := path_eq_error_iff.2 ⟨hmem, rfl⟩
    exact ⟨herror, by rw [pathThrough, herror]; rfl⟩
  leads_of_path state ancestor path hpath := by
    have hleads := hforest.path_eq_ok_iff_leads.1 hpath
    exact ⟨hleads, hleads.parent_isSome⟩
  pathThrough_eq state ancestor path hpath :=
    ⟨pathThrough_eq_ok_iff.2 ⟨path, hpath, rfl⟩, hforest.nodup_of_leads (hforest.path_eq_ok_iff_leads.1 hpath)⟩
  length_path state ancestor path hpath := by
    have hlength := hforest.length_of_leads (hforest.path_eq_ok_iff_leads.1 hpath)
    omega
  path_append state key ancestor way hway hmem := by
    obtain ⟨path, hpath, rfl⟩ := pathThrough_eq_ok_iff.1 hway
    simp only [hforest.path_eq_ok_iff_leads] at hpath ⊢
    rcases List.mem_append.1 hmem with hmem | hmem
    · obtain ⟨lower, upper, rfl, hlower, hupper⟩ := hpath.split hmem
      exact ⟨lower, upper, hlower, hupper, hpath⟩
    · obtain rfl := List.mem_singleton.1 hmem
      exact ⟨path, [], hpath, .here key, by rwa [List.append_nil]⟩
  pathThrough_root state hstate := by
    have hpath := hforest.leads_takeWhile (hforest.root_mem_chain hstate)
    refine ⟨pathThrough_eq_ok_iff.2 ⟨_, hforest.path_eq_ok_iff_leads.2 hpath, ?_⟩, length_chain h state⟩
    exact hforest.chain_eq_of_leads_root hpath

end NestedMachine.Hierarchy
