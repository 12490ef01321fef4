import NestedMachine.Definition.Defects
import NestedMachine.Proofs.Transition.Filing
import Mathlib.Data.List.Perm.Subperm
import Mathlib.Data.List.TakeWhile
import Mathlib.Logic.Relation

/-!
# The search finds what can be reached

`explore` expands the entries of a queue, each at most once. Its invariant is `Searching`: all that was queued or expanded can be reached, and a step from an expanded entry leads to one that is expanded or waits in the queue. Where the entries come from a finite stock that the steps do not leave, a budget of one expansion for each entry of the stock is enough, since the expanded entries are distinct. So the search answers exactly what can be reached (`mem_explore_iff`). For a machine this holds whatever its transitions are, whether or not it has defects (`mem_reachable_iff`).
-/

namespace NestedMachine

section explore

variable {α : Type} {next : α → List α} {start : α}

/-- Some number of steps leads from the first to the second. -/
def Reach (next : α → List α) : α → α → Prop := Relation.ReflTransGen fun a b => b ∈ next a

/-- What holds of the queue and the expanded entries throughout a search. -/
structure Searching (next : α → List α) (start : α) (queue visited : List α) : Prop where
  start_mem : start ∈ visited ∨ start ∈ queue
  reach : ∀ a, a ∈ visited ∨ a ∈ queue → Reach next start a
  closed : ∀ a ∈ visited, ∀ b ∈ next a, b ∈ visited ∨ b ∈ queue
  nodup : visited.Nodup

theorem Searching.init (next : α → List α) (start : α) : Searching next start [start] [] where
  start_mem := .inr List.mem_cons_self
  reach a ha := by
    obtain rfl : a = start := by simpa using ha
    exact .refl
  closed := by simp
  nodup := List.nodup_nil

theorem Searching.mem_iff {queue visited : List α} (hsearching : Searching next start queue visited)
    (hqueue : ∀ a ∈ queue, a ∈ visited) (a : α) : a ∈ visited ↔ Reach next start a := by
  refine ⟨fun ha => hsearching.reach a (.inl ha), fun hreach => ?_⟩
  induction hreach with
  | refl => exact hsearching.start_mem.elim id (hqueue start)
  | tail _ hstep ih => exact (hsearching.closed _ ih _ hstep).elim id (hqueue _)

variable [DecidableEq α]

theorem Searching.expand {queue visited rest : List α} {first : α} (hsearching : Searching next start queue visited)
    (hfirst : queue.dropWhile (· ∈ visited) = first :: rest) :
    Searching next start (rest ++ next first) (first :: visited) := by
  have hsplit : queue = queue.takeWhile (· ∈ visited) ++ first :: rest := by
    rw [← hfirst, List.takeWhile_append_dropWhile]
  have hskipped : ∀ a ∈ queue.takeWhile (· ∈ visited), a ∈ visited := fun a ha => by
    simpa using List.mem_takeWhile_imp ha
  have hqueued : ∀ a ∈ queue, a ∈ first :: visited ∨ a ∈ rest ++ next first := by
    intro a ha
    rw [hsplit, List.mem_append, List.mem_cons] at ha
    rcases ha with ha | rfl | ha
    · exact .inl (List.mem_cons_of_mem _ (hskipped a ha))
    · exact .inl List.mem_cons_self
    · exact .inr (List.mem_append_left _ ha)
  have hfirst_mem : first ∈ queue := hsplit ▸ List.mem_append_right _ List.mem_cons_self
  have hreach : Reach next start first := hsearching.reach first (.inr hfirst_mem)
  have hold : ∀ a, a ∈ visited ∨ a ∈ queue → a ∈ first :: visited ∨ a ∈ rest ++ next first := fun a ha =>
    ha.elim (fun ha => .inl (List.mem_cons_of_mem _ ha)) (hqueued a)
  refine ⟨hold start hsearching.start_mem, fun a ha => ?_, fun a ha b hb => ?_, ?_⟩
  · rw [List.mem_cons, List.mem_append] at ha
    rcases ha with (rfl | ha) | ha | ha
    · exact hreach
    · exact hsearching.reach a (.inl ha)
    · exact hsearching.reach a (.inr (hsplit ▸ List.mem_append_right _ (List.mem_cons_of_mem _ ha)))
    · exact hreach.tail ha
  · rcases List.mem_cons.1 ha with rfl | ha
    · exact .inr (List.mem_append_right _ hb)
    · exact hold b (hsearching.closed a ha b hb)
  · have hnew : first ∉ visited := by
      have hhead := List.head?_dropWhile_not (fun a => decide (a ∈ visited)) queue
      simpa [hfirst] using hhead
    exact List.nodup_cons.2 ⟨hnew, hsearching.nodup⟩

theorem Searching.mem_explore_iff {stock : List α} (hclosed : ∀ a ∈ stock, ∀ b ∈ next a, b ∈ stock)
    {budget : Nat} {queue visited : List α} (hsearching : Searching next start queue visited)
    (hqueue : ∀ a ∈ queue, a ∈ stock) (hvisited : ∀ a ∈ visited, a ∈ stock)
    (hbudget : stock.length ≤ budget + visited.length) (a : α) :
    a ∈ explore next budget queue visited ↔ Reach next start a := by
  induction budget generalizing queue visited with
  | zero =>
    -- The expanded entries are distinct and as many as the stock has, so they are all of it.
    have hperm := (List.subperm_of_subset hsearching.nodup hvisited).perm_of_length_le (by omega)
    exact hsearching.mem_iff (fun b hb => hperm.mem_iff.2 (hqueue b hb)) a
  | succ budget ih =>
    rw [explore]
    split
    · next hnil => exact hsearching.mem_iff (by simpa [List.dropWhile_eq_nil_iff] using hnil) a
    · next first rest hfirst =>
      have hsuffix : first :: rest <:+ queue := hfirst ▸ List.dropWhile_suffix _
      have hfirst_mem : first ∈ stock := hqueue first (hsuffix.subset List.mem_cons_self)
      refine ih (hsearching.expand hfirst) (fun b hb => ?_) (fun b hb => ?_) (by simp; omega)
      · rcases List.mem_append.1 hb with hb | hb
        · exact hqueue b (hsuffix.subset (List.mem_cons_of_mem _ hb))
        · exact hclosed first hfirst_mem b hb
      · rcases List.mem_cons.1 hb with rfl | hb
        · exact hfirst_mem
        · exact hvisited b hb

/-- **The search answers exactly what can be reached**, if it may expand as many entries as the stock has. -/
theorem mem_explore_iff {stock : List α} (hclosed : ∀ a ∈ stock, ∀ b ∈ next a, b ∈ stock) (hstart : start ∈ stock)
    {budget : Nat} (hbudget : stock.length ≤ budget) (a : α) :
    a ∈ explore next budget [start] [] ↔ Reach next start a :=
  (Searching.init next start).mem_explore_iff hclosed (by simpa using hstart) (by simp) (by simpa using hbudget) a

end explore

namespace Machine

variable {ι κ ν γ : Type} {m : Machine ι κ ν γ} {key target start : Key}

theorem mem_moves_iff : target ∈ m.moves key ↔
    (∃ t, m.table.initialOf key = some t ∧ t.targetKey = target) ∨
      ∃ active ∈ m.hierarchy.chain key, ∃ t ∈ m.table.leaving active, t.targetKey = target := by
  simp only [moves, List.mem_append, Option.mem_toList, Option.map_eq_some_iff, List.mem_map,
    List.mem_flatMap]
  refine or_congr_right ⟨?_, ?_⟩
  · rintro ⟨t, ⟨active, hactive, ht⟩, htarget⟩
    exact ⟨active, hactive, t, ht, htarget⟩
  · rintro ⟨active, hactive, t, ht, htarget⟩
    exact ⟨t, ⟨active, hactive, ht⟩, htarget⟩

theorem exists_target_of_mem_moves (hmove : target ∈ m.moves key) : ∃ t ∈ m.table.all, t.targetKey = target := by
  rcases mem_moves_iff.1 hmove with ⟨t, ht, htarget⟩ | ⟨active, _, t, ht, htarget⟩
  · exact ⟨t, Table.mem_all_of_initialOf ht, htarget⟩
  · exact ⟨t, Table.mem_all_of_mem_leaving ht, htarget⟩

theorem moves_subset (m : Machine ι κ ν γ) (start key : Key) :
    m.moves key ⊆ start :: m.table.all.map Transition.targetKey := by
  intro target htarget
  obtain ⟨t, ht, rfl⟩ := exists_target_of_mem_moves htarget
  exact List.mem_cons_of_mem _ (List.mem_map_of_mem ht)

theorem mem_reachable_iff : key ∈ m.reachable start ↔ Reach m.moves start key :=
  mem_explore_iff (fun a _ _ hb => m.moves_subset start a hb) List.mem_cons_self (by simp) key

end Machine

end NestedMachine
