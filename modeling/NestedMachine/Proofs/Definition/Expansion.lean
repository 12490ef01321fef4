import Mathlib.Data.Prod.Lex
import Mathlib.Order.Bounds.Basic
import NestedMachine.Proofs.Definition.Nesting
import NestedMachine.Proofs.Definition.Search
import NestedMachine.Proofs.Hierarchy.Ways

/-!
# The search, turn by turn

A turn of the search takes the first entry off its queue. An entry that has been expanded before is dropped, and any other is expanded, which makes the queue longer, with entries that may be waiting already. So the queue is no measure of what is left. What goes down is the number of targets still to be expanded and, while that stays, the length of the queue (`Search.rank_lt`): the search ends wherever it starts. It then has what `explore` answers (`Search.explore_eq`), and each entry once.

What it has expanded is a least closed set. `Hierarchy.LeadsOn` says of a hierarchy and a list of transitions what a set must have to be closed, without the table, and without asking that the transitions make sense: initial transitions may form cycles, or lead out of their source. The definition of a machine that will be refused is searched like any other (`searchesExactly_of_declarations`).
-/

namespace NestedMachine

/-! ### Turns -/

/-- A search under way: the entries that wait, and those that have been expanded, the latest first. -/
structure Search (α : Type) where
  queue : List α
  visited : List α

namespace Search

variable {α : Type} {next : α → List α} {start : α} {s s' : Search α} {stock : List α}

def ofStart (start : α) : Search α := ⟨[start], []⟩

/-- Entries come from the stock, and none has been expanded twice. -/
structure Within (s : Search α) (stock : List α) : Prop where
  queue_subset : s.queue ⊆ stock
  visited_subset : s.visited ⊆ stock
  nodup : s.visited.Nodup

theorem within_ofStart (hstart : start ∈ stock) : (ofStart start).Within stock where
  queue_subset := by simpa [ofStart] using hstart
  visited_subset := List.nil_subset _
  nodup := List.nodup_nil

theorem Within.length_le (hwithin : s.Within stock) : s.visited.length ≤ stock.length :=
  (List.subperm_of_subset hwithin.nodup hwithin.visited_subset).length_le

variable [DecidableEq α]

/-- One turn, which there is while an entry waits. -/
def turn? (next : α → List α) (s : Search α) : Option (Search α) :=
  match s.queue with
  | [] => none
  | first :: rest => some (if first ∈ s.visited then ⟨rest, s.visited⟩ else ⟨rest ++ next first, first :: s.visited⟩)

def Comes (next : α → List α) : Search α → Search α → Prop :=
  Relation.ReflTransGen fun before after => before.turn? next = some after

theorem turn?_eq_none_iff : s.turn? next = none ↔ s.queue = [] := by
  unfold turn?
  split <;> simp [*]

theorem turn_cases (hturn : s.turn? next = some s') :
    (∃ first ∈ s.visited, s.queue = first :: s'.queue ∧ s'.visited = s.visited) ∨
      ∃ first rest, first ∉ s.visited ∧ s.queue = first :: rest ∧ s' = ⟨rest ++ next first, first :: s.visited⟩ := by
  obtain ⟨queue, visited⟩ := s
  cases queue with
  | nil => cases hturn
  | cons first rest =>
    obtain rfl := Option.some.inj hturn
    by_cases hfirst : first ∈ visited
    · exact .inl ⟨first, hfirst, by simp [hfirst], by simp [hfirst]⟩
    · exact .inr ⟨first, rest, hfirst, rfl, by simp [hfirst]⟩

theorem Within.turn (hclosed : ∀ a ∈ stock, next a ⊆ stock) (hwithin : s.Within stock)
    (hturn : s.turn? next = some s') : s'.Within stock := by
  obtain ⟨hqueue, hvisited, hnodup⟩ := hwithin
  rcases turn_cases hturn with ⟨first, hfirst, hsplit, hsame⟩ | ⟨first, rest, hfirst, hsplit, rfl⟩
  · rw [hsplit, List.cons_subset] at hqueue
    exact ⟨hqueue.2, hsame ▸ hvisited, hsame ▸ hnodup⟩
  · rw [hsplit, List.cons_subset] at hqueue
    exact ⟨List.append_subset.2 ⟨hqueue.2, hclosed first hqueue.1⟩, List.cons_subset.2 ⟨hqueue.1, hvisited⟩,
      List.nodup_cons.2 ⟨hfirst, hnodup⟩⟩

theorem Within.comes (hclosed : ∀ a ∈ stock, next a ⊆ stock) (hwithin : s.Within stock) (hcomes : Comes next s s') :
    s'.Within stock := by
  induction hcomes with
  | refl => exact hwithin
  | tail _ hturn ih => exact ih.turn hclosed hturn

/-! ### The end -/

/-- How much of the stock is left to expand, and for as long as that stays, how much waits. -/
def rank (stock : List α) (s : Search α) : ℕ ×ₗ ℕ := toLex (stock.length - s.visited.length, s.queue.length)

theorem rank_lt (hclosed : ∀ a ∈ stock, next a ⊆ stock) (hwithin : s.Within stock) (hturn : s.turn? next = some s') :
    s'.rank stock < s.rank stock := by
  have hlength := (hwithin.turn hclosed hturn).length_le
  rw [rank, rank, Prod.Lex.toLex_lt_toLex]
  rcases turn_cases hturn with ⟨first, _, hsplit, hsame⟩ | ⟨first, rest, _, _, rfl⟩
  · exact .inr ⟨by rw [hsame], by simp [hsplit]⟩
  · rw [List.length_cons] at hlength
    exact .inl (by rw [List.length_cons]; omega)

/-- **Every search ends** whose entries come from a stock that is closed under `next`. -/
theorem acc_of_within (hclosed : ∀ a ∈ stock, next a ⊆ stock) (hwithin : s.Within stock) :
    Acc (fun after before => before.turn? next = some after) s := by
  induction hrank : s.rank stock using WellFoundedLT.induction generalizing s with
  | ind rank ih =>
    subst hrank
    exact ⟨s, fun after hturn => ih _ (rank_lt hclosed hwithin hturn) (hwithin.turn hclosed hturn) rfl⟩

theorem exists_end (hclosed : ∀ a ∈ stock, next a ⊆ stock) (hwithin : s.Within stock) :
    ∃ last, Comes next s last ∧ last.queue = [] := by
  induction acc_of_within hclosed hwithin with
  | intro s _ ih =>
    cases hturn : s.turn? next with
    | none => exact ⟨s, .refl, turn?_eq_none_iff.1 hturn⟩
    | some after =>
      obtain ⟨last, hcomes, hend⟩ := ih after hturn (hwithin.turn hclosed hturn)
      exact ⟨last, .head hturn hcomes, hend⟩

/-! ### The answer -/

theorem explore_nil (budget : Nat) (visited : List α) : explore next budget [] visited = visited := by
  cases budget <;> rfl

theorem explore_of_mem {first : α} {rest visited : List α} (budget : Nat) (hfirst : first ∈ visited) :
    explore next budget (first :: rest) visited = explore next budget rest visited := by
  cases budget with
  | zero => rfl
  | succ budget => simp only [explore, List.dropWhile_cons, hfirst, decide_true, if_true]

theorem explore_of_not_mem {first : α} {rest visited : List α} (budget : Nat) (hfirst : first ∉ visited) :
    explore next (budget + 1) (first :: rest) visited =
      explore next budget (rest ++ next first) (first :: visited) := by
  simp [explore, hfirst]

theorem explore_turn (hclosed : ∀ a ∈ stock, next a ⊆ stock) (hwithin : s.Within stock)
    (hturn : s.turn? next = some s') :
    explore next (stock.length - s'.visited.length) s'.queue s'.visited =
      explore next (stock.length - s.visited.length) s.queue s.visited := by
  have hlength := (hwithin.turn hclosed hturn).length_le
  rcases turn_cases hturn with ⟨first, hfirst, hsplit, hsame⟩ | ⟨first, rest, hfirst, hsplit, rfl⟩
  · rw [hsplit, hsame, explore_of_mem _ hfirst]
  · rw [List.length_cons] at hlength
    have hbudget : stock.length - s.visited.length = stock.length - (s.visited.length + 1) + 1 := by omega
    rw [hsplit, hbudget, explore_of_not_mem _ hfirst, List.length_cons]

/-- **What has been expanded in the end is what `explore` answers.** -/
theorem explore_eq (hclosed : ∀ a ∈ stock, next a ⊆ stock) (hwithin : s.Within stock) (hcomes : Comes next s s')
    (hend : s'.queue = []) : s'.visited = explore next (stock.length - s.visited.length) s.queue s.visited := by
  induction hcomes using Relation.ReflTransGen.head_induction_on with
  | refl => rw [hend, explore_nil]
  | head hturn _ ih => rw [ih (hwithin.turn hclosed hturn), explore_turn hclosed hwithin hturn]

end Search

/-! ### What a set must have to be closed -/

namespace Hierarchy

variable {ι κ ν γ : Type}

/-- From `key` one gets on to the second key: by the initial transition of `key`, of several the last, or by an ordinary transition that leaves `key` or something above it. Transitions without a source in the hierarchy lead nowhere. -/
inductive LeadsOn (h : Hierarchy) (transitions : List (Transition ι κ ν γ)) (key : Key) : Key → Prop where
  | initial {earlier later : List (Transition ι κ ν γ)} {t : Transition ι κ ν γ}
      (hsplit : transitions = earlier ++ t :: later) (hstarts : t.StartsFrom key)
      (hlast : ∀ other ∈ later, ¬ other.StartsFrom key) (hsource : h.Contains t.sourceKey) :
      LeadsOn h transitions key t.targetKey
  | ordinary {active : Key} {t : Transition ι κ ν γ} (hactive : Relation.ReflTransGen h.IsAbove active key)
      (ht : t ∈ transitions) (hleaves : t.LeavesFrom active) (hsource : h.Contains t.sourceKey) :
      LeadsOn h transitions key t.targetKey

/-- With every member, the set has all that one gets on to. -/
def ClosedUnder (h : Hierarchy) (transitions : List (Transition ι κ ν γ)) (keys : Set Key) : Prop :=
  ∀ key ∈ keys, ∀ target, h.LeadsOn transitions key target → target ∈ keys

theorem Forest.mem_chain_iff_reflTransGen {h : Hierarchy} {active key : Key} (hforest : h.Forest) :
    active ∈ h.chain key ↔ Relation.ReflTransGen h.IsAbove active key := by
  rw [mem_chain_iff, hforest.isAncestor_iff_transGen, Relation.reflTransGen_iff_eq_or_transGen, eq_comm]

theorem Forest.mem_moves_iff_leadsOn {m : Machine ι κ ν γ} {key target : Key} (hforest : m.hierarchy.Forest)
    {transitions : List (Transition ι κ ν γ)} (htable : m.table = .ofList m.hierarchy.size transitions) :
    target ∈ m.moves key ↔ m.hierarchy.LeadsOn transitions key target := by
  rw [Machine.mem_moves_iff, htable]
  constructor
  · rintro (⟨t, ht, rfl⟩ | ⟨active, hactive, t, ht, rfl⟩)
    · obtain ⟨hkey, hstarts, earlier, later, hsplit, hlast⟩ := Table.initialOf_ofList_eq_some_iff.1 ht
      exact .initial hsplit hstarts hlast (hstarts.2 ▸ hkey)
    · by_cases hkey : m.hierarchy.Contains active
      · rw [Table.leaving_ofList hkey, List.mem_filter] at ht
        have hleaves : t.LeavesFrom active := of_decide_eq_true ht.2
        exact .ordinary (hforest.mem_chain_iff_reflTransGen.1 hactive) ht.1 hleaves (hleaves.2 ▸ hkey)
      · simp [Table.leaving_ofList_of_le (Nat.le_of_not_lt hkey)] at ht
  · rintro (@⟨earlier, later, t, hsplit, hstarts, hlast, hsource⟩ | @⟨active, t, hactive, ht, hleaves, hsource⟩)
    · rw [hstarts.2] at hsource
      exact .inl ⟨t, Table.initialOf_ofList_eq_some_iff.2 ⟨hsource, hstarts, earlier, later, hsplit, hlast⟩, rfl⟩
    · rw [hleaves.2] at hsource
      refine .inr ⟨active, hforest.mem_chain_iff_reflTransGen.2 hactive, t, ?_, rfl⟩
      rw [Table.leaving_ofList hsource]
      exact List.mem_filter.2 ⟨ht, decide_eq_true hleaves⟩

end Hierarchy

/-! ### The search of a machine -/

namespace Machine

variable {ι κ ν γ : Type}

/-- The search from `start` ends, and it has then expanded the least set that contains `start` and is closed under the hierarchy and the transitions. -/
structure SearchesExactly (m : Machine ι κ ν γ) (start : Key) : Prop where
  /-- Within a turn the search goes up from the entry that it expands, and that ends too. -/
  rooted : m.hierarchy.Rooted
  terminates : Acc (fun after before => before.turn? m.moves = some after) (Search.ofStart start)
  exists_end : ∃ last, Search.Comes m.moves (.ofStart start) last ∧ last.queue = []
  nodup : ∀ s, Search.Comes m.moves (.ofStart start) s → s.visited.Nodup
  visited_eq : ∀ last, Search.Comes m.moves (.ofStart start) last → last.queue = [] → last.visited = m.reachable start
  isLeast : IsLeast {keys | start ∈ keys ∧ m.hierarchy.ClosedUnder m.table.all keys} {key | key ∈ m.reachable start}

theorem isLeast_reachable (m : Machine ι κ ν γ) (start : Key) :
    IsLeast {keys : Set Key | start ∈ keys ∧ ∀ key ∈ keys, ∀ target ∈ m.moves key, target ∈ keys}
      {key | key ∈ m.reachable start} := by
  simp only [mem_reachable_iff]
  refine ⟨⟨.refl, fun key hkey target htarget => .tail hkey htarget⟩, fun keys hkeys key hkey => ?_⟩
  induction hkey with
  | refl => exact hkeys.1
  | tail _ hmove ih => exact hkeys.2 _ ih _ hmove

end Machine

/-- **The search for reachable states ends, and finds the least closed set, on whatever it is given**: for the hierarchy of any declarations, refused or not, any list of transitions, and any start. -/
theorem Draft.searchesExactly_of_declarations {ι κ ν γ : Type} [DecidableEq ι]
    (declarations : List (Declaration ι κ ν γ)) (transitions : List (Transition ι κ ν γ)) (start : Key) :
    ({ ofDeclarations declarations with transitions } : Draft ι κ ν γ).freeze.SearchesExactly start := by
  have hforest := (aligned_ofDeclarations declarations).forest
  generalize hm : ({ ofDeclarations declarations with transitions } : Draft ι κ ν γ).freeze = m
  obtain ⟨hhierarchy, htable⟩ : m.hierarchy = (ofDeclarations declarations).hierarchy ∧
      m.table = .ofList m.hierarchy.size transitions := by
    subst hm
    exact ⟨rfl, rfl⟩
  rw [← hhierarchy] at hforest
  have hclosed : ∀ key ∈ start :: m.table.all.map Transition.targetKey,
      m.moves key ⊆ start :: m.table.all.map Transition.targetKey := fun key _ => m.moves_subset start key
  have hwithin : (Search.ofStart start).Within (start :: m.table.all.map Transition.targetKey) :=
    Search.within_ofStart List.mem_cons_self
  refine ⟨hforest.rooted, Search.acc_of_within hclosed hwithin, Search.exists_end hclosed hwithin,
    fun s hcomes => (hwithin.comes hclosed hcomes).nodup, fun last hcomes hend => ?_, ?_⟩
  · rw [Search.explore_eq hclosed hwithin hcomes hend]
    simp [Machine.reachable, Search.ofStart]
  · have hleast := m.isLeast_reachable start
    simp only [hforest.mem_moves_iff_leadsOn htable] at hleast
    rw [htable, Table.all_ofList]
    exact hleast

end NestedMachine
