import Mathlib.Data.List.Nodup
import Mathlib.Logic.ExistsUnique
import NestedMachine.Proofs.Transition.Filing

/-!
# A table against its list

The index of a table is redundant: a list of transitions can be cut down to those of one source without it. Filing loses nothing by it. What a query looks up at a key are the positions, in order, of the transitions that it asks for there (`filed_ofList`); each transition is asked for by one query at one key (`Query.existsUnique_asks`); so each position is filed once, and the answers of the table are those of the list, for keys with and without an entry (`found_ofList`).
-/

namespace NestedMachine

variable {ι κ ν γ : Type}

theorem filter_eq_toList_find? {α : Type} {p : α → Bool} {l : List α}
    (hone : l.Pairwise fun a b => p a → ¬ p b) : l.filter p = (l.find? p).toList := by
  induction l with
  | nil => rfl
  | cons first rest ih =>
    obtain ⟨hfirst, hrest⟩ := List.pairwise_cons.1 hone
    cases hp : p first with
    | false => simpa [hp] using ih hrest
    | true =>
      have hnone : rest.filter p = [] := List.filter_eq_nil_iff.2 fun other hother => hfirst other hother hp
      simp [hp, hnone]

/-- What can be asked of a table at a key. -/
inductive Query where
  /-- The ordinary transitions that leave the key. -/
  | leaving
  /-- The initial transition of the key. -/
  | initial

def Query.Asks (key : Key) (t : Transition ι κ ν γ) : Query → Prop
  | .leaving => t.LeavesFrom key
  | .initial => t.StartsFrom key

instance (key : Key) (t : Transition ι κ ν γ) : (query : Query) → Decidable (query.Asks key t)
  | .leaving => inferInstanceAs (Decidable (t.LeavesFrom key))
  | .initial => inferInstanceAs (Decidable (t.StartsFrom key))

theorem Query.Asks.sourceKey_eq {key : Key} {t : Transition ι κ ν γ} :
    {query : Query} → query.Asks key t → t.sourceKey = key
  | .leaving, hasks => hasks.2
  | .initial, hasks => hasks.2

theorem Query.existsUnique_asks (t : Transition ι κ ν γ) : ∃! place : Query × Key, place.1.Asks place.2 t := by
  by_cases hkind : t.kind = .initial
  · refine ⟨(.initial, t.sourceKey), ⟨hkind, rfl⟩, ?_⟩
    rintro ⟨_ | _, key⟩ hasks
    · exact absurd hkind hasks.1
    · rw [hasks.sourceKey_eq]
  · refine ⟨(.leaving, t.sourceKey), ⟨hkind, rfl⟩, ?_⟩
    rintro ⟨_ | _, key⟩ hasks
    · rw [hasks.sourceKey_eq]
    · exact absurd hasks.1 hkind

theorem OneInitialEach.filter_startsFrom {transitions : List (Transition ι κ ν γ)}
    (hone : OneInitialEach transitions) (key : Key) :
    transitions.zipIdx.filter (fun entry => entry.1.StartsFrom key) =
      (transitions.zipIdx.reverse.find? fun entry => entry.1.StartsFrom key).toList := by
  have hentries : (transitions.zipIdx.map Prod.fst).Pairwise
      fun t other => decide (t.StartsFrom key) → ¬ decide (other.StartsFrom key) := by
    rw [List.zipIdx_map_fst]
    exact hone.pairwise_startsFrom key
  have hpairwise := List.pairwise_map.1 hentries
  rw [find?_reverse_of_pairwise hpairwise, filter_eq_toList_find? hpairwise]

namespace Table

/-- The positions that the query looks up at this key. -/
def filed (table : Table ι κ ν γ) (key : Key) : Query → List Nat
  | .leaving => table.outgoing[key.index]?.getD []
  | .initial => (table.initial[key.index]?.getD none).toList

def found (table : Table ι κ ν γ) (key : Key) : Query → List (Transition ι κ ν γ)
  | .leaving => table.leaving key
  | .initial => (table.initialOf key).toList

theorem found_eq_filterMap (table : Table ι κ ν γ) (key : Key) (query : Query) :
    table.found key query = (table.filed key query).filterMap (table.all[·]?) := by
  cases query with
  | leaving => rfl
  | initial =>
    rw [found, filed, initialOf]
    cases table.initial[key.index]?.getD none with
    | none => rfl
    | some position => cases hfind : table.all[position]? <;> simp [hfind]

/-- The table is an index of the transitions, with entries for the first `size` keys. -/
structure IsIndexOf (table : Table ι κ ν γ) (size : Nat) (transitions : List (Transition ι κ ν γ)) : Prop where
  all_eq : table.all = transitions
  covers : table.Covers size
  /-- No position that is looked up lies beyond the list. -/
  map_filed : ∀ query key, (table.filed key query).map (table.all[·]?) = (table.found key query).map some
  leaving_eq : ∀ key, table.leaving key = transitions.filter fun t => t.LeavesFrom key
  initialOf_eq_some_iff : ∀ key t, table.initialOf key = some t ↔ t ∈ transitions ∧ t.StartsFrom key
  filed_sorted : ∀ query key, (table.filed key query).Pairwise (· < ·)
  existsUnique_filed : ∀ position < transitions.length,
    ∃! place : Query × Key, position ∈ table.filed place.2 place.1
  existsUnique_found : ∀ t ∈ transitions, ∃! place : Query × Key, t ∈ table.found place.2 place.1

section ofList

variable {size : Nat} {transitions : List (Transition ι κ ν γ)} {query : Query} {key : Key}
  {t : Transition ι κ ν γ} {position : Nat}
variable (hsources : ∀ t ∈ transitions, t.sourceKey.index < size) (hone : OneInitialEach transitions)
include hsources hone

/-- **What is looked up are the positions of what is asked for**, in order, whether or not the key has an entry. -/
theorem filed_ofList (query : Query) (key : Key) :
    (ofList size transitions).filed key query =
      (transitions.zipIdx.filter fun entry => query.Asks key entry.1).map Prod.snd := by
  by_cases hkey : key.index < size
  · cases query with
    | leaving =>
      change _ = (transitions.zipIdx.filter fun entry => entry.1.LeavesFrom key).map Prod.snd
      rw [filed, ofList_eq_fileAll, outgoing_fileAll]
      simp [hkey]
    | initial =>
      change _ = (transitions.zipIdx.filter fun entry => entry.1.StartsFrom key).map Prod.snd
      rw [filed, ofList_eq_fileAll, initial_fileAll, hone.filter_startsFrom]
      simp [hkey, Option.toList_map]
  · have hnone : transitions.zipIdx.filter (fun entry => query.Asks key entry.1) = [] := by
      rw [List.filter_eq_nil_iff]
      intro entry hentry hasks
      have hsource := (of_decide_eq_true hasks).sourceKey_eq
      exact hkey (hsource ▸ hsources entry.1 (List.fst_mem_of_mem_zipIdx hentry))
    have hcovers := covers_ofList size transitions
    rw [hnone]
    cases query with
    | leaving => simp [filed, hcovers.outgoing_length, Nat.le_of_not_lt hkey]
    | initial => simp [filed, hcovers.initial_length, Nat.le_of_not_lt hkey]

theorem mem_filed_ofList_iff :
    position ∈ (ofList size transitions).filed key query ↔
      ∃ t, transitions[position]? = some t ∧ query.Asks key t := by
  simp [filed_ofList hsources hone, List.mem_zipIdx_iff_getElem?]

theorem found_ofList (query : Query) (key : Key) :
    (ofList size transitions).found key query = transitions.filter fun t => query.Asks key t := by
  rw [found_eq_filterMap, filed_ofList hsources hone, all_ofList,
    filterMap_getElem?_positions _ fun entry hentry => (List.mem_filter.1 hentry).1]
  have hmap : (transitions.zipIdx.map Prod.fst).filter (fun t => decide (query.Asks key t)) =
      (transitions.zipIdx.filter fun entry => query.Asks key entry.1).map Prod.fst := List.filter_map
  rw [← hmap, List.zipIdx_map_fst]

theorem mem_found_ofList_iff :
    t ∈ (ofList size transitions).found key query ↔ t ∈ transitions ∧ query.Asks key t := by
  simp [found_ofList hsources hone]

theorem map_filed_ofList (query : Query) (key : Key) :
    ((ofList size transitions).filed key query).map ((ofList size transitions).all[·]?) =
      ((ofList size transitions).found key query).map some := by
  rw [found_eq_filterMap, List.map_filterMap_some_eq_filter_map_isSome, eq_comm, List.filter_eq_self]
  intro looked hlooked
  obtain ⟨position, hposition, rfl⟩ := List.mem_map.1 hlooked
  obtain ⟨t, ht, -⟩ := (mem_filed_ofList_iff hsources hone).1 hposition
  simp [ht]

theorem sorted_filed_ofList (query : Query) (key : Key) :
    ((ofList size transitions).filed key query).Pairwise (· < ·) := by
  have hpositions : (transitions.zipIdx.map Prod.snd).Pairwise (· < ·) := by
    rw [List.zipIdx_map_snd]
    exact List.pairwise_lt_range'
  rw [filed_ofList hsources hone]
  exact hpositions.sublist (List.filter_sublist.map _)

/-- **A table loses nothing and makes nothing up.** Where sources have an entry and none of them has two initial transitions, what leaves a key are the ordinary transitions of that source, in the order of registration; what it starts with is its initial transition if it has one; and this is so for all keys. No look-up fails, and every transition is found at one key, by one query, once. -/
theorem isIndexOf_ofList : (ofList size transitions).IsIndexOf size transitions where
  all_eq := all_ofList size transitions
  covers := covers_ofList size transitions
  map_filed := map_filed_ofList hsources hone
  leaving_eq key := found_ofList hsources hone .leaving key
  initialOf_eq_some_iff key t := by
    have hfound : t ∈ (ofList size transitions).found key .initial ↔ t ∈ transitions ∧ t.StartsFrom key :=
      mem_found_ofList_iff hsources hone
    rwa [found, Option.mem_toList] at hfound
  filed_sorted := sorted_filed_ofList hsources hone
  existsUnique_filed position hposition := by
    refine (existsUnique_congr fun place => ?_).2 (Query.existsUnique_asks transitions[position])
    simp [mem_filed_ofList_iff hsources hone, hposition]
  existsUnique_found t ht := by
    refine (existsUnique_congr fun place => ?_).2 (Query.existsUnique_asks t)
    simp [mem_found_ofList_iff hsources hone, ht]

end ofList

/-- Transitions of two states and of the root, with their kinds and sources mixed. -/
def interleaved : List (Transition Nat Nat Nat Nat) :=
  [{ source := some 1, target := 2, sourceKey := ⟨1⟩, targetKey := ⟨2⟩, kind := .external },
    { source := none, target := 1, sourceKey := ⟨0⟩, targetKey := ⟨1⟩, kind := .initial },
    { source := some 2, target := 1, sourceKey := ⟨2⟩, targetKey := ⟨1⟩, kind := .local },
    { source := some 1, target := 2, sourceKey := ⟨1⟩, targetKey := ⟨2⟩, kind := .initial },
    { source := some 1, target := 1, sourceKey := ⟨1⟩, targetKey := ⟨1⟩, kind := .external }]

theorem isIndexOf_interleaved :
    (∀ t ∈ interleaved, t.sourceKey.index < 3) ∧ OneInitialEach interleaved ∧
      (ofList 3 interleaved).IsIndexOf 3 interleaved := by
  have hsources : ∀ t ∈ interleaved, t.sourceKey.index < 3 := by decide
  have hone : OneInitialEach interleaved := by
    simp [OneInitialEach, interleaved, Transition.StartsFrom]
  exact ⟨hsources, hone, isIndexOf_ofList hsources hone⟩

end Table

end NestedMachine
