import Mathlib.Data.List.Induction
import NestedMachine.Transition.Table

/-!
# What a table finds

A table files positions, and its queries read transitions back. For keys that have an entry, `leaving` is the list of all transitions cut down to the ordinary ones of that source, in the same order (`leaving_ofList`), and `initialOf` is the initial transition of that source (`initialOf_ofList`), provided that no source has two. A key without an entry leads to nothing.
-/

namespace NestedMachine

variable {ι κ ν γ : Type}

/-- The transition leads from `key` and is not initial. -/
def Transition.LeavesFrom (key : Key) (t : Transition ι κ ν γ) : Prop := t.kind ≠ .initial ∧ t.sourceKey = key

def Transition.StartsFrom (key : Key) (t : Transition ι κ ν γ) : Prop := t.kind = .initial ∧ t.sourceKey = key

instance (key : Key) (t : Transition ι κ ν γ) : Decidable (t.LeavesFrom key) :=
  inferInstanceAs (Decidable (t.kind ≠ .initial ∧ t.sourceKey = key))

instance (key : Key) (t : Transition ι κ ν γ) : Decidable (t.StartsFrom key) :=
  inferInstanceAs (Decidable (t.kind = .initial ∧ t.sourceKey = key))

def OneInitialEach (transitions : List (Transition ι κ ν γ)) : Prop :=
  transitions.Pairwise fun t other => ∀ key, t.StartsFrom key → ¬ other.StartsFrom key

theorem OneInitialEach.find?_eq_some {transitions : List (Transition ι κ ν γ)} {t : Transition ι κ ν γ} {key : Key}
    (hone : OneInitialEach transitions) (ht : t ∈ transitions) (hstarts : t.StartsFrom key) :
    transitions.find? (fun t => t.StartsFrom key) = some t := by
  induction transitions with
  | nil => simp at ht
  | cons first rest ih =>
    obtain ⟨hfirst, hrest⟩ := List.pairwise_cons.1 hone
    rcases List.mem_cons.1 ht with rfl | ht
    · simp [hstarts]
    · have hne : ¬ first.StartsFrom key := fun hother => hfirst t ht key hother hstarts
      simpa [hne] using ih hrest ht

theorem OneInitialEach.pairwise_startsFrom {transitions : List (Transition ι κ ν γ)}
    (hone : OneInitialEach transitions) (key : Key) :
    transitions.Pairwise fun t other => decide (t.StartsFrom key) → ¬ decide (other.StartsFrom key) :=
  hone.imp fun hpair => by simpa using hpair key

theorem find?_reverse_of_pairwise {α : Type} {p : α → Bool} {l : List α}
    (hone : l.Pairwise fun a b => p a → ¬ p b) : l.reverse.find? p = l.find? p := by
  induction l with
  | nil => rfl
  | cons first rest ih =>
    obtain ⟨hfirst, hrest⟩ := List.pairwise_cons.1 hone
    rw [List.reverse_cons, List.find?_append, ih hrest]
    cases hp : p first with
    | false => simp [hp]
    | true =>
      have hnone : rest.find? p = none := List.find?_eq_none.2 fun other hother => hfirst other hother hp
      simp [hp, hnone]

namespace Table

def fileAll (table : Table ι κ ν γ) (entries : List (Transition ι κ ν γ × Nat)) : Table ι κ ν γ :=
  entries.foldl (fun table (t, position) => table.file t position) table

theorem ofList_eq_fileAll (size : Nat) (transitions : List (Transition ι κ ν γ)) :
    ofList size transitions =
      fileAll ⟨transitions, List.replicate size [], List.replicate size none⟩ transitions.zipIdx := rfl

/-! ### Filing one transition -/

@[simp] theorem all_file (table : Table ι κ ν γ) (t : Transition ι κ ν γ) (position : Nat) :
    (table.file t position).all = table.all := by
  unfold file
  split <;> rfl

theorem outgoing_file (table : Table ι κ ν γ) (t : Transition ι κ ν γ) (position : Nat) (key : Key) :
    (table.file t position).outgoing[key.index]? =
      table.outgoing[key.index]?.map (· ++ if t.LeavesFrom key then [position] else []) := by
  obtain ⟨index⟩ := key
  unfold file
  split
  · next hkind => simp [Transition.LeavesFrom, hkind]
  · next hkind =>
    by_cases hsource : t.sourceKey = ⟨index⟩
    · rw [if_pos ⟨hkind, hsource⟩]
      simp [hsource]
    · have hindex : t.sourceKey.index ≠ index := fun heq => hsource (by rw [← heq])
      rw [if_neg fun hleaves => hsource hleaves.2]
      simp [hindex]

theorem initial_file (table : Table ι κ ν γ) (t : Transition ι κ ν γ) (position : Nat) (key : Key) :
    (table.file t position).initial[key.index]? =
      table.initial[key.index]?.map fun filed => if t.StartsFrom key then some position else filed := by
  obtain ⟨index⟩ := key
  unfold file
  split
  · next hkind =>
    by_cases hsource : t.sourceKey = ⟨index⟩
    · have hstarts : t.StartsFrom ⟨index⟩ := ⟨hkind, hsource⟩
      by_cases hrange : index < table.initial.length
      · simp [hsource, hstarts, hrange]
      · simp [hsource, Nat.le_of_not_lt hrange]
    · have hindex : t.sourceKey.index ≠ index := fun heq => hsource (by rw [← heq])
      simp [Transition.StartsFrom, hsource, hindex]
  · next hkind =>
    have hstarts : ¬ t.StartsFrom ⟨index⟩ := fun hstarts => hkind hstarts.1
    simp [hstarts]

/-! ### Filing all of them -/

theorem all_fileAll (table : Table ι κ ν γ) (entries : List (Transition ι κ ν γ × Nat)) :
    (table.fileAll entries).all = table.all := by
  induction entries generalizing table with
  | nil => rfl
  | cons entry rest ih => exact (ih _).trans (all_file _ _ _)

theorem outgoing_fileAll (table : Table ι κ ν γ) (entries : List (Transition ι κ ν γ × Nat)) (key : Key) :
    (table.fileAll entries).outgoing[key.index]? = table.outgoing[key.index]?.map
      (· ++ (entries.filter fun entry => entry.1.LeavesFrom key).map Prod.snd) := by
  induction entries generalizing table with
  | nil => simp [fileAll]
  | cons entry rest ih =>
    obtain ⟨t, position⟩ := entry
    refine (ih (table.file t position)).trans ?_
    rw [outgoing_file, Option.map_map]
    by_cases hleaves : t.LeavesFrom key
    · simp [hleaves, Function.comp_def]
    · simp [hleaves, Function.comp_def]

theorem initial_fileAll (table : Table ι κ ν γ) (entries : List (Transition ι κ ν γ × Nat)) (key : Key) :
    (table.fileAll entries).initial[key.index]? = table.initial[key.index]?.map fun filed =>
      ((entries.reverse.find? fun entry => entry.1.StartsFrom key).map Prod.snd).or filed := by
  induction entries using List.reverseRecOn with
  | nil => simp [fileAll]
  | append_singleton earlier entry ih =>
    obtain ⟨t, position⟩ := entry
    have hlast : table.fileAll (earlier ++ [(t, position)]) = (table.fileAll earlier).file t position :=
      List.foldl_append ..
    rw [hlast, initial_file, ih, Option.map_map]
    by_cases hstarts : t.StartsFrom key
    · simp [hstarts, Function.comp_def]
    · simp [hstarts, Function.comp_def]

/-! ### Reading back -/

theorem filterMap_getElem?_positions (transitions : List (Transition ι κ ν γ))
    {entries : List (Transition ι κ ν γ × Nat)} (hentries : ∀ entry ∈ entries, entry ∈ transitions.zipIdx) :
    (entries.map Prod.snd).filterMap (transitions[·]?) = entries.map Prod.fst := by
  induction entries with
  | nil => rfl
  | cons entry rest ih =>
    have hentry : transitions[entry.2]? = some entry.1 :=
      List.mem_zipIdx_iff_getElem?.1 (hentries entry List.mem_cons_self)
    rw [List.map_cons, List.filterMap_cons, hentry, List.map_cons,
      ih fun other hother => hentries other (List.mem_cons_of_mem _ hother)]

@[simp] theorem all_ofList (size : Nat) (transitions : List (Transition ι κ ν γ)) :
    (ofList size transitions).all = transitions := all_fileAll _ _

theorem leaving_ofList {size : Nat} {key : Key} (hkey : key.index < size) (transitions : List (Transition ι κ ν γ)) :
    (ofList size transitions).leaving key = transitions.filter fun t => t.LeavesFrom key := by
  have hpositions : (ofList size transitions).outgoing[key.index]? =
      some ((transitions.zipIdx.filter fun entry => entry.1.LeavesFrom key).map Prod.snd) := by
    rw [ofList_eq_fileAll, outgoing_fileAll]
    simp [hkey]
  rw [leaving, hpositions, all_ofList, Option.getD_some,
    filterMap_getElem?_positions _ fun entry hentry => (List.mem_filter.1 hentry).1]
  have hmap : (transitions.zipIdx.map Prod.fst).filter (fun t => decide (t.LeavesFrom key)) =
      (transitions.zipIdx.filter fun entry => entry.1.LeavesFrom key).map Prod.fst := List.filter_map
  rw [← hmap, List.zipIdx_map_fst]

/-- Of several initial transitions of one source the table finds the last. -/
theorem initialOf_ofList_eq_find?_reverse {size : Nat} {key : Key} (hkey : key.index < size)
    (transitions : List (Transition ι κ ν γ)) :
    (ofList size transitions).initialOf key = transitions.reverse.find? fun t => t.StartsFrom key := by
  have hposition : (ofList size transitions).initial[key.index]? =
      some ((transitions.zipIdx.reverse.find? fun entry => entry.1.StartsFrom key).map Prod.snd) := by
    rw [ofList_eq_fileAll, initial_fileAll]
    simp [hkey]
  have hread : transitions.reverse.find? (fun t => decide (t.StartsFrom key)) =
      (transitions.zipIdx.reverse.find? fun entry => entry.1.StartsFrom key).map Prod.fst := by
    have hmap : (transitions.zipIdx.reverse.map Prod.fst).find? (fun t => decide (t.StartsFrom key)) =
        (transitions.zipIdx.reverse.find? fun entry => entry.1.StartsFrom key).map Prod.fst := List.find?_map
    rwa [List.map_reverse, List.zipIdx_map_fst] at hmap
  rw [initialOf, hposition, all_ofList, Option.getD_some, hread]
  cases hfind : transitions.zipIdx.reverse.find? (fun entry => decide (entry.1.StartsFrom key)) with
  | none => rfl
  | some entry =>
    simpa using List.mem_zipIdx_iff_getElem?.1 (List.mem_reverse.1 (List.mem_of_find?_eq_some hfind))

theorem initialOf_ofList {size : Nat} {key : Key} (hkey : key.index < size) {transitions : List (Transition ι κ ν γ)}
    (hone : OneInitialEach transitions) :
    (ofList size transitions).initialOf key = transitions.find? fun t => t.StartsFrom key :=
  (initialOf_ofList_eq_find?_reverse hkey transitions).trans (find?_reverse_of_pairwise (hone.pairwise_startsFrom key))

theorem leaving_ofList_of_le {size : Nat} {key : Key} (hkey : size ≤ key.index)
    (transitions : List (Transition ι κ ν γ)) : (ofList size transitions).leaving key = [] := by
  rw [leaving, ofList_eq_fileAll, outgoing_fileAll]
  simp [Nat.not_lt.2 hkey]

theorem initialOf_ofList_of_le {size : Nat} {key : Key} (hkey : size ≤ key.index)
    (transitions : List (Transition ι κ ν γ)) : (ofList size transitions).initialOf key = none := by
  rw [initialOf, ofList_eq_fileAll, initial_fileAll]
  simp [Nat.not_lt.2 hkey]

theorem initialOf_ofList_eq_some_iff {size : Nat} {key : Key} {transitions : List (Transition ι κ ν γ)}
    {t : Transition ι κ ν γ} :
    (ofList size transitions).initialOf key = some t ↔ key.index < size ∧ t.StartsFrom key ∧
      ∃ earlier later, transitions = earlier ++ t :: later ∧ ∀ other ∈ later, ¬ other.StartsFrom key := by
  by_cases hkey : key.index < size
  · rw [initialOf_ofList_eq_find?_reverse hkey, List.find?_eq_some_iff_append]
    simp only [hkey, true_and, decide_eq_true_eq]
    refine and_congr_right fun _ => ⟨?_, ?_⟩
    · rintro ⟨later, earlier, hsplit, hlater⟩
      refine ⟨earlier.reverse, later.reverse, ?_, fun other hother => ?_⟩
      · rw [← transitions.reverse_reverse, hsplit]
        simp
      · simpa using hlater other (List.mem_reverse.1 hother)
    · rintro ⟨earlier, later, rfl, hlater⟩
      refine ⟨later.reverse, earlier.reverse, by simp, fun other hother => ?_⟩
      simpa using hlater other (List.mem_reverse.1 hother)
  · rw [initialOf_ofList_of_le (Nat.le_of_not_lt hkey)]
    simp [hkey]

/-! ### Positions in range -/

/-- Each of the first `size` keys has an entry, and what is filed there are positions of transitions. -/
structure Covers (table : Table ι κ ν γ) (size : Nat) : Prop where
  outgoing_length : table.outgoing.length = size
  initial_length : table.initial.length = size
  outgoing_lt : ∀ positions ∈ table.outgoing, ∀ position ∈ positions, position < table.all.length
  initial_lt : ∀ position, some position ∈ table.initial → position < table.all.length

theorem Covers.file {table : Table ι κ ν γ} {size position : Nat} (hcovers : table.Covers size)
    (t : Transition ι κ ν γ) (hposition : position < table.all.length) : (table.file t position).Covers size := by
  unfold Table.file
  split
  · refine ⟨hcovers.outgoing_length, by simpa using hcovers.initial_length, hcovers.outgoing_lt, ?_⟩
    intro other hother
    rcases List.mem_or_eq_of_mem_set hother with hold | hnew
    · exact hcovers.initial_lt other hold
    · obtain rfl := Option.some.inj hnew
      exact hposition
  · refine ⟨by simpa using hcovers.outgoing_length, hcovers.initial_length, ?_, hcovers.initial_lt⟩
    intro positions hpositions other hother
    obtain ⟨index, hindex⟩ := List.mem_iff_getElem?.1 hpositions
    rw [List.getElem?_modify] at hindex
    obtain ⟨filed, hfiled, rfl⟩ := Option.map_eq_some_iff.1 hindex
    have hold := hcovers.outgoing_lt filed (List.mem_of_getElem? hfiled)
    split at hother
    · rcases List.mem_append.1 hother with hother | hother
      · exact hold other hother
      · obtain rfl := List.mem_singleton.1 hother
        exact hposition
    · exact hold other hother

theorem Covers.fileAll {table : Table ι κ ν γ} {size : Nat} {entries : List (Transition ι κ ν γ × Nat)}
    (hcovers : table.Covers size) (hentries : ∀ entry ∈ entries, entry.2 < table.all.length) :
    (table.fileAll entries).Covers size := by
  induction entries generalizing table with
  | nil => exact hcovers
  | cons entry rest ih =>
    refine ih (hcovers.file entry.1 (hentries entry List.mem_cons_self)) fun other hother => ?_
    rw [all_file]
    exact hentries other (List.mem_cons_of_mem _ hother)

/-- **Whatever is filed is found**: no position in a table lies beyond its transitions. -/
theorem covers_ofList (size : Nat) (transitions : List (Transition ι κ ν γ)) :
    (ofList size transitions).Covers size := by
  rw [ofList_eq_fileAll]
  apply Covers.fileAll
  · exact ⟨by simp, by simp, by simp +contextual [List.mem_replicate], by simp [List.mem_replicate]⟩
  · intro entry hentry
    exact (List.getElem?_eq_some_iff.1 (List.mem_zipIdx_iff_getElem?.1 hentry)).1

/-! ### Whatever the table -/

theorem mem_all_of_mem_leaving {table : Table ι κ ν γ} {key : Key} {t : Transition ι κ ν γ}
    (hmem : t ∈ table.leaving key) : t ∈ table.all := by
  obtain ⟨position, _, hposition⟩ := List.mem_filterMap.1 hmem
  exact List.mem_of_getElem? hposition

theorem mem_all_of_initialOf {table : Table ι κ ν γ} {key : Key} {t : Transition ι κ ν γ}
    (hinitial : table.initialOf key = some t) : t ∈ table.all := by
  obtain ⟨position, _, hposition⟩ := Option.bind_eq_some_iff.1 hinitial
  exact List.mem_of_getElem? hposition

end Table

end NestedMachine
