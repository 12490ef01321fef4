import NestedMachine.Proofs.Machine.Depiction

/-!
# How states are numbered

A definition numbers its states while they are being mentioned. An `Index` is what it takes for that: it holds the key of each state that has been mentioned, and the key that the next one will get. A draft looks its keys up in the list of its states instead, and the key of a new state comes from its hierarchy, which knows one key more than there are states, that of the root. All of these agree after every declaration, refused or not (`Index.Indexes.declare`). Since an index only grows, keys are given once and for all.
-/

namespace NestedMachine

variable {ι κ ν γ : Type}

/-- The keys of the states mentioned so far, and the key of the next one. -/
structure Index (ι : Type) where
  entries : List (ι × Key) := []
  next : Key := .ofPosition 0

namespace Index

variable [DecidableEq ι]

def find? (index : Index ι) (id : ι) : Option Key := index.entries.lookup id

/-- Gives the next key to a state that the index does not hold yet. -/
def enter (index : Index ι) (id : ι) : Index ι :=
  match index.find? id with
  | some _ => index
  | none => ⟨index.entries ++ [(id, index.next)], .ofPosition index.next.index⟩

/-- The index once all these declarations have been taken in, each state at its first mention. -/
def ofDeclarations (declarations : List (Declaration ι κ ν γ)) : Index ι :=
  declarations.foldl (fun index declaration => declaration.mentions.foldl enter index) {}

/-- The index holds the keys of the draft. -/
structure Indexes (index : Index ι) (d : Draft ι κ ν γ) : Prop where
  entries_eq : index.entries = d.ids.map fun id => (id, d.keyOf id)
  next_eq : index.next = ⟨d.hierarchy.size⟩

variable {index : Index ι} {d : Draft ι κ ν γ} {declarations : List (Declaration ι κ ν γ)} {id : ι} {key : Key}

namespace Indexes

variable (hindexes : index.Indexes d)
include hindexes

theorem find?_eq (id : ι) : index.find? id = if id ∈ d.ids then some (d.keyOf id) else none := by
  rw [find?, hindexes.entries_eq]
  split
  · next hid => exact List.lookup_graph d.keyOf hid
  · next hid =>
    rw [List.lookup_eq_none_iff]
    intro entry hentry
    obtain ⟨other, hother, rfl⟩ := List.mem_map.1 hentry
    exact bne_iff_ne.2 fun heq => hid (heq ▸ hother)

theorem find?_eq_some_iff : index.find? id = some key ↔ id ∈ d.ids ∧ d.keyOf id = key := by
  rw [hindexes.find?_eq]
  split
  · next hid => simp [hid]
  · next hid => simp [hid]

theorem find?_eq_some_iff_id? (haligned : d.Aligned) : index.find? id = some key ↔ d.id? key = some id := by
  rw [hindexes.find?_eq_some_iff]
  constructor
  · rintro ⟨hid, rfl⟩
    exact Draft.id?_keyOf hid
  · intro hkey
    obtain ⟨hid, rfl⟩ := haligned.eq_keyOf_of_id? hkey
    exact ⟨hid, rfl⟩

theorem mention (haligned : d.Aligned) (id : ι) : (index.enter id).Indexes (d.mention id) := by
  by_cases hid : id ∈ d.ids
  · have hsame : d.mention id = d := if_pos hid
    have hfound : index.find? id = some (d.keyOf id) := hindexes.find?_eq_some_iff.2 ⟨hid, rfl⟩
    rw [enter, hfound, hsame]
    exact hindexes
  · have hids : (d.mention id).ids = d.ids ++ [id] := by rw [Draft.ids_mention, if_neg hid]
    have hsize : (d.mention id).hierarchy.size = d.hierarchy.size + 1 := by
      rw [Draft.mention, if_neg hid]
      exact Hierarchy.size_grow _
    have hnew : d.keyOf id = ⟨d.hierarchy.size⟩ := by
      rw [Draft.keyOf, List.idxOf_eq_length hid, Hierarchy.size, haligned.length_eq]
      rfl
    have hkept : ∀ other ∈ d.ids, (d.mention id).keyOf other = d.keyOf other :=
      fun other hother => d.keyOf_mention id other (.inl hother)
    have hfound : index.find? id = none := by rw [hindexes.find?_eq, if_neg hid]
    have henter : index.enter id = ⟨index.entries ++ [(id, index.next)], .ofPosition index.next.index⟩ := by
      rw [enter, hfound]
    rw [henter]
    constructor
    · simp only [hids, List.map_append, List.map_singleton, d.keyOf_mention id id (.inr rfl), hnew,
        List.map_congr_left fun other hother => congrArg (other, ·) (hkept other hother),
        hindexes.entries_eq, hindexes.next_eq]
    · rw [hsize, hindexes.next_eq]
      rfl

theorem mentionAll (haligned : d.Aligned) (ids : List ι) : (ids.foldl enter index).Indexes (d.mentionAll ids) := by
  induction ids generalizing index d with
  | nil => exact hindexes
  | cons id rest ih => exact ih (hindexes.mention haligned id) (haligned.mention id)

theorem declare (haligned : d.Aligned) (declaration : Declaration ι κ ν γ) :
    (declaration.mentions.foldl enter index).Indexes (d.declare declaration) := by
  have hall := hindexes.mentionAll haligned declaration.mentions
  have hids := d.ids_declare declaration
  have hlength := (haligned.declare declaration).length_eq
  have hlength' := (haligned.mentionAll declaration.mentions).length_eq
  refine ⟨?_, ?_⟩
  · simp only [hall.entries_eq, Draft.keyOf, hids]
  · rw [hall.next_eq, Hierarchy.size, Hierarchy.size, hlength, hlength', hids]

end Indexes

theorem indexes_ofDeclarations (declarations : List (Declaration ι κ ν γ)) :
    (ofDeclarations declarations).Indexes (Draft.ofDeclarations declarations) := by
  induction declarations using List.reverseRecOn with
  | nil => exact ⟨rfl, rfl⟩
  | append_singleton declarations declaration ih =>
    have hdeclare := ih.declare (Draft.aligned_ofDeclarations declarations) declaration
    rw [Draft.ofDeclarations_append]
    simpa [ofDeclarations] using hdeclare

/-! ### The order of keys -/

theorem idxOf_eraseDups_lt_iff {l : List ι} {a b : ι} (hb : b ∈ l) :
    l.eraseDups.idxOf a < l.eraseDups.idxOf b ↔ l.idxOf a < l.idxOf b := by
  obtain ⟨before, after, rfl, hnew⟩ := List.eq_append_cons_of_mem hb
  have hnew' : b ∉ before.eraseDups := fun hmem => hnew (List.mem_eraseDups.1 hmem)
  obtain ⟨rest, hrest⟩ : ∃ rest, (before ++ b :: after).eraseDups = before.eraseDups ++ b :: rest := by
    rw [List.eraseDups_append, List.removeAll, List.filter_cons_of_pos (by simpa using hnew), List.eraseDups_cons]
    exact ⟨_, rfl⟩
  have hposition : (before ++ b :: after).idxOf b = before.length := by
    rw [List.idxOf_append_of_notMem hnew, List.idxOf_cons_self, Nat.add_zero]
  have hposition' : (before.eraseDups ++ b :: rest).idxOf b = before.eraseDups.length := by
    rw [List.idxOf_append_of_notMem hnew', List.idxOf_cons_self, Nat.add_zero]
  -- Either inequality says that `a` is among what comes before the first `b`.
  rw [hposition, hrest, hposition', ← (List.prefix_append before _).mem_iff_idxOf_lt_length,
    ← (List.prefix_append before.eraseDups _).mem_iff_idxOf_lt_length, List.mem_eraseDups]

/-! ### What the index says of a draft -/

/-- The index numbers the states that have been mentioned, and the draft keeps to its keys. -/
structure Numbers (index : Index ι) (mentioned : List ι) (d : Draft ι κ ν γ) : Prop where
  /-- The states that have been mentioned have a key, and no others. -/
  isSome_iff : ∀ id, (index.find? id).isSome ↔ id ∈ mentioned
  /-- No two states share a key. -/
  inj : ∀ a b key, index.find? a = some key → index.find? b = some key → a = b
  /-- The keys go from 1 to the number of states. -/
  exists_iff : ∀ key, (∃ id, index.find? id = some key) ↔ 1 ≤ key.index ∧ key.index ≤ d.states.length
  /-- The hierarchy knows one key more, that of the root. -/
  size_eq : d.hierarchy.size = d.states.length + 1
  /-- A state stands one position before its key. -/
  state_iff : ∀ position id,
    (∃ state, d.states[position]? = some state ∧ state.id = id) ↔ index.find? id = some (.ofPosition position)
  /-- Keys are given in the order of first mentions. -/
  inOrder : ∀ a b key key', index.find? a = some key → index.find? b = some key' →
    (key < key' ↔ mentioned.idxOf a < mentioned.idxOf b)
  /-- A transition knows its ends by these keys, and by that of the root if it has no source. -/
  targetKey_eq : ∀ t ∈ d.transitions, index.find? t.target = some t.targetKey
  sourceKey_eq : ∀ t ∈ d.transitions, ∀ id, t.source = some id → index.find? id = some t.sourceKey
  sourceKey_eq_root_iff : ∀ t ∈ d.transitions, t.sourceKey = .root ↔ t.source = none

theorem numbers_ofDeclarations (declarations : List (Declaration ι κ ν γ)) :
    (ofDeclarations declarations).Numbers (declarations.flatMap Declaration.mentions)
      (Draft.ofDeclarations declarations) := by
  have hindexes := indexes_ofDeclarations declarations
  have haligned := Draft.aligned_ofDeclarations declarations
  have hids := Draft.ids_ofDeclarations declarations
  rw [Definition.states] at hids
  generalize Index.ofDeclarations declarations = index at *
  generalize Draft.ofDeclarations declarations = d at *
  have hlength : d.ids.length = d.states.length := List.length_map _
  refine ⟨fun id => ?_, fun a b key ha hb => ?_, fun key => ?_, ?_, fun position id => ?_, fun a b key key' ha hb => ?_,
    fun t ht => ?_, fun t ht id hid => ?_, fun t ht => ?_⟩
  · rw [← List.mem_eraseDups, ← hids, hindexes.find?_eq, Option.isSome_ite]
  · obtain ⟨hmem, rfl⟩ := hindexes.find?_eq_some_iff.1 ha
    obtain ⟨_, hkey⟩ := hindexes.find?_eq_some_iff.1 hb
    exact (Draft.keyOf_inj hmem).1 hkey.symm
  · simp only [hindexes.find?_eq_some_iff_id? haligned, ← hlength]
    rcases key.eq_root_or_ofPosition with rfl | ⟨position, rfl⟩
    · have hzero : Key.root.index = 0 := rfl
      simp [hzero]
    · constructor
      · rintro ⟨id, hid⟩
        obtain ⟨hposition, _⟩ := List.getElem?_eq_some_iff.1 hid
        exact ⟨Nat.le_add_left 1 position, hposition⟩
      · rintro ⟨_, hposition⟩
        exact ⟨_, List.getElem?_eq_getElem hposition⟩
  · rw [Hierarchy.size, haligned.length_eq, hlength]
  · rw [hindexes.find?_eq_some_iff_id? haligned, Draft.id?_ofPosition, Draft.ids, List.getElem?_map,
      Option.map_eq_some_iff]
  · obtain ⟨hmem, rfl⟩ := hindexes.find?_eq_some_iff.1 ha
    obtain ⟨hmem', rfl⟩ := hindexes.find?_eq_some_iff.1 hb
    rw [hids, List.mem_eraseDups] at hmem'
    rw [← idxOf_eraseDups_lt_iff hmem', ← hids]
    exact Nat.add_lt_add_iff_right
  · have hnames := haligned.names t ht
    exact hindexes.find?_eq_some_iff.2 ⟨hnames.target_mem, hnames.targetKey_eq.symm⟩
  · have hnames := haligned.names t ht
    refine hindexes.find?_eq_some_iff.2 ⟨hnames.source_mem id hid, ?_⟩
    rw [hnames.sourceKey_eq, hid]
    rfl
  · have hnames := haligned.names t ht
    rw [hnames.sourceKey_eq, ← Draft.placeOf_inj hnames.source_mem]
    rfl

theorem find?_ofDeclarations_append {more : List (Declaration ι κ ν γ)}
    (hkey : (ofDeclarations declarations).find? id = some key) :
    (ofDeclarations (declarations ++ more)).find? id = some key := by
  have hbegins : (Draft.ofDeclarations declarations).ids <+: (Draft.ofDeclarations (declarations ++ more)).ids := by
    rw [Draft.ids_ofDeclarations, Draft.ids_ofDeclarations, Definition.states, Definition.states, List.flatMap_append,
      List.eraseDups_append]
    exact List.prefix_append _ _
  obtain ⟨hid, rfl⟩ := (indexes_ofDeclarations declarations).find?_eq_some_iff.1 hkey
  exact (indexes_ofDeclarations (declarations ++ more)).find?_eq_some_iff.2
    ⟨hbegins.subset hid, Draft.keyOf_extend hbegins hid⟩

end Index

/-! ### Machines -/

section

variable [DecidableEq ι] {declarations : List (Declaration ι κ ν γ)} {m : Machine ι κ ν γ} {index : Index ι}

/-- The machine looks states up as the index says, and back. -/
structure Machine.LooksUp (m : Machine ι κ ν γ) (index : Index ι) : Prop where
  key?_eq : ∀ id, m.key? id = index.find? id
  /-- No state is listed twice. -/
  nodup : m.ids.Nodup
  key?_id? : ∀ key, key ≠ .root → m.hierarchy.Contains key → ∃ id, m.id? key = some id ∧ m.key? id = some key
  id?_key? : ∀ id ∈ m.ids, ∃ key, m.key? id = some key ∧ m.id? key = some id
  id?_root : m.id? .root = none
  id?_eq_none : ∀ key, ¬ m.hierarchy.Contains key → m.id? key = none

theorem Index.Indexes.looksUp {d : Draft ι κ ν γ} (hindexes : index.Indexes d) (haligned : d.Aligned) :
    d.freeze.LooksUp index where
  key?_eq id := by
    rw [hindexes.find?_eq]
    split
    · next hid => exact Draft.key?_freeze_of_mem hid
    · next hid => exact Draft.key?_freeze_of_not_mem hid
  nodup := by
    rw [Draft.ids_freeze]
    exact haligned.nodup
  key?_id? key hroot hcontains := by
    obtain ⟨source, hsource, rfl, hid⟩ := haligned.exists_placeOf hcontains
    cases source with
    | none => exact absurd rfl hroot
    | some id => exact ⟨id, by rwa [Draft.id?_freeze], Draft.key?_freeze_of_mem (hsource id rfl)⟩
  id?_key? id hid := by
    rw [Draft.ids_freeze] at hid
    exact ⟨d.keyOf id, Draft.key?_freeze_of_mem hid, by rw [Draft.id?_freeze, Draft.id?_keyOf hid]⟩
  id?_root := rfl
  id?_eq_none key hcontains := by
    rw [Draft.id?_freeze]
    by_contra hsome
    obtain ⟨id, hid⟩ := Option.ne_none_iff_exists'.1 hsome
    obtain ⟨hmem, rfl⟩ := haligned.eq_keyOf_of_id? hid
    exact hcontains (haligned.contains_keyOf hmem)

/-- **States and keys correspond one to one.** While declarations are taken in, refused ones included, each state gets a key at its first mention, one higher than the last, and keeps it; the draft's list of states, its hierarchy and the ends of its transitions keep to these keys. A machine that is built looks them up in both directions. -/
theorem numbering_of_declarations (declarations : List (Declaration ι κ ν γ)) :
    (Index.ofDeclarations declarations).Numbers (declarations.flatMap Declaration.mentions)
        (Draft.ofDeclarations declarations) ∧
      (∀ more id key, (Index.ofDeclarations declarations).find? id = some key →
        (Index.ofDeclarations (declarations ++ more)).find? id = some key) ∧
      ∀ m, Machine.build declarations = .ok m → m.LooksUp (Index.ofDeclarations declarations) := by
  refine ⟨Index.numbers_ofDeclarations declarations, fun more id key => Index.find?_ofDeclarations_append, ?_⟩
  intro m hbuild
  obtain ⟨_, _, _, _, _, rfl⟩ := Draft.build_eq_ok_iff.1 hbuild
  exact (Index.indexes_ofDeclarations declarations).looksUp (Draft.aligned_ofDeclarations declarations)

/-- A definition that is refused: it nests a state in itself. -/
def knot : List (Declaration Nat Unit Unit Unit) := [
  .initial 4 none,
  .composite { superstate := 7, default := 7, peers := [2] },
  .rule { source := 9, target := 4 }]

/-- The states of the knot are numbered all the same, the peer that is never nested and the states that are mentioned after the refusal among them. The player is built, and keeps to its numbers. -/
theorem knot_numbering : (Draft.ofDeclarations knot).refused = some (.cyclicNesting 7 7) ∧
    (Index.ofDeclarations knot).entries = [(4, ⟨1⟩), (7, ⟨2⟩), (2, ⟨3⟩), (9, ⟨4⟩)] ∧
    (Index.ofDeclarations knot).Numbers [4, 7, 7, 2, 9, 4] (Draft.ofDeclarations knot) ∧
    Machine.build Player.declarations = .ok Player.machine ∧
    Player.machine.LooksUp (Index.ofDeclarations Player.declarations) ∧
    Player.machine.key? .paused = some ⟨4⟩ ∧ Player.machine.id? ⟨4⟩ = some .paused := by
  obtain ⟨hnumbers, _, _⟩ := numbering_of_declarations knot
  obtain ⟨_, _, hmachine⟩ := numbering_of_declarations Player.declarations
  exact ⟨rfl, rfl, hnumbers, Player.build_eq, hmachine Player.machine Player.build_eq, rfl, rfl⟩

end

end NestedMachine
