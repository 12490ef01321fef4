import NestedMachine.Proofs.Definition.Rearrangement
import NestedMachine.Proofs.Machine.Cascade
import NestedMachine.Proofs.Run.Parts
import NestedMachine.Proofs.Run.Route
import Mathlib.Data.List.Forall2

/-!
# The same machine with other keys

Two machines may have the same states, nesting, behaviours and initial transitions, and the same ordinary transitions in another order (`Machine.Reordered`). Their keys differ then, and a key of the one `Corresponds` to the key of the other that belongs to the same state. What one machine finds out about a key, the other finds out about the corresponding key: the states on the way up (`Twins.chain`), where two of them meet and the route between them (`Twins.route`), and the way down to a leaf (`Twins.defaults`). A signal triggers the same transitions in both, but not in the same order (`Twins.triggered_perm`).
-/

namespace NestedMachine

variable {ι κ ν γ : Type}

/-! ### Lists and options -/

section lists

open List

variable {α β δ : Type} {R : α → β → Prop} {l : List α} {l' : List β}

theorem forall₂_takeWhile {p : α → Bool} {q : β → Bool} (hpq : ∀ a b, R a b → p a = q b) (hl : Forall₂ R l l') :
    Forall₂ R (l.takeWhile p) (l'.takeWhile q) := by
  induction hl with
  | nil => exact .nil
  | @cons a b _ _ hab _ ih =>
    rw [takeWhile_cons, takeWhile_cons, hpq a b hab]
    split
    · exact .cons hab ih
    · exact .nil

theorem rel_find? {p : α → Bool} {q : β → Bool} (hpq : ∀ a b, R a b → p a = q b) (hl : Forall₂ R l l') :
    Option.Rel R (l.find? p) (l'.find? q) := by
  induction hl with
  | nil => exact .none
  | @cons a b _ _ hab _ ih =>
    rw [find?_cons, find?_cons, hpq a b hab]
    split
    · exact .some hab
    · exact ih

theorem eq_none_of_rel {other : Option β} (hrel : Option.Rel R none other) : other = none := by
  cases hrel
  rfl

theorem exists_of_rel_some {a : α} {other : Option β} (hrel : Option.Rel R (some a) other) :
    ∃ b, other = some b ∧ R a b := by
  cases hrel with
  | some hab => exact ⟨_, rfl, hab⟩

theorem perm_flatMap_of_forall₂ {f : α → List δ} {g : β → List δ} (hfg : ∀ a b, R a b → (f a).Perm (g b))
    (hl : Forall₂ R l l') : (l.flatMap f).Perm (l'.flatMap g) := by
  induction hl with
  | nil => exact .nil
  | cons hab _ ih => exact (hfg _ _ hab).append ih

theorem perm_map_filter {f : α → δ} {g : β → δ} {p : α → Bool} {q : β → Bool}
    (hpq : ∀ a ∈ l, ∀ b ∈ l', f a = g b → p a = q b) (hperm : (l.map f).Perm (l'.map g)) :
    ((l.filter p).map f).Perm ((l'.filter q).map g) := by
  classical
  -- Both predicates are one predicate on the images: that some element of the second list with this image is kept.
  have hleft : ∀ a ∈ l, p a = decide (∃ b ∈ l', g b = f a ∧ q b = true) := by
    intro a ha
    obtain ⟨b, hb, hba⟩ := mem_map.1 (hperm.mem_iff.1 (mem_map_of_mem ha))
    rw [Bool.eq_iff_iff, decide_eq_true_iff]
    constructor
    · intro hp
      exact ⟨b, hb, hba, hpq a ha b hb hba.symm ▸ hp⟩
    · rintro ⟨b, hb, hba, hq⟩
      rwa [hpq a ha b hb hba.symm]
  have hright : ∀ b ∈ l', q b = decide (∃ b' ∈ l', g b' = g b ∧ q b' = true) := by
    intro b hb
    obtain ⟨a, ha, hab⟩ := mem_map.1 (hperm.mem_iff.2 (mem_map_of_mem hb))
    rw [← hpq a ha b hb hab, hleft a ha, hab]
  rw [filter_congr hleft, filter_congr hright]
  have hkept := hperm.filter fun d => decide (∃ b ∈ l', g b = d ∧ q b = true)
  rwa [filter_map, filter_map] at hkept

end lists

/-! ### Transitions without their keys -/

namespace Transition

variable {t t' : Transition ι κ ν γ}

theorem trigger_eq (hclause : t.clause = t'.clause) : t.trigger = t'.trigger := congrArg Clause.trigger hclause

theorem guard_eq (hclause : t.clause = t'.clause) : t.guard = t'.guard := congrArg Clause.guard hclause

theorem action_eq (hclause : t.clause = t'.clause) : t.action = t'.action := congrArg Clause.action hclause

theorem kind_eq (hclause : t.clause = t'.clause) : t.kind = t'.kind :=
  congrArg (fun clause => clause.kind) hclause

theorem edge_eq (hclause : t.clause = t'.clause) : t.edge = t'.edge :=
  congrArg (fun clause => clause.edge) hclause

theorem awaits_eq [DecidableEq κ] (hclause : t.clause = t'.clause) : t.awaits = t'.awaits := by
  unfold awaits
  rw [trigger_eq hclause]

end Transition

namespace Machine

def ordinaryClauses (m : Machine ι κ ν γ) : List (Clause ι κ ν γ) :=
  (m.table.all.map Transition.clause).filter fun clause => clause.kind ≠ .initial

variable [DecidableEq ι] {m m' : Machine ι κ ν γ}

/-- The machines have the same states, nesting, behaviours, initial transitions and limit, and the same ordinary transitions in some order. -/
structure Reordered (m m' : Machine ι κ ν γ) : Prop where
  ids_perm : m.ids.Perm m'.ids
  superstate?_eq : ∀ id, m.superstate? id = m'.superstate? id
  isFinal_eq : ∀ id, m.isFinal id = m'.isFinal id
  behavior?_eq : ∀ id, m.behavior? id = m'.behavior? id
  initialClause?_eq : ∀ source, m.initialClause? source = m'.initialClause? source
  ordinary_perm : m.ordinaryClauses.Perm m'.ordinaryClauses
  limit_eq : m.limit = m'.limit

theorem Alike.reordered (halike : m.Alike m') : m.Reordered m' where
  ids_perm := halike.ids_perm
  superstate?_eq := halike.superstate?_eq
  isFinal_eq := halike.isFinal_eq
  behavior?_eq := halike.behavior?_eq
  initialClause?_eq := halike.initialClause?_eq
  ordinary_perm := halike.clauses_perm.filter _
  limit_eq := halike.limit_eq

/-! ### Corresponding keys -/

omit [DecidableEq ι] in
/-- The keys belong to states of the same identity, or both are the root. -/
structure Corresponds (m m' : Machine ι κ ν γ) (key key' : Key) : Prop where
  left : m.hierarchy.Contains key
  right : m'.hierarchy.Contains key'
  id?_eq : m.id? key = m'.id? key'

omit [DecidableEq ι] in
/-- The transitions are the same but for their keys, which correspond. -/
structure Twin (m m' : Machine ι κ ν γ) (t t' : Transition ι κ ν γ) : Prop where
  clause_eq : t.clause = t'.clause
  source : Corresponds m m' t.sourceKey t'.sourceKey
  target : Corresponds m m' t.targetKey t'.targetKey

omit [DecidableEq ι] in
theorem Corresponds.root : Corresponds m m' .root .root where
  left := Hierarchy.contains_root _
  right := Hierarchy.contains_root _
  id?_eq := rfl

namespace Coherent

variable (hcoherent : m.Coherent) {key key' : Key} {id : ι}
include hcoherent

/-! What is asked of a state by name is asked of its key. -/

theorem behavior?_of_state? {state : State ι κ ν γ} (hstate : m.state? key = some state) :
    m.behavior? state.id = some state.behavior := by
  rw [behavior?, (key?_eq_some_iff hcoherent.nodup).2 (id?_eq_of_state? hstate), Option.bind_some, hstate,
    Option.map_some]

theorem initialClause?_of_id? (hkey : m.hierarchy.Contains key) :
    m.initialClause? (m.id? key) = (m.table.initialOf key).map Transition.clause := by
  have hplace : (m.id? key).elim (some Key.root) m.key? = some key := by
    cases hid : m.id? key with
    | none => rw [Option.elim_none, (hcoherent.id?_eq_none_iff hkey).1 hid]
    | some id => rw [Option.elim_some, (key?_eq_some_iff hcoherent.nodup).2 hid]
  rw [initialClause?, hplace, Option.bind_some]

theorem map_clause_leaving (hkey : m.hierarchy.Contains key) : (m.table.leaving key).map Transition.clause =
    m.ordinaryClauses.filter fun clause => clause.edge.source = m.id? key := by
  rw [hcoherent.leaving_eq, ordinaryClauses, List.filter_filter, List.filter_map]
  congr 1
  refine List.filter_congr fun t ht => ?_
  have hsource : t.source = m.id? key ↔ t.sourceKey = key := by
    rw [← hcoherent.id?_source t ht]
    exact hcoherent.id?_inj (hcoherent.contains_source t ht) hkey
  have hleaves : t.LeavesFrom key ↔ t.source = m.id? key ∧ t.kind ≠ .initial := by
    rw [hsource]
    exact and_comm
  rw [Bool.eq_iff_iff, Function.comp_apply, Bool.and_eq_true, decide_eq_true_iff, decide_eq_true_iff, decide_eq_true_iff]
  exact hleaves

end Coherent

/-- Two machines that fit together and differ in their keys and the order of their transitions. -/
structure Twins (m m' : Machine ι κ ν γ) : Prop where
  left : m.Coherent
  right : m'.Coherent
  reordered : m.Reordered m'

namespace Twins

open List

variable (htwins : m.Twins m') {a a' b b' c c' : Key}
include htwins

theorem eq_iff (ha : Corresponds m m' a a') (hb : Corresponds m m' b b') : a = b ↔ a' = b' := by
  rw [← htwins.left.id?_inj ha.left hb.left, ← htwins.right.id?_inj ha.right hb.right, ha.id?_eq, hb.id?_eq]

theorem eq_root_iff (ha : Corresponds m m' a a') : a = .root ↔ a' = .root := htwins.eq_iff ha .root

theorem biUnique : Relator.BiUnique (Corresponds m m') :=
  ⟨fun _ _ _ ha hb => (htwins.eq_iff ha hb).2 rfl, fun _ _ _ ha hb => (htwins.eq_iff ha hb).1 rfl⟩

theorem state?_eq (ha : Corresponds m m' a a') : m.state? a = m'.state? a' := by
  cases hid : m.id? a with
  | none =>
    obtain rfl := (htwins.left.id?_eq_none_iff ha.left).1 hid
    obtain rfl := (htwins.eq_root_iff ha).1 rfl
    rfl
  | some id =>
    obtain ⟨state, hstate, rfl⟩ := exists_state_of_id? hid
    obtain ⟨state', hstate', hsame⟩ := exists_state_of_id? (ha.id?_eq.symm.trans hid)
    have hfinal := htwins.reordered.isFinal_eq state.id
    rw [htwins.left.isFinal_of_state? hstate, ← hsame, htwins.right.isFinal_of_state? hstate'] at hfinal
    have hbehavior := htwins.reordered.behavior?_eq state.id
    rw [htwins.left.behavior?_of_state? hstate, ← hsame, htwins.right.behavior?_of_state? hstate'] at hbehavior
    obtain ⟨_, behavior, isFinal⟩ := state
    obtain ⟨_, behavior', isFinal'⟩ := state'
    obtain rfl : _ = _ := hsame
    obtain rfl : isFinal = isFinal' := hfinal
    obtain rfl : behavior = behavior' := Option.some.inj hbehavior
    rw [hstate, hstate']

theorem key? (id : ι) : Option.Rel (Corresponds m m') (m.key? id) (m'.key? id) := by
  cases hkey : m.key? id with
  | none =>
    have hid : id ∉ m.ids := by
      intro hmem
      simp [Machine.key?, hmem] at hkey
    rw [Machine.key?, if_neg fun hmem => hid (htwins.reordered.ids_perm.mem_iff.2 hmem)]
    exact .none
  | some key =>
    have hid := id?_eq_of_key? hkey
    obtain ⟨state, hstate, rfl⟩ := exists_state_of_id? hid
    have hmem := htwins.reordered.ids_perm.mem_iff.1 (mem_ids_of_state? hstate)
    have hkey' : m'.key? state.id = some (.ofPosition (m'.ids.idxOf state.id)) := if_pos hmem
    have hid' := id?_eq_of_key? hkey'
    rw [hkey']
    exact .some ⟨htwins.left.contains_of_id? hid, htwins.right.contains_of_id? hid', hid.trans hid'.symm⟩

/-! ### The way up -/

theorem parent (ha : Corresponds m m' a a') :
    Option.Rel (Corresponds m m') (m.hierarchy.parent a) (m'.hierarchy.parent a') := by
  cases hid : m.id? a with
  | none =>
    obtain rfl := (htwins.left.id?_eq_none_iff ha.left).1 hid
    obtain rfl := (htwins.eq_root_iff ha).1 rfl
    exact .none
  | some id =>
    have hroot : a ≠ .root := by
      rintro rfl
      cases hid
    -- The root is a parent like any other here, and is the one that has no identity.
    obtain ⟨superstate, hparent⟩ := Hierarchy.exists_parent ha.left hroot
    obtain ⟨superstate', hparent'⟩ := Hierarchy.exists_parent ha.right (mt (htwins.eq_root_iff ha).2 hroot)
    have hsame := htwins.reordered.superstate?_eq id
    rw [htwins.left.superstate?_of_id? hid, htwins.right.superstate?_of_id? (ha.id?_eq.symm.trans hid), hparent,
      hparent'] at hsame
    rw [hparent, hparent']
    exact .some ⟨htwins.left.forest.contains_parent hparent, htwins.right.forest.contains_parent hparent', hsame⟩

theorem chain (ha : Corresponds m m' a a') :
    Forall₂ (Corresponds m m') (m.hierarchy.chain a) (m'.hierarchy.chain a') := by
  obtain ⟨above, habove⟩ := htwins.left.forest a ha.left
  -- The way up is one of the first machine; the second one follows it level by level.
  induction habove generalizing a' with
  | root =>
    obtain rfl := (htwins.eq_root_iff ha).1 rfl
    simpa using Corresponds.root
  | nested hparent _ ih =>
    obtain ⟨superstate', hparent', hsuperstate⟩ := exists_of_rel_some (hparent ▸ htwins.parent ha)
    rw [htwins.left.forest.chain_of_parent hparent, htwins.right.forest.chain_of_parent hparent']
    exact .cons ha (ih hsuperstate)

theorem activeChain (ha : Corresponds m m' a a') :
    Forall₂ (Corresponds m m') (m.hierarchy.activeChain a) (m'.hierarchy.activeChain a') := by
  refine forall₂_takeWhile (fun b b' hb => ?_) (htwins.chain ha)
  simp [htwins.eq_root_iff hb]

theorem mem_chain_iff (ha : Corresponds m m' a a') (hb : Corresponds m m' b b') :
    b ∈ m.hierarchy.chain a ↔ b' ∈ m'.hierarchy.chain a' := rel_mem htwins.biUnique hb (htwins.chain ha)

theorem meet (ha : Corresponds m m' a a') (hb : Corresponds m m' b b') :
    Corresponds m m' (m.hierarchy.meet a b) (m'.hierarchy.meet a' b') := by
  have hfound : Option.Rel (Corresponds m m') ((m.hierarchy.chain a).find? (· ∈ m.hierarchy.chain b))
      ((m'.hierarchy.chain a').find? (· ∈ m'.hierarchy.chain b')) :=
    rel_find? (fun _ _ hc => decide_eq_decide.2 (htwins.mem_chain_iff hb hc)) (htwins.chain ha)
  unfold Hierarchy.meet
  generalize (m.hierarchy.chain a).find? _ = found at hfound ⊢
  generalize (m'.hierarchy.chain a').find? _ = found' at hfound ⊢
  cases hfound with
  | none => exact .root
  | some hcommon => exact hcommon

theorem path (ha : Corresponds m m' a a') (hb : Corresponds m m' b b') {path : List Key}
    (hpath : m.hierarchy.path a b = .ok path) :
    ∃ path', m'.hierarchy.path a' b' = .ok path' ∧ Forall₂ (Corresponds m m') path path' := by
  obtain ⟨hmem, rfl⟩ := Hierarchy.path_eq_ok_iff.1 hpath
  refine ⟨_, Hierarchy.path_eq_ok_iff.2 ⟨(htwins.mem_chain_iff ha hb).1 hmem, rfl⟩, ?_⟩
  refine forall₂_takeWhile (fun c c' hc => ?_) (htwins.chain ha)
  simp [htwins.eq_iff hc hb]

theorem route (ha : Corresponds m m' a a') (hb : Corresponds m m' b b') (hc : Corresponds m m' c c')
    {kind : Kind} {route : Route} (hroute : m.hierarchy.route a b c kind = .ok route) :
    ∃ route', m'.hierarchy.route a' b' c' kind = .ok route' ∧
      Forall₂ (Corresponds m m') route.exits route'.exits ∧
      Forall₂ (Corresponds m m') route.entries route'.entries := by
  have hcommon := htwins.meet hb hc
  obtain ⟨hactive, htarget, _⟩ := Hierarchy.route_eq_ok hroute
  have hup := Hierarchy.path_eq_ok_iff.2 ⟨hactive, rfl⟩
  have hdown := Hierarchy.path_eq_ok_iff.2 ⟨htarget, rfl⟩
  obtain ⟨up', hup', hexits⟩ := htwins.path ha hcommon hup
  obtain ⟨down', hdown', hentries⟩ := htwins.path hc hcommon hdown
  unfold Hierarchy.route at hroute ⊢
  simp only [hup, hdown, hup', hdown', bind, Except.bind, htwins.eq_iff hb hcommon, htwins.eq_iff hc hcommon] at hroute ⊢
  split at hroute
  · next hends =>
    obtain rfl := Except.ok.inj hroute
    rw [if_pos hends]
    exact ⟨_, rfl, rel_append hexits (.cons hcommon .nil), .cons hcommon (rel_reverse hentries)⟩
  · next hends =>
    obtain rfl := Except.ok.inj hroute
    rw [if_neg hends]
    exact ⟨_, rfl, hexits, rel_reverse hentries⟩

/-! ### Transitions -/

theorem twin {t t' : Transition ι κ ν γ} (ht : t ∈ m.table.all) (ht' : t' ∈ m'.table.all)
    (hclause : t.clause = t'.clause) : Twin m m' t t' where
  clause_eq := hclause
  source := ⟨htwins.left.contains_source t ht, htwins.right.contains_source t' ht', by
    rw [htwins.left.id?_source t ht, htwins.right.id?_source t' ht']
    exact congrArg Edge.source (Transition.edge_eq hclause)⟩
  target := ⟨htwins.left.contains_target ht, htwins.right.contains_target ht', by
    rw [htwins.left.id?_target t ht, htwins.right.id?_target t' ht']
    exact congrArg some (congrArg Edge.target (Transition.edge_eq hclause))⟩

theorem initialOf (ha : Corresponds m m' a a') :
    Option.Rel (Twin m m') (m.table.initialOf a) (m'.table.initialOf a') := by
  have hsame := htwins.reordered.initialClause?_eq (m.id? a)
  rw [htwins.left.initialClause?_of_id? ha.left, ha.id?_eq, htwins.right.initialClause?_of_id? ha.right] at hsame
  cases hinitial : m.table.initialOf a with
  | none =>
    rw [hinitial, Option.map_none, eq_comm, Option.map_eq_none_iff] at hsame
    rw [hsame]
    exact .none
  | some t =>
    rw [hinitial, Option.map_some, eq_comm, Option.map_eq_some_iff] at hsame
    obtain ⟨t', hinitial', hclause⟩ := hsame
    rw [hinitial']
    exact .some (htwins.twin (htwins.left.of_initialOf hinitial).1 (htwins.right.of_initialOf hinitial').1 hclause.symm)

theorem descends {hops : List (Transition ι κ ν γ)} {leaf : Key} (hdescends : m.Descends a hops leaf)
    (ha : Corresponds m m' a a') :
    ∃ hops' leaf', m'.Descends a' hops' leaf' ∧ Forall₂ (Twin m m') hops hops' ∧ Corresponds m m' leaf leaf' := by
  induction hdescends generalizing a' with
  | stop hnone => exact ⟨[], a', .stop (eq_none_of_rel (hnone ▸ htwins.initialOf ha)), .nil, ha⟩
  | hop hinitial _ ih =>
    obtain ⟨t', hinitial', ht⟩ := exists_of_rel_some (hinitial ▸ htwins.initialOf ha)
    obtain ⟨hops', leaf', hrest', hhops, hleaf⟩ := ih ht.target
    exact ⟨t' :: hops', leaf', .hop hinitial' hrest', .cons ht hhops, hleaf⟩

theorem defaults (ha : Corresponds m m' a a') : Forall₂ (Twin m m') (m.defaults a) (m'.defaults a') ∧
    Corresponds m m' (m.restingKey a) (m'.restingKey a') := by
  obtain ⟨_, _, hdescends', hhops, hleaf⟩ := htwins.descends (htwins.left.descends ha.left) ha
  obtain ⟨rfl, rfl⟩ := hdescends'.unique (htwins.right.descends ha.right)
  exact ⟨hhops, hleaf⟩

theorem leaving_perm (ha : Corresponds m m' a a') :
    ((m.table.leaving a).map Transition.clause).Perm ((m'.table.leaving a').map Transition.clause) := by
  rw [htwins.left.map_clause_leaving ha.left, htwins.right.map_clause_leaving ha.right, ha.id?_eq]
  exact htwins.reordered.ordinary_perm.filter _

/-- **A signal triggers the same transitions**, in some order. -/
theorem triggered_perm [DecidableEq κ] (ha : Corresponds m m' a a') (signal : Option (Signal ι κ ν)) :
    ((m.triggered a signal).map Transition.clause).Perm ((m'.triggered a' signal).map Transition.clause) := by
  refine perm_map_filter (fun t _ t' _ hclause => congrFun (Transition.awaits_eq hclause) signal) ?_
  rw [map_flatMap, map_flatMap]
  exact perm_flatMap_of_forall₂ (fun _ _ hb => htwins.leaving_perm hb) (htwins.activeChain ha)

end Twins

end Machine

end NestedMachine
