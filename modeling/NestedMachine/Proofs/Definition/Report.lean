import NestedMachine.Proofs.Definition.Search
import NestedMachine.Proofs.Machine.Coherence

/-!
# The report on a definition

What is wrong with a definition can be said of its declarations alone, without keys, tables or a search: `Definition.defects` lists it in the order in which it is reported, with containment and reachability as inductive relations. Where no declaration was refused, the draft is what the declarations say (`Draft.Reflects`), each condition on keys is the same condition on identities, and so the defects that are found are those of the declarations (`defects_freeze`). The machine that is built, or the error, is the one that the declarations call for.
-/

namespace NestedMachine

variable {ι κ ν γ : Type}

namespace Definition

variable (declarations : List (Declaration ι κ ν γ))

/-- The ends of a transition are equal, or one contains the other. The root contains every state. -/
def EndsRelated (edge : Edge ι) : Prop :=
  match edge.source with
  | none => True
  | some source => source = edge.target ∨ Contains declarations source edge.target ∨
      Contains declarations edge.target source

/-- The target of a transition is a direct substate of its source. Those of the root are the states that are nested in no other. -/
def LeadsInside (edge : Edge ι) : Prop :=
  match edge.source with
  | none => ∀ superstate, ¬ Nests declarations superstate edge.target
  | some source => Nests declarations source edge.target

def IsComposite (id : ι) : Prop := ∃ substate, Nests declarations id substate

def IsLeft (id : ι) : Prop := ∃ link ∈ links declarations, link.kind ≠ .initial ∧ link.edge.source = some id

/-- The states that are reached from a first one by the initial transitions of reached states and by the ordinary transitions that leave a reached state or a state that contains it. -/
inductive Reached (start : ι) : ι → Prop where
  | start : Reached start start
  | default {state : ι} {link : Link ι} (hstate : Reached start state) (hlink : link ∈ links declarations)
      (hkind : link.kind = .initial) (hsource : link.edge.source = some state) : Reached start link.edge.target
  | transition {state source : ι} {link : Link ι} (hstate : Reached start state) (hlink : link ∈ links declarations)
      (hkind : link.kind ≠ .initial) (hsource : link.edge.source = some source)
      (hactive : source = state ∨ Contains declarations source state) : Reached start link.edge.target

section defects

open Classical

/-- Local transitions whose ends are not related. -/
noncomputable def unrelatedLocals : List (Defect ι) :=
  ((links declarations).filter fun link => link.kind = .local ∧ ¬ EndsRelated declarations link.edge).map
    fun link => .unrelatedLocal link.edge

/-- Initial transitions whose target is not a direct substate of the source. -/
noncomputable def strayInitials : List (Defect ι) :=
  ((links declarations).filter fun link => link.kind = .initial ∧ ¬ LeadsInside declarations link.edge).map
    fun link => .strayInitial link.edge

/-- What is wrong with a final state. -/
noncomputable def finalDefects (id : ι) : List (Defect ι) :=
  (if IsLeft declarations id then [.finalWithTransition id] else []) ++
    (if IsComposite declarations id then [.finalWithSubstates id] else [])

variable [DecidableEq ι]

/-- What is wrong with the final states. -/
noncomputable def misusedFinals : List (Defect ι) :=
  ((states declarations).filter fun id => IsFinal declarations id).flatMap (finalDefects declarations)

/-- States without substates that are not reached. -/
noncomputable def unreachables (start : ι) : List (Defect ι) :=
  ((states declarations).filter fun id => ¬ IsComposite declarations id ∧ ¬ Reached declarations start id).map
    .unreachable

/-- All that is wrong with a definition whose initial state is `start`, in order. -/
noncomputable def defects (start : ι) : List (Defect ι) :=
  unrelatedLocals declarations ++ strayInitials declarations ++ misusedFinals declarations ++
    unreachables declarations start

end defects

theorem mem_links_root_iff {target : ι} : ⟨⟨none, target⟩, .initial⟩ ∈ links declarations ↔
    ∃ action, Declaration.initial target action ∈ declarations := by
  rw [links, List.mem_filterMap]
  constructor
  · rintro ⟨declaration, hdeclaration, hlink⟩
    cases declaration with
    | initial other action =>
      obtain rfl : other = target := by simpa [Declaration.link?] using hlink
      exact ⟨action, hdeclaration⟩
    | sketch sketch =>
      obtain ⟨rule, _, hrule⟩ := Option.map_eq_some_iff.1 hlink
      simp [Rule.link] at hrule
    | _ => simp [Declaration.link?, Rule.link] at hlink
  · rintro ⟨action, hdeclaration⟩
    exact ⟨_, hdeclaration, rfl⟩

end Definition

namespace Draft

open Definition

variable [DecidableEq ι] {d : Draft ι κ ν γ} {declarations : List (Declaration ι κ ν γ)}
variable {a b id start : ι} {t : Transition ι κ ν γ}

/-! ### The draft against the declarations -/

namespace Reflects

variable (hreflects : d.Reflects declarations)
include hreflects

theorem exists_transition {link : Link ι} (hlink : link ∈ links declarations) : ∃ t ∈ d.transitions, t.link = link := by
  rw [← hreflects.links_eq] at hlink
  exact List.mem_map.1 hlink

theorem link_mem (ht : t ∈ d.transitions) : t.link ∈ links declarations := by
  rw [← hreflects.links_eq]
  exact List.mem_map_of_mem ht

theorem map_filter_transitions {p : Transition ι κ ν γ → Bool} {q : Link ι → Bool}
    (hpq : ∀ t ∈ d.transitions, p t = q t.link) (defect : Edge ι → Defect ι) :
    (d.transitions.filter p).map (fun t => defect t.edge) =
      ((links declarations).filter q).map fun link => defect link.edge := by
  rw [← hreflects.links_eq, List.filter_map, List.map_map, List.filter_congr hpq]
  rfl

end Reflects

theorem Aligned.sourceKey_eq_keyOf_iff (haligned : d.Aligned) (ht : t ∈ d.transitions) :
    t.sourceKey = d.keyOf id ↔ t.source = some id := by
  have hnames := haligned.names t ht
  have hplace : d.placeOf t.source = d.placeOf (some id) ↔ t.source = some id := placeOf_inj hnames.source_mem
  rw [hnames.sourceKey_eq]
  exact hplace

/-! ### Nesting -/

section

variable (haligned : d.Aligned) (hnested : d.NestsAs declarations)
include haligned hnested

theorem mem_of_nests (hnests : Nests declarations a b) : a ∈ d.ids ∧ b ∈ d.ids := by
  have hsuperstate := (hnested b a).2 hnests
  refine ⟨haligned.mem_ids_of_superstate? hsuperstate, ?_⟩
  by_contra hb
  rw [haligned.superstate?_of_not_mem hb] at hsuperstate
  cases hsuperstate

theorem nests_iff_parent (ha : a ∈ d.ids) :
    Nests declarations a b ↔ d.hierarchy.parent (d.keyOf b) = some (d.keyOf a) := by
  rw [← hnested, haligned.superstate?_eq_some_iff ha]

theorem isComposite_keyOf_iff (hid : id ∈ d.ids) :
    d.hierarchy.IsComposite (d.keyOf id) ↔ IsComposite declarations id := by
  rw [Hierarchy.isComposite_iff]
  constructor
  · rintro ⟨child, hparent⟩
    obtain ⟨source, hsource, rfl, _⟩ := haligned.exists_placeOf (Hierarchy.contains_of_parent hparent)
    cases source with
    | none => simp [placeOf] at hparent
    | some substate => exact ⟨substate, (nests_iff_parent haligned hnested hid).2 hparent⟩
  · rintro ⟨substate, hnests⟩
    exact ⟨d.keyOf substate, (nests_iff_parent haligned hnested hid).1 hnests⟩

theorem isAncestor_of_contains (hcontains : Contains declarations a b) :
    d.hierarchy.IsAncestor (d.keyOf a) (d.keyOf b) := by
  induction hcontains with
  | single hnests =>
    have hparent := (nests_iff_parent haligned hnested (mem_of_nests haligned hnested hnests).1).1 hnests
    exact (haligned.forest.isAncestor_iff hparent).2 (Hierarchy.mem_chain_self _ _)
  | tail _ hnests ih =>
    have hparent := (nests_iff_parent haligned hnested (mem_of_nests haligned hnested hnests).1).1 hnests
    exact (haligned.forest.isAncestor_iff hparent).2 (Hierarchy.mem_chain_iff.2 (.inr ih))

theorem isAncestor_keyOf_iff (ha : a ∈ d.ids) (hb : b ∈ d.ids) :
    d.hierarchy.IsAncestor (d.keyOf a) (d.keyOf b) ↔ Contains declarations a b := by
  refine ⟨fun hancestor => ?_, isAncestor_of_contains haligned hnested⟩
  obtain ⟨above, habove⟩ := haligned.forest _ (haligned.contains_keyOf hb)
  -- The way up from `b` is followed one superstate at a time, until it comes to `a`.
  generalize hkey : d.keyOf b = key at *
  induction habove generalizing b with
  | root => exact absurd hkey (d.keyOf_ne_root b)
  | nested hparent _ ih =>
    subst hkey
    have hmem := (haligned.forest.isAncestor_iff hparent).1 hancestor
    obtain ⟨source, hsource, rfl, _⟩ := haligned.exists_placeOf (haligned.forest.contains_parent hparent)
    cases source with
    | none => exact absurd (by simpa [placeOf] using hmem) (d.keyOf_ne_root a)
    | some c =>
      have hc := hsource c rfl
      have hnests := (nests_iff_parent haligned hnested hc).2 hparent
      rcases Hierarchy.mem_chain_iff.1 hmem with heq | hancestor
      · obtain rfl := (keyOf_inj ha).1 heq
        exact .single hnests
      · exact (ih hc rfl hancestor).tail hnests

theorem mem_chain_keyOf_iff (ha : a ∈ d.ids) (hb : b ∈ d.ids) :
    d.keyOf a ∈ d.hierarchy.chain (d.keyOf b) ↔ a = b ∨ Contains declarations a b := by
  rw [Hierarchy.mem_chain_iff, keyOf_inj ha, isAncestor_keyOf_iff haligned hnested ha hb]

theorem mem_chain_keyOf_iff_reflTransGen (ha : a ∈ d.ids) (hb : b ∈ d.ids) :
    d.keyOf a ∈ d.hierarchy.chain (d.keyOf b) ↔ Relation.ReflTransGen (Nests declarations) a b := by
  rw [mem_chain_keyOf_iff haligned hnested ha hb, Relation.reflTransGen_iff_eq_or_transGen, eq_comm, Contains]

end

section

variable (haligned : d.Aligned) (hreflects : d.Reflects declarations)
include haligned hreflects

/-! ### Transitions -/

theorem related_iff (ht : t ∈ d.transitions) :
    d.hierarchy.Related t.sourceKey t.targetKey ↔ EndsRelated declarations t.edge := by
  obtain ⟨hsource, htarget, hsourceKey, htargetKey, _⟩ := haligned.names t ht
  rw [hsourceKey, htargetKey, EndsRelated, Transition.edge]
  cases heq : t.source with
  | none =>
    have hroot := haligned.forest.root_mem_chain (haligned.contains_keyOf htarget)
    have hancestor := (Hierarchy.mem_chain_iff.1 hroot).resolve_left (d.keyOf_ne_root _).symm
    exact iff_of_true (.inr (.inl hancestor)) trivial
  | some source =>
    have hmem := hsource source heq
    rw [Hierarchy.Related, placeOf, keyOf_inj hmem, isAncestor_keyOf_iff haligned hreflects.superstate?_eq_some_iff hmem htarget,
      isAncestor_keyOf_iff haligned hreflects.superstate?_eq_some_iff htarget hmem]

theorem parent_target_iff (ht : t ∈ d.transitions) :
    d.hierarchy.parent t.targetKey = some t.sourceKey ↔ LeadsInside declarations t.edge := by
  obtain ⟨hsource, htarget, hsourceKey, htargetKey, _⟩ := haligned.names t ht
  have hsuperstate : ∀ id, d.superstate? t.target = some id → id ∈ d.ids := fun _ => haligned.mem_ids_of_superstate?
  rw [hsourceKey, htargetKey, haligned.parent_keyOf htarget, Option.some.injEq, placeOf_inj hsuperstate, LeadsInside,
    Transition.edge]
  cases t.source with
  | none => simp only [Option.eq_none_iff_forall_ne_some, hreflects.superstate?_eq_some_iff, ne_eq]
  | some source => exact hreflects.superstate?_eq_some_iff _ _

theorem leaving_keyOf_eq_nil_iff : d.freeze.table.leaving (d.keyOf id) = [] ↔ ¬ IsLeft declarations id := by
  rw [haligned.leaving_freeze, List.filter_eq_nil_iff]
  constructor
  · rintro hnone ⟨link, hlink, hkind, hsource⟩
    obtain ⟨t, ht, rfl⟩ := hreflects.exists_transition hlink
    exact hnone t ht (decide_eq_true ⟨hkind, (haligned.sourceKey_eq_keyOf_iff ht).2 hsource⟩)
  · intro hnone t ht hleaves
    obtain ⟨hkind, hsource⟩ := of_decide_eq_true hleaves
    exact hnone ⟨t.link, hreflects.link_mem ht, hkind, (haligned.sourceKey_eq_keyOf_iff ht).1 hsource⟩

/-! ### Reaching -/

theorem mem_moves_keyOf_iff (hid : id ∈ d.ids) {target : Key} : target ∈ d.freeze.moves (d.keyOf id) ↔
    ∃ t ∈ d.transitions, t.targetKey = target ∧ (t.kind = .initial ∧ t.source = some id ∨
      t.kind ≠ .initial ∧ ∃ source, t.source = some source ∧ (source = id ∨ Contains declarations source id)) := by
  rw [Machine.mem_moves_iff]
  constructor
  · rintro (⟨t, hinitial, htarget⟩ | ⟨active, hactive, t, hleaving, htarget⟩)
    · rw [haligned.initialOf_freeze] at hinitial
      have ht := List.mem_of_find?_eq_some hinitial
      have hstarts : t.StartsFrom (d.keyOf id) := by simpa using List.find?_some hinitial
      exact ⟨t, ht, htarget, .inl ⟨hstarts.1, (haligned.sourceKey_eq_keyOf_iff ht).1 hstarts.2⟩⟩
    · rw [haligned.leaving_freeze, List.mem_filter] at hleaving
      obtain ⟨ht, hleaves⟩ := hleaving
      obtain ⟨hkind, hsourceKey⟩ : t.LeavesFrom active := of_decide_eq_true hleaves
      obtain ⟨source, hsource⟩ := Option.ne_none_iff_exists'.1 (mt (haligned.names t ht).kind_eq hkind)
      rw [← hsourceKey, (haligned.sourceKey_eq_keyOf_iff ht).2 hsource] at hactive
      have hmem := (haligned.names t ht).source_mem source hsource
      exact ⟨t, ht, htarget, .inr ⟨hkind, source, hsource,
        (mem_chain_keyOf_iff haligned hreflects.superstate?_eq_some_iff hmem hid).1 hactive⟩⟩
  · rintro ⟨t, ht, htarget, ⟨hkind, hsource⟩ | ⟨hkind, source, hsource, hactive⟩⟩
    · have hstarts : t.StartsFrom (d.keyOf id) := ⟨hkind, (haligned.sourceKey_eq_keyOf_iff ht).2 hsource⟩
      refine .inl ⟨t, ?_, htarget⟩
      rw [haligned.initialOf_freeze, haligned.oneInitialEach.find?_eq_some ht hstarts]
    · have hmem := (haligned.names t ht).source_mem source hsource
      refine .inr ⟨d.keyOf source, (mem_chain_keyOf_iff haligned hreflects.superstate?_eq_some_iff hmem hid).2 hactive, t, ?_, htarget⟩
      rw [haligned.leaving_freeze, List.mem_filter]
      exact ⟨ht, decide_eq_true ⟨hkind, (haligned.sourceKey_eq_keyOf_iff ht).2 hsource⟩⟩

theorem exists_reached_of_reach (hstart : start ∈ d.ids) {key : Key}
    (hreach : Reach d.freeze.moves (d.keyOf start) key) :
    ∃ id ∈ d.ids, key = d.keyOf id ∧ Reached declarations start id := by
  induction hreach with
  | refl => exact ⟨start, hstart, rfl, .start⟩
  | tail _ hmove ih =>
    obtain ⟨id, hid, rfl, hreached⟩ := ih
    obtain ⟨t, ht, rfl, hkind⟩ := (mem_moves_keyOf_iff haligned hreflects hid).1 hmove
    have hnames := haligned.names t ht
    refine ⟨t.target, hnames.target_mem, hnames.targetKey_eq, ?_⟩
    have hlink := hreflects.link_mem ht
    rcases hkind with ⟨hkind, hsource⟩ | ⟨hkind, source, hsource, hactive⟩
    · exact hreached.default hlink hkind hsource
    · exact hreached.transition hlink hkind hsource hactive

theorem reach_of_reached (hstart : start ∈ d.ids) (hreached : Reached declarations start id) :
    id ∈ d.ids ∧ Reach d.freeze.moves (d.keyOf start) (d.keyOf id) := by
  have hmoves : ∀ {state t}, t ∈ d.transitions → state ∈ d.ids ∧ Reach d.freeze.moves (d.keyOf start) (d.keyOf state) →
      (t.kind = .initial ∧ t.source = some state ∨ t.kind ≠ .initial ∧ ∃ source, t.source = some source ∧
        (source = state ∨ Contains declarations source state)) →
      t.target ∈ d.ids ∧ Reach d.freeze.moves (d.keyOf start) (d.keyOf t.target) := by
    intro state t ht hstate hkind
    have hnames := haligned.names t ht
    have hmove := (mem_moves_keyOf_iff haligned hreflects hstate.1).2 ⟨t, ht, hnames.targetKey_eq, hkind⟩
    exact ⟨hnames.target_mem, hstate.2.tail hmove⟩
  induction hreached with
  | start => exact ⟨hstart, .refl⟩
  | default _ hlink hkind hsource ih =>
    obtain ⟨t, ht, rfl⟩ := hreflects.exists_transition hlink
    exact hmoves ht ih (.inl ⟨hkind, hsource⟩)
  | transition _ hlink hkind hsource hactive ih =>
    obtain ⟨t, ht, rfl⟩ := hreflects.exists_transition hlink
    exact hmoves ht ih (.inr ⟨hkind, _, hsource, hactive⟩)

theorem reach_keyOf_iff (hstart : start ∈ d.ids) (hid : id ∈ d.ids) :
    Reach d.freeze.moves (d.keyOf start) (d.keyOf id) ↔ Reached declarations start id := by
  refine ⟨fun hreach => ?_, fun hreached => (reach_of_reached haligned hreflects hstart hreached).2⟩
  obtain ⟨other, hother, hkey, hreached⟩ := exists_reached_of_reach haligned hreflects hstart hreach
  exact (keyOf_inj hid).1 hkey ▸ hreached

/-! ### States -/

omit hreflects in
theorem of_mem_keyed {key : Key} {state : State ι κ ν γ} (hmem : (key, state) ∈ d.freeze.keyed) :
    state.id ∈ d.ids ∧ key = d.keyOf state.id ∧ (state.isFinal = true ↔ d.IsFinal state.id) := by
  have hstate := Machine.mem_keyed_iff.1 hmem
  have hid : d.id? key = some state.id := by
    rw [← id?_freeze]
    exact Machine.id?_eq_of_state? hstate
  obtain ⟨hids, hkey⟩ := haligned.eq_keyOf_of_id? hid
  refine ⟨hids, hkey, ?_⟩
  rcases key.eq_root_or_ofPosition with rfl | ⟨position, rfl⟩
  · simp at hstate
  · rw [Machine.state?_ofPosition, freeze, List.getElem?_map, Option.map_eq_some_iff] at hstate
    obtain ⟨s, hs, rfl⟩ := hstate
    have hmem : s ∈ d.states := List.mem_of_getElem? hs
    constructor
    · exact fun hfinal => ⟨s, hmem, rfl, hfinal⟩
    · rintro ⟨other, hother, heq, hfinal⟩
      obtain rfl := List.inj_on_of_nodup_map haligned.nodup hother hmem heq
      exact hfinal

omit [DecidableEq ι] haligned hreflects in
theorem map_id_keyed (d : Draft ι κ ν γ) : d.freeze.keyed.map (fun entry => entry.2.id) = d.ids := by
  rw [← ids_freeze, Machine.keyed, List.map_map, Machine.ids]
  have hfst := congrArg (List.map State.id) (List.zipIdx_map_fst 0 d.freeze.states)
  rwa [List.map_map] at hfst

omit [DecidableEq ι] haligned hreflects in
theorem map_filter_keyed {p : Key × State ι κ ν γ → Bool} {q : ι → Bool}
    (hpq : ∀ entry ∈ d.freeze.keyed, p entry = q entry.2.id) :
    (d.freeze.keyed.filter p).map (fun entry => entry.2.id) = d.ids.filter q := by
  rw [← d.map_id_keyed, List.filter_map, List.filter_congr hpq]
  rfl

/-! ### The report -/

theorem unrelatedLocals_freeze : d.freeze.unrelatedLocals = unrelatedLocals declarations := by
  rw [Machine.unrelatedLocals, all_freeze]
  refine hreflects.map_filter_transitions (fun t ht => decide_eq_decide.2 ?_) .unrelatedLocal
  exact and_congr_right' (not_congr (related_iff haligned hreflects ht))

theorem strayInitials_freeze : d.freeze.strayInitials = strayInitials declarations := by
  rw [Machine.strayInitials, all_freeze]
  refine hreflects.map_filter_transitions (fun t ht => decide_eq_decide.2 ?_) .strayInitial
  exact and_congr_right' (not_congr (parent_target_iff haligned hreflects ht))

theorem finalDefects_freeze (hid : id ∈ d.ids) :
    d.freeze.finalDefects (d.keyOf id) id = finalDefects declarations id := by
  have hleft : d.freeze.table.leaving (d.keyOf id) = [] ↔ ¬ IsLeft declarations id :=
    leaving_keyOf_eq_nil_iff haligned hreflects
  have hcomposite : d.freeze.hierarchy.IsComposite (d.keyOf id) ↔ IsComposite declarations id :=
    isComposite_keyOf_iff haligned hreflects.superstate?_eq_some_iff hid
  unfold Machine.finalDefects finalDefects
  congr 1
  · by_cases h : IsLeft declarations id
    · rw [if_pos h, if_neg (by simpa using fun hnil => hleft.1 hnil h)]
    · rw [if_neg h, if_pos (by simpa using hleft.2 h)]
  · by_cases h : IsComposite declarations id
    · rw [if_pos h, if_pos (hcomposite.2 h)]
    · rw [if_neg h, if_neg (mt hcomposite.1 h)]

theorem misusedFinals_freeze : d.freeze.misusedFinals = misusedFinals declarations := by
  classical
  have hfilter : (d.freeze.keyed.filter fun entry => entry.2.isFinal).map (fun entry => entry.2.id) =
      d.ids.filter fun id => Definition.IsFinal declarations id := by
    refine map_filter_keyed fun entry hentry => ?_
    rw [Bool.eq_iff_iff, decide_eq_true_iff, ← hreflects.isFinal_iff]
    exact (of_mem_keyed haligned hentry).2.2
  rw [misusedFinals, ← hreflects.ids_eq, ← hfilter, List.flatMap_map, Machine.misusedFinals]
  refine List.flatMap_congr fun entry hentry => ?_
  obtain ⟨hid, hkey, _⟩ := of_mem_keyed haligned (List.mem_filter.1 hentry).1
  rw [← finalDefects_freeze haligned hreflects hid, ← hkey]

theorem unreachables_freeze (hstart : start ∈ d.ids) :
    d.freeze.unreachables (d.keyOf start) = unreachables declarations start := by
  classical
  have hfilter : (d.freeze.keyed.filter fun entry =>
        d.freeze.hierarchy.IsLeaf entry.1 ∧ entry.1 ∉ d.freeze.reachable (d.keyOf start)).map (fun entry => entry.2.id) =
      d.ids.filter fun id => ¬ IsComposite declarations id ∧ ¬ Reached declarations start id := by
    refine map_filter_keyed fun entry hentry => decide_eq_decide.2 ?_
    obtain ⟨hid, hkey, _⟩ := of_mem_keyed haligned hentry
    rw [hkey, Machine.mem_reachable_iff, reach_keyOf_iff haligned hreflects hstart hid]
    exact and_congr_left' (not_congr (isComposite_keyOf_iff haligned hreflects.superstate?_eq_some_iff hid))
  rw [unreachables, ← hreflects.ids_eq, ← hfilter, List.map_map]
  rfl

/-- **The defects that are found are those of the declarations**, in the same order. -/
theorem defects_freeze (hstart : start ∈ d.ids) :
    d.freeze.defects (d.keyOf start) = defects declarations start := by
  rw [Machine.defects, unrelatedLocals_freeze haligned hreflects, strayInitials_freeze haligned hreflects,
    misusedFinals_freeze haligned hreflects, unreachables_freeze haligned hreflects hstart, defects]

theorem topInitial_of_mem {target : ι} (hlink : ⟨⟨none, target⟩, .initial⟩ ∈ links declarations) :
    ∃ t, d.topInitial = some t ∧ t.target = target ∧ t.targetKey = d.keyOf target ∧ target ∈ d.ids := by
  obtain ⟨t, ht, hlink⟩ := hreflects.exists_transition hlink
  obtain ⟨hedge, hkind⟩ := Link.mk.inj hlink
  obtain ⟨hsource, rfl⟩ := Edge.mk.inj hedge
  have hnames := haligned.names t ht
  have hstarts : t.StartsFrom .root := ⟨hkind, by rw [hnames.sourceKey_eq, hsource]; rfl⟩
  exact ⟨t, haligned.oneInitialEach.find?_eq_some ht hstarts, rfl, hnames.targetKey_eq, hnames.target_mem⟩

theorem mem_links_of_topInitial (hinitial : d.topInitial = some t) :
    ⟨⟨none, t.target⟩, .initial⟩ ∈ links declarations := by
  obtain ⟨ht, hkind, hsource⟩ := topInitial_eq_some hinitial
  have hnone : t.source = none := by
    cases heq : t.source with
    | none => rfl
    | some id => exact absurd (hsource.symm.trans ((haligned.sourceKey_eq_keyOf_iff ht).2 heq)) (d.keyOf_ne_root id).symm
  have hlink := hreflects.link_mem ht
  rwa [Transition.link, Transition.edge, hkind, hnone] at hlink

end

end Draft

/-- **What a definition is refused for, and that it is accepted otherwise.** Where no single declaration is refused, a missing initial state comes first, then a nested one, and then all defects of the whole at once. -/
theorem build_report [DecidableEq ι] {declarations : List (Declaration ι κ ν γ)}
    (hrefused : (Draft.ofDeclarations declarations).refused = none) :
    ((∀ target action, Declaration.initial target action ∉ declarations) →
        Machine.build declarations = .error .noInitialState) ∧
      ∀ target action, Declaration.initial target action ∈ declarations →
        (∀ superstate, Definition.Nests declarations superstate target →
          Machine.build declarations = .error (.nestedInitialState target superstate)) ∧
        ((∀ superstate, ¬ Definition.Nests declarations superstate target) →
          Machine.build declarations = if Definition.defects declarations target = []
            then .ok (Draft.ofDeclarations declarations).freeze
            else .error (.defective (Definition.defects declarations target))) := by
  have haligned := Draft.aligned_ofDeclarations declarations
  have hreflects := Draft.reflects_ofDeclarations hrefused
  constructor
  · intro hnone
    have hinitial : (Draft.ofDeclarations declarations).topInitial = none := by
      rw [Option.eq_none_iff_forall_ne_some]
      intro t hinitial
      have hlink := Draft.mem_links_of_topInitial haligned hreflects hinitial
      obtain ⟨action, hmem⟩ := (Definition.mem_links_root_iff declarations).1 hlink
      exact hnone _ _ hmem
    rw [Machine.build, Draft.build, hrefused, hinitial]
  · intro target action hmem
    have hlink := (Definition.mem_links_root_iff declarations).2 ⟨action, hmem⟩
    obtain ⟨t, hinitial, htarget, hkey, hid⟩ := Draft.topInitial_of_mem haligned hreflects hlink
    constructor
    · intro superstate hnests
      have hsuperstate := (hreflects.superstate?_eq_some_iff target superstate).2 hnests
      rw [Machine.build, Draft.build, hrefused, hinitial]
      simp only [htarget, hsuperstate]
    · intro hnests
      have hsuperstate : (Draft.ofDeclarations declarations).superstate? t.target = none := by
        rw [Option.eq_none_iff_forall_ne_some, htarget]
        exact fun superstate heq => hnests superstate ((hreflects.superstate?_eq_some_iff _ _).1 heq)
      rw [Machine.build, Draft.build_eq_of_topInitial hrefused hinitial hsuperstate, hkey,
        Draft.defects_freeze haligned hreflects hid]

theorem player_build_report : (Draft.ofDeclarations Player.unfinished).refused = none ∧
    Machine.build Player.unfinished = .error (.defective [.unreachable .paused, .unreachable .ended]) ∧
    Definition.defects Player.unfinished .stopped = [.unreachable .paused, .unreachable .ended] := by
  have hbuild : Machine.build Player.unfinished =
      .error (.defective [.unreachable .paused, .unreachable .ended]) := rfl
  have hnested : ∀ superstate, ¬ Definition.Nests Player.unfinished superstate .stopped := by
    rintro superstate ⟨declaration, hmem, c, rfl, rfl, hsubstate⟩
    obtain rfl : c = { superstate := .playing, default := .sounding, peers := [.paused, .ended] } := by
      simpa [Player.unfinished, Player.declarations] using hmem
    simp [Composite.substates] at hsubstate
  have hrefused : (Draft.ofDeclarations Player.unfinished).refused = none := rfl
  have hinitial : Declaration.initial .stopped none ∈ Player.unfinished := List.mem_cons_self
  have hreport := ((build_report hrefused).2 .stopped none hinitial).2 hnested
  rw [hbuild] at hreport
  refine ⟨hrefused, hbuild, ?_⟩
  split at hreport
  · cases hreport
  · exact (DefinitionError.defective.inj (Except.error.inj hreport)).symm

end NestedMachine
