import NestedMachine.Definition.Build
import NestedMachine.Proofs.Hierarchy.Forest
import NestedMachine.Proofs.Transition.Filing

/-!
# What every draft keeps in line

A draft keeps three things side by side: the identities of its states, their nesting by key, and its transitions, which name their ends by identity and by key. `Aligned` says that the three agree and that the nesting is a forest. It holds of what any list of declarations amounts to (`aligned_ofDeclarations`), whether or not one of them was refused, since a refused declaration still leaves behind whatever it did until then.
-/

namespace NestedMachine.Draft

variable {ι κ ν γ : Type} [DecidableEq ι]

/-- The key that stands for the source of a transition. -/
def placeOf (d : Draft ι κ ν γ) : Option ι → Key
  | none => .root
  | some id => d.keyOf id

/-- The transition names its ends by the keys that the draft gave them, and one that leaves the root is initial. -/
structure Names (d : Draft ι κ ν γ) (t : Transition ι κ ν γ) : Prop where
  source_mem : ∀ id, t.source = some id → id ∈ d.ids
  target_mem : t.target ∈ d.ids
  sourceKey_eq : t.sourceKey = d.placeOf t.source
  targetKey_eq : t.targetKey = d.keyOf t.target
  kind_eq : t.source = none → t.kind = .initial

/-- Identities, nesting and transitions agree, and the nesting is a forest. -/
structure Aligned (d : Draft ι κ ν γ) : Prop where
  nodup : d.ids.Nodup
  length_eq : d.hierarchy.superstates.length = d.ids.length
  forest : d.hierarchy.Forest
  names : ∀ t ∈ d.transitions, d.Names t
  oneInitialEach : OneInitialEach d.transitions

/-! ### Keys and identities -/

section keys

variable {d d' : Draft ι κ ν γ} {a b id : ι} {key : Key}

omit [DecidableEq ι] in
@[simp] theorem id?_root (d : Draft ι κ ν γ) : d.id? .root = none := rfl

omit [DecidableEq ι] in
@[simp] theorem id?_ofPosition (d : Draft ι κ ν γ) (position : Nat) : d.id? (.ofPosition position) = d.ids[position]? :=
  rfl

theorem id?_keyOf (hid : id ∈ d.ids) : d.id? (d.keyOf id) = some id := List.getElem?_idxOf hid

theorem keyOf_inj (ha : a ∈ d.ids) : d.keyOf a = d.keyOf b ↔ a = b := by
  rw [keyOf, keyOf, Key.ofPosition_inj, List.idxOf_inj ha]

theorem keyOf_ne_root (d : Draft ι κ ν γ) (id : ι) : d.keyOf id ≠ .root := Key.ofPosition_ne_root _

theorem placeOf_inj {source source' : Option ι} (hsource : ∀ id, source = some id → id ∈ d.ids) :
    d.placeOf source = d.placeOf source' ↔ source = source' := by
  cases source with
  | none =>
    cases source' with
    | none => simp
    | some b => simpa [placeOf] using (d.keyOf_ne_root b).symm
  | some a =>
    cases source' with
    | none => simpa [placeOf] using d.keyOf_ne_root a
    | some b => simpa [placeOf] using keyOf_inj (hsource a rfl)

theorem keyOf_extend (hids : d.ids <+: d'.ids) (hid : id ∈ d.ids) : d'.keyOf id = d.keyOf id := by
  rw [keyOf, keyOf, hids.idxOf_eq_of_mem hid]

omit [DecidableEq ι] in
theorem id?_extend (hids : d.ids <+: d'.ids) (hkey : d.id? key = some id) : d'.id? key = some id := by
  rcases key.eq_root_or_ofPosition with rfl | ⟨position, rfl⟩
  · simp at hkey
  · obtain ⟨rest, hrest⟩ := hids
    obtain ⟨hposition, _⟩ := List.getElem?_eq_some_iff.1 hkey
    rw [id?_ofPosition, ← hrest, List.getElem?_append_left hposition]
    exact hkey

namespace Aligned

variable (haligned : d.Aligned)
include haligned

theorem keyOf_mem_states (hid : id ∈ d.ids) : d.keyOf id ∈ d.hierarchy.states := by
  refine Hierarchy.mem_states.2 ⟨d.keyOf_ne_root id, ?_⟩
  have hlt := List.idxOf_lt_length_of_mem hid
  simp only [Hierarchy.Contains, Hierarchy.size, keyOf, Key.ofPosition, haligned.length_eq]
  omega

theorem contains_keyOf (hid : id ∈ d.ids) : d.hierarchy.Contains (d.keyOf id) :=
  (Hierarchy.mem_states.1 (haligned.keyOf_mem_states hid)).2

theorem contains_placeOf {source : Option ι} (hsource : ∀ id, source = some id → id ∈ d.ids) :
    d.hierarchy.Contains (d.placeOf source) := by
  cases source with
  | none => exact Hierarchy.contains_root _
  | some id => exact haligned.contains_keyOf (hsource id rfl)

theorem eq_keyOf_of_id? (hkey : d.id? key = some id) : id ∈ d.ids ∧ key = d.keyOf id := by
  rcases key.eq_root_or_ofPosition with rfl | ⟨position, rfl⟩
  · simp at hkey
  · obtain ⟨hposition, hget⟩ := List.getElem?_eq_some_iff.1 hkey
    refine ⟨hget ▸ List.getElem_mem hposition, ?_⟩
    rw [keyOf, ← hget, haligned.nodup.idxOf_getElem]

theorem exists_placeOf (hkey : d.hierarchy.Contains key) :
    ∃ source, (∀ id, source = some id → id ∈ d.ids) ∧ key = d.placeOf source ∧ d.id? key = source := by
  rcases key.eq_root_or_ofPosition with rfl | ⟨position, rfl⟩
  · exact ⟨none, by simp, rfl, rfl⟩
  · have hposition : position < d.ids.length := by
      simp only [Hierarchy.Contains, Hierarchy.size, Key.ofPosition, haligned.length_eq] at hkey
      omega
    have hget : d.id? (.ofPosition position) = some d.ids[position] := List.getElem?_eq_getElem hposition
    obtain ⟨hmem, hkeyOf⟩ := haligned.eq_keyOf_of_id? hget
    refine ⟨some d.ids[position], ?_, hkeyOf, hget⟩
    rintro id ⟨⟩
    exact hmem

theorem superstate?_eq_some_iff {superstate : ι} (hsuperstate : superstate ∈ d.ids) :
    d.superstate? id = some superstate ↔ d.hierarchy.parent (d.keyOf id) = some (d.keyOf superstate) := by
  rw [superstate?, Option.bind_eq_some_iff]
  constructor
  · rintro ⟨key, hparent, hkey⟩
    rw [hparent, (haligned.eq_keyOf_of_id? hkey).2]
  · intro hparent
    exact ⟨_, hparent, id?_keyOf hsuperstate⟩

theorem mem_ids_of_superstate? {superstate : ι} (hsuperstate : d.superstate? id = some superstate) :
    superstate ∈ d.ids := by
  obtain ⟨key, _, hkey⟩ := Option.bind_eq_some_iff.1 hsuperstate
  exact (haligned.eq_keyOf_of_id? hkey).1

theorem parent_keyOf (hid : id ∈ d.ids) :
    d.hierarchy.parent (d.keyOf id) = some (d.placeOf (d.superstate? id)) := by
  obtain ⟨key, hparent⟩ := Option.isSome_iff_exists.1 (Hierarchy.parent_isSome_iff.2 (haligned.keyOf_mem_states hid))
  obtain ⟨source, _, hplace, hkey⟩ := haligned.exists_placeOf (haligned.forest.contains_parent hparent)
  rw [superstate?, hparent, Option.bind_some, hkey, hplace]

end Aligned

end keys

/-! ### Changes that keep a draft aligned -/

section changes

variable {d d' : Draft ι κ ν γ}

theorem Names.extend {t : Transition ι κ ν γ} (hids : d.ids <+: d'.ids) (hnames : d.Names t) : d'.Names t where
  source_mem id hsource := hids.subset (hnames.source_mem id hsource)
  target_mem := hids.subset hnames.target_mem
  sourceKey_eq := by
    rw [hnames.sourceKey_eq]
    cases hsource : t.source with
    | none => rfl
    | some id => exact (keyOf_extend hids (hnames.source_mem id hsource)).symm
  targetKey_eq := by rw [hnames.targetKey_eq, keyOf_extend hids hnames.target_mem]
  kind_eq := hnames.kind_eq

theorem Names.congr {t : Transition ι κ ν γ} (hnames : d.Names t) (hids : d'.ids = d.ids) : d'.Names t :=
  hnames.extend (hids ▸ List.prefix_refl _)

theorem Aligned.congr (haligned : d.Aligned) (hids : d'.ids = d.ids) (hhierarchy : d'.hierarchy = d.hierarchy)
    (htransitions : d'.transitions = d.transitions) : d'.Aligned where
  nodup := hids ▸ haligned.nodup
  length_eq := by rw [hids, hhierarchy, haligned.length_eq]
  forest := hhierarchy ▸ haligned.forest
  names t ht := (haligned.names t (htransitions ▸ ht)).congr hids
  oneInitialEach := htransitions ▸ haligned.oneInitialEach

theorem Aligned.refuse (haligned : d.Aligned) (error : DefinitionError ι) : (d.refuse error).Aligned :=
  haligned.congr rfl rfl rfl

theorem Aligned.append {t : Transition ι κ ν γ} (haligned : d.Aligned) (hnames : d.Names t)
    (hone : ∀ other ∈ d.transitions, ∀ key, other.StartsFrom key → ¬ t.StartsFrom key) :
    ({ d with transitions := d.transitions ++ [t] } : Draft ι κ ν γ).Aligned where
  nodup := haligned.nodup
  length_eq := haligned.length_eq
  forest := haligned.forest
  names other hother := by
    rcases List.mem_append.1 hother with hother | hother
    · exact (haligned.names other hother).congr rfl
    · obtain rfl := List.mem_singleton.1 hother
      exact hnames.congr rfl
  oneInitialEach := by
    refine List.pairwise_append.2 ⟨haligned.oneInitialEach, List.pairwise_singleton _ _, ?_⟩
    intro other hother new hnew
    exact List.mem_singleton.1 hnew ▸ hone other hother

/-! ### Mentions -/

@[simp] theorem transitions_mention (d : Draft ι κ ν γ) (id : ι) : (d.mention id).transitions = d.transitions := by
  unfold mention
  split <;> rfl

@[simp] theorem refused_mention (d : Draft ι κ ν γ) (id : ι) : (d.mention id).refused = d.refused := by
  unfold mention
  split <;> rfl

theorem ids_prefix_mention (d : Draft ι κ ν γ) (id : ι) : d.ids <+: (d.mention id).ids := by
  rw [ids_mention]
  split
  · exact List.prefix_refl _
  · exact List.prefix_append _ _

theorem Aligned.mention (haligned : d.Aligned) (id : ι) : (d.mention id).Aligned where
  nodup := nodup_ids_mention haligned.nodup id
  length_eq := by
    rw [ids_mention]
    unfold Draft.mention
    split
    · exact haligned.length_eq
    · simp [Hierarchy.grow, haligned.length_eq]
  forest := by
    unfold Draft.mention
    split
    · exact haligned.forest
    · exact haligned.forest.grow
  names t ht := (haligned.names t (by simpa using ht)).extend (d.ids_prefix_mention id)
  oneInitialEach := by simpa using haligned.oneInitialEach

@[simp] theorem transitions_mentionAll (d : Draft ι κ ν γ) (ids : List ι) :
    (d.mentionAll ids).transitions = d.transitions := by
  induction ids generalizing d with
  | nil => rfl
  | cons id rest ih => exact (ih _).trans (transitions_mention d id)

@[simp] theorem refused_mentionAll (d : Draft ι κ ν γ) (ids : List ι) : (d.mentionAll ids).refused = d.refused := by
  induction ids generalizing d with
  | nil => rfl
  | cons id rest ih => exact (ih _).trans (refused_mention d id)

theorem ids_prefix_mentionAll (d : Draft ι κ ν γ) (ids : List ι) : d.ids <+: (d.mentionAll ids).ids := by
  induction ids generalizing d with
  | nil => exact List.prefix_refl _
  | cons id rest ih => exact (d.ids_prefix_mention id).trans (ih _)

theorem mem_ids_mentionAll (d : Draft ι κ ν γ) {ids : List ι} {id : ι} (hid : id ∈ ids) :
    id ∈ (d.mentionAll ids).ids := by
  induction ids generalizing d with
  | nil => simp at hid
  | cons first rest ih =>
    rcases List.mem_cons.1 hid with rfl | hid
    · exact ((d.mention id).ids_prefix_mentionAll rest).subset ((d.mem_ids_mention id id).2 (.inr rfl))
    · exact ih _ hid

theorem Aligned.mentionAll (haligned : d.Aligned) (ids : List ι) : (d.mentionAll ids).Aligned := by
  induction ids generalizing d with
  | nil => exact haligned
  | cons id rest ih => exact ih (haligned.mention id)

/-! ### Nesting -/

theorem nest_eq_ok_iff {superstate substate : ι} :
    d.nest superstate substate = .ok d' ↔
      d.keyOf substate ∉ d.hierarchy.chain (d.keyOf superstate) ∧
        (d.superstate? substate = none ∧
            d' = { d with hierarchy := d.hierarchy.nest (d.keyOf substate) (d.keyOf superstate) } ∨
          d.superstate? substate = some superstate ∧ d' = d) := by
  unfold nest
  rw [Hierarchy.mem_chain_iff]
  by_cases hcycle : d.keyOf substate = d.keyOf superstate ∨
      d.hierarchy.IsAncestor (d.keyOf substate) (d.keyOf superstate)
  · simp [hcycle]
  · simp only [hcycle, if_false, not_false_eq_true, true_and]
    cases hsuperstate : d.superstate? substate with
    | none => simp [eq_comm]
    | some existing =>
      by_cases hexisting : existing = superstate
      · simp [hexisting, eq_comm]
      · simp [hexisting]

theorem Aligned.nest {superstate substate : ι} (haligned : d.Aligned) (hsuperstate : superstate ∈ d.ids)
    (hsubstate : substate ∈ d.ids) (hnest : d.nest superstate substate = .ok d') : d'.Aligned := by
  obtain ⟨hacyclic, ⟨_, rfl⟩ | ⟨_, rfl⟩⟩ := nest_eq_ok_iff.1 hnest
  · exact {
      nodup := haligned.nodup
      length_eq := by
        have hsize := Hierarchy.size_nest d.hierarchy (d.keyOf substate) (d.keyOf superstate)
        simp only [Hierarchy.size, Nat.add_right_cancel_iff] at hsize
        exact hsize.trans haligned.length_eq
      forest := haligned.forest.nest (haligned.keyOf_mem_states hsubstate) (haligned.contains_keyOf hsuperstate)
        hacyclic
      names := fun t ht => (haligned.names t ht).congr rfl
      oneInitialEach := haligned.oneInitialEach }
  · exact haligned

theorem nest_frame {superstate substate : ι} (hnest : d.nest superstate substate = .ok d') :
    d' = { d with hierarchy := d'.hierarchy } := by
  obtain ⟨_, ⟨_, rfl⟩ | ⟨_, rfl⟩⟩ := nest_eq_ok_iff.1 hnest <;> rfl

theorem nestAll_frame {superstate : ι} {substates : List ι} {error : Option (DefinitionError ι)}
    (hnest : d.nestAll superstate substates = (d', error)) : d' = { d with hierarchy := d'.hierarchy } := by
  induction substates generalizing d with
  | nil =>
    obtain ⟨rfl, _⟩ := Prod.mk.inj hnest
    rfl
  | cons substate rest ih =>
    unfold nestAll at hnest
    split at hnest
    · obtain ⟨rfl, _⟩ := Prod.mk.inj hnest
      rfl
    · next next hfirst =>
      rw [ih hnest, nest_frame hfirst]

theorem ids_nestAll {superstate : ι} {substates : List ι} {error : Option (DefinitionError ι)}
    (hnest : d.nestAll superstate substates = (d', error)) : d'.ids = d.ids := by
  rw [nestAll_frame hnest]
  rfl

theorem transitions_nestAll {superstate : ι} {substates : List ι} {error : Option (DefinitionError ι)}
    (hnest : d.nestAll superstate substates = (d', error)) : d'.transitions = d.transitions := by
  rw [nestAll_frame hnest]

theorem refused_nestAll {superstate : ι} {substates : List ι} {error : Option (DefinitionError ι)}
    (hnest : d.nestAll superstate substates = (d', error)) : d'.refused = d.refused := by
  rw [nestAll_frame hnest]

theorem Aligned.nestAll {superstate : ι} {substates : List ι} {error : Option (DefinitionError ι)}
    (haligned : d.Aligned) (hsuperstate : superstate ∈ d.ids) (hsubstates : ∀ id ∈ substates, id ∈ d.ids)
    (hnest : d.nestAll superstate substates = (d', error)) : d'.Aligned := by
  induction substates generalizing d with
  | nil =>
    obtain ⟨rfl, _⟩ := Prod.mk.inj hnest
    exact haligned
  | cons substate rest ih =>
    unfold Draft.nestAll at hnest
    split at hnest
    · obtain ⟨rfl, _⟩ := Prod.mk.inj hnest
      exact haligned
    · next next hfirst =>
      have hids : next.ids = d.ids := by rw [nest_frame hfirst]; rfl
      refine ih (haligned.nest hsuperstate (hsubstates _ List.mem_cons_self) hfirst) (hids ▸ hsuperstate) ?_ hnest
      intro id hid
      exact hids ▸ hsubstates id (List.mem_cons_of_mem _ hid)

/-! ### Whole declarations -/

theorem Aligned.addInitial {t : Transition ι κ ν γ} (haligned : d.Aligned) (hnames : d.Names t) :
    (d.addInitial t).Aligned := by
  unfold Draft.addInitial
  split
  · exact haligned.refuse _
  · next hnone =>
    refine haligned.append hnames fun other hother key hstarts hstarts' => hnone ?_
    refine List.any_eq_true.2 ⟨other, hother, ?_⟩
    simp [hstarts.1, hstarts.2, hstarts'.2]

theorem ids_addState (d : Draft ι κ ν γ) (id : ι) (behavior : Option (Behavior ι κ ν γ)) (isFinal : Bool) :
    (d.addState id behavior isFinal).ids = (d.mention id).ids := by
  have hmap : ((d.mention id).states.map fun s =>
      if s.id = id then { s with behavior := s.behavior.or behavior, isFinal := s.isFinal || isFinal } else s).map
        DraftState.id = (d.mention id).ids := by
    rw [List.map_map, ids]
    refine List.map_congr_left fun s _ => ?_
    simp only [Function.comp_apply]
    split <;> rfl
  unfold addState
  simp only
  split <;> exact hmap

@[simp] theorem hierarchy_addState (d : Draft ι κ ν γ) (id : ι) (behavior : Option (Behavior ι κ ν γ)) (isFinal : Bool) :
    (d.addState id behavior isFinal).hierarchy = (d.mention id).hierarchy := by
  unfold addState
  simp only
  split <;> rfl

@[simp] theorem transitions_addState (d : Draft ι κ ν γ) (id : ι) (behavior : Option (Behavior ι κ ν γ))
    (isFinal : Bool) : (d.addState id behavior isFinal).transitions = d.transitions := by
  unfold addState
  simp only
  split
  · exact d.transitions_mention id
  · exact d.transitions_mention id

theorem Aligned.addState (haligned : d.Aligned) (id : ι) (behavior : Option (Behavior ι κ ν γ)) (isFinal : Bool) :
    (d.addState id behavior isFinal).Aligned :=
  (haligned.mention id).congr (d.ids_addState id behavior isFinal) (d.hierarchy_addState id behavior isFinal) (by simp)

theorem names_of_mem {t : Transition ι κ ν γ} {source target : ι} (hsource : source ∈ d.ids) (htarget : target ∈ d.ids)
    (ht : t.source = some source ∧ t.target = target ∧ t.sourceKey = d.keyOf source ∧ t.targetKey = d.keyOf target) :
    d.Names t := by
  obtain ⟨hs, rfl, hsKey, htKey⟩ := ht
  refine ⟨fun id hid => ?_, htarget, ?_, htKey, fun hnone => ?_⟩
  · rw [hs] at hid
    exact Option.some.inj hid ▸ hsource
  · rw [hsKey, hs]
    rfl
  · simp [hs] at hnone

theorem Aligned.addComposite (haligned : d.Aligned) (c : Composite ι γ) : (d.addComposite c).Aligned := by
  have hmem : ∀ id ∈ c.superstate :: c.substates, id ∈ (d.mentionAll (c.superstate :: c.substates)).ids :=
    fun id hid => d.mem_ids_mentionAll hid
  have hnested : ∀ d' error, (d.mentionAll (c.superstate :: c.substates)).nestAll c.superstate c.substates =
      (d', error) → d'.Aligned := fun d' error =>
    (haligned.mentionAll (c.superstate :: c.substates)).nestAll (hmem _ List.mem_cons_self)
      fun id hid => hmem id (List.mem_cons_of_mem c.superstate hid)
  unfold Draft.addComposite
  split
  · next d' error heq => exact (hnested d' _ heq).refuse error
  · next d' heq =>
    rw [← ids_nestAll heq] at hmem
    refine (hnested d' _ heq).addInitial (names_of_mem (hmem c.superstate List.mem_cons_self) (hmem c.default ?_)
      ⟨rfl, rfl, rfl, rfl⟩)
    simp [Composite.substates]

theorem Aligned.addTopInitial (haligned : d.Aligned) (target : ι) (action : Option (InitialAction ι γ)) :
    (d.addTopInitial target action).Aligned :=
  (haligned.mention target).addInitial {
    source_mem := by simp
    target_mem := (d.mem_ids_mention target target).2 (.inr rfl)
    sourceKey_eq := rfl
    targetKey_eq := rfl
    kind_eq := fun _ => rfl }

theorem Aligned.addRule (haligned : d.Aligned) (rule : Rule ι κ ν γ) : (d.addRule rule).Aligned := by
  have hmentioned := haligned.mentionAll [rule.source, rule.target]
  have hsource : rule.source ∈ (d.mentionAll [rule.source, rule.target]).ids := d.mem_ids_mentionAll (by simp)
  have htarget : rule.target ∈ (d.mentionAll [rule.source, rule.target]).ids := d.mem_ids_mentionAll (by simp)
  unfold Draft.addRule
  simp only
  split
  · exact hmentioned.addInitial (names_of_mem hsource htarget ⟨rfl, rfl, rfl, rfl⟩)
  · next hkind =>
    refine hmentioned.append (names_of_mem hsource htarget ⟨rfl, rfl, rfl, rfl⟩) fun _ _ _ _ hstarts => ?_
    exact hkind hstarts.1

theorem Aligned.declare (haligned : d.Aligned) (declaration : Declaration ι κ ν γ) :
    (d.declare declaration).Aligned := by
  cases declaration with
  | state id behavior => exact haligned.addState id _ _
  | final id behavior => exact haligned.addState id _ _
  | composite c => exact haligned.addComposite c
  | initial target action => exact haligned.addTopInitial target action
  | rule rule => exact haligned.addRule rule
  | sketch sketch =>
    simp only [Draft.declare]
    split
    · exact haligned.addRule _
    · exact haligned.refuse _
  | limit limit =>
    simp only [Draft.declare, Draft.setLimit]
    split
    · exact haligned.refuse _
    · exact haligned.congr rfl rfl rfl
  | resolver resolver => exact haligned.congr rfl rfl rfl

theorem aligned_empty : ({} : Draft ι κ ν γ).Aligned where
  nodup := List.nodup_nil
  length_eq := rfl
  forest := Hierarchy.forest_rootOnly
  names := by simp
  oneInitialEach := List.Pairwise.nil

/-- **Every draft is aligned**, one with a refused declaration too. -/
theorem aligned_ofDeclarations (declarations : List (Declaration ι κ ν γ)) : (ofDeclarations declarations).Aligned := by
  have hfoldl : ∀ d : Draft ι κ ν γ, d.Aligned → (declarations.foldl declare d).Aligned := by
    induction declarations with
    | nil => exact fun d haligned => haligned
    | cons declaration rest ih => exact fun d haligned => ih _ (haligned.declare declaration)
  exact hfoldl {} aligned_empty

end changes

end NestedMachine.Draft
