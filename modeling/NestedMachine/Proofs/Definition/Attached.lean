import NestedMachine.Proofs.Definition.Declared

/-!
# Behaviours, the limit and the resolver of a definition

A behaviour is attached to one state, and the limit and the resolver to the definition as a whole. Where nothing was refused, a state of a draft has the behaviour that some declaration attaches to it (`behaves_ofDeclarations_iff`), and of several limits or resolvers the last one counts (`settings_ofDeclarations`).
-/

namespace NestedMachine

variable {ι κ ν γ : Type}

namespace Declaration

/-- The behaviour that a declaration attaches, with the state to which it does. -/
def behavior? : Declaration ι κ ν γ → Option (ι × Behavior ι κ ν γ)
  | .state id behavior => some (id, behavior)
  | .final id behavior => behavior.map (id, ·)
  | _ => none

def limit? : Declaration ι κ ν γ → Option Nat
  | .limit n => some n
  | _ => none

def resolver? : Declaration ι κ ν γ → Option (Resolver ι κ ν γ)
  | .resolver r => some r
  | _ => none

theorem behavior?_of_attached? {declaration : Declaration ι κ ν γ} (hattached : declaration.attached? = none) :
    declaration.behavior? = none := by
  cases declaration with
  | state id behavior => simp [attached?] at hattached
  | final id behavior => simp [attached?] at hattached
  | _ => rfl

end Declaration

namespace Definition

variable (declarations : List (Declaration ι κ ν γ))

def behaviors : List (ι × Behavior ι κ ν γ) := declarations.filterMap Declaration.behavior?

def limits : List Nat := declarations.filterMap Declaration.limit?

def resolvers : List (Resolver ι κ ν γ) := declarations.filterMap Declaration.resolver?

/-- The limit that was set last. -/
def limit : Nat := (limits declarations).getLast?.getD 50

/-- The resolver that was set last. -/
def resolver : Resolver ι κ ν γ := (resolvers declarations).getLast?.getD .reject

theorem limit_append (declaration : Declaration ι κ ν γ) :
    limit (declarations ++ [declaration]) = declaration.limit?.getD (limit declarations) := by
  rw [limit, limits, filterMap_concat]
  cases declaration.limit? <;> simp [limit, limits]

theorem resolver_append (declaration : Declaration ι κ ν γ) :
    resolver (declarations ++ [declaration]) = declaration.resolver?.getD (resolver declarations) := by
  rw [resolver, resolvers, filterMap_concat]
  cases declaration.resolver? <;> simp [resolver, resolvers]

end Definition

namespace Draft

def Behaves (d : Draft ι κ ν γ) (id : ι) (behavior : Behavior ι κ ν γ) : Prop :=
  ∃ s ∈ d.states, s.id = id ∧ s.behavior = some behavior

theorem hasBehavior_iff [DecidableEq ι] {d : Draft ι κ ν γ} {id : ι} :
    d.hasBehavior id = true ↔ ∃ behavior, d.Behaves id behavior := by
  simp only [hasBehavior, List.any_eq_true, Bool.and_eq_true, decide_eq_true_eq, Option.isSome_iff_exists, Behaves]
  constructor
  · rintro ⟨s, hs, hid, behavior, hbehavior⟩
    exact ⟨behavior, s, hs, hid, hbehavior⟩
  · rintro ⟨behavior, s, hs, hid, hbehavior⟩
    exact ⟨s, hs, hid, behavior, hbehavior⟩

variable [DecidableEq ι] {d : Draft ι κ ν γ} {declaration : Declaration ι κ ν γ}
variable {declarations : List (Declaration ι κ ν γ)}

/-! ### Behaviours -/

theorem behaves_mention (d : Draft ι κ ν γ) (state id : ι) (behavior : Behavior ι κ ν γ) :
    (d.mention state).Behaves id behavior ↔ d.Behaves id behavior :=
  exists_state_mention (by simp) d state

theorem refused_addState_iff {id : ι} {behavior : Option (Behavior ι κ ν γ)} {isFinal : Bool} :
    (d.addState id behavior isFinal).refused = none ↔
      d.refused = none ∧ (behavior.isSome → ∀ other, ¬ d.Behaves id other) := by
  have hhas : (d.mention id).hasBehavior id = true ↔ ∃ other, d.Behaves id other := by
    rw [hasBehavior_iff]
    exact exists_congr fun other => d.behaves_mention id id other
  unfold addState
  simp only
  split
  · next hsecond =>
    rw [Bool.and_eq_true, hhas] at hsecond
    obtain ⟨hbehavior, other, hother⟩ := hsecond
    exact iff_of_false (refused_refuse _ _) fun h => h.2 hbehavior other hother
  · next hfirst =>
    rw [Bool.and_eq_true, hhas] at hfirst
    rw [refused_mention]
    exact ⟨fun h => ⟨h, fun hbehavior other hother => hfirst ⟨hbehavior, other, hother⟩⟩, fun h => h.1⟩

theorem behaves_addState {state : ι} {attached : Option (Behavior ι κ ν γ)} {isFinal : Bool}
    (hrefused : (d.addState state attached isFinal).refused = none) (id : ι) (behavior : Behavior ι κ ν γ) :
    (d.addState state attached isFinal).Behaves id behavior ↔
      d.Behaves id behavior ∨ attached = some behavior ∧ id = state := by
  have hfree := (refused_addState_iff.1 hrefused).2
  have hstate : state ∈ (d.mention state).ids := (d.mem_ids_mention state state).2 (.inr rfl)
  obtain ⟨s, hs, hid⟩ := List.mem_map.1 hstate
  simp only [← d.behaves_mention state] at hfree ⊢
  rw [Behaves, Behaves, states_addState]
  constructor
  · rintro ⟨_, hmem, rfl, hbehavior⟩
    obtain ⟨s', hs', rfl⟩ := List.mem_map.1 hmem
    by_cases heq : s'.id = state
    · rw [if_pos heq] at hbehavior ⊢
      rcases Option.or_eq_some_iff.1 hbehavior with hold | ⟨_, hnew⟩
      · exact .inl ⟨s', hs', rfl, hold⟩
      · exact .inr ⟨hnew, heq⟩
    · rw [if_neg heq] at hbehavior ⊢
      exact .inl ⟨s', hs', rfl, hbehavior⟩
  · rintro (⟨s', hs', rfl, hbehavior⟩ | ⟨rfl, rfl⟩)
    · refine ⟨_, List.mem_map_of_mem hs', ?_⟩
      split <;> simp [hbehavior]
    · have hnone : s.behavior = none := by
        rw [Option.eq_none_iff_forall_ne_some]
        intro other hother
        exact hfree rfl other ⟨s, hs, hid, hother⟩
      refine ⟨_, List.mem_map_of_mem hs, ?_⟩
      simp [hid, hnone]

theorem behaves_declare (hrefused : (d.declare declaration).refused = none) (id : ι) (behavior : Behavior ι κ ν γ) :
    (d.declare declaration).Behaves id behavior ↔
      d.Behaves id behavior ∨ declaration.behavior? = some (id, behavior) := by
  cases hattached : declaration.attached? with
  | none =>
    simp only [Declaration.behavior?_of_attached? hattached, reduceCtorEq, or_false]
    exact exists_state_declare (by simp) hattached
  | some attached =>
    cases declaration with
    | state state attached =>
      refine (behaves_addState hrefused id behavior).trans (or_congr_right ?_)
      simp [Declaration.behavior?, and_comm, eq_comm]
    | final state attached =>
      refine (behaves_addState hrefused id behavior).trans (or_congr_right ?_)
      simp [Declaration.behavior?, eq_comm]
    | _ => simp [Declaration.attached?] at hattached

theorem behaves_ofDeclarations_iff (hrefused : (ofDeclarations declarations).refused = none) (id : ι)
    (behavior : Behavior ι κ ν γ) :
    (ofDeclarations declarations).Behaves id behavior ↔ (id, behavior) ∈ Definition.behaviors declarations := by
  induction declarations using List.reverseRecOn with
  | nil => simp [ofDeclarations, Behaves, Definition.behaviors]
  | append_singleton declarations declaration ih =>
    rw [ofDeclarations_append] at hrefused ⊢
    rw [behaves_declare hrefused, ih (refused_of_declare hrefused), Definition.behaviors, Definition.behaviors,
      filterMap_concat, List.mem_append, Option.mem_toList]

/-! ### The limit and the resolver -/

theorem settings_mention (d : Draft ι κ ν γ) (id : ι) :
    (d.mention id).limit = d.limit ∧ (d.mention id).resolver = d.resolver := by
  unfold mention
  split <;> exact ⟨rfl, rfl⟩

theorem settings_mentionAll (d : Draft ι κ ν γ) (ids : List ι) :
    (d.mentionAll ids).limit = d.limit ∧ (d.mentionAll ids).resolver = d.resolver := by
  induction ids generalizing d with
  | nil => exact ⟨rfl, rfl⟩
  | cons id rest ih =>
    obtain ⟨hlimit, hresolver⟩ := ih (d.mention id)
    exact ⟨hlimit.trans (d.settings_mention id).1, hresolver.trans (d.settings_mention id).2⟩

theorem settings_addRule {rule : Rule ι κ ν γ} (hrefused : (d.addRule rule).refused = none) :
    (d.addRule rule).limit = d.limit ∧ (d.addRule rule).resolver = d.resolver := by
  obtain ⟨t, _, heq⟩ := addRule_eq hrefused
  rw [heq]
  exact d.settings_mentionAll _

theorem settings_addState (d : Draft ι κ ν γ) (id : ι) (behavior : Option (Behavior ι κ ν γ)) (isFinal : Bool) :
    (d.addState id behavior isFinal).limit = d.limit ∧ (d.addState id behavior isFinal).resolver = d.resolver := by
  unfold addState
  simp only
  split <;> exact d.settings_mention id

theorem settings_declare (hrefused : (d.declare declaration).refused = none) :
    (d.declare declaration).limit = declaration.limit?.getD d.limit ∧
      (d.declare declaration).resolver = declaration.resolver?.getD d.resolver := by
  cases declaration with
  | state id behavior => exact d.settings_addState id _ _
  | final id behavior => exact d.settings_addState id _ _
  | composite c =>
    obtain ⟨nested, t, hnested, _, heq⟩ := addComposite_eq hrefused
    rw [declare, heq, nestAll_frame hnested]
    exact d.settings_mentionAll _
  | initial target action =>
    have heq : d.declare (.initial target action) = _ := addInitial_eq hrefused
    rw [heq]
    exact d.settings_mention target
  | rule r => exact settings_addRule hrefused
  | sketch s =>
    cases hsketch : s.rule with
    | ok r =>
      simp only [declare, hsketch] at hrefused ⊢
      exact settings_addRule hrefused
    | error error =>
      simp only [declare, hsketch] at hrefused
      exact absurd hrefused (refused_refuse _ _)
  | limit limit =>
    have heq : d.declare (.limit limit) = _ := setLimit_eq hrefused
    rw [heq]
    exact ⟨rfl, rfl⟩
  | resolver r => exact ⟨rfl, rfl⟩

theorem settings_ofDeclarations (hrefused : (ofDeclarations declarations).refused = none) :
    (ofDeclarations declarations).limit = Definition.limit declarations ∧
      (ofDeclarations declarations).resolver = Definition.resolver declarations := by
  induction declarations using List.reverseRecOn with
  | nil => exact ⟨rfl, rfl⟩
  | append_singleton declarations declaration ih =>
    rw [ofDeclarations_append] at hrefused ⊢
    obtain ⟨hlimit, hresolver⟩ := settings_declare hrefused
    obtain ⟨hlimit', hresolver'⟩ := ih (refused_of_declare hrefused)
    rw [hlimit, hresolver, hlimit', hresolver']
    exact ⟨(Definition.limit_append declarations declaration).symm,
      (Definition.resolver_append declarations declaration).symm⟩

end Draft

end NestedMachine
