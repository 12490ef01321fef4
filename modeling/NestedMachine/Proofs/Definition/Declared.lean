import NestedMachine.Proofs.Definition.Alignment
import Mathlib.Data.List.Induction
import Mathlib.Logic.Relation

/-!
# What a list of declarations says

The states, the transitions and the nesting of a definition can be read off its declarations directly, without a draft: states in the order in which they are first mentioned, transitions in the order in which they are declared, and a state inside another where some composite declaration puts it there. `Draft.Reflects` says that a draft agrees with this reading, and every draft without a refusal does (`reflects_ofDeclarations`).

One lemma for each part of a draft says what a single declaration does to it: `ids_declare`, `clauses_declare`, `superstate?_declare` and `isFinal_declare`.
-/

namespace NestedMachine

variable {ι κ ν γ : Type}

/-- What a transition joins, and how. -/
structure Link (ι : Type) where
  edge : Edge ι
  kind : Kind
deriving DecidableEq

def Transition.link (t : Transition ι κ ν γ) : Link ι := ⟨t.edge, t.kind⟩

def Rule.link (rule : Rule ι κ ν γ) : Link ι := ⟨⟨some rule.source, rule.target⟩, rule.kind⟩

/-- A transition as a definition states it: all but the keys. -/
structure Clause (ι κ ν γ : Type) extends Link ι where
  trigger : Option (Trigger κ) := none
  guard : Option (Guard ι κ ν γ) := none
  action : Option (Action ι κ ν γ) := none

def Transition.clause (t : Transition ι κ ν γ) : Clause ι κ ν γ :=
  { t.link with trigger := t.trigger, guard := t.guard, action := t.action }

def Rule.clause (rule : Rule ι κ ν γ) : Clause ι κ ν γ :=
  { rule.link with trigger := rule.trigger, guard := rule.guard, action := rule.action }

def Composite.clause (c : Composite ι γ) : Clause ι κ ν γ where
  edge := ⟨some c.superstate, c.default⟩
  kind := .initial
  action := c.action.map .ofInitial

namespace Declaration

/-- The states that a declaration mentions, in order. A sketch that cannot be finished mentions none. -/
def mentions : Declaration ι κ ν γ → List ι
  | .state id _ => [id]
  | .final id _ => [id]
  | .composite c => c.superstate :: c.substates
  | .initial target _ => [target]
  | .rule r => [r.source, r.target]
  | .sketch s =>
    match s.rule with
    | .ok r => [r.source, r.target]
    | .error _ => []
  | .limit _ => []
  | .resolver _ => []

def link? : Declaration ι κ ν γ → Option (Link ι)
  | .composite c => some ⟨⟨some c.superstate, c.default⟩, .initial⟩
  | .initial target _ => some ⟨⟨none, target⟩, .initial⟩
  | .rule r => some r.link
  | .sketch s => s.rule.toOption.map Rule.link
  | _ => none

/-- The transition that a declaration adds, with all that it says of it. -/
def clause? : Declaration ι κ ν γ → Option (Clause ι κ ν γ)
  | .composite c => some c.clause
  | .initial target action => some { edge := ⟨none, target⟩, kind := .initial, action := action.map .ofInitial }
  | .rule r => some r.clause
  | .sketch s => s.rule.toOption.map Rule.clause
  | _ => none

theorem link?_eq (declaration : Declaration ι κ ν γ) : declaration.link? = declaration.clause?.map Clause.toLink := by
  cases declaration with
  | sketch s => simp [link?, clause?, Function.comp_def, Rule.clause]
  | _ => rfl

/-- What a declaration attaches to a state: a behaviour, the mark of a final state, or both. -/
def attached? : Declaration ι κ ν γ → Option (ι × Option (Behavior ι κ ν γ) × Bool)
  | .state id behavior => some (id, some behavior, false)
  | .final id behavior => some (id, behavior, true)
  | _ => none

/-- The declaration nests one state in another. -/
def Nests (declaration : Declaration ι κ ν γ) (superstate substate : ι) : Prop :=
  ∃ c, declaration = .composite c ∧ c.superstate = superstate ∧ substate ∈ c.substates

def Finalizes (declaration : Declaration ι κ ν γ) (id : ι) : Prop := ∃ behavior, declaration = .final id behavior

end Declaration

theorem filterMap_concat {α β : Type} (f : α → Option β) (l : List α) (a : α) :
    (l ++ [a]).filterMap f = l.filterMap f ++ (f a).toList := by
  cases h : f a <;> simp [h]

namespace Definition

/-- The states of a definition, in the order of their first mention. -/
def states [DecidableEq ι] (declarations : List (Declaration ι κ ν γ)) : List ι :=
  (declarations.flatMap Declaration.mentions).eraseDups

def links (declarations : List (Declaration ι κ ν γ)) : List (Link ι) :=
  declarations.filterMap Declaration.link?

/-- The transitions of a definition with all that it says of them, in the order of their declaration. -/
def clauses (declarations : List (Declaration ι κ ν γ)) : List (Clause ι κ ν γ) :=
  declarations.filterMap Declaration.clause?

theorem links_eq_map_clauses (declarations : List (Declaration ι κ ν γ)) :
    links declarations = (clauses declarations).map Clause.toLink := by
  simp only [links, clauses, List.map_filterMap, Declaration.link?_eq]

def Nests (declarations : List (Declaration ι κ ν γ)) (superstate substate : ι) : Prop :=
  ∃ declaration ∈ declarations, declaration.Nests superstate substate

def IsFinal (declarations : List (Declaration ι κ ν γ)) (id : ι) : Prop :=
  ∃ declaration ∈ declarations, declaration.Finalizes id

/-- The first state contains the second, over any number of levels. -/
def Contains (declarations : List (Declaration ι κ ν γ)) : ι → ι → Prop :=
  Relation.TransGen (Nests declarations)

end Definition

namespace Draft

def IsFinal (d : Draft ι κ ν γ) (id : ι) : Prop := ∃ s ∈ d.states, s.id = id ∧ s.isFinal = true

variable [DecidableEq ι]

def NestsAs (d : Draft ι κ ν γ) (declarations : List (Declaration ι κ ν γ)) : Prop :=
  ∀ id superstate, d.superstate? id = some superstate ↔ Definition.Nests declarations superstate id

/-- The draft is what the declarations say. -/
structure Reflects (d : Draft ι κ ν γ) (declarations : List (Declaration ι κ ν γ)) : Prop where
  ids_eq : d.ids = Definition.states declarations
  links_eq : d.transitions.map Transition.link = Definition.links declarations
  superstate?_eq_some_iff : ∀ id superstate,
    d.superstate? id = some superstate ↔ Definition.Nests declarations superstate id
  isFinal_iff : ∀ id, d.IsFinal id ↔ Definition.IsFinal declarations id

variable {d d' : Draft ι κ ν γ}

/-! ### Refusals -/

omit [DecidableEq ι] in
theorem refused_refuse (d : Draft ι κ ν γ) (error : DefinitionError ι) : (d.refuse error).refused ≠ none := by
  cases hrefused : d.refused <;> simp [refuse, hrefused]

omit [DecidableEq ι] in
theorem addInitial_eq {t : Transition ι κ ν γ} (hrefused : (d.addInitial t).refused = none) :
    d.addInitial t = { d with transitions := d.transitions ++ [t] } := by
  unfold addInitial at hrefused ⊢
  split at hrefused
  · exact absurd hrefused (refused_refuse _ _)
  · next hnone => rw [if_neg hnone]

omit [DecidableEq ι] in
theorem refused_of_addInitial {t : Transition ι κ ν γ} (hrefused : (d.addInitial t).refused = none) :
    d.refused = none := by
  rw [addInitial_eq hrefused] at hrefused
  exact hrefused

theorem addComposite_eq {c : Composite ι γ} (hrefused : (d.addComposite c).refused = none) :
    ∃ nested t, (d.mentionAll (c.superstate :: c.substates)).nestAll c.superstate c.substates = (nested, none) ∧
      t.clause = c.clause ∧ d.addComposite c = { nested with transitions := nested.transitions ++ [t] } := by
  unfold addComposite at hrefused ⊢
  split at hrefused
  · exact absurd hrefused (refused_refuse _ _)
  · next nested heq => exact ⟨nested, _, heq, rfl, addInitial_eq hrefused⟩

theorem addRule_eq {rule : Rule ι κ ν γ} (hrefused : (d.addRule rule).refused = none) :
    ∃ t, t.clause = rule.clause ∧ d.addRule rule = { d.mentionAll [rule.source, rule.target] with
      transitions := (d.mentionAll [rule.source, rule.target]).transitions ++ [t] } := by
  unfold addRule at hrefused ⊢
  simp only at hrefused ⊢
  split at hrefused
  · next hkind =>
    rw [if_pos hkind]
    exact ⟨_, rfl, addInitial_eq hrefused⟩
  · next hkind =>
    rw [if_neg hkind]
    exact ⟨_, rfl, rfl⟩

omit [DecidableEq ι] in
theorem setLimit_eq {limit : Nat} (hrefused : (d.setLimit limit).refused = none) :
    d.setLimit limit = { d with limit } := by
  unfold setLimit at hrefused ⊢
  split at hrefused
  · exact absurd hrefused (refused_refuse _ _)
  · next hlimit => rw [if_neg hlimit]

theorem refused_of_declare {declaration : Declaration ι κ ν γ} (hrefused : (d.declare declaration).refused = none) :
    d.refused = none := by
  have hstate : ∀ id behavior isFinal, (d.addState id behavior isFinal).refused = none → d.refused = none := by
    intro id behavior isFinal hrefused
    unfold addState at hrefused
    simp only at hrefused
    split at hrefused
    · exact absurd hrefused (refused_refuse _ _)
    · simpa using hrefused
  have hrule : ∀ rule, (d.addRule rule).refused = none → d.refused = none := by
    intro rule hrefused
    obtain ⟨t, _, heq⟩ := addRule_eq hrefused
    rw [heq] at hrefused
    simpa using hrefused
  cases declaration with
  | state id behavior => exact hstate _ _ _ hrefused
  | final id behavior => exact hstate _ _ _ hrefused
  | composite c =>
    obtain ⟨nested, t, hnested, _, heq⟩ := addComposite_eq hrefused
    have hsame : nested.refused = d.refused := by rw [refused_nestAll hnested, refused_mentionAll]
    have hrefused' : (d.addComposite c).refused = none := hrefused
    rw [heq] at hrefused'
    exact hsame ▸ hrefused'
  | initial target action => simpa using refused_of_addInitial hrefused
  | rule r => exact hrule r hrefused
  | sketch s =>
    simp only [declare] at hrefused
    split at hrefused
    · exact hrule _ hrefused
    · exact absurd hrefused (refused_refuse _ _)
  | limit limit =>
    have hlimit : (d.setLimit limit).refused = none := hrefused
    rw [setLimit_eq hlimit] at hlimit
    exact hlimit
  | resolver r => exact hrefused

/-! ### States -/

theorem states_addState (d : Draft ι κ ν γ) (state : ι) (behavior : Option (Behavior ι κ ν γ)) (isFinal : Bool) :
    (d.addState state behavior isFinal).states = (d.mention state).states.map fun s =>
      if s.id = state then { s with behavior := s.behavior.or behavior, isFinal := s.isFinal || isFinal } else s := by
  unfold addState
  simp only
  split <;> rfl

omit [DecidableEq ι] in
theorem states_addInitial (d : Draft ι κ ν γ) (t : Transition ι κ ν γ) : (d.addInitial t).states = d.states := by
  unfold addInitial
  split <;> rfl

theorem states_addRule (d : Draft ι κ ν γ) (rule : Rule ι κ ν γ) :
    (d.addRule rule).states = (d.mentionAll [rule.source, rule.target]).states := by
  unfold addRule
  simp only
  split
  · exact states_addInitial _ _
  · rfl

theorem states_declare {declaration : Declaration ι κ ν γ} (hattached : declaration.attached? = none) :
    (d.declare declaration).states = (d.mentionAll declaration.mentions).states := by
  cases declaration with
  | state id behavior => simp [Declaration.attached?] at hattached
  | final id behavior => simp [Declaration.attached?] at hattached
  | composite c =>
    have hnested : ∀ nested error, (d.mentionAll (c.superstate :: c.substates)).nestAll c.superstate c.substates =
        (nested, error) → nested.states = (d.mentionAll (c.superstate :: c.substates)).states := by
      intro nested error heq
      rw [nestAll_frame heq]
    simp only [declare, addComposite, Declaration.mentions]
    split
    · next nested error heq => exact hnested nested _ heq
    · next nested heq => exact (states_addInitial _ _).trans (hnested nested _ heq)
  | initial target action => exact states_addInitial _ _
  | rule r => exact d.states_addRule r
  | sketch s =>
    cases hsketch : s.rule with
    | ok r => simpa only [declare, Declaration.mentions, hsketch] using d.states_addRule r
    | error error =>
      simp only [declare, Declaration.mentions, hsketch]
      rfl
  | limit limit =>
    simp only [declare, setLimit]
    split <;> rfl
  | resolver r => rfl

/-! ### Identities -/

theorem ids_mentionAll {more mentioned : List ι} (hids : d.ids = mentioned.eraseDups) :
    (d.mentionAll more).ids = (mentioned ++ more).eraseDups := by
  induction more generalizing d mentioned with
  | nil => rw [List.append_nil, ← hids]; rfl
  | cons id rest ih =>
    have hmention : (d.mention id).ids = (mentioned ++ [id]).eraseDups := by
      rw [ids_mention, hids, List.eraseDups_append, List.removeAll]
      by_cases hmem : id ∈ mentioned
      · simp [hmem]
      · simp [hmem, List.eraseDups_cons]
    exact (ih hmention).trans (by rw [List.append_assoc, List.singleton_append])

theorem ids_declare (d : Draft ι κ ν γ) (declaration : Declaration ι κ ν γ) :
    (d.declare declaration).ids = (d.mentionAll declaration.mentions).ids := by
  cases hattached : declaration.attached? with
  | none => rw [ids, states_declare hattached, ids]
  | some attached =>
    cases declaration with
    | state id behavior => exact d.ids_addState id (some behavior) false
    | final id behavior => exact d.ids_addState id behavior true
    | _ => simp [Declaration.attached?] at hattached

/-! ### Transitions -/

theorem clauses_addRule {rule : Rule ι κ ν γ} (hrefused : (d.addRule rule).refused = none) :
    (d.addRule rule).transitions.map Transition.clause = d.transitions.map Transition.clause ++ [rule.clause] := by
  obtain ⟨t, ht, heq⟩ := addRule_eq hrefused
  simp [heq, ht]

theorem clauses_declare {declaration : Declaration ι κ ν γ} (hrefused : (d.declare declaration).refused = none) :
    (d.declare declaration).transitions.map Transition.clause =
      d.transitions.map Transition.clause ++ declaration.clause?.toList := by
  cases declaration with
  | state id behavior => simp [declare, Declaration.clause?]
  | final id behavior => simp [declare, Declaration.clause?]
  | composite c =>
    obtain ⟨nested, t, hnested, ht, heq⟩ := addComposite_eq hrefused
    have hsame : nested.transitions = d.transitions := by rw [transitions_nestAll hnested, transitions_mentionAll]
    simp [declare, heq, hsame, ht, Declaration.clause?]
  | initial target action =>
    have heq : d.declare (.initial target action) = _ := addInitial_eq hrefused
    rw [heq]
    simp [Declaration.clause?, Transition.clause, Transition.link, Transition.edge]
  | rule r => exact clauses_addRule hrefused
  | sketch s =>
    cases hsketch : s.rule with
    | ok r =>
      simp only [declare, hsketch] at hrefused
      simpa [declare, Declaration.clause?, hsketch, Except.toOption] using clauses_addRule hrefused
    | error error =>
      simp only [declare, hsketch] at hrefused
      exact absurd hrefused (refused_refuse _ _)
  | limit limit =>
    have heq : d.declare (.limit limit) = _ := setLimit_eq hrefused
    rw [heq]
    simp [Declaration.clause?]
  | resolver r => simp [declare, Declaration.clause?]

/-! ### Nesting -/

theorem superstate?_congr (hids : d'.ids = d.ids) (hhierarchy : d'.hierarchy = d.hierarchy) (id : ι) :
    d'.superstate? id = d.superstate? id := by
  have hlookup : d'.id? = d.id? := by
    funext key
    simp only [id?, hids]
  rw [superstate?, superstate?, keyOf, keyOf, hlookup, hhierarchy, hids]

theorem Aligned.superstate?_of_not_mem {id : ι} (haligned : d.Aligned) (hid : id ∉ d.ids) : d.superstate? id = none := by
  rw [superstate?, keyOf, List.idxOf_eq_length hid, Hierarchy.parent_ofPosition,
    List.getElem?_eq_none (Nat.le_of_eq haligned.length_eq)]
  rfl

theorem Aligned.superstate?_mention (haligned : d.Aligned) (id other : ι) :
    (d.mention id).superstate? other = d.superstate? other := by
  by_cases hmem : id ∈ d.ids
  · rw [Draft.mention, if_pos hmem]
  have hids : (d.mention id).ids = d.ids ++ [id] := by rw [ids_mention, if_neg hmem]
  have hhierarchy : (d.mention id).hierarchy = d.hierarchy.grow := by rw [Draft.mention, if_neg hmem]
  by_cases hother : other ∈ d.ids
  · have hindex : (d.keyOf other).index ≠ d.hierarchy.size := Nat.ne_of_lt (haligned.contains_keyOf hother)
    rw [superstate?, keyOf_extend (d.ids_prefix_mention id) hother, hhierarchy, Hierarchy.parent_grow,
      if_neg hindex, haligned.parent_keyOf hother, Option.bind_some]
    cases hsuperstate : d.superstate? other with
    | none => rfl
    | some superstate =>
      exact id?_extend (d.ids_prefix_mention id) (id?_keyOf (haligned.mem_ids_of_superstate? hsuperstate))
  · rw [haligned.superstate?_of_not_mem hother]
    by_cases heq : other = id
    · subst heq
      have hindex : (d.keyOf other).index = d.hierarchy.size := by
        simp [keyOf, Key.ofPosition, List.idxOf_eq_length hmem, Hierarchy.size, haligned.length_eq]
      rw [superstate?, keyOf_mention d other other (.inr rfl), hhierarchy, Hierarchy.parent_grow, if_pos hindex]
      rfl
    · exact (haligned.mention id).superstate?_of_not_mem (by simp [hids, hother, heq])

theorem Aligned.superstate?_mentionAll (haligned : d.Aligned) (ids : List ι) (other : ι) :
    (d.mentionAll ids).superstate? other = d.superstate? other := by
  induction ids generalizing d with
  | nil => rfl
  | cons id rest ih => exact (ih (haligned.mention id)).trans (haligned.superstate?_mention id other)

theorem Aligned.nestsAs_mentionAll (haligned : d.Aligned) (hnested : d.NestsAs declarations) (ids : List ι) :
    (d.mentionAll ids).NestsAs declarations := by
  intro id superstate
  rw [haligned.superstate?_mentionAll, hnested]

theorem Aligned.superstate?_nest {superstate substate : ι} (haligned : d.Aligned) (hsuperstate : superstate ∈ d.ids)
    (hsubstate : substate ∈ d.ids) (hnest : d.nest superstate substate = .ok d') (id : ι) :
    d'.superstate? id = if id = substate then some superstate else d.superstate? id := by
  obtain ⟨_, ⟨_, rfl⟩ | ⟨hexisting, rfl⟩⟩ := nest_eq_ok_iff.1 hnest
  · have hparent := Hierarchy.parent_nest d.hierarchy (d.keyOf substate) (d.keyOf superstate) (d.keyOf id)
      (haligned.keyOf_mem_states hsubstate)
    have hlookup : ({ d with hierarchy := d.hierarchy.nest (d.keyOf substate) (d.keyOf superstate) } :
        Draft ι κ ν γ).superstate? id =
        ((d.hierarchy.nest (d.keyOf substate) (d.keyOf superstate)).parent (d.keyOf id)).bind d.id? := rfl
    rw [hlookup, hparent]
    by_cases heq : id = substate
    · rw [if_pos heq, if_pos (congrArg d.keyOf heq), Option.bind_some, id?_keyOf hsuperstate]
    · rw [if_neg heq, if_neg fun hkey => heq ((keyOf_inj hsubstate).1 hkey.symm).symm]
      rfl
  · split
    · next heq => rw [heq, hexisting]
    · rfl

/-- What was nested before stays where it was: it is not nested elsewhere a second time. -/
theorem Aligned.superstate?_nestAll {superstate : ι} {substates : List ι} (haligned : d.Aligned)
    (hsuperstate : superstate ∈ d.ids) (hsubstates : ∀ id ∈ substates, id ∈ d.ids)
    (hnest : d.nestAll superstate substates = (d', none)) (id other : ι) :
    d'.superstate? id = some other ↔ d.superstate? id = some other ∨ other = superstate ∧ id ∈ substates := by
  induction substates generalizing d with
  | nil =>
    obtain ⟨rfl, _⟩ := Prod.mk.inj hnest
    simp
  | cons substate rest ih =>
    unfold Draft.nestAll at hnest
    split at hnest
    · simp at hnest
    · next next hfirst =>
      have hmem := hsubstates substate List.mem_cons_self
      have hids : next.ids = d.ids := by rw [nest_frame hfirst]; rfl
      have hone := haligned.superstate?_nest hsuperstate hmem hfirst id
      have hfree : d.superstate? substate = none ∨ d.superstate? substate = some superstate := by
        obtain ⟨_, ⟨hnone, _⟩ | ⟨hsome, _⟩⟩ := nest_eq_ok_iff.1 hfirst
        · exact .inl hnone
        · exact .inr hsome
      rw [ih (haligned.nest hsuperstate hmem hfirst) (hids ▸ hsuperstate)
        (fun id hid => hids ▸ hsubstates id (List.mem_cons_of_mem _ hid)) hnest, hone, List.mem_cons]
      by_cases heq : id = substate
      · subst heq
        rcases hfree with hnone | hsome
        · simpa [hnone, eq_comm] using fun (h : superstate = other) (_ : id ∈ rest) => h
        · simpa [hsome, eq_comm] using fun (h : superstate = other) (_ : id ∈ rest) => h
      · simp [heq]

theorem Aligned.superstate?_declare {declaration : Declaration ι κ ν γ} (haligned : d.Aligned)
    (hrefused : (d.declare declaration).refused = none) (id superstate : ι) :
    (d.declare declaration).superstate? id = some superstate ↔
      d.superstate? id = some superstate ∨ declaration.Nests superstate id := by
  have hstate : ∀ state behavior isFinal, (d.addState state behavior isFinal).superstate? id = d.superstate? id := by
    intro state behavior isFinal
    rw [superstate?_congr (d.ids_addState state behavior isFinal) (d.hierarchy_addState state behavior isFinal),
      haligned.superstate?_mention]
  have hrule : ∀ rule, (d.addRule rule).refused = none → (d.addRule rule).superstate? id = d.superstate? id := by
    intro rule hrefused
    obtain ⟨t, _, heq⟩ := addRule_eq hrefused
    rw [heq]
    exact haligned.superstate?_mentionAll _ id
  cases declaration with
  | state state behavior => simp [Draft.declare, hstate, Declaration.Nests]
  | final state behavior => simp [Draft.declare, hstate, Declaration.Nests]
  | composite c =>
    obtain ⟨nested, t, hnested, _, heq⟩ := addComposite_eq hrefused
    have hmem : ∀ id ∈ c.superstate :: c.substates, id ∈ (d.mentionAll (c.superstate :: c.substates)).ids :=
      fun id hid => d.mem_ids_mentionAll hid
    have hall := (haligned.mentionAll (c.superstate :: c.substates)).superstate?_nestAll (hmem _ List.mem_cons_self)
      (fun id hid => hmem id (List.mem_cons_of_mem c.superstate hid)) hnested id superstate
    have hsame : (d.declare (.composite c)).superstate? id = nested.superstate? id := by
      rw [Draft.declare, heq]
      rfl
    rw [hsame, hall, haligned.superstate?_mentionAll]
    simp [Declaration.Nests, eq_comm]
  | initial target action =>
    have hsame : (d.declare (.initial target action)).superstate? id = d.superstate? id := by
      have heq : d.declare (.initial target action) = _ := addInitial_eq hrefused
      rw [heq]
      exact haligned.superstate?_mention target id
    simp [hsame, Declaration.Nests]
  | rule r => simp [Draft.declare, hrule r hrefused, Declaration.Nests]
  | sketch s =>
    simp only [Draft.declare] at hrefused ⊢
    split at hrefused
    · simp [hrule _ hrefused, Declaration.Nests]
    · exact absurd hrefused (refused_refuse _ _)
  | limit limit =>
    have hsame : (d.declare (.limit limit)).superstate? id = d.superstate? id := by
      have heq : d.declare (.limit limit) = _ := setLimit_eq hrefused
      rw [heq]
      rfl
    simp [hsame, Declaration.Nests]
  | resolver r =>
    have hsame : (d.declare (.resolver r)).superstate? id = d.superstate? id := rfl
    simp [hsame, Declaration.Nests]

/-! ### What is attached to states -/

theorem exists_state_mention {P : DraftState ι κ ν γ → Prop} (hfresh : ∀ id, ¬ P { id }) (d : Draft ι κ ν γ)
    (state : ι) : (∃ s ∈ (d.mention state).states, P s) ↔ ∃ s ∈ d.states, P s := by
  unfold mention
  split
  · rfl
  · simp [or_and_right, exists_or, hfresh]

theorem exists_state_mentionAll {P : DraftState ι κ ν γ → Prop} (hfresh : ∀ id, ¬ P { id }) (d : Draft ι κ ν γ)
    (states : List ι) : (∃ s ∈ (d.mentionAll states).states, P s) ↔ ∃ s ∈ d.states, P s := by
  induction states generalizing d with
  | nil => rfl
  | cons state rest ih => exact (ih _).trans (exists_state_mention hfresh d state)

theorem exists_state_declare {P : DraftState ι κ ν γ → Prop} (hfresh : ∀ id, ¬ P { id })
    {declaration : Declaration ι κ ν γ} (hattached : declaration.attached? = none) :
    (∃ s ∈ (d.declare declaration).states, P s) ↔ ∃ s ∈ d.states, P s := by
  rw [states_declare hattached]
  exact exists_state_mentionAll hfresh d _

/-! ### Final states -/

theorem isFinal_addState (d : Draft ι κ ν γ) (state : ι) (behavior : Option (Behavior ι κ ν γ)) (isFinal : Bool)
    (id : ι) :
    (d.addState state behavior isFinal).IsFinal id ↔ d.IsFinal id ∨ isFinal = true ∧ id = state := by
  have hmention : (d.mention state).IsFinal id ↔ d.IsFinal id := exists_state_mention (by simp) d state
  have hstate : state ∈ (d.mention state).ids := (d.mem_ids_mention state state).2 (.inr rfl)
  obtain ⟨s, hs, hid⟩ := List.mem_map.1 hstate
  rw [← hmention, IsFinal, IsFinal, states_addState]
  constructor
  · rintro ⟨_, hmem, rfl, hfinal⟩
    obtain ⟨s', hs', rfl⟩ := List.mem_map.1 hmem
    by_cases heq : s'.id = state
    · rw [if_pos heq] at hfinal ⊢
      rcases Bool.or_eq_true_iff.1 hfinal with hfinal | hfinal
      · exact .inl ⟨s', hs', rfl, hfinal⟩
      · exact .inr ⟨hfinal, heq⟩
    · rw [if_neg heq] at hfinal ⊢
      exact .inl ⟨s', hs', rfl, hfinal⟩
  · rintro (⟨s', hs', rfl, hfinal⟩ | ⟨hfinal, rfl⟩)
    · refine ⟨_, List.mem_map_of_mem hs', ?_⟩
      split <;> simp [hfinal]
    · refine ⟨_, List.mem_map_of_mem hs, ?_⟩
      simp [hid, hfinal]

theorem isFinal_declare (d : Draft ι κ ν γ) (declaration : Declaration ι κ ν γ) (id : ι) :
    (d.declare declaration).IsFinal id ↔ d.IsFinal id ∨ declaration.Finalizes id := by
  cases hattached : declaration.attached? with
  | none =>
    have hother : ¬ declaration.Finalizes id := by
      rintro ⟨behavior, rfl⟩
      simp [Declaration.attached?] at hattached
    rw [or_iff_left hother]
    exact exists_state_declare (by simp) hattached
  | some attached =>
    cases declaration with
    | state state behavior => simp [declare, isFinal_addState, Declaration.Finalizes]
    | final state behavior => simp [declare, isFinal_addState, Declaration.Finalizes, eq_comm]
    | _ => simp [Declaration.attached?] at hattached

/-! ### All declarations -/

theorem reflects_empty : ({} : Draft ι κ ν γ).Reflects [] where
  ids_eq := rfl
  links_eq := rfl
  superstate?_eq_some_iff id superstate := by simp [superstate?, ids, Definition.Nests, keyOf, Hierarchy.rootOnly]
  isFinal_iff id := by simp [IsFinal, Definition.IsFinal]

theorem ofDeclarations_append (declarations : List (Declaration ι κ ν γ)) (declaration : Declaration ι κ ν γ) :
    ofDeclarations (declarations ++ [declaration]) = (ofDeclarations declarations).declare declaration := by
  simp [ofDeclarations]

theorem ids_ofDeclarations (declarations : List (Declaration ι κ ν γ)) :
    (ofDeclarations declarations).ids = Definition.states declarations := by
  induction declarations using List.reverseRecOn with
  | nil => rfl
  | append_singleton declarations declaration ih =>
    rw [ofDeclarations_append, ids_declare, ids_mentionAll ih, Definition.states, List.flatMap_append]
    simp

theorem clauses_ofDeclarations {declarations : List (Declaration ι κ ν γ)}
    (hrefused : (ofDeclarations declarations).refused = none) :
    (ofDeclarations declarations).transitions.map Transition.clause = Definition.clauses declarations := by
  induction declarations using List.reverseRecOn with
  | nil => rfl
  | append_singleton declarations declaration ih =>
    rw [ofDeclarations_append] at hrefused ⊢
    rw [clauses_declare hrefused, ih (refused_of_declare hrefused), Definition.clauses, Definition.clauses,
      filterMap_concat]

/-- **A draft without a refusal is what the declarations say.** -/
theorem reflects_ofDeclarations {declarations : List (Declaration ι κ ν γ)}
    (hrefused : (ofDeclarations declarations).refused = none) : (ofDeclarations declarations).Reflects declarations := by
  induction declarations using List.reverseRecOn with
  | nil => exact reflects_empty
  | append_singleton declarations declaration ih =>
    rw [ofDeclarations_append] at hrefused ⊢
    have hreflects := ih (refused_of_declare hrefused)
    have haligned := aligned_ofDeclarations declarations
    exact {
      ids_eq := by rw [← ofDeclarations_append, ids_ofDeclarations]
      links_eq := by
        have hclauses : (ofDeclarations (declarations ++ [declaration])).transitions.map Transition.clause =
            Definition.clauses (declarations ++ [declaration]) :=
          clauses_ofDeclarations (by rwa [ofDeclarations_append])
        rw [Definition.links_eq_map_clauses, ← hclauses, ofDeclarations_append, List.map_map]
        rfl
      superstate?_eq_some_iff := fun id superstate => by
        rw [haligned.superstate?_declare hrefused, hreflects.superstate?_eq_some_iff]
        simp [Definition.Nests, or_and_right, exists_or]
      isFinal_iff := fun id => by
        rw [isFinal_declare, hreflects.isFinal_iff]
        simp [Definition.IsFinal, or_and_right, exists_or] }

end Draft

/-! ### An example -/

namespace Player

/-- The states of a player: it plays a record until the record has ended or somebody stops it. -/
inductive Mode where
  | stopped
  | playing
  | sounding
  | paused
  | ended
deriving DecidableEq

inductive Button where
  | play
  | pause
  | stop
  | runOut
deriving DecidableEq

/-- A definition that uses composite and final states, a local transition and a completion. -/
def declarations : List (Declaration Mode Button Unit Unit) := [
  .initial .stopped none,
  .composite { superstate := .playing, default := .sounding, peers := [.paused, .ended] },
  .final .ended none,
  .rule { source := .stopped, target := .playing, trigger := some (.event .play) },
  .rule { source := .playing, target := .sounding, kind := .local, trigger := some (.event .play) },
  .rule { source := .sounding, target := .paused, trigger := some (.event .pause) },
  .rule { source := .sounding, target := .ended, trigger := some (.event .runOut) },
  .rule { source := .playing, target := .stopped, trigger := some (.event .stop) },
  .rule { source := .playing, target := .stopped, trigger := some .completion }]

/-- The same definition when only the first transition has been written down. Nothing leads to a pause or to the end. -/
def unfinished : List (Declaration Mode Button Unit Unit) := declarations.take 4

end Player

end NestedMachine
