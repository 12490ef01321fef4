import NestedMachine.Machine
import NestedMachine.Definition.Rule

/-!
# Drafts

A definition is a list of declarations, and a `Draft` is what the declarations so far amount to. A state comes into being where it is first mentioned, at the top level, and gets the next key. A declaration that contradicts an earlier one is refused: the draft keeps the first such error, and goes on to take in what follows.
-/

namespace NestedMachine

variable {ι κ ν γ : Type}

/-- A state with substates: one that is entered by default, and its peers. -/
structure Composite (ι γ : Type) where
  superstate : ι
  default : ι
  peers : List ι := []
  action : Option (InitialAction ι γ) := none

/-- The substates, the default one first. -/
def Composite.substates (c : Composite ι γ) : List ι := c.default :: c.peers

/-- One statement of a definition. -/
inductive Declaration (ι κ ν γ : Type) where
  /-- A state has this behaviour. -/
  | state (id : ι) (behavior : Behavior ι κ ν γ)
  /-- A state is final. -/
  | final (id : ι) (behavior : Option (Behavior ι κ ν γ))
  /-- States are nested in another. -/
  | composite (composite : Composite ι γ)
  /-- The machine starts in this state. -/
  | initial (target : ι) (action : Option (InitialAction ι γ))
  /-- There is a transition. -/
  | rule (rule : Rule ι κ ν γ)
  /-- There is a transition, if the sketch can be finished. -/
  | sketch (sketch : Sketch ι κ ν γ)
  /-- One event may fire this many transitions. -/
  | limit (limit : Nat)
  /-- This resolver chooses where several transitions are ready. -/
  | resolver (resolver : Resolver ι κ ν γ)

/-- A state of a draft. -/
structure DraftState (ι κ ν γ : Type) where
  id : ι
  behavior : Option (Behavior ι κ ν γ) := none
  isFinal : Bool := false

/-- What a list of declarations amounts to. -/
structure Draft (ι κ ν γ : Type) where
  states : List (DraftState ι κ ν γ) := []
  hierarchy : Hierarchy := .rootOnly
  transitions : List (Transition ι κ ν γ) := []
  limit : Nat := 50
  resolver : Resolver ι κ ν γ := .reject
  /-- The first refusal. -/
  refused : Option (DefinitionError ι) := none

namespace Draft

/-! ### Names and keys -/

/-- The states mentioned so far, in the order of their first mention. -/
def ids (d : Draft ι κ ν γ) : List ι := d.states.map DraftState.id

/-- The identity of the state with this key. -/
def id? (d : Draft ι κ ν γ) : Key → Option ι
  | ⟨0⟩ => none
  | ⟨position + 1⟩ => d.ids[position]?

/-- Remembers an error, unless there was one before. -/
def refuse (d : Draft ι κ ν γ) (error : DefinitionError ι) : Draft ι κ ν γ :=
  { d with refused := d.refused.or (some error) }

variable [DecidableEq ι]

/-- The key of a state that has been mentioned, and the key that a new state will get. -/
def keyOf (d : Draft ι κ ν γ) (id : ι) : Key := .ofPosition (d.ids.idxOf id)

/-- Adds a state at the top level if it is not yet there. -/
def mention (d : Draft ι κ ν γ) (id : ι) : Draft ι κ ν γ :=
  if id ∈ d.ids then d
  else { d with states := d.states ++ [{ id }], hierarchy := d.hierarchy.grow }

/-- Adds several states, in turn. -/
def mentionAll (d : Draft ι κ ν γ) (ids : List ι) : Draft ι κ ν γ := ids.foldl mention d

/-- The state in which a state is nested, if it is not at the top level. -/
def superstate? (d : Draft ι κ ν γ) (id : ι) : Option ι :=
  (d.hierarchy.parent (d.keyOf id)).bind d.id?

/-! ### Single declarations -/

/-- Some behaviour is attached to the state. -/
def hasBehavior (d : Draft ι κ ν γ) (id : ι) : Bool :=
  d.states.any fun s => decide (s.id = id) && s.behavior.isSome

/-- Attaches a behaviour to a state, and makes it final if asked to. Once final, a state stays final; a second behaviour is refused. -/
def addState (d : Draft ι κ ν γ) (id : ι) (behavior : Option (Behavior ι κ ν γ)) (isFinal : Bool) :
    Draft ι κ ν γ :=
  let d := d.mention id
  let registered := { d with
    states := d.states.map fun s =>
      if s.id = id then { s with behavior := s.behavior.or behavior, isFinal := s.isFinal || isFinal }
      else s }
  if behavior.isSome && d.hasBehavior id then registered.refuse (.secondBehavior id) else registered

/-- Nests a state in another. It must not contain the other, and must not be nested elsewhere. -/
def nest (d : Draft ι κ ν γ) (superstate substate : ι) : Except (DefinitionError ι) (Draft ι κ ν γ) :=
  let upper := d.keyOf superstate
  let lower := d.keyOf substate
  if lower = upper ∨ d.hierarchy.IsAncestor lower upper then
    .error (.cyclicNesting superstate substate)
  else
    match d.superstate? substate with
    | none => .ok { d with hierarchy := d.hierarchy.nest lower upper }
    | some existing =>
      if existing = superstate then .ok d
      else .error (.secondSuperstate substate existing superstate)

/-- Nests states in another, in turn, up to the first that is refused. What was nested until then stays so. -/
def nestAll (d : Draft ι κ ν γ) (superstate : ι) :
    List ι → Draft ι κ ν γ × Option (DefinitionError ι)
  | [] => (d, none)
  | substate :: rest =>
    match d.nest superstate substate with
    | .error error => (d, some error)
    | .ok d => d.nestAll superstate rest

omit [DecidableEq ι] in
/-- Adds an initial transition. A source has at most one. -/
def addInitial (d : Draft ι κ ν γ) (t : Transition ι κ ν γ) : Draft ι κ ν γ :=
  if d.transitions.any fun other => other.kind = .initial ∧ other.sourceKey = t.sourceKey then
    d.refuse (.secondInitial t.source)
  else
    { d with transitions := d.transitions ++ [t] }

/-- Nests states, and leads to the default one. -/
def addComposite (d : Draft ι κ ν γ) (c : Composite ι γ) : Draft ι κ ν γ :=
  match (d.mentionAll (c.superstate :: c.substates)).nestAll c.superstate c.substates with
  | (d, some error) => d.refuse error
  | (d, none) =>
    d.addInitial {
      source := some c.superstate
      target := c.default
      sourceKey := d.keyOf c.superstate
      targetKey := d.keyOf c.default
      kind := .initial
      action := c.action.map .ofInitial }

/-- Leads from the root to a state. -/
def addTopInitial (d : Draft ι κ ν γ) (target : ι) (action : Option (InitialAction ι γ)) :
    Draft ι κ ν γ :=
  let d := d.mention target
  d.addInitial {
    source := none
    target
    sourceKey := .root
    targetKey := d.keyOf target
    kind := .initial
    action := action.map .ofInitial }

/-- Adds the transition that a rule states. -/
def addRule (d : Draft ι κ ν γ) (rule : Rule ι κ ν γ) : Draft ι κ ν γ :=
  let d := d.mentionAll [rule.source, rule.target]
  let t : Transition ι κ ν γ := {
    source := some rule.source
    target := rule.target
    sourceKey := d.keyOf rule.source
    targetKey := d.keyOf rule.target
    kind := rule.kind
    trigger := rule.trigger
    guard := rule.guard
    action := rule.action }
  if rule.kind = .initial then d.addInitial t else { d with transitions := d.transitions ++ [t] }

omit [DecidableEq ι] in
/-- Sets the limit. Zero is refused. -/
def setLimit (d : Draft ι κ ν γ) (limit : Nat) : Draft ι κ ν γ :=
  if limit = 0 then d.refuse .zeroLimit else { d with limit }

/-- Takes in one declaration. -/
def declare (d : Draft ι κ ν γ) : Declaration ι κ ν γ → Draft ι κ ν γ
  | .state id behavior => d.addState id (some behavior) false
  | .final id behavior => d.addState id behavior true
  | .composite c => d.addComposite c
  | .initial target action => d.addTopInitial target action
  | .rule rule => d.addRule rule
  | .sketch sketch =>
    match sketch.rule with
    | .ok rule => d.addRule rule
    | .error error => d.refuse error
  | .limit limit => d.setLimit limit
  | .resolver resolver => { d with resolver }

/-- What a list of declarations amounts to. -/
def ofDeclarations (declarations : List (Declaration ι κ ν γ)) : Draft ι κ ν γ :=
  declarations.foldl declare {}

/-! ### What a mention changes -/

theorem ids_mention (d : Draft ι κ ν γ) (id : ι) :
    (d.mention id).ids = if id ∈ d.ids then d.ids else d.ids ++ [id] := by
  unfold mention
  split <;> simp [ids]

theorem mem_ids_mention (d : Draft ι κ ν γ) (id other : ι) :
    other ∈ (d.mention id).ids ↔ other ∈ d.ids ∨ other = id := by
  rw [ids_mention]
  split
  · next hmem => exact ⟨.inl, fun h => h.elim (·) (· ▸ hmem)⟩
  · simp

/-- No state is listed twice. -/
theorem nodup_ids_mention {d : Draft ι κ ν γ} (hnodup : d.ids.Nodup) (id : ι) : (d.mention id).ids.Nodup := by
  rw [ids_mention]
  split
  · exact hnodup
  · next hmem =>
    refine List.nodup_append.2 ⟨hnodup, by simp, fun other hother new hnew heq => hmem ?_⟩
    exact List.mem_singleton.1 hnew ▸ heq ▸ hother

/-- A state keeps its key, and a new one gets the key that was set aside for it. -/
theorem keyOf_mention (d : Draft ι κ ν γ) (id other : ι) (hother : other ∈ d.ids ∨ other = id) :
    (d.mention id).keyOf other = d.keyOf other := by
  rw [keyOf, keyOf, ids_mention]
  split
  · rfl
  · next hmem =>
    congr 1
    rw [List.idxOf_append]
    split
    · rfl
    · next hnew =>
      obtain rfl := hother.resolve_left hnew
      simp [List.idxOf_eq_length hmem]

end Draft

end NestedMachine
