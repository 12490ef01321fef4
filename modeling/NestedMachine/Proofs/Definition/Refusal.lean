import NestedMachine.Proofs.Definition.Admission
import NestedMachine.Proofs.Definition.Nesting

/-!
# The first refusal and what it says

A draft goes on after it has refused a declaration, with whatever that declaration has already changed, and it may refuse others then. What it has refused before plays no part in this: a declaration is taken in alike whether or not there is an error to remember (`refused_declare`). So the draft remembers the first of its `refusals`, whatever follows (`refused_foldl_declare`).

What that error says can be told from the declarations before it, which contain no refusal. `Definition.Contradicts` has one rule for each error. The rule for nesting goes through the substates of a composite declaration in turn, with `Definition.Stops`, since each of them is nested among those before. There is exactly one error for a declaration that is refused, and none for any other (`refusal?_eq_some_iff`).
-/

namespace NestedMachine

variable {ι κ ν γ : Type}

/-- Why a sketch gives no rule. A missing end is looked for first, then a trigger of an initial transition, then a guard. -/
inductive Sketch.Unfinished (sketch : Sketch ι κ ν γ) : DefinitionError ι → Prop where
  | noSource (hsource : sketch.source = none) : Unfinished sketch .noSource
  | noTarget {source : ι} (hsource : sketch.source = some source) (htarget : sketch.target = none) :
      Unfinished sketch .noTarget
  | triggered {source target : ι} (hsource : sketch.source = some source) (htarget : sketch.target = some target)
      (hkind : sketch.kind = .initial) (htrigger : sketch.trigger.isSome) :
      Unfinished sketch (.triggeredInitial source)
  | guarded {source target : ι} (hsource : sketch.source = some source) (htarget : sketch.target = some target)
      (hkind : sketch.kind = .initial) (htrigger : sketch.trigger = none) (hguard : sketch.guard.isSome) :
      Unfinished sketch (.guardedInitial source)

theorem Sketch.rule_eq_error_iff {sketch : Sketch ι κ ν γ} {error : DefinitionError ι} :
    sketch.rule = .error error ↔ sketch.Unfinished error := by
  constructor
  · intro hrule
    unfold rule at hrule
    split at hrule
    · next hsource =>
      cases hrule
      exact .noSource hsource
    · next hsource htarget =>
      cases hrule
      exact .noTarget hsource htarget
    · next hsource htarget =>
      split at hrule
      · next htriggered =>
        cases hrule
        exact .triggered hsource htarget htriggered.1 htriggered.2
      · next hplain =>
        split at hrule
        · next hguarded =>
          cases hrule
          have htrigger : sketch.trigger = none := by simpa using fun htrigger => hplain ⟨hguarded.1, htrigger⟩
          exact .guarded hsource htarget hguarded.1 htrigger hguarded.2
        · cases hrule
  · rintro (⟨hsource⟩ | ⟨hsource, htarget⟩ | ⟨hsource, htarget, hkind, htrigger⟩ |
      ⟨hsource, htarget, hkind, htrigger, hguard⟩)
    · simp [rule, hsource]
    · simp [rule, hsource, htarget]
    · simp [rule, hsource, htarget, hkind, htrigger]
    · simp [rule, hsource, htarget, hkind, htrigger, hguard]

namespace Definition

def AndNests (nests : ι → ι → Prop) (superstate substate upper lower : ι) : Prop :=
  nests upper lower ∨ upper = superstate ∧ lower = substate

/-- Why a state cannot be nested in another, where `nests` is what has been nested so far. -/
inductive Blocks (nests : ι → ι → Prop) (superstate substate : ι) : DefinitionError ι → Prop where
  /-- It is that state, or contains it. -/
  | cyclic (hcycle : Relation.ReflTransGen nests substate superstate) :
      Blocks nests superstate substate (.cyclicNesting superstate substate)
  /-- It is nested in a different state. -/
  | elsewhere {existing : ι} (hacyclic : ¬ Relation.ReflTransGen nests substate superstate)
      (hexisting : nests existing substate) (hother : existing ≠ superstate) :
      Blocks nests superstate substate (.secondSuperstate substate existing superstate)

/-- Why states cannot all be nested in another, one after the other: the first that is blocked, those before it having been nested by then. -/
inductive Stops (superstate : ι) : (ι → ι → Prop) → List ι → DefinitionError ι → Prop where
  | here {nests : ι → ι → Prop} {substate : ι} {rest : List ι} {error : DefinitionError ι}
      (hblocks : Blocks nests superstate substate error) : Stops superstate nests (substate :: rest) error
  | later {nests : ι → ι → Prop} {substate : ι} {rest : List ι} {error : DefinitionError ι}
      (hfree : ∀ error, ¬ Blocks nests superstate substate error)
      (hrest : Stops superstate (AndNests nests superstate substate) rest error) :
      Stops superstate nests (substate :: rest) error

/-- The declaration contradicts those before it, or itself, and the error says how. -/
@[mk_iff]
inductive Contradicts (declarations : List (Declaration ι κ ν γ)) : Declaration ι κ ν γ → DefinitionError ι → Prop where
  | nesting {c : Composite ι γ} {error : DefinitionError ι}
      (hstops : Stops c.superstate (Nests declarations) c.substates error) :
      Contradicts declarations (.composite c) error
  /-- The state has a behaviour already. -/
  | behavior {declaration : Declaration ι κ ν γ} {id : ι} {behavior existing : Behavior ι κ ν γ}
      (hbehavior : declaration.behavior? = some (id, behavior)) (hexisting : (id, existing) ∈ behaviors declarations) :
      Contradicts declarations declaration (.secondBehavior id)
  /-- The source has an initial transition already. A composite declaration adds its own only after its substates have been nested. -/
  | initial {declaration : Declaration ι κ ν γ} {id : ι} (hsource : declaration.initialSource? = some id)
      (hnested : ∀ c, declaration = .composite c → ∀ error, ¬ Stops c.superstate (Nests declarations) c.substates error)
      (hexisting : id ∈ initialSources declarations) : Contradicts declarations declaration (.secondInitial (some id))
  /-- The root has one already. -/
  | rootInitial {declaration : Declaration ι κ ν γ} {target existing : ι}
      (htarget : declaration.initialTarget? = some target) (hexisting : existing ∈ initialTargets declarations) :
      Contradicts declarations declaration (.secondInitial none)
  | limit {declaration : Declaration ι κ ν γ} (hlimit : declaration.limit? = some 0) :
      Contradicts declarations declaration .zeroLimit
  | sketch {sketch : Sketch ι κ ν γ} {error : DefinitionError ι} (hunfinished : sketch.Unfinished error) :
      Contradicts declarations (.sketch sketch) error

theorem andNests_eq (declarations : List (Declaration ι κ ν γ)) (superstate substate : ι) :
    AndNests (Nests declarations) superstate substate =
      Nests (declarations ++ [.composite { superstate, default := substate }]) := by
  funext upper lower
  rw [nests_append, AndNests, eq_iff_iff]
  simp [Declaration.Nests, Composite.substates, eq_comm]

end Definition

namespace Draft

open Definition

variable {d next : Draft ι κ ν γ} {declarations : List (Declaration ι κ ν γ)} {declaration : Declaration ι κ ν γ}
variable {id superstate substate : ι} {error : DefinitionError ι}

/-! ### What was refused before -/

/-- The draft with another error to remember, or none. -/
def withRefused (d : Draft ι κ ν γ) (refused : Option (DefinitionError ι)) : Draft ι κ ν γ := { d with refused }

theorem refused_addInitial (d : Draft ι κ ν γ) (t : Transition ι κ ν γ) : (d.addInitial t).refused =
    if d.transitions.any fun other => other.kind = .initial ∧ other.sourceKey = t.sourceKey then
      d.refused.or (some (.secondInitial t.source)) else d.refused :=
  apply_ite Draft.refused _ _ _

theorem refused_addInitial_withRefused (d : Draft ι κ ν γ) (refused : Option (DefinitionError ι))
    (t : Transition ι κ ν γ) :
    ((d.withRefused refused).addInitial t).refused = refused.or ((d.withRefused none).addInitial t).refused := by
  simp only [refused_addInitial, withRefused]
  split
  · rfl
  · exact Option.or_none.symm

variable [DecidableEq ι]

theorem mention_withRefused (d : Draft ι κ ν γ) (refused : Option (DefinitionError ι)) (id : ι) :
    (d.withRefused refused).mention id = (d.mention id).withRefused refused := by
  by_cases hid : id ∈ d.ids
  · have hid' : id ∈ (d.withRefused refused).ids := hid
    rw [mention, mention, if_pos hid, if_pos hid']
  · have hid' : id ∉ (d.withRefused refused).ids := hid
    rw [mention, mention, if_neg hid, if_neg hid']
    rfl

theorem mentionAll_withRefused (d : Draft ι κ ν γ) (refused : Option (DefinitionError ι)) (ids : List ι) :
    (d.withRefused refused).mentionAll ids = (d.mentionAll ids).withRefused refused := by
  induction ids generalizing d with
  | nil => rfl
  | cons id rest ih => exact (congrArg (·.mentionAll rest) (d.mention_withRefused refused id)).trans (ih _)

theorem nest_eq_error_iff : d.nest superstate substate = .error error ↔
    d.keyOf substate ∈ d.hierarchy.chain (d.keyOf superstate) ∧ .cyclicNesting superstate substate = error ∨
      d.keyOf substate ∉ d.hierarchy.chain (d.keyOf superstate) ∧ ∃ existing, d.superstate? substate = some existing ∧
        existing ≠ superstate ∧ .secondSuperstate substate existing superstate = error := by
  unfold nest
  rw [Hierarchy.mem_chain_iff]
  by_cases hcycle : d.keyOf substate = d.keyOf superstate ∨
      d.hierarchy.IsAncestor (d.keyOf substate) (d.keyOf superstate)
  · simp [hcycle]
  · simp only [hcycle, if_false, false_and, false_or, not_false_eq_true, true_and]
    cases hsuperstate : d.superstate? substate with
    | none => simp
    | some existing =>
      by_cases hexisting : existing = superstate
      · simp [hexisting]
      · simp [hexisting]

theorem nest_withRefused (d : Draft ι κ ν γ) (refused : Option (DefinitionError ι)) (superstate substate : ι) :
    (d.withRefused refused).nest superstate substate = (d.nest superstate substate).map (·.withRefused refused) := by
  cases hnest : d.nest superstate substate with
  | error error =>
    have hblocked := nest_eq_error_iff.1 hnest
    exact nest_eq_error_iff.2 hblocked
  | ok next =>
    obtain ⟨hacyclic, ⟨hnone, rfl⟩ | ⟨hsome, rfl⟩⟩ := nest_eq_ok_iff.1 hnest
    · exact nest_eq_ok_iff.2 ⟨hacyclic, .inl ⟨hnone, rfl⟩⟩
    · exact nest_eq_ok_iff.2 ⟨hacyclic, .inr ⟨hsome, rfl⟩⟩

theorem nestAll_withRefused (d : Draft ι κ ν γ) (refused : Option (DefinitionError ι)) (superstate : ι)
    (substates : List ι) : (d.withRefused refused).nestAll superstate substates =
      ((d.nestAll superstate substates).1.withRefused refused, (d.nestAll superstate substates).2) := by
  induction substates generalizing d with
  | nil => rfl
  | cons substate rest ih =>
    rw [nestAll, nestAll, nest_withRefused]
    cases d.nest superstate substate with
    | error error => rfl
    | ok next => exact ih next

/-- The error with which the draft refuses the declaration, whatever it has refused before. -/
def refusal? (d : Draft ι κ ν γ) (declaration : Declaration ι κ ν γ) : Option (DefinitionError ι) :=
  ((d.withRefused none).declare declaration).refused

theorem refused_addState (d : Draft ι κ ν γ) (id : ι) (behavior : Option (Behavior ι κ ν γ)) (isFinal : Bool) :
    (d.addState id behavior isFinal).refused =
      if behavior.isSome && (d.mention id).hasBehavior id then d.refused.or (some (.secondBehavior id))
      else d.refused := by
  rw [← d.refused_mention id]
  exact apply_ite Draft.refused _ _ _

theorem refused_addRule_withRefused (d : Draft ι κ ν γ) (refused : Option (DefinitionError ι)) (rule : Rule ι κ ν γ) :
    ((d.withRefused refused).addRule rule).refused = refused.or ((d.withRefused none).addRule rule).refused := by
  simp only [addRule, mentionAll_withRefused]
  split
  · exact refused_addInitial_withRefused _ _ _
  · exact Option.or_none.symm

/-- **A declaration is taken in alike, whatever was refused before**, and the first error is remembered. -/
theorem refused_declare (d : Draft ι κ ν γ) (declaration : Declaration ι κ ν γ) :
    (d.declare declaration).refused = d.refused.or (d.refusal? declaration) := by
  have hstate : ∀ refused id behavior isFinal, ((d.withRefused refused).addState id behavior isFinal).refused =
      refused.or ((d.withRefused none).addState id behavior isFinal).refused := by
    intro refused id behavior isFinal
    have hsame : ∀ refused, ((d.mention id).withRefused refused).hasBehavior id = (d.mention id).hasBehavior id :=
      fun _ => rfl
    simp only [refused_addState, mention_withRefused, hsame]
    split
    · rfl
    · exact Option.or_none.symm
  suffices hdeclare : ∀ refused, ((d.withRefused refused).declare declaration).refused =
      refused.or ((d.withRefused none).declare declaration).refused from hdeclare d.refused
  intro refused
  cases declaration with
  | state id behavior => exact hstate refused id (some behavior) false
  | final id behavior => exact hstate refused id behavior true
  | composite c =>
    simp only [declare, addComposite, mentionAll_withRefused, nestAll_withRefused]
    generalize (d.mentionAll (c.superstate :: c.substates)).nestAll c.superstate c.substates = nested
    obtain ⟨nested, error⟩ := nested
    cases error with
    | none => exact refused_addInitial_withRefused nested refused _
    | some error => rfl
  | initial target action =>
    simp only [declare, addTopInitial, mention_withRefused]
    exact refused_addInitial_withRefused _ _ _
  | rule rule => exact d.refused_addRule_withRefused refused rule
  | sketch sketch =>
    simp only [declare]
    cases sketch.rule with
    | ok rule => exact d.refused_addRule_withRefused refused rule
    | error error => rfl
  | limit limit =>
    simp only [declare, setLimit]
    split
    · rfl
    · exact Option.or_none.symm
  | resolver resolver => exact Option.or_none.symm

/-! ### The first refusal -/

/-- The errors of the declarations that are refused, in order. -/
def refusals (d : Draft ι κ ν γ) : List (Declaration ι κ ν γ) → List (DefinitionError ι)
  | [] => []
  | declaration :: rest => (d.refusal? declaration).toList ++ (d.declare declaration).refusals rest

theorem refused_foldl_declare (d : Draft ι κ ν γ) (declarations : List (Declaration ι κ ν γ)) :
    (declarations.foldl declare d).refused = d.refused.or (d.refusals declarations).head? := by
  induction declarations generalizing d with
  | nil => exact Option.or_none.symm
  | cons declaration rest ih =>
    rw [List.foldl_cons, ih, refused_declare, refusals, Option.or_assoc]
    cases d.refusal? declaration <;> rfl

theorem refused_eq_head?_refusals (declarations : List (Declaration ι κ ν γ)) :
    (ofDeclarations declarations).refused = (refusals {} declarations).head? :=
  refused_foldl_declare {} declarations

theorem refusals_append (d : Draft ι κ ν γ) (declarations more : List (Declaration ι κ ν γ)) :
    d.refusals (declarations ++ more) = d.refusals declarations ++ (declarations.foldl declare d).refusals more := by
  induction declarations generalizing d with
  | nil => rfl
  | cons declaration rest ih =>
    rw [List.cons_append, refusals, ih, refusals, List.append_assoc, List.foldl_cons]

theorem exists_first_refusal (hrefusals : d.refusals declarations ≠ []) :
    ∃ before declaration after error, declarations = before ++ declaration :: after ∧ d.refusals before = [] ∧
      (before.foldl declare d).refusal? declaration = some error := by
  induction declarations generalizing d with
  | nil => exact absurd rfl hrefusals
  | cons first rest ih =>
    cases hfirst : d.refusal? first with
    | some error => exact ⟨[], first, rest, error, rfl, rfl, hfirst⟩
    | none =>
      rw [refusals, hfirst, Option.toList_none, List.nil_append] at hrefusals
      obtain ⟨before, declaration, after, error, rfl, hbefore, herror⟩ := ih hrefusals
      refine ⟨first :: before, declaration, after, error, rfl, ?_, herror⟩
      rw [refusals, hfirst, hbefore]
      rfl

/-! ### What the error says -/

theorem nest_eq_error_iff_blocks (haligned : d.Aligned) (hnested : d.NestsAs declarations)
    (hsuperstate : superstate ∈ d.ids) (hsubstate : substate ∈ d.ids) :
    d.nest superstate substate = .error error ↔ Blocks (Nests declarations) superstate substate error := by
  have hcycle : d.keyOf substate ∈ d.hierarchy.chain (d.keyOf superstate) ↔
      Relation.ReflTransGen (Nests declarations) substate superstate :=
    mem_chain_keyOf_iff_reflTransGen haligned hnested hsubstate hsuperstate
  simp only [nest_eq_error_iff, hcycle, hnested substate]
  constructor
  · rintro (⟨hcyclic, rfl⟩ | ⟨hacyclic, existing, hexisting, hother, rfl⟩)
    · exact .cyclic hcyclic
    · exact .elsewhere hacyclic hexisting hother
  · rintro (⟨hcyclic⟩ | ⟨hacyclic, hexisting, hother⟩)
    · exact .inl ⟨hcyclic, rfl⟩
    · exact .inr ⟨hacyclic, _, hexisting, hother, rfl⟩

theorem nestsAs_nest (haligned : d.Aligned) (hnested : d.NestsAs declarations) (hsuperstate : superstate ∈ d.ids)
    (hsubstate : substate ∈ d.ids) (hnest : d.nest superstate substate = .ok next) :
    next.NestsAs (declarations ++ [.composite { superstate, default := substate }]) := by
  intro id upper
  have hadded : (Declaration.composite { superstate, default := substate } : Declaration ι κ ν γ).Nests upper id ↔
      superstate = upper ∧ id = substate := by
    simp [Declaration.Nests, Composite.substates]
  rw [haligned.superstate?_nest hsuperstate hsubstate hnest, nests_append, hadded, ← hnested id upper]
  by_cases heq : id = substate
  · subst heq
    -- It lies in this superstate or in none, so that the new nesting is all there is.
    rcases (nest_eq_ok_iff.1 hnest).2 with ⟨hnone, _⟩ | ⟨hsome, _⟩
    · simp [hnone]
    · simp [hsome]
  · simp [heq]

theorem nestAll_eq_some_iff {substates : List ι} (haligned : d.Aligned) (hnested : d.NestsAs declarations)
    (hsuperstate : superstate ∈ d.ids) (hsubstates : ∀ id ∈ substates, id ∈ d.ids) :
    (d.nestAll superstate substates).2 = some error ↔ Stops superstate (Nests declarations) substates error := by
  induction substates generalizing d declarations with
  | nil => exact iff_of_false (by simp [nestAll]) nofun
  | cons substate rest ih =>
    have hsubstate := hsubstates substate List.mem_cons_self
    have hblocks : ∀ error, d.nest superstate substate = .error error ↔
        Blocks (Nests declarations) superstate substate error :=
      fun error => nest_eq_error_iff_blocks haligned hnested hsuperstate hsubstate
    rw [nestAll]
    cases hnest : d.nest superstate substate with
    | error first =>
      simp only [hnest, Except.error.injEq] at hblocks
      rw [Option.some.injEq, hblocks]
      refine ⟨.here, fun hstops => ?_⟩
      cases hstops with
      | here hblocks => exact hblocks
      | later hfree _ => exact absurd ((hblocks first).1 rfl) (hfree first)
    | ok next =>
      simp only [hnest, reduceCtorEq, false_iff] at hblocks
      have hids : next.ids = d.ids := by rw [nest_frame hnest]; rfl
      rw [ih (haligned.nest hsuperstate hsubstate hnest) (nestsAs_nest haligned hnested hsuperstate hsubstate hnest)
        (hids ▸ hsuperstate) fun id hid => hids ▸ hsubstates id (List.mem_cons_of_mem _ hid), ← andNests_eq]
      refine ⟨.later hblocks, fun hstops => ?_⟩
      cases hstops with
      | here hhere => exact absurd hhere (hblocks _)
      | later _ hrest => exact hrest

theorem refused_addInitial_eq_some_iff {t : Transition ι κ ν γ} (haligned : d.Aligned)
    (hlinks : d.transitions.map Transition.link = links declarations) (hsource : t.sourceKey = d.placeOf t.source)
    (hrefused : d.refused = none) : (d.addInitial t).refused = some error ↔
      (∃ link ∈ links declarations, link.kind = .initial ∧ link.edge.source = t.source) ∧
        error = .secondInitial t.source := by
  have hnone := refused_addInitial_iff haligned hlinks hsource
  have hcases : (d.addInitial t).refused = none ∨ (d.addInitial t).refused = some (.secondInitial t.source) := by
    rw [refused_addInitial, hrefused]
    split
    · exact .inr rfl
    · exact .inl rfl
  rcases hcases with hadd | hadd
  · have hfree := (hnone.1 hadd).2
    rw [hadd]
    exact iff_of_false nofun fun hexisting => by
      obtain ⟨⟨link, hlink, hkind, hsame⟩, -⟩ := hexisting
      exact hfree link hlink hkind hsame
  · have hexisting : ∃ link ∈ links declarations, link.kind = .initial ∧ link.edge.source = t.source := by
      by_contra hfree
      have hnone := hnone.2 ⟨hrefused, fun link hlink hkind hsame => hfree ⟨link, hlink, hkind, hsame⟩⟩
      rw [hadd] at hnone
      cases hnone
    rw [hadd, Option.some.injEq, and_iff_right hexisting, eq_comm]

theorem refused_addRule_eq_some_iff {rule : Rule ι κ ν γ} (haligned : d.Aligned)
    (hlinks : d.transitions.map Transition.link = links declarations) (hrefused : d.refused = none) :
    (d.addRule rule).refused = some error ↔ ∃ id, rule.initialSource? = some id ∧ id ∈ initialSources declarations ∧
      error = .secondInitial (some id) := by
  have hmentioned := haligned.mentionAll [rule.source, rule.target]
  unfold addRule
  simp only
  split
  · next hkind =>
    rw [refused_addInitial_eq_some_iff hmentioned (by rwa [transitions_mentionAll]) rfl (by rwa [refused_mentionAll])]
    simp [Rule.initialSource?, hkind, mem_initialSources_iff]
  · next hkind => simp [Rule.initialSource?, hkind, hrefused]

theorem refused_addState_eq_some_iff {behavior : Option (Behavior ι κ ν γ)} {isFinal : Bool}
    (hbehaves : ∀ id behavior, d.Behaves id behavior ↔ (id, behavior) ∈ behaviors declarations)
    (hrefused : d.refused = none) : (d.addState id behavior isFinal).refused = some error ↔
      (behavior.isSome ∧ ∃ existing, (id, existing) ∈ behaviors declarations) ∧ error = .secondBehavior id := by
  have hhas : (d.mention id).hasBehavior id = true ↔ ∃ existing, (id, existing) ∈ behaviors declarations := by
    rw [hasBehavior_iff]
    exact exists_congr fun existing => (d.behaves_mention id id existing).trans (hbehaves id existing)
  rw [refused_addState, hrefused]
  split
  · next hsecond =>
    rw [Bool.and_eq_true, hhas] at hsecond
    rw [and_iff_right hsecond, Option.none_or, Option.some.injEq, eq_comm]
  · next hfirst =>
    rw [Bool.and_eq_true, hhas] at hfirst
    simp [hfirst]

theorem refused_addComposite_eq_some_iff {c : Composite ι γ} (haligned : d.Aligned) (hreflects : d.Reflects declarations)
    (hrefused : d.refused = none) : (d.addComposite c).refused = some error ↔
      Stops c.superstate (Nests declarations) c.substates error ∨
        ((∀ error, ¬ Stops c.superstate (Nests declarations) c.substates error) ∧
          c.superstate ∈ initialSources declarations ∧ error = .secondInitial (some c.superstate)) := by
  have haligned' := haligned.mentionAll (c.superstate :: c.substates)
  have hmem : ∀ id ∈ c.superstate :: c.substates, id ∈ (d.mentionAll (c.superstate :: c.substates)).ids :=
    fun id hid => d.mem_ids_mentionAll hid
  have hsuperstate := hmem c.superstate List.mem_cons_self
  have hsubstates : ∀ id ∈ c.substates, id ∈ (d.mentionAll (c.superstate :: c.substates)).ids :=
    fun id hid => hmem id (List.mem_cons_of_mem _ hid)
  have hnested := haligned.nestsAs_mentionAll hreflects.superstate?_eq_some_iff (c.superstate :: c.substates)
  have hstops : ∀ error, ((d.mentionAll (c.superstate :: c.substates)).nestAll c.superstate c.substates).2 = some error ↔
      Stops c.superstate (Nests declarations) c.substates error :=
    fun error => nestAll_eq_some_iff haligned' hnested hsuperstate hsubstates
  unfold addComposite
  split
  · next nested first heq =>
    have hsame : nested.refused = none := by rw [refused_nestAll heq, refused_mentionAll, hrefused]
    simp only [heq, Option.some.injEq] at hstops
    rw [← hstops error, or_iff_left fun hnone => hnone.1 first ((hstops first).1 rfl)]
    simp [refuse, hsame]
  · next nested heq =>
    have hlinks : nested.transitions.map Transition.link = links declarations := by
      rw [transitions_nestAll heq, transitions_mentionAll, hreflects.links_eq]
    have hsame : nested.refused = none := by rw [refused_nestAll heq, refused_mentionAll, hrefused]
    simp only [heq, reduceCtorEq, false_iff] at hstops
    rw [refused_addInitial_eq_some_iff (haligned'.nestAll hsuperstate hsubstates heq) hlinks rfl hsame,
      ← mem_initialSources_iff, or_iff_right (hstops error), and_iff_right hstops]

/-- **A declaration is refused exactly with the error that it contradicts the others with.** -/
theorem refusal?_eq_some_iff (haligned : d.Aligned) (hreflects : d.Reflects declarations)
    (hbehaves : ∀ id behavior, d.Behaves id behavior ↔ (id, behavior) ∈ behaviors declarations)
    (hrefused : d.refused = none) : d.refusal? declaration = some error ↔ Contradicts declarations declaration error := by
  have hsame : d.refusal? declaration = (d.declare declaration).refused := by
    rw [refused_declare, hrefused, Option.none_or]
  have hstate : ∀ id behavior isFinal, (d.addState id behavior isFinal).refused = some error ↔
      (behavior.isSome ∧ ∃ existing, (id, existing) ∈ behaviors declarations) ∧ error = .secondBehavior id :=
    fun id behavior isFinal => refused_addState_eq_some_iff hbehaves hrefused
  have hrule : ∀ rule, (d.addRule rule).refused = some error ↔ ∃ id, rule.initialSource? = some id ∧
      id ∈ initialSources declarations ∧ error = .secondInitial (some id) :=
    fun rule => refused_addRule_eq_some_iff haligned hreflects.links_eq hrefused
  rw [hsame, contradicts_iff]
  -- Only some of the rules are about a given declaration.
  cases declaration with
  | state id behavior =>
    simp [declare, hstate, Declaration.behavior?, Declaration.initialSource?, Declaration.initialTarget?,
      Declaration.limit?]
  | final id behavior =>
    simp [declare, hstate, Declaration.behavior?, Declaration.initialSource?, Declaration.initialTarget?,
      Declaration.limit?, Option.isSome_iff_exists, and_assoc]
  | composite c =>
    simp [declare, refused_addComposite_eq_some_iff haligned hreflects hrefused, Declaration.behavior?,
      Declaration.initialSource?, Declaration.initialTarget?, Declaration.limit?]
  | initial target action =>
    have hlinks : (d.mention target).transitions.map Transition.link = links declarations := by
      rw [transitions_mention, hreflects.links_eq]
    have htargets : (∃ existing, existing ∈ initialTargets declarations) ↔
        ∃ link ∈ links declarations, link.kind = .initial ∧ link.edge.source = none := by
      simp only [mem_initialTargets_iff]
      constructor
      · rintro ⟨existing, hlink⟩
        exact ⟨_, hlink, rfl, rfl⟩
      · rintro ⟨⟨⟨_, existing⟩, _⟩, hlink, rfl, rfl⟩
        exact ⟨existing, hlink⟩
    rw [declare, addTopInitial, refused_addInitial_eq_some_iff (haligned.mention target) hlinks rfl
      (by rwa [refused_mention]), ← htargets]
    simp [Declaration.behavior?, Declaration.initialSource?, Declaration.initialTarget?, Declaration.limit?]
  | rule rule =>
    simp [declare, hrule, Declaration.behavior?, Declaration.initialSource?, Declaration.initialTarget?,
      Declaration.limit?]
  | sketch sketch =>
    simp only [declare, ← Sketch.rule_eq_error_iff]
    cases hsketch : sketch.rule with
    | ok rule =>
      simp [hrule, hsketch, Declaration.behavior?, Declaration.initialSource?, Declaration.initialTarget?,
        Declaration.limit?, Except.toOption]
    | error first =>
      simp [refuse, hrefused, hsketch, Declaration.behavior?, Declaration.initialSource?,
        Declaration.initialTarget?, Declaration.limit?, Except.toOption]
  | limit limit =>
    by_cases hlimit : limit = 0
    · simp [declare, setLimit, refuse, hlimit, hrefused, Declaration.behavior?, Declaration.initialSource?,
        Declaration.initialTarget?, Declaration.limit?, eq_comm]
    · simp [declare, setLimit, hlimit, hrefused, Declaration.behavior?, Declaration.initialSource?,
        Declaration.initialTarget?, Declaration.limit?]
  | resolver resolver =>
    simp [declare, hrefused, Declaration.behavior?, Declaration.initialSource?, Declaration.initialTarget?,
      Declaration.limit?]

/-! ### Building -/

theorem build_of_refused (hrefused : (ofDeclarations declarations).refused = some error) :
    Machine.build declarations = .error error := by
  rw [Machine.build, build, hrefused]

/-- **The first refusal is what building answers, and what it says is true.** If any declarations are refused, let the first of these be the one after `before`. Then its error is the one with which it contradicts `before`, and there is no other. Building fails with it, whatever is declared afterwards, refused or not, and whatever else is wrong. -/
theorem build_of_refusals (hrefusals : refusals {} declarations ≠ []) :
    ∃ before declaration after error, declarations = before ++ declaration :: after ∧
      refusals {} before = [] ∧ (ofDeclarations before).refusal? declaration = some error ∧
      (∀ other, Contradicts before declaration other ↔ other = error) ∧
      ∀ more, Machine.build (declarations ++ more) = .error error := by
  obtain ⟨before, declaration, after, error, rfl, hbefore, herror⟩ := exists_first_refusal hrefusals
  have hrefused : (ofDeclarations before).refused = none := by
    rw [refused_eq_head?_refusals, hbefore]
    rfl
  have hsays : ∀ other, (ofDeclarations before).refusal? declaration = some other ↔ Contradicts before declaration other :=
    fun other => refusal?_eq_some_iff (aligned_ofDeclarations before) (reflects_ofDeclarations hrefused)
      (behaves_ofDeclarations_iff hrefused) hrefused
  refine ⟨before, declaration, after, error, rfl, hbefore, herror, fun other => ?_, fun more => build_of_refused ?_⟩
  · rw [← hsays, ofDeclarations, herror, Option.some.injEq, eq_comm]
  · rw [refused_eq_head?_refusals, refusals_append, refusals_append, hbefore, List.nil_append, refusals, herror]
    rfl

/-- Of the two refusals the earlier one counts, although the declaration that is refused there has nested a state before. -/
theorem tangle_build_of_refusals :
    refusals {} (tangle ++ [.limit 0]) = [.cyclicNesting 2 0, .zeroLimit] ∧ refusals {} (tangle ++ [.limit 0]) ≠ [] ∧
    ∃ before declaration after, tangle ++ [.limit 0] = before ++ declaration :: after ∧
      refusals {} before = [] ∧ (ofDeclarations before).refusal? declaration = some (.cyclicNesting 2 0) ∧
      (∀ other, Contradicts before declaration other ↔ other = .cyclicNesting 2 0) ∧
      ∀ more, Machine.build (tangle ++ [.limit 0] ++ more) = .error (.cyclicNesting 2 0) := by
  have hrefusals : refusals {} (tangle ++ [.limit 0]) = [.cyclicNesting 2 0, .zeroLimit] := rfl
  have hrefused : refusals {} (tangle ++ [.limit 0]) ≠ [] := by simp [hrefusals]
  obtain ⟨before, declaration, after, error, hsplit, hbefore, herror, hsays, hbuild⟩ := build_of_refusals hrefused
  have hthis : Machine.build (tangle ++ [.limit 0] ++ []) = .error (.cyclicNesting 2 0) := rfl
  obtain rfl := Except.error.inj ((hbuild []).symm.trans hthis)
  exact ⟨hrefusals, hrefused, before, declaration, after, hsplit, hbefore, herror, hsays, hbuild⟩

end Draft

end NestedMachine
