import NestedMachine.Proofs.Definition.Attached
import NestedMachine.Proofs.Definition.Report

/-!
# Which declarations are refused

A draft takes in one declaration after another, and refuses one that contradicts what it has taken in so far. `Definition.Consistent` says of a whole list of declarations, in whatever order, that no two of them contradict each other. The two agree (`refused_ofDeclarations_iff`): what one more declaration adds to the conditions on the list is `Definition.Admits` (`consistent_append_iff`), and that is what a draft without a refusal asks of it (`refused_declare_iff`).

The order matters least obviously where states are nested, since a draft looks for cycles only below the states nested so far. A relation without cycles stays so when edges from one state are added exactly if none of their ends leads to that state (`acyclic_extended_iff`).
-/

namespace NestedMachine

variable {ι κ ν γ : Type}

section acyclic

open Relation

variable {α : Type} {r : α → α → Prop} {top : α} {below : List α}

theorem path_of_extended (hfree : ∀ b ∈ below, ¬ ReflTransGen r b top) {a c : α}
    (hpath : TransGen (fun a b => r a b ∨ a = top ∧ b ∈ below) a c) :
    TransGen r a c ∨ ReflTransGen r a top ∧ ∃ b ∈ below, ReflTransGen r b c := by
  induction hpath with
  | single hedge =>
    rcases hedge with hold | ⟨rfl, hbelow⟩
    · exact .inl (.single hold)
    · exact .inr ⟨.refl, _, hbelow, .refl⟩
  | tail _ hedge ih =>
    rcases hedge with hold | ⟨rfl, hbelow⟩
    · rcases ih with hpath | ⟨htop, b, hb, hpath⟩
      · exact .inl (hpath.tail hold)
      · exact .inr ⟨htop, b, hb, hpath.tail hold⟩
    · rcases ih with hpath | ⟨_, b, hb, hpath⟩
      · exact .inr ⟨hpath.to_reflTransGen, _, hbelow, .refl⟩
      · exact absurd hpath (hfree b hb)

theorem acyclic_extended_iff : (∀ a, ¬ TransGen (fun a b => r a b ∨ a = top ∧ b ∈ below) a a) ↔
    (∀ a, ¬ TransGen r a a) ∧ ∀ b ∈ below, ¬ ReflTransGen r b top := by
  constructor
  · intro hacyclic
    refine ⟨fun a hcycle => hacyclic a (TransGen.mono (fun _ _ => .inl) _ _ hcycle), fun b hb hpath => hacyclic top ?_⟩
    exact .head' (.inr ⟨rfl, hb⟩) (ReflTransGen.mono (fun _ _ => .inl) _ _ hpath)
  · rintro ⟨hacyclic, hfree⟩ a hcycle
    rcases path_of_extended hfree hcycle with hold | ⟨htop, b, hb, hpath⟩
    · exact hacyclic a hold
    · exact hfree b hb (hpath.trans htop)

end acyclic

/-! ### Consistent declarations -/

def Rule.initialSource? (rule : Rule ι κ ν γ) : Option ι := if rule.kind = .initial then some rule.source else none

namespace Declaration

/-- The state to which a declaration gives an initial transition. -/
def initialSource? : Declaration ι κ ν γ → Option ι
  | .composite c => some c.superstate
  | .rule r => r.initialSource?
  | .sketch s => s.rule.toOption.bind Rule.initialSource?
  | _ => none

/-- The target of a declared initial transition of the root. -/
def initialTarget? : Declaration ι κ ν γ → Option ι
  | .initial target _ => some target
  | _ => none

def composite? : Declaration ι κ ν γ → Option (Composite ι γ)
  | .composite c => some c
  | _ => none

theorem composite?_eq_some_iff {declaration : Declaration ι κ ν γ} {c : Composite ι γ} :
    declaration.composite? = some c ↔ declaration = .composite c := by
  cases declaration <;> simp [composite?]

theorem initialSource?_eq_some_iff {declaration : Declaration ι κ ν γ} {id : ι} :
    declaration.initialSource? = some id ↔
      ∃ link, declaration.link? = some link ∧ link.kind = .initial ∧ link.edge.source = some id := by
  have hrule : ∀ rule : Rule ι κ ν γ, rule.initialSource? = some id ↔
      rule.link.kind = .initial ∧ rule.link.edge.source = some id := by
    intro rule
    simp [Rule.initialSource?, Rule.link]
  cases declaration with
  | rule r => simp [initialSource?, link?, hrule]
  | sketch s =>
    cases hsketch : s.rule <;> simp [initialSource?, link?, hsketch, Except.toOption, hrule]
  | _ => simp [initialSource?, link?]

end Declaration

namespace Definition

variable (declarations : List (Declaration ι κ ν γ))

/-- The states to which the declarations give an initial transition: the superstates of composite declarations, and the sources of rules for initial transitions. -/
def initialSources : List ι := declarations.filterMap Declaration.initialSource?

def initialTargets : List ι := declarations.filterMap Declaration.initialTarget?

def composites : List (Composite ι γ) := declarations.filterMap Declaration.composite?

/-- No two declarations contradict each other, and none contradicts itself. -/
structure Consistent : Prop where
  /-- No state is given two initial transitions. -/
  initialSources_nodup : (initialSources declarations).Nodup
  /-- No state is nested by two declarations. -/
  substates_disjoint : (composites declarations).Pairwise fun c other => c.substates.Disjoint other.substates
  /-- No state contains itself. -/
  acyclic : ∀ id, ¬ Contains declarations id id
  /-- The root is not given two initial transitions. -/
  initialTargets_length : (initialTargets declarations).length ≤ 1
  /-- No state is given two behaviours. -/
  behaviors_nodup : ((behaviors declarations).map Prod.fst).Nodup
  limits_ne_zero : 0 ∉ limits declarations
  /-- Every sketch can be finished. -/
  sketches_finished : ∀ sketch, .sketch sketch ∈ declarations → ∃ rule, sketch.rule = .ok rule

/-- What consistent declarations ask of one more. -/
@[mk_iff]
structure Admits (declaration : Declaration ι κ ν γ) : Prop where
  initialSource : ∀ id, declaration.initialSource? = some id → id ∉ initialSources declarations
  substates : ∀ c, declaration = .composite c → ∀ id ∈ c.substates, ∀ superstate, ¬ Nests declarations superstate id
  acyclic : ∀ c, declaration = .composite c → ∀ id ∈ c.substates,
    ¬ Relation.ReflTransGen (Nests declarations) id c.superstate
  initialTarget : ∀ id, declaration.initialTarget? = some id → initialTargets declarations = []
  behavior : ∀ id behavior, declaration.behavior? = some (id, behavior) → ∀ other, (id, other) ∉ behaviors declarations
  limit : declaration.limit? ≠ some 0
  sketch : ∀ sketch, declaration = .sketch sketch → ∃ rule, sketch.rule = .ok rule

variable {declarations} {declaration : Declaration ι κ ν γ} {id superstate : ι}

theorem mem_initialSources_iff : id ∈ initialSources declarations ↔
    ∃ link ∈ links declarations, link.kind = .initial ∧ link.edge.source = some id := by
  simp only [initialSources, links, List.mem_filterMap, Declaration.initialSource?_eq_some_iff]
  constructor
  · rintro ⟨declaration, hdeclaration, link, hlink, hinitial⟩
    exact ⟨link, ⟨declaration, hdeclaration, hlink⟩, hinitial⟩
  · rintro ⟨link, ⟨declaration, hdeclaration, hlink⟩, hinitial⟩
    exact ⟨declaration, hdeclaration, link, hlink, hinitial⟩

theorem mem_initialTargets_iff : id ∈ initialTargets declarations ↔ ⟨⟨none, id⟩, .initial⟩ ∈ links declarations := by
  rw [mem_links_root_iff, initialTargets, List.mem_filterMap]
  constructor
  · rintro ⟨declaration, hdeclaration, htarget⟩
    cases declaration with
    | initial target action =>
      obtain rfl : target = id := Option.some.inj htarget
      exact ⟨action, hdeclaration⟩
    | _ => simp [Declaration.initialTarget?] at htarget
  · rintro ⟨action, hdeclaration⟩
    exact ⟨_, hdeclaration, rfl⟩

theorem nests_iff_composites : Nests declarations superstate id ↔
    ∃ c ∈ composites declarations, c.superstate = superstate ∧ id ∈ c.substates := by
  constructor
  · rintro ⟨_, hdeclaration, c, rfl, hsuperstate, hid⟩
    exact ⟨c, List.mem_filterMap.2 ⟨_, hdeclaration, rfl⟩, hsuperstate, hid⟩
  · rintro ⟨c, hc, hsuperstate, hid⟩
    obtain ⟨declaration, hdeclaration, hcomposite⟩ := List.mem_filterMap.1 hc
    exact ⟨declaration, hdeclaration, c, Declaration.composite?_eq_some_iff.1 hcomposite, hsuperstate, hid⟩

theorem Nests.mem_initialSources (hnests : Nests declarations superstate id) :
    superstate ∈ initialSources declarations := by
  obtain ⟨_, hdeclaration, c, rfl, rfl, _⟩ := hnests
  exact List.mem_filterMap.2 ⟨_, hdeclaration, rfl⟩

theorem disjoint_of_unique (hsources : (initialSources declarations).Nodup)
    (hunique : ∀ id superstate superstate', Nests declarations superstate id → Nests declarations superstate' id →
      superstate = superstate') :
    (composites declarations).Pairwise fun c other => c.substates.Disjoint other.substates := by
  refine List.pairwise_filterMap.2 ((List.pairwise_filterMap.1 hsources).imp_of_mem ?_)
  intro declaration other hdeclaration hother hdifferent c hc c' hc' id hid hid'
  obtain rfl := Declaration.composite?_eq_some_iff.1 hc
  obtain rfl := Declaration.composite?_eq_some_iff.1 hc'
  have hnests : Nests declarations c.superstate id := ⟨_, hdeclaration, c, rfl, rfl, hid⟩
  have hnests' : Nests declarations c'.superstate id := ⟨_, hother, c', rfl, rfl, hid'⟩
  exact hdifferent _ rfl _ rfl (hunique id _ _ hnests hnests')

/-! ### One more declaration -/

theorem consistent_nil : Consistent ([] : List (Declaration ι κ ν γ)) := by
  have hacyclic : ∀ id, ¬ Contains ([] : List (Declaration ι κ ν γ)) id id := by
    intro id hcontains
    obtain ⟨_, ⟨_, hmem, _⟩, _⟩ := Relation.TransGen.head'_iff.1 hcontains
    exact List.not_mem_nil hmem
  exact ⟨List.nodup_nil, List.Pairwise.nil, hacyclic, Nat.zero_le 1, List.nodup_nil, List.not_mem_nil, by simp⟩

theorem nodup_append_toList_iff {α : Type} {l : List α} {a? : Option α} :
    (l ++ a?.toList).Nodup ↔ l.Nodup ∧ ∀ a, a? = some a → a ∉ l := by
  cases a? with
  | none => simp
  | some a => simp [List.nodup_append']

theorem nests_append : Nests (declarations ++ [declaration]) superstate id ↔
    Nests declarations superstate id ∨ declaration.Nests superstate id := by
  simp [Nests, or_and_right, exists_or]

theorem acyclic_append_iff : (∀ id, ¬ Contains (declarations ++ [declaration]) id id) ↔
    (∀ id, ¬ Contains declarations id id) ∧ ∀ c, declaration = .composite c → ∀ id ∈ c.substates,
      ¬ Relation.ReflTransGen (Nests declarations) id c.superstate := by
  simp only [← Declaration.composite?_eq_some_iff]
  cases hcomposite : declaration.composite? with
  | none =>
    have hsame : Nests (declarations ++ [declaration]) = Nests declarations := by
      funext superstate id
      rw [nests_append, eq_iff_iff, or_iff_left]
      rintro ⟨c, hc, _⟩
      simp [Declaration.composite?_eq_some_iff.2 hc] at hcomposite
    simp [Contains, hsame]
  | some c =>
    obtain rfl := Declaration.composite?_eq_some_iff.1 hcomposite
    have hextended : Nests (declarations ++ [.composite c]) =
        fun superstate id => Nests declarations superstate id ∨ superstate = c.superstate ∧ id ∈ c.substates := by
      funext superstate id
      rw [nests_append, eq_iff_iff]
      simp [Declaration.Nests, eq_comm]
    simp only [Contains, hextended, acyclic_extended_iff, Option.some.injEq, forall_eq']

theorem disjoint_append_iff : (composites (declarations ++ [declaration])).Pairwise
      (fun c other => c.substates.Disjoint other.substates) ↔
    (composites declarations).Pairwise (fun c other => c.substates.Disjoint other.substates) ∧
      ∀ c, declaration = .composite c → ∀ id ∈ c.substates, ∀ superstate, ¬ Nests declarations superstate id := by
  have happend : composites (declarations ++ [declaration]) = composites declarations ++ declaration.composite?.toList :=
    filterMap_concat _ _ _
  simp only [happend, List.pairwise_append, ← Declaration.composite?_eq_some_iff]
  cases declaration.composite? with
  | none => simp
  | some c =>
    have hdisjoint : (∀ other ∈ composites declarations, other.substates.Disjoint c.substates) ↔
        ∀ id ∈ c.substates, ∀ superstate, ¬ Nests declarations superstate id := by
      simp only [nests_iff_composites]
      constructor
      · rintro hdisjoint id hid _ ⟨other, hother, _, hmem⟩
        exact hdisjoint other hother hmem hid
      · intro hfree other hother id hmem hid
        exact hfree id hid _ ⟨other, hother, rfl, hmem⟩
    simp [hdisjoint]

theorem consistent_append_iff : Consistent (declarations ++ [declaration]) ↔
    Consistent declarations ∧ Admits declarations declaration := by
  have hsources : (initialSources (declarations ++ [declaration])).Nodup ↔ (initialSources declarations).Nodup ∧
      ∀ id, declaration.initialSource? = some id → id ∉ initialSources declarations := by
    have happend : initialSources (declarations ++ [declaration]) =
        initialSources declarations ++ declaration.initialSource?.toList := filterMap_concat _ _ _
    rw [happend, nodup_append_toList_iff]
  have htargets : (initialTargets (declarations ++ [declaration])).length ≤ 1 ↔
      (initialTargets declarations).length ≤ 1 ∧
        ∀ id, declaration.initialTarget? = some id → initialTargets declarations = [] := by
    have happend : initialTargets (declarations ++ [declaration]) =
        initialTargets declarations ++ declaration.initialTarget?.toList := filterMap_concat _ _ _
    rw [happend]
    cases declaration.initialTarget? with
    | none => simp
    | some id =>
      rw [Option.toList_some, List.length_append, List.length_singleton, ← List.length_eq_zero_iff]
      simp only [Option.some.injEq, forall_eq']
      omega
  have hbehaviors : ((behaviors (declarations ++ [declaration])).map Prod.fst).Nodup ↔
      ((behaviors declarations).map Prod.fst).Nodup ∧ ∀ id behavior, declaration.behavior? = some (id, behavior) →
        ∀ other, (id, other) ∉ behaviors declarations := by
    have happend : behaviors (declarations ++ [declaration]) =
        behaviors declarations ++ declaration.behavior?.toList := filterMap_concat _ _ _
    rw [happend, List.map_append, ← Option.toList_map, nodup_append_toList_iff]
    cases declaration.behavior? with
    | none => simp
    | some attached => simp [Prod.ext_iff]
  have hlimits : 0 ∉ limits (declarations ++ [declaration]) ↔ 0 ∉ limits declarations ∧ declaration.limit? ≠ some 0 := by
    have happend : limits (declarations ++ [declaration]) = limits declarations ++ declaration.limit?.toList :=
      filterMap_concat _ _ _
    rw [happend, List.mem_append, not_or, Option.mem_toList]
  have hsketches : (∀ sketch, .sketch sketch ∈ declarations ++ [declaration] → ∃ rule, sketch.rule = .ok rule) ↔
      (∀ sketch, .sketch sketch ∈ declarations → ∃ rule, sketch.rule = .ok rule) ∧
        ∀ sketch, declaration = .sketch sketch → ∃ rule, sketch.rule = .ok rule := by
    simp only [List.mem_append, List.mem_singleton, or_imp, forall_and, eq_comm]
  constructor
  · rintro ⟨h₁, h₂, h₃, h₄, h₅, h₆, h₇⟩
    rw [hsources] at h₁
    rw [disjoint_append_iff] at h₂
    rw [acyclic_append_iff] at h₃
    rw [htargets] at h₄
    rw [hbehaviors] at h₅
    rw [hlimits] at h₆
    rw [hsketches] at h₇
    exact ⟨⟨h₁.1, h₂.1, h₃.1, h₄.1, h₅.1, h₆.1, h₇.1⟩, ⟨h₁.2, h₂.2, h₃.2, h₄.2, h₅.2, h₆.2, h₇.2⟩⟩
  · rintro ⟨⟨h₁, h₂, h₃, h₄, h₅, h₆, h₇⟩, ⟨g₁, g₂, g₃, g₄, g₅, g₆, g₇⟩⟩
    exact ⟨hsources.2 ⟨h₁, g₁⟩, disjoint_append_iff.2 ⟨h₂, g₂⟩, acyclic_append_iff.2 ⟨h₃, g₃⟩, htargets.2 ⟨h₄, g₄⟩,
      hbehaviors.2 ⟨h₅, g₅⟩, hlimits.2 ⟨h₆, g₆⟩, hsketches.2 ⟨h₇, g₇⟩⟩

/-! ### What is asked of declarations of one kind -/

theorem admits_composite_iff {c : Composite ι γ} : Admits declarations (.composite c) ↔
    c.superstate ∉ initialSources declarations ∧
      (∀ id ∈ c.substates, ∀ superstate, ¬ Nests declarations superstate id) ∧
      ∀ id ∈ c.substates, ¬ Relation.ReflTransGen (Nests declarations) id c.superstate := by
  simp [admits_iff, Declaration.initialSource?, Declaration.initialTarget?, Declaration.behavior?, Declaration.limit?]

theorem admits_initial_iff {target : ι} {action : Option (InitialAction ι γ)} :
    Admits declarations (.initial target action) ↔ ∀ id, id ∉ initialTargets declarations := by
  simp [admits_iff, Declaration.initialSource?, Declaration.initialTarget?, Declaration.behavior?, Declaration.limit?,
    List.eq_nil_iff_forall_not_mem]

theorem admits_rule_iff {rule : Rule ι κ ν γ} : Admits declarations (.rule rule) ↔
    ∀ id, rule.initialSource? = some id → id ∉ initialSources declarations := by
  simp [admits_iff, Declaration.initialSource?, Declaration.initialTarget?, Declaration.behavior?, Declaration.limit?]

theorem admits_sketch_iff {sketch : Sketch ι κ ν γ} : Admits declarations (.sketch sketch) ↔
    ∃ rule, sketch.rule = .ok rule ∧ Admits declarations (.rule rule) := by
  simp only [admits_rule_iff]
  cases hsketch : sketch.rule <;> simp [admits_iff, hsketch, Declaration.initialSource?, Declaration.initialTarget?,
    Declaration.behavior?, Declaration.limit?, Except.toOption]

end Definition

namespace Draft

open Definition

variable [DecidableEq ι] {d d' : Draft ι κ ν γ}
variable {declarations : List (Declaration ι κ ν γ)} {declaration : Declaration ι κ ν γ}

/-! ### What a draft refuses -/

theorem refused_addInitial_iff {t : Transition ι κ ν γ} (haligned : d.Aligned)
    (hlinks : d.transitions.map Transition.link = links declarations) (hsource : t.sourceKey = d.placeOf t.source) :
    (d.addInitial t).refused = none ↔
      d.refused = none ∧ ∀ link ∈ links declarations, link.kind = .initial → link.edge.source ≠ t.source := by
  have hsame : ∀ other ∈ d.transitions, other.sourceKey = t.sourceKey ↔ other.source = t.source := by
    intro other hother
    rw [(haligned.names other hother).sourceKey_eq, hsource, placeOf_inj (haligned.names other hother).source_mem]
  rw [← hlinks, List.forall_mem_map]
  unfold addInitial
  split
  · next hany =>
    obtain ⟨other, hother, hsecond⟩ := List.any_eq_true.1 hany
    obtain ⟨hkind, hkey⟩ := of_decide_eq_true hsecond
    exact iff_of_false (refused_refuse _ _) fun hfree => hfree.2 other hother hkind ((hsame other hother).1 hkey)
  · next hnone =>
    refine ⟨fun hrefused => ⟨hrefused, fun other hother hkind heq => hnone ?_⟩, fun hfree => hfree.1⟩
    exact List.any_eq_true.2 ⟨other, hother, decide_eq_true ⟨hkind, (hsame other hother).2 heq⟩⟩

theorem refused_addRule_iff {rule : Rule ι κ ν γ} (haligned : d.Aligned)
    (hlinks : d.transitions.map Transition.link = links declarations) :
    (d.addRule rule).refused = none ↔
      d.refused = none ∧ ∀ id, rule.initialSource? = some id → id ∉ initialSources declarations := by
  have hmentioned := haligned.mentionAll [rule.source, rule.target]
  unfold addRule
  simp only
  split
  · next hkind =>
    rw [refused_addInitial_iff hmentioned (by rwa [transitions_mentionAll]) rfl, refused_mentionAll]
    simp [Rule.initialSource?, hkind, mem_initialSources_iff]
  · next hkind => simp [Rule.initialSource?, hkind]

theorem nestAll_eq_none_iff {superstate : ι} {substates : List ι} (haligned : d.Aligned)
    (hsuperstate : superstate ∈ d.ids) (hsubstates : ∀ id ∈ substates, id ∈ d.ids) :
    (d.nestAll superstate substates).2 = none ↔ ∀ id ∈ substates,
      d.keyOf id ∉ d.hierarchy.chain (d.keyOf superstate) ∧
        (d.superstate? id = none ∨ d.superstate? id = some superstate) := by
  induction substates generalizing d with
  | nil => simp [nestAll]
  | cons substate rest ih =>
    have hsubstate := hsubstates substate List.mem_cons_self
    rw [List.forall_mem_cons, nestAll]
    cases hnest : d.nest superstate substate with
    | error error =>
      simp only [reduceCtorEq, false_iff, not_and]
      rintro ⟨hacyclic, hfree⟩
      have hok : ∃ d', d.nest superstate substate = .ok d' := by
        rcases hfree with hnone | hsome
        · exact ⟨_, nest_eq_ok_iff.2 ⟨hacyclic, .inl ⟨hnone, rfl⟩⟩⟩
        · exact ⟨_, nest_eq_ok_iff.2 ⟨hacyclic, .inr ⟨hsome, rfl⟩⟩⟩
      obtain ⟨d', hok⟩ := hok
      simp [hnest] at hok
    | ok next =>
      obtain ⟨hacyclic, hfree⟩ := nest_eq_ok_iff.1 hnest
      have hids : next.ids = d.ids := by rw [nest_frame hnest]; rfl
      have hkeyOf : next.keyOf = d.keyOf := by
        funext id
        rw [keyOf, keyOf, hids]
      -- Nesting the first moves neither the superstate nor any other, so the rest meet the same conditions as before.
      have hchain : next.hierarchy.chain (d.keyOf superstate) = d.hierarchy.chain (d.keyOf superstate) := by
        rcases hfree with ⟨_, rfl⟩ | ⟨_, rfl⟩
        · exact haligned.forest.chain_nest (haligned.keyOf_mem_states hsubstate)
            (haligned.contains_keyOf hsuperstate) hacyclic
        · rfl
      have hfree' : d.superstate? substate = none ∨ d.superstate? substate = some superstate := by
        rcases hfree with ⟨hnone, _⟩ | ⟨hsome, _⟩
        · exact .inl hnone
        · exact .inr hsome
      have hrest : ∀ id, (next.superstate? id = none ∨ next.superstate? id = some superstate) ↔
          (d.superstate? id = none ∨ d.superstate? id = some superstate) := by
        intro id
        rw [haligned.superstate?_nest hsuperstate hsubstate hnest]
        by_cases heq : id = substate
        · simp [heq, hfree']
        · simp [heq]
      simp only [ih (haligned.nest hsuperstate hsubstate hnest) (hids ▸ hsuperstate)
        fun id hid => hids ▸ hsubstates id (List.mem_cons_of_mem _ hid), hkeyOf, hchain, hrest]
      exact (and_iff_right ⟨hacyclic, hfree'⟩).symm

theorem refused_addComposite_iff {c : Composite ι γ} (haligned : d.Aligned) (hreflects : d.Reflects declarations)
    (hrefused : d.refused = none) :
    (d.addComposite c).refused = none ↔
      (∀ id ∈ c.substates, ¬ Relation.ReflTransGen (Nests declarations) id c.superstate ∧
        (d.superstate? id = none ∨ d.superstate? id = some c.superstate)) ∧
      c.superstate ∉ initialSources declarations := by
  have haligned' := haligned.mentionAll (c.superstate :: c.substates)
  have hmem : ∀ id ∈ c.superstate :: c.substates, id ∈ (d.mentionAll (c.superstate :: c.substates)).ids :=
    fun id hid => d.mem_ids_mentionAll hid
  have hsuperstate := hmem c.superstate List.mem_cons_self
  have hsubstates : ∀ id ∈ c.substates, id ∈ (d.mentionAll (c.superstate :: c.substates)).ids :=
    fun id hid => hmem id (List.mem_cons_of_mem _ hid)
  have hnested := haligned.nestsAs_mentionAll hreflects.superstate?_eq_some_iff (c.superstate :: c.substates)
  have hnest : ((d.mentionAll (c.superstate :: c.substates)).nestAll c.superstate c.substates).2 = none ↔
      ∀ id ∈ c.substates, ¬ Relation.ReflTransGen (Nests declarations) id c.superstate ∧
        (d.superstate? id = none ∨ d.superstate? id = some c.superstate) := by
    rw [nestAll_eq_none_iff haligned' hsuperstate hsubstates]
    refine forall₂_congr fun id hid => ?_
    rw [mem_chain_keyOf_iff_reflTransGen haligned' hnested (hsubstates id hid) hsuperstate,
      haligned.superstate?_mentionAll]
  unfold addComposite
  split
  · next heq =>
    rw [heq] at hnest
    exact iff_of_false (refused_refuse _ _) fun h => by simpa using hnest.2 h.1
  · next nested heq =>
    have htransitions : nested.transitions.map Transition.link = links declarations := by
      rw [transitions_nestAll heq, transitions_mentionAll, hreflects.links_eq]
    have hsame : nested.refused = none := by rw [refused_nestAll heq, refused_mentionAll, hrefused]
    rw [heq] at hnest
    rw [refused_addInitial_iff (haligned'.nestAll hsuperstate hsubstates heq) htransitions rfl,
      and_iff_right (hnest.1 rfl), and_iff_right hsame, mem_initialSources_iff]
    simp

/-! ### What a draft admits -/

theorem refused_composite_iff_admits {c : Composite ι γ} (haligned : d.Aligned) (hreflects : d.Reflects declarations)
    (hrefused : d.refused = none) : (d.addComposite c).refused = none ↔ Admits declarations (.composite c) := by
  rw [refused_addComposite_iff haligned hreflects hrefused, admits_composite_iff]
  constructor
  · rintro ⟨hnest, hsource⟩
    refine ⟨hsource, fun id hid superstate hnests => ?_, fun id hid => (hnest id hid).1⟩
    -- Nested by the same superstate before, the state would now be refused for its superstate.
    have hsuperstate := (hreflects.superstate?_eq_some_iff id superstate).2 hnests
    rcases (hnest id hid).2 with hnone | hsome
    · simp [hnone] at hsuperstate
    · exact hsource ((hreflects.superstate?_eq_some_iff id _).1 hsome).mem_initialSources
  · rintro ⟨hsource, hfree, hacyclic⟩
    refine ⟨fun id hid => ⟨hacyclic id hid, .inl ?_⟩, hsource⟩
    rw [Option.eq_none_iff_forall_ne_some]
    intro superstate hsuperstate
    exact hfree id hid superstate ((hreflects.superstate?_eq_some_iff id superstate).1 hsuperstate)

theorem refused_initial_iff_admits {target : ι} {action : Option (InitialAction ι γ)} (haligned : d.Aligned)
    (hreflects : d.Reflects declarations) (hrefused : d.refused = none) :
    (d.addTopInitial target action).refused = none ↔ Admits declarations (.initial target action) := by
  have hlinks : (d.mention target).transitions.map Transition.link = links declarations := by
    rw [transitions_mention, hreflects.links_eq]
  rw [admits_initial_iff, addTopInitial, refused_addInitial_iff (haligned.mention target) hlinks rfl, refused_mention,
    and_iff_right hrefused]
  simp only [mem_initialTargets_iff]
  constructor
  · intro hfree id hlink
    exact hfree _ hlink rfl rfl
  · rintro hfree ⟨⟨source, id⟩, kind⟩ hlink rfl rfl
    exact hfree id hlink

theorem refused_declare_iff (haligned : d.Aligned) (hreflects : d.Reflects declarations)
    (hbehaves : ∀ id behavior, d.Behaves id behavior ↔ (id, behavior) ∈ behaviors declarations)
    (hrefused : d.refused = none) :
    (d.declare declaration).refused = none ↔ Admits declarations declaration := by
  have hstate : ∀ id behavior isFinal, (d.addState id behavior isFinal).refused = none ↔
      (behavior.isSome → ∀ other, (id, other) ∉ behaviors declarations) := by
    intro id behavior isFinal
    simp only [refused_addState_iff, hrefused, true_and, hbehaves]
  have hrule : ∀ rule, (d.addRule rule).refused = none ↔ Admits declarations (.rule rule) := by
    intro rule
    rw [refused_addRule_iff haligned hreflects.links_eq, and_iff_right hrefused, admits_rule_iff]
  -- Only some of the conditions say anything of a given declaration.
  cases declaration with
  | state id behavior =>
    simp [declare, hstate, admits_iff, Declaration.initialSource?, Declaration.initialTarget?, Declaration.behavior?,
      Declaration.limit?]
  | final id behavior =>
    cases behavior <;> simp [declare, hstate, admits_iff, Declaration.initialSource?, Declaration.initialTarget?,
      Declaration.behavior?, Declaration.limit?]
  | composite c => exact refused_composite_iff_admits haligned hreflects hrefused
  | initial target action => exact refused_initial_iff_admits haligned hreflects hrefused
  | rule r => exact hrule r
  | sketch s =>
    rw [admits_sketch_iff]
    cases hsketch : s.rule with
    | ok r => simp [declare, hsketch, hrule]
    | error error => simp [declare, hsketch, refused_refuse]
  | limit limit =>
    by_cases hlimit : limit = 0
    · simp [declare, setLimit, hlimit, refused_refuse, admits_iff, Declaration.limit?]
    · simp [declare, setLimit, hlimit, hrefused, admits_iff, Declaration.initialSource?, Declaration.initialTarget?,
        Declaration.behavior?, Declaration.limit?]
  | resolver r =>
    simp [declare, hrefused, admits_iff, Declaration.initialSource?, Declaration.initialTarget?,
      Declaration.behavior?, Declaration.limit?]

/-- **A declaration is refused exactly if the declarations contradict each other**, in whatever order they stand. -/
theorem refused_ofDeclarations_iff : (ofDeclarations declarations).refused = none ↔ Consistent declarations := by
  induction declarations using List.reverseRecOn with
  | nil => exact iff_of_true rfl consistent_nil
  | append_singleton declarations declaration ih =>
    rw [ofDeclarations_append, consistent_append_iff, ← ih]
    constructor
    · intro hrefused
      have hbefore := refused_of_declare hrefused
      exact ⟨hbefore, (refused_declare_iff (aligned_ofDeclarations _) (reflects_ofDeclarations hbefore)
        (behaves_ofDeclarations_iff hbefore) hbefore).1 hrefused⟩
    · rintro ⟨hbefore, hadmits⟩
      exact (refused_declare_iff (aligned_ofDeclarations _) (reflects_ofDeclarations hbefore)
        (behaves_ofDeclarations_iff hbefore) hbefore).2 hadmits

/-- **What is refused can be read off the declarations as a whole, and so can the nesting where nothing is.** Each state then lies in the superstate that the composite declarations give it, and at the top level if they give it none. -/
theorem refusal_and_nesting_of_declarations :
    ((ofDeclarations declarations).refused = none ↔ Consistent declarations) ∧
      (Consistent declarations → ∀ id ∈ (ofDeclarations declarations).ids,
        (∀ superstate, Nests declarations superstate id →
          (ofDeclarations declarations).hierarchy.parent ((ofDeclarations declarations).keyOf id) =
            some ((ofDeclarations declarations).keyOf superstate)) ∧
        ((∀ superstate, ¬ Nests declarations superstate id) →
          (ofDeclarations declarations).hierarchy.parent ((ofDeclarations declarations).keyOf id) = some .root)) := by
  refine ⟨refused_ofDeclarations_iff, fun hconsistent id hid => ?_⟩
  have haligned := aligned_ofDeclarations declarations
  have hnested := (reflects_ofDeclarations (refused_ofDeclarations_iff.2 hconsistent)).superstate?_eq_some_iff
  rw [haligned.parent_keyOf hid]
  constructor
  · intro superstate hnests
    rw [(hnested id superstate).2 hnests]
    rfl
  · intro hnone
    have hsuperstate : (ofDeclarations declarations).superstate? id = none := by
      rw [Option.eq_none_iff_forall_ne_some]
      exact fun superstate hsome => hnone superstate ((hnested id superstate).1 hsome)
    rw [hsuperstate]
    rfl

theorem player_refusal : (ofDeclarations Player.declarations).refused = none ∧ Consistent Player.declarations ∧
    Nests Player.declarations .playing .paused ∧
    (ofDeclarations Player.declarations).hierarchy.parent ⟨4⟩ = some ⟨2⟩ := by
  have hrefused : (ofDeclarations Player.declarations).refused = none := rfl
  have hconsistent : Consistent Player.declarations := refusal_and_nesting_of_declarations.1.1 hrefused
  have hnests : Nests Player.declarations .playing .paused :=
    ⟨_, List.mem_cons_of_mem _ List.mem_cons_self, _, rfl, rfl, by decide⟩
  have hpaused : Player.Mode.paused ∈ (ofDeclarations Player.declarations).ids := by decide
  exact ⟨hrefused, hconsistent, hnests, (refusal_and_nesting_of_declarations.2 hconsistent .paused hpaused).1 .playing hnests⟩

end Draft

end NestedMachine
