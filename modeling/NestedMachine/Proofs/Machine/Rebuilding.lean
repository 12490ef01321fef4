import NestedMachine.Proofs.Definition.Shape
import NestedMachine.Proofs.Machine.Defaults
import NestedMachine.Proofs.Machine.Renumbering
import NestedMachine.Summary

/-!
# Building a machine from its summary

A summary leaves out behaviours, guards, actions and the resolver, which cannot be shown. Nothing else is lost. Declarations that `Replays` holds of register the states of the summary, set its limit and state its transitions again, in the order of the summary and with whatever callbacks. They bring up all states before they nest any, which the first definition may have done in another order; still each of them stands for what the machine has (`StandsFor`), so they have the shape of the first definition, contradict each other no more than that one does, and give a machine with the same summary.
-/

namespace NestedMachine

variable {ι κ ν γ : Type}

section lists

open List

variable {α β δ ε : Type} {R : α → β → Prop} {l : List α} {l' : List β}

theorem exists_left_of_forall₂ (hl : Forall₂ R l l') {b : β} (hb : b ∈ l') : ∃ a ∈ l, R a b := by
  induction hl with
  | nil => cases hb
  | cons hfirst _ ih =>
    rcases mem_cons.1 hb with rfl | hb
    · exact ⟨_, mem_cons_self, hfirst⟩
    · obtain ⟨a, ha, hrel⟩ := ih hb
      exact ⟨a, mem_cons_of_mem _ ha, hrel⟩

theorem exists_right_of_forall₂ (hl : Forall₂ R l l') {a : α} (ha : a ∈ l) : ∃ b ∈ l', R a b :=
  exists_left_of_forall₂ hl.flip ha

theorem map_filterMap_of_forall₂ {g : β → Option δ} {f : α → ε} {s : δ → ε} (hl : Forall₂ R l l')
    (hR : ∀ a b, R a b → (g b).map s = some (f a)) : (l'.filterMap g).map s = l.map f := by
  rw [map_filterMap]
  induction hl with
  | nil => rfl
  | cons hfirst _ ih => simp only [filterMap_cons, hR _ _ hfirst, ih, map_cons]

theorem flatMap_eq_map_of_forall₂ {g : β → List ε} {f : α → ε} (hl : Forall₂ R l l')
    (hR : ∀ a b, R a b → g b = [f a]) : l'.flatMap g = l.map f := by
  induction hl with
  | nil => rfl
  | cons hfirst _ ih => rw [flatMap_cons, hR _ _ hfirst, ih, map_cons, singleton_append]

theorem sublist_of_forall₂ {g : β → Option δ} {f : α → ε} {s : δ → ε} (hl : Forall₂ R l l')
    (hR : ∀ a b, R a b → ∀ c ∈ g b, s c = f a) : ((l'.filterMap g).map s).Sublist (l.map f) := by
  induction hl with
  | nil => exact Sublist.refl _
  | @cons a b _ _ hfirst _ ih =>
    cases hb : g b with
    | none =>
      rw [filterMap_cons_none hb, map_cons]
      exact ih.cons _
    | some c =>
      rw [filterMap_cons_some hb, map_cons, map_cons, hR a b hfirst c hb]
      exact ih.cons_cons _

theorem eraseDups_append_of_subset [DecidableEq α] {more : List α} (hnodup : l.Nodup) (hmore : more ⊆ l) :
    (l ++ more).eraseDups = l := by
  have hself : l.eraseDups = l := by
    clear hmore
    induction l with
    | nil => rfl
    | cons a rest ih =>
      obtain ⟨ha, hrest⟩ := nodup_cons.1 hnodup
      have hkeep : rest.filter (fun b => !b == a) = rest := by
        refine filter_eq_self.2 fun b hb => ?_
        simpa using ne_of_mem_of_not_mem hb ha
      rw [eraseDups_cons, hkeep, ih hrest]
  have hnone : more.removeAll l = [] := by
    refine filter_eq_nil_iff.2 fun a ha => ?_
    simpa using hmore ha
  rw [eraseDups_append, hnone, hself]
  exact append_nil l

end lists

/-! ### Labels and clauses in summaries -/

/-- The trigger with a label, where `named` reads kinds of events. -/
def Trigger.ofLabel (named : String → κ) (label : String) : Trigger κ :=
  if label = "CompositeStateCompleted" then .completion else .event (named label)

theorem Trigger.label_ofLabel [ToString κ] {named : String → κ}
    (hnamed : ∀ kind : κ, toString (named (toString kind)) = toString kind) (trigger : Trigger κ) :
    (ofLabel named trigger.label).label = trigger.label := by
  unfold ofLabel
  split
  · next hcompletion => exact hcompletion.symm
  · next hevent =>
    cases trigger with
    | event kind => exact hnamed kind
    | completion => exact absurd rfl hevent

attribute [ext] TransitionSummary Summary

def Clause.summary [ToString κ] (clause : Clause ι κ ν γ) : TransitionSummary ι where
  source := clause.edge.source
  target := clause.edge.target
  kind := clause.kind
  trigger := clause.trigger.map Trigger.label
  isGuarded := clause.guard.isSome
  hasAction := clause.action.isSome

def TransitionSummary.link (t : TransitionSummary ι) : Link ι := ⟨⟨t.source, t.target⟩, t.kind⟩

/-! ### Replaying a summary -/

/-- The declaration registers the state, with some behaviour. -/
inductive StateSummary.Registers (s : StateSummary ι) : Declaration ι κ ν γ → Prop where
  | state (behavior : Behavior ι κ ν γ) (hfinal : s.isFinal = false) : Registers s (.state s.id behavior)
  | final (behavior : Option (Behavior ι κ ν γ)) (hfinal : s.isFinal = true) : Registers s (.final s.id behavior)

/-- The rule states the transition, with some guard and action where there is one. -/
structure TransitionSummary.StatedBy (named : String → κ) (t : TransitionSummary ι) (rule : Rule ι κ ν γ) : Prop where
  source : t.source = some rule.source
  target : t.target = rule.target
  kind : t.kind = rule.kind
  ordinary : rule.kind ≠ .initial
  trigger : rule.trigger = t.trigger.map (.ofLabel named)
  isGuarded : rule.guard.isSome = t.isGuarded
  hasAction : rule.action.isSome = t.hasAction

/-- An action that does nothing, where the transition has one. -/
def TransitionSummary.idle (t : TransitionSummary ι) : Option (InitialAction ι γ) :=
  if t.hasAction then some (pure () : Callback ι γ Unit) else none

theorem TransitionSummary.isSome_idle (t : TransitionSummary ι) :
    (t.idle : Option (InitialAction ι γ)).isSome = t.hasAction := by
  unfold idle
  cases t.hasAction <;> rfl

namespace Summary

variable [DecidableEq ι]

/-- The states with this superstate, but for the default one. -/
def peers (d : Summary ι) (superstate default : ι) : List ι :=
  (d.states.filter fun s => s.superstate = some superstate ∧ s.id ≠ default).map StateSummary.id

/-- The declaration states the transition again: the initial transition of the root as such, that of another state by a composite state, and any other by a rule. -/
inductive Restates (named : String → κ) (d : Summary ι) (t : TransitionSummary ι) : Declaration ι κ ν γ → Prop where
  | initial (action : Option (InitialAction ι γ)) (hsource : t.source = none) (haction : action.isSome = t.hasAction) :
      Restates named d t (.initial t.target action)
  | composite (superstate : ι) (action : Option (InitialAction ι γ)) (hsource : t.source = some superstate)
      (hkind : t.kind = .initial) (haction : action.isSome = t.hasAction) :
      Restates named d t
        (.composite { superstate, default := t.target, peers := d.peers superstate t.target, action })
  | rule (rule : Rule ι κ ν γ) (hstated : t.StatedBy named rule) : Restates named d t (.rule rule)
  | sketch (sketch : Sketch ι κ ν γ) (rule : Rule ι κ ν γ) (hsketch : sketch.rule = .ok rule)
      (hstated : t.StatedBy named rule) : Restates named d t (.sketch sketch)

/-- The declarations register the states of the summary in order, set its limit, and state its transitions in order. -/
inductive Replays (named : String → κ) (d : Summary ι) : List (Declaration ι κ ν γ) → Prop where
  | intro {registered restated : List (Declaration ι κ ν γ)}
      (hregistered : List.Forall₂ StateSummary.Registers d.states registered)
      (hrestated : List.Forall₂ (d.Restates named) d.transitions restated) :
      Replays named d (registered ++ .limit d.limit :: restated)

/-- A declaration that states the transition again, with a guard and an action that do nothing where there is one. -/
def declaration (named : String → κ) (d : Summary ι) (t : TransitionSummary ι) : Declaration ι κ ν γ :=
  match t.source with
  | none => .initial t.target t.idle
  | some source =>
    if t.kind = .initial then
      .composite { superstate := source, default := t.target, peers := d.peers source t.target, action := t.idle }
    else
      .rule {
        source
        target := t.target
        kind := t.kind
        trigger := t.trigger.map (.ofLabel named)
        guard := if t.isGuarded then some fun _ => (pure true : Callback ι γ Bool) else none
        action := t.idle.map .ofInitial }

/-- Declarations that replay the summary, with callbacks that do nothing. -/
def replay (named : String → κ) (d : Summary ι) : List (Declaration ι κ ν γ) :=
  d.states.map (fun s => if s.isFinal then .final s.id none else .state s.id .passive) ++
    .limit d.limit :: d.transitions.map (d.declaration named)

theorem restates_declaration (named : String → κ) (d : Summary ι) (t : TransitionSummary ι) :
    d.Restates named t (d.declaration named t : Declaration ι κ ν γ) := by
  unfold declaration
  split
  · next hsource => exact .initial _ hsource t.isSome_idle
  · next source hsource =>
    split
    · next hkind => exact .composite source _ hsource hkind t.isSome_idle
    · next hkind =>
      exact .rule _ {
        source := hsource
        target := rfl
        kind := rfl
        ordinary := hkind
        trigger := rfl
        isGuarded := by cases t.isGuarded <;> rfl
        hasAction := (Option.isSome_map ..).trans t.isSome_idle }

theorem replays_replay (named : String → κ) (d : Summary ι) :
    d.Replays named (d.replay named : List (Declaration ι κ ν γ)) := by
  constructor
  · refine List.forall₂_map_right_iff.2 (List.forall₂_same.2 fun s _ => ?_)
    cases hfinal : s.isFinal with
    | true => exact .final none hfinal
    | false => exact .state .passive hfinal
  · exact List.forall₂_map_right_iff.2 (List.forall₂_same.2 fun t _ => d.restates_declaration named t)

end Summary

namespace Machine

open Definition

variable [DecidableEq ι] [ToString κ] {m : Machine ι κ ν γ} {declarations : List (Declaration ι κ ν γ)}
variable {declaration : Declaration ι κ ν γ} {t : Transition ι κ ν γ} {named : String → κ} {id superstate : ι}

/-! ### What stands for a transition -/

omit [ToString κ] in
theorem mem_ids_of_superstate? (hsuperstate : m.superstate? id = some superstate) : id ∈ m.ids := by
  by_contra hid
  rw [superstate?, key?, if_neg hid] at hsuperstate
  cases hsuperstate

omit [ToString κ] in
theorem Coherent.superstate?_target (hcoherent : m.Coherent) (ht : t ∈ m.table.all) (hkind : t.kind = .initial) :
    m.superstate? t.target = t.source := by
  rw [hcoherent.superstate?_of_id? (hcoherent.id?_target t ht), hcoherent.parent_of_initial t ht hkind,
    Option.bind_some, hcoherent.id?_source t ht]

omit [ToString κ] in
theorem Coherent.exists_initial_of_superstate? (hcoherent : m.Coherent)
    (hsuperstate : m.superstate? id = some superstate) :
    ∃ t ∈ m.table.all, t.kind = .initial ∧ t.source = some superstate := by
  obtain ⟨upper, hparent, hupper⟩ := Option.bind_eq_some_iff.1 hsuperstate
  obtain ⟨key, _, hparent⟩ := Option.bind_eq_some_iff.1 hparent
  obtain ⟨t, hinitial⟩ := Option.isSome_iff_exists.1 (hcoherent.default upper (Hierarchy.isComposite_iff.2 ⟨key, hparent⟩))
  obtain ⟨ht, hkind, hsource⟩ := hcoherent.of_initialOf hinitial
  exact ⟨t, ht, hkind, (hcoherent.id?_source t ht).symm.trans (hsource ▸ hupper)⟩

theorem mem_peers_iff {default : ι} :
    id ∈ m.summary.peers superstate default ↔ m.superstate? id = some superstate ∧ id ≠ default := by
  simp only [Summary.peers, summary, List.mem_map, List.mem_filter, decide_eq_true_iff]
  constructor
  · rintro ⟨_, ⟨⟨_, _, rfl⟩, hpeer⟩, rfl⟩
    exact hpeer
  · intro hpeer
    exact ⟨_, ⟨⟨id, mem_ids_of_superstate? hpeer.1, rfl⟩, hpeer⟩, rfl⟩

/-- The declaration adds the transition to a definition, as far as a summary shows it, and nests what lies in its source. -/
structure StandsFor (m : Machine ι κ ν γ) (t : Transition ι κ ν γ) (declaration : Declaration ι κ ν γ) : Prop where
  clause? : declaration.clause?.map Clause.summary = some t.summary
  mentions : declaration.mentions ⊆ m.ids
  attached? : declaration.attached? = none
  limit? : declaration.limit? = none
  sketch : ∀ s, declaration = .sketch s → ∃ rule, s.rule = .ok rule
  composite : ∀ c, declaration = .composite c → ∀ id, id ∈ c.substates ↔ m.superstate? id = some c.superstate
  default : t.kind = .initial → ∀ source, t.source = some source →
    ∃ c, declaration = .composite c ∧ c.superstate = source

theorem Coherent.mem_substates_iff (hcoherent : m.Coherent) (ht : t ∈ m.table.all) (hkind : t.kind = .initial)
    (hsource : t.source = some superstate) {action : Option (InitialAction ι γ)} :
    id ∈ Composite.substates { superstate, default := t.target, peers := m.summary.peers superstate t.target, action } ↔
      m.superstate? id = some superstate := by
  rw [Composite.substates, List.mem_cons, mem_peers_iff]
  by_cases hid : id = t.target
  · subst hid
    exact iff_of_true (.inl rfl) ((hcoherent.superstate?_target ht hkind).trans hsource)
  · simp [hid]

omit [DecidableEq ι] in
theorem summary_eq_of_statedBy (hnamed : ∀ kind : κ, toString (named (toString kind)) = toString kind)
    {rule : Rule ι κ ν γ} (hstated : t.summary.StatedBy named rule) : rule.clause.summary = t.summary := by
  have htrigger : rule.trigger.map Trigger.label = t.trigger.map Trigger.label := by
    have hread : rule.trigger = (t.trigger.map Trigger.label).map (Trigger.ofLabel named) := hstated.trigger
    rw [hread, Option.map_map, Option.map_map]
    exact congrArg (t.trigger.map ·) (funext (Trigger.label_ofLabel hnamed))
  exact TransitionSummary.ext hstated.source.symm hstated.target.symm hstated.kind.symm htrigger hstated.isGuarded
    hstated.hasAction

section

variable (hbuild : Machine.build declarations = .ok m)
include hbuild

omit [ToString κ] in
theorem mem_ids_of_build (ht : t ∈ m.table.all) :
    t.target ∈ m.ids ∧ ∀ source, t.source = some source → source ∈ m.ids := by
  have hcoherent := coherent_of_build hbuild
  have hmem : ∀ key id, m.id? key = some id → id ∈ m.ids := by
    intro key id hid
    obtain ⟨state, hstate, rfl⟩ := exists_state_of_id? hid
    exact mem_ids_of_state? hstate
  exact ⟨hmem _ _ (hcoherent.id?_target t ht), fun source hsource =>
    hmem _ _ ((hcoherent.id?_source t ht).trans hsource)⟩

theorem summary_eq_of_initial (ht : t ∈ m.table.all) (hkind : t.kind = .initial) {edge : Edge ι}
    (hedge : t.edge = edge) {action : Option (InitialAction ι γ)} (haction : action.isSome = t.summary.hasAction) :
    Clause.summary ({ edge, kind := .initial, action := action.map .ofInitial } : Clause ι κ ν γ) = t.summary := by
  obtain ⟨htrigger, hguard⟩ := plain_of_initial hbuild ht hkind
  subst hedge
  refine TransitionSummary.ext rfl rfl hkind.symm ?_ ?_ ((Option.isSome_map ..).trans haction)
  · show none = t.trigger.map Trigger.label
    rw [htrigger, Option.map_none]
  · show false = t.guard.isSome
    rw [hguard, Option.isSome_none]

theorem standsFor_of_restates (hnamed : ∀ kind : κ, toString (named (toString kind)) = toString kind)
    (ht : t ∈ m.table.all) (hrestates : m.summary.Restates named t.summary declaration) :
    m.StandsFor t declaration := by
  have hcoherent := coherent_of_build hbuild
  obtain ⟨htargetMem, hsourceMem⟩ := mem_ids_of_build hbuild ht
  have hmentions : ∀ rule : Rule ι κ ν γ, t.summary.StatedBy named rule → [rule.source, rule.target] ⊆ m.ids := by
    intro rule hstated
    have hsource : rule.source ∈ m.ids := hsourceMem _ hstated.source
    have htarget : rule.target ∈ m.ids := hstated.target ▸ htargetMem
    simp [hsource, htarget]
  have hordinary : ∀ rule : Rule ι κ ν γ, t.summary.StatedBy named rule → t.kind ≠ .initial :=
    fun rule hstated hkind => hstated.ordinary (hstated.kind.symm.trans hkind)
  cases hrestates with
  | initial action hsource haction =>
    have hnone : t.source = none := hsource
    have hroot : t.sourceKey = .root :=
      (hcoherent.id?_eq_none_iff (hcoherent.contains_source t ht)).1 ((hcoherent.id?_source t ht).trans hnone)
    have hkind := hcoherent.kind_of_root t ht hroot
    have hedge : t.edge = ⟨none, t.target⟩ := congrArg (Edge.mk · t.target) hnone
    exact {
      clause? := congrArg some (summary_eq_of_initial hbuild ht hkind hedge haction)
      mentions := List.cons_subset.2 ⟨htargetMem, List.nil_subset _⟩
      attached? := rfl
      limit? := rfl
      sketch := by simp
      composite := by simp
      default := by simp [hnone] }
  | composite superstate action hsource hkind haction =>
    have hsome : t.source = some superstate := hsource
    have hedge : t.edge = ⟨some superstate, t.target⟩ := congrArg (Edge.mk · t.target) hsome
    exact {
      clause? := congrArg some (summary_eq_of_initial hbuild ht hkind hedge haction)
      mentions := by
        refine List.cons_subset.2 ⟨hsourceMem _ hsome, fun id hid => ?_⟩
        exact mem_ids_of_superstate? ((hcoherent.mem_substates_iff ht hkind hsome).1 hid)
      attached? := rfl
      limit? := rfl
      sketch := by simp
      composite := by
        rintro _ ⟨⟩ id
        exact hcoherent.mem_substates_iff ht hkind hsome
      default := fun _ source hfrom => ⟨_, rfl, Option.some.inj (hsome.symm.trans hfrom)⟩ }
  | rule rule hstated =>
    exact {
      clause? := congrArg some (summary_eq_of_statedBy hnamed hstated)
      mentions := hmentions rule hstated
      attached? := rfl
      limit? := rfl
      sketch := by simp
      composite := by simp
      default := fun hkind => absurd hkind (hordinary rule hstated) }
  | sketch sketch rule hsketch hstated =>
    exact {
      clause? := by
        rw [Declaration.clause?, hsketch]
        exact congrArg some (summary_eq_of_statedBy hnamed hstated)
      mentions := by
        rw [Declaration.mentions, hsketch]
        exact hmentions rule hstated
      attached? := rfl
      limit? := rfl
      sketch := by
        rintro _ ⟨⟩
        exact ⟨rule, hsketch⟩
      composite := by simp
      default := fun hkind => absurd hkind (hordinary rule hstated) }

end

theorem summary_eq_of_sameShape {m' : Machine ι κ ν γ} {declarations' : List (Declaration ι κ ν γ)}
    (hbuild : Machine.build declarations = .ok m) (hbuild' : Machine.build declarations' = .ok m')
    (hshape : SameShape declarations declarations') (hids : m'.ids = m.ids) (hlimit : m'.limit = m.limit)
    (htransitions : m'.table.all.map Transition.summary = m.table.all.map Transition.summary) :
    m'.summary = m.summary := by
  have hdepicts := depicts_of_build hbuild
  have hdepicts' := depicts_of_build hbuild'
  have hinitial : m'.initialState = m.initialState := by
    ext target
    rw [hdepicts.initialState_eq_some_iff, hdepicts'.initialState_eq_some_iff, hshape.links_perm.mem_iff]
  have hsuperstate : ∀ id, m'.superstate? id = m.superstate? id := by
    intro id
    ext superstate
    rw [hdepicts.superstate?_eq_some_iff, hdepicts'.superstate?_eq_some_iff, hshape.nests_eq]
  have hcomposite : ∀ id, m'.isComposite id = m.isComposite id := by
    intro id
    rw [Bool.eq_iff_iff, isComposite_iff_of_build hbuild, isComposite_iff_of_build hbuild', hshape.isComposite_eq]
  have hfinal : ∀ id, m'.isFinal id = m.isFinal id := by
    intro id
    rw [Bool.eq_iff_iff, hdepicts.isFinal_iff, hdepicts'.isFinal_iff, hshape.isFinal_eq]
  refine Summary.ext hinitial hlimit ?_ htransitions
  simp only [summary, hids, hsuperstate, hcomposite, hfinal]

/-! ### What stands for a machine -/

theorem map_id_summary (m : Machine ι κ ν γ) : m.summary.states.map StateSummary.id = m.ids := by
  simp [summary, Function.comp_def]

/-- Some declarations register the states of the machine, and others stand for its transitions. -/
structure Rebuilds (m : Machine ι κ ν γ) (registered restated : List (Declaration ι κ ν γ)) : Prop where
  registers : List.Forall₂ StateSummary.Registers m.summary.states registered
  standsFor : List.Forall₂ m.StandsFor m.table.all restated

namespace Rebuilds

variable {registered restated : List (Declaration ι κ ν γ)} (hrebuilds : m.Rebuilds registered restated)
include hrebuilds

theorem exists_state (hdeclaration : declaration ∈ registered) :
    ∃ id ∈ m.ids, StateSummary.Registers ⟨id, m.superstate? id, m.isComposite id, m.isFinal id⟩ declaration := by
  obtain ⟨s, hs, hregisters⟩ := exists_left_of_forall₂ hrebuilds.registers hdeclaration
  obtain ⟨id, hid, rfl⟩ := List.mem_map.1 hs
  exact ⟨id, hid, hregisters⟩

theorem exists_transition (hdeclaration : declaration ∈ restated) : ∃ t ∈ m.table.all, m.StandsFor t declaration :=
  exists_left_of_forall₂ hrebuilds.standsFor hdeclaration

theorem mem_cases (hdeclaration : declaration ∈ registered ++ .limit m.limit :: restated) :
    (∃ id ∈ m.ids, StateSummary.Registers ⟨id, m.superstate? id, m.isComposite id, m.isFinal id⟩ declaration) ∨
      declaration = .limit m.limit ∨ ∃ t ∈ m.table.all, m.StandsFor t declaration := by
  rw [List.mem_append, List.mem_cons] at hdeclaration
  exact hdeclaration.imp hrebuilds.exists_state (Or.imp_right hrebuilds.exists_transition)

theorem filterMap_registered {β : Type} {f : Declaration ι κ ν γ → Option β}
    (hregisters : ∀ s declaration, StateSummary.Registers s declaration → f declaration = none) :
    registered.filterMap f = [] := by
  refine List.filterMap_eq_nil_iff.2 fun declaration hdeclaration => ?_
  obtain ⟨_, _, hdeclared⟩ := hrebuilds.exists_state hdeclaration
  exact hregisters _ _ hdeclared

theorem filterMap_restated {β : Type} {f : Declaration ι κ ν γ → Option β}
    (hstands : ∀ t declaration, m.StandsFor t declaration → f declaration = none) : restated.filterMap f = [] := by
  refine List.filterMap_eq_nil_iff.2 fun declaration hdeclaration => ?_
  obtain ⟨_, _, hdeclared⟩ := hrebuilds.exists_transition hdeclaration
  exact hstands _ _ hdeclared

theorem clauses_eq : (clauses (registered ++ .limit m.limit :: restated)).map Clause.summary =
    m.table.all.map Transition.summary := by
  have hregistered : registered.filterMap Declaration.clause? = [] :=
    hrebuilds.filterMap_registered fun _ _ hregisters => by cases hregisters <;> rfl
  rw [clauses, List.filterMap_append, hregistered, List.nil_append, List.filterMap_cons_none rfl]
  exact map_filterMap_of_forall₂ hrebuilds.standsFor fun _ _ hstands => hstands.clause?

theorem links_eq : links (registered ++ .limit m.limit :: restated) = m.table.all.map Transition.link := by
  have hlinks := congrArg (List.map TransitionSummary.link) hrebuilds.clauses_eq
  rw [List.map_map, List.map_map] at hlinks
  rw [links_eq_map_clauses]
  exact hlinks

theorem states_eq (hnodup : m.ids.Nodup) : Definition.states (registered ++ .limit m.limit :: restated) = m.ids := by
  have hregistered : registered.flatMap Declaration.mentions = m.ids := by
    rw [← m.map_id_summary]
    exact flatMap_eq_map_of_forall₂ hrebuilds.registers fun _ _ hregisters => by cases hregisters <;> rfl
  have hrestated : restated.flatMap Declaration.mentions ⊆ m.ids := by
    intro id hid
    obtain ⟨declaration, hdeclaration, hmention⟩ := List.mem_flatMap.1 hid
    obtain ⟨t, _, hstands⟩ := hrebuilds.exists_transition hdeclaration
    exact hstands.mentions hmention
  rw [Definition.states, List.flatMap_append, hregistered, List.flatMap_cons]
  exact eraseDups_append_of_subset hnodup hrestated

theorem isFinal_iff : IsFinal (registered ++ .limit m.limit :: restated) id ↔ m.isFinal id = true := by
  constructor
  · rintro ⟨declaration, hdeclaration, behavior, rfl⟩
    obtain ⟨_, _, hregisters⟩ | hlimit | ⟨_, _, hstands⟩ := hrebuilds.mem_cases hdeclaration
    · cases hregisters with
      | final _ hfinal => exact hfinal
    · cases hlimit
    · exact absurd hstands.attached? (by simp [Declaration.attached?])
  · intro hfinal
    have hid : id ∈ m.ids := by
      by_contra hid
      rw [isFinal, key?, if_neg hid] at hfinal
      cases hfinal
    obtain ⟨declaration, hdeclaration, hregisters⟩ :=
      exists_right_of_forall₂ hrebuilds.registers (List.mem_map_of_mem hid)
    refine ⟨declaration, List.mem_append_left _ hdeclaration, ?_⟩
    cases hregisters with
    | state behavior hordinary => cases hordinary.symm.trans hfinal
    | final behavior _ => exact ⟨behavior, rfl⟩

theorem nests_iff (hcoherent : m.Coherent) :
    Nests (registered ++ .limit m.limit :: restated) superstate id ↔ m.superstate? id = some superstate := by
  constructor
  · rintro ⟨_, hdeclaration, c, rfl, rfl, hid⟩
    obtain ⟨_, _, hregisters⟩ | hlimit | ⟨_, _, hstands⟩ := hrebuilds.mem_cases hdeclaration
    · cases hregisters
    · cases hlimit
    · exact (hstands.composite c rfl id).1 hid
  · intro hsuperstate
    obtain ⟨t, ht, hkind, hsource⟩ := hcoherent.exists_initial_of_superstate? hsuperstate
    obtain ⟨declaration, hdeclaration, hstands⟩ := exists_right_of_forall₂ hrebuilds.standsFor ht
    obtain ⟨c, hcomposite, rfl⟩ := hstands.default hkind superstate hsource
    exact ⟨declaration, List.mem_append_right _ (List.mem_cons_of_mem _ hdeclaration), c, hcomposite, rfl,
      (hstands.composite c hcomposite id).2 hsuperstate⟩

theorem limits_eq : limits (registered ++ .limit m.limit :: restated) = [m.limit] := by
  have hregistered : registered.filterMap Declaration.limit? = [] :=
    hrebuilds.filterMap_registered fun _ _ hregisters => by cases hregisters <;> rfl
  have hrestated : restated.filterMap Declaration.limit? = [] := hrebuilds.filterMap_restated fun _ _ => StandsFor.limit?
  rw [limits, List.filterMap_append, hregistered, List.nil_append]
  exact congrArg (m.limit :: ·) hrestated

theorem nodup_behaviors (hnodup : m.ids.Nodup) :
    ((behaviors (registered ++ .limit m.limit :: restated)).map Prod.fst).Nodup := by
  have hrestated : restated.filterMap Declaration.behavior? = [] :=
    hrebuilds.filterMap_restated fun _ _ hstands => Declaration.behavior?_of_attached? hstands.attached?
  have hregistered : ((registered.filterMap Declaration.behavior?).map Prod.fst).Sublist
      (m.summary.states.map StateSummary.id) := by
    refine sublist_of_forall₂ hrebuilds.registers fun s declaration hregisters attached hattached => ?_
    cases hregisters with
    | state behavior _ => exact congrArg Prod.fst (Option.some.inj hattached).symm
    | final behavior _ =>
      obtain ⟨_, _, rfl⟩ := Option.map_eq_some_iff.1 hattached
      rfl
  rw [behaviors, List.filterMap_append, List.filterMap_cons_none rfl, hrestated, List.append_nil]
  exact (m.map_id_summary ▸ hnodup).sublist hregistered

variable (hbuild : Machine.build declarations = .ok m)
include hbuild

theorem sameShape : SameShape declarations (registered ++ .limit m.limit :: restated) := by
  have hcoherent := coherent_of_build hbuild
  have hdepicts := depicts_of_build hbuild
  exact {
    states_perm := by rw [hrebuilds.states_eq hcoherent.nodup, hdepicts.ids_eq]
    links_perm := by rw [hrebuilds.links_eq, hdepicts.links_eq]
    nests_eq := by
      funext superstate id
      rw [eq_iff_iff, hrebuilds.nests_iff hcoherent, hdepicts.superstate?_eq_some_iff]
    isFinal_eq := by
      funext id
      rw [eq_iff_iff, hrebuilds.isFinal_iff, hdepicts.isFinal_iff] }

theorem consistent : Consistent (registered ++ .limit m.limit :: restated) := by
  have hcoherent := coherent_of_build hbuild
  have hshape := hrebuilds.sameShape hbuild
  have hlinks : links (registered ++ .limit m.limit :: restated) = links declarations := by
    rw [hrebuilds.links_eq, (depicts_of_build hbuild).links_eq]
  obtain ⟨hconsistent, _⟩ := build_eq_ok_iff_consistent.1 hbuild
  have hsources : (initialSources (registered ++ .limit m.limit :: restated)).Nodup := by
    rw [initialSources_eq, hlinks, ← initialSources_eq]
    exact hconsistent.initialSources_nodup
  exact {
    initialSources_nodup := hsources
    substates_disjoint := by
      refine disjoint_of_unique hsources fun id superstate superstate' hnests hnests' => ?_
      rw [hrebuilds.nests_iff hcoherent] at hnests hnests'
      exact Option.some.inj (hnests.symm.trans hnests')
    acyclic := hshape.contains_eq ▸ hconsistent.acyclic
    initialTargets_length := by
      rw [initialTargets_eq, hlinks, ← initialTargets_eq]
      exact hconsistent.initialTargets_length
    behaviors_nodup := hrebuilds.nodup_behaviors hcoherent.nodup
    limits_ne_zero := by
      rw [hrebuilds.limits_eq, List.mem_singleton]
      exact (Nat.ne_of_gt (limit_pos_of_build hbuild)).symm
    sketches_finished := fun sketch hsketch => by
      obtain ⟨_, _, hregisters⟩ | hlimit | ⟨_, _, hstands⟩ := hrebuilds.mem_cases hsketch
      · cases hregisters
      · cases hlimit
      · exact hstands.sketch sketch rfl }

/-- **What stands for a machine gives a machine**, and that has the same summary. -/
theorem exists_build : ∃ m', Machine.build (registered ++ .limit m.limit :: restated) = .ok m' ∧
    m'.summary = m.summary := by
  have hcoherent := coherent_of_build hbuild
  have hdepicts := depicts_of_build hbuild
  have hshape := hrebuilds.sameShape hbuild
  obtain ⟨_, _, target, htarget, hnested, hdefects⟩ := build_eq_ok_iff_consistent.1 hbuild
  have hbuild' : Machine.build (registered ++ .limit m.limit :: restated) =
      .ok (Draft.ofDeclarations (registered ++ .limit m.limit :: restated)).freeze := by
    refine build_eq_ok_iff_consistent.2 ⟨hrebuilds.consistent hbuild, rfl, target, ?_, hshape.nests_eq ▸ hnested, ?_⟩
    · rw [mem_initialTargets_iff] at htarget ⊢
      exact hshape.links_perm.mem_iff.1 htarget
    · exact List.Perm.nil_eq (hdefects ▸ hshape.defects_perm target) |>.symm
  have hdepicts' := depicts_of_build hbuild'
  refine ⟨_, hbuild', summary_eq_of_sameShape hbuild hbuild' hshape ?_ ?_ ?_⟩
  · rw [hdepicts'.ids_eq, hrebuilds.states_eq hcoherent.nodup]
  · rw [hdepicts'.limit_eq, Definition.limit, hrebuilds.limits_eq]
    rfl
  · have hclauses := congrArg (List.map Clause.summary) hdepicts'.clauses_eq
    rw [List.map_map, hrebuilds.clauses_eq] at hclauses
    exact hclauses

end Rebuilds

/-! ### Whole summaries -/

/-- **A summary says all there is to the structure of a machine.** The summary of a machine that a definition gives can be replayed, and declarations that do so, with whatever behaviours, guards and actions, give a machine with the same summary. Of the kinds of events it is asked that the text of a kind is read as a kind with that text. -/
theorem rebuilding_of_build (hbuild : Machine.build declarations = .ok m)
    (hnamed : ∀ kind : κ, toString (named (toString kind)) = toString kind) :
    m.summary.Replays named (m.summary.replay named : List (Declaration ι κ ν γ)) ∧
      ∀ replay : List (Declaration ι κ ν γ), m.summary.Replays named replay →
        ∃ m', Machine.build replay = .ok m' ∧ m'.summary = m.summary := by
  refine ⟨m.summary.replays_replay named, ?_⟩
  rintro _ ⟨hregistered, hrestated⟩
  have hrebuilds : m.Rebuilds _ _ := {
    registers := hregistered
    standsFor := by
      have hall : ∀ t ∈ m.table.all, t ∈ m.table.all := fun _ => id
      have hboth := (List.forall₂_and_left _ _).2 ⟨hall, List.forall₂_map_left_iff.1 hrestated⟩
      exact hboth.imp fun t declaration h => standsFor_of_restates hbuild hnamed h.1 h.2 }
  exact hrebuilds.exists_build hbuild

end Machine

namespace Player

instance : ToString Button where
  toString
    | .play => "Play"
    | .pause => "Pause"
    | .stop => "Stop"
    | .runOut => "RunOut"

def Button.named (name : String) : Button :=
  if name = "Play" then .play else if name = "Pause" then .pause else if name = "Stop" then .stop else .runOut

end Player

theorem Machine.player_rebuilding : Machine.build Player.declarations = .ok Player.machine ∧
    (∀ button : Player.Button, toString (Player.Button.named (toString button)) = toString button) ∧
    ∃ m' : Machine Player.Mode Player.Button Unit Unit,
      Machine.build (Player.machine.summary.replay Player.Button.named) = .ok m' ∧ m'.summary = Player.machine.summary := by
  have hnamed : ∀ button : Player.Button, toString (Player.Button.named (toString button)) = toString button := by
    rintro ⟨⟩ <;> decide
  obtain ⟨hreplays, hrebuilds⟩ := Machine.rebuilding_of_build Player.build_eq hnamed
  exact ⟨Player.build_eq, hnamed, hrebuilds _ hreplays⟩

end NestedMachine
