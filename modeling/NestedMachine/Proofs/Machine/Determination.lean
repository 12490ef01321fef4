import NestedMachine.Proofs.Machine.Rebuilding

/-!
# Machines with the same summary

A summary shows all of a machine but its callbacks and its resolver, and it shows triggers by their text. Where states are listed in the same order, corresponding keys are equal (`Twins.eq_of_corresponds`); so two machines with the same summary, behaviours, guards, actions and resolver are one machine, as long as their triggers can be told by their text. They can be if no transition waits for an event that is called like the completion of a composite state (`Unmistakable`). With such an event, machines with the same summary may part ways: of two ballots that look the same, one is closed by a report and the other by a completion.
-/

namespace NestedMachine

variable {ι κ ν γ : Type}

attribute [ext] Machine

theorem map_eq_map_of_map_eq {α β δ ε : Type} {f : α → δ} {g : β → δ} {f' : α → ε} {g' : β → ε} {l : List α}
    {l' : List β} (hmap : l.map f = l'.map g) (hagree : ∀ a ∈ l, ∀ b ∈ l', f a = g b → f' a = g' b) :
    l.map f' = l'.map g' := by
  induction l generalizing l' with
  | nil =>
    obtain rfl := List.map_eq_nil_iff.1 hmap.symm
    rfl
  | cons a rest ih =>
    obtain ⟨b, rest', rfl, hhead, htail⟩ := List.map_eq_cons_iff.1 hmap.symm
    have hrest := ih htail.symm fun a ha b hb =>
      hagree a (List.mem_cons_of_mem _ ha) b (List.mem_cons_of_mem _ hb)
    rw [List.map_cons, List.map_cons, hrest, hagree a List.mem_cons_self b List.mem_cons_self hhead.symm]

/-! ### Triggers by their text -/

namespace Trigger

variable [ToString κ] {trigger trigger' : Trigger κ}

/-- The trigger is not an event that is called like the completion of a composite state. -/
def Unmistakable (trigger : Trigger κ) : Prop := ∀ kind, trigger = .event kind → toString kind ≠ "CompositeStateCompleted"

theorem Unmistakable.eq_of_label_eq (htrigger : trigger.Unmistakable) (htrigger' : trigger'.Unmistakable)
    (hkinds : Function.Injective (toString : κ → String)) (hlabel : trigger.label = trigger'.label) :
    trigger = trigger' := by
  cases trigger with
  | event kind =>
    cases trigger' with
    | event kind' => exact congrArg event (hkinds hlabel)
    | completion => exact absurd hlabel (htrigger kind rfl)
  | completion =>
    cases trigger' with
    | event kind' => exact absurd hlabel.symm (htrigger' kind' rfl)
    | completion => rfl

theorem label_injective_iff (hkinds : Function.Injective (toString : κ → String)) :
    Function.Injective (label : Trigger κ → String) ↔ ∀ kind : κ, toString kind ≠ "CompositeStateCompleted" := by
  constructor
  · intro hinjective kind htext
    have hsame : event kind = completion := hinjective htext
    cases hsame
  · intro htexts trigger trigger' hlabel
    exact Unmistakable.eq_of_label_eq (fun kind _ => htexts kind) (fun kind _ => htexts kind) hkinds hlabel

end Trigger

namespace Machine

variable [DecidableEq ι] {m m' : Machine ι κ ν γ} {declarations declarations' : List (Declaration ι κ ν γ)}

/-! ### States in the same order -/

omit [DecidableEq ι] in
theorem Coherent.size_eq (hcoherent : m.Coherent) : m.hierarchy.size = m.ids.length + 1 := by
  rw [Hierarchy.size, hcoherent.length_eq, ids, List.length_map]

omit [DecidableEq ι] in
theorem id?_eq_of_ids_eq (hids : m.ids = m'.ids) (key : Key) : m.id? key = m'.id? key := by
  rcases key.eq_root_or_ofPosition with rfl | ⟨position, rfl⟩
  · rfl
  · rw [id?_ofPosition, id?_ofPosition, hids]

namespace Twins

variable (htwins : m.Twins m') (hids : m.ids = m'.ids)
include htwins hids

theorem corresponds_self {key : Key} (hkey : m.hierarchy.Contains key) : Corresponds m m' key key where
  left := hkey
  right := by rwa [Hierarchy.Contains, htwins.right.size_eq, ← hids, ← htwins.left.size_eq]
  id?_eq := id?_eq_of_ids_eq hids key

theorem eq_of_corresponds {key key' : Key} (hkeys : Corresponds m m' key key') : key = key' :=
  htwins.biUnique.2 (htwins.corresponds_self hids hkeys.left) hkeys

theorem parent_eq (key : Key) : m.hierarchy.parent key = m'.hierarchy.parent key := by
  by_cases hkey : m.hierarchy.Contains key
  · have hparent := htwins.parent (htwins.corresponds_self hids hkey)
    cases hsuperstate : m.hierarchy.parent key with
    | none => exact (eq_none_of_rel (hsuperstate ▸ hparent)).symm
    | some superstate =>
      obtain ⟨superstate', hsuperstate', hsame⟩ := exists_of_rel_some (hsuperstate ▸ hparent)
      rw [hsuperstate', htwins.eq_of_corresponds hids hsame]
  · have hkey' : ¬ m'.hierarchy.Contains key := by
      rwa [Hierarchy.Contains, htwins.right.size_eq, ← hids, ← htwins.left.size_eq]
    rw [Hierarchy.parent_eq_none hkey, Hierarchy.parent_eq_none hkey']

theorem hierarchy_eq : m.hierarchy = m'.hierarchy := by
  refine congrArg Hierarchy.mk (List.ext_getElem? fun position => ?_)
  rw [← Hierarchy.parent_ofPosition, ← Hierarchy.parent_ofPosition, htwins.parent_eq hids]

theorem states_eq : m.states = m'.states := by
  have hsame : m.states.map id = m'.states.map id := by
    refine map_eq_map_of_map_eq hids fun state hstate state' hstate' hid => ?_
    obtain ⟨position, hposition⟩ := List.mem_iff_getElem?.1 hstate
    obtain ⟨position', hposition'⟩ := List.mem_iff_getElem?.1 hstate'
    have hkey : m.state? (.ofPosition position) = some state := hposition
    have hkey' : m'.state? (.ofPosition position') = some state' := hposition'
    have hcorresponds : Corresponds m m' (.ofPosition position) (.ofPosition position') := {
      left := htwins.left.contains_of_state? hkey
      right := htwins.right.contains_of_state? hkey'
      id?_eq := by rw [id?_eq_of_state? hkey, id?_eq_of_state? hkey', hid] }
    have hstates := htwins.state?_eq hcorresponds
    rw [hkey, hkey'] at hstates
    exact Option.some.inj hstates
  rwa [List.map_id, List.map_id] at hsame

theorem all_eq (hclauses : m.table.all.map Transition.clause = m'.table.all.map Transition.clause) :
    m.table.all = m'.table.all := by
  have hsame : m.table.all.map id = m'.table.all.map id := by
    refine map_eq_map_of_map_eq hclauses fun t ht t' ht' hclause => ?_
    have htwin := htwins.twin ht ht' hclause
    have hsource := htwins.eq_of_corresponds hids htwin.source
    have htarget := htwins.eq_of_corresponds hids htwin.target
    cases t
    cases t'
    cases hclause
    cases hsource
    cases htarget
    rfl
  rwa [List.map_id, List.map_id] at hsame

end Twins

/-! ### The same summary -/

theorem table_eq_of_build (hbuild : Machine.build declarations = .ok m) :
    m.table = .ofList m.hierarchy.size m.table.all := by
  obtain ⟨_, rfl, _⟩ := build_eq_ok_iff_consistent.1 hbuild
  rw [Draft.all_freeze]
  rfl

section

variable [ToString κ] (hsummary : m.summary = m'.summary)
include hsummary

theorem ids_eq_of_summary_eq : m.ids = m'.ids := by
  rw [← m.map_id_summary, hsummary, m'.map_id_summary]

theorem state_eq_of_summary_eq (id : ι) : (⟨id, m.superstate? id, m.isComposite id, m.isFinal id⟩ : StateSummary ι) =
    ⟨id, m'.superstate? id, m'.isComposite id, m'.isFinal id⟩ := by
  have hids := ids_eq_of_summary_eq hsummary
  by_cases hid : id ∈ m.ids
  · have hstates : m.summary.states = m'.summary.states := congrArg Summary.states hsummary
    rw [summary, summary, ← hids] at hstates
    exact List.map_inj_left.1 hstates id hid
  · have hkey : m.key? id = none := if_neg hid
    have hkey' : m'.key? id = none := if_neg (hids ▸ hid)
    simp [superstate?, isComposite, isFinal, hkey, hkey']

variable (hbuild : Machine.build declarations = .ok m) (hbuild' : Machine.build declarations' = .ok m')
variable (hbehavior : ∀ id, m.behavior? id = m'.behavior? id)
variable (hclauses : m.table.all.map Transition.clause = m'.table.all.map Transition.clause)
include hbuild hbuild' hbehavior hclauses

theorem twins_of_summary_eq : m.Twins m' where
  left := coherent_of_build hbuild
  right := coherent_of_build hbuild'
  reordered := {
    ids_perm := by rw [ids_eq_of_summary_eq hsummary]
    superstate?_eq := fun id => congrArg StateSummary.superstate (state_eq_of_summary_eq hsummary id)
    isFinal_eq := fun id => congrArg StateSummary.isFinal (state_eq_of_summary_eq hsummary id)
    behavior?_eq := hbehavior
    initialClause?_eq := fun source => by
      have hdepicts := depicts_of_build hbuild
      have hdepicts' := depicts_of_build hbuild'
      ext1 clause
      rw [hdepicts.initialClause?_eq_some_iff, hdepicts'.initialClause?_eq_some_iff, ← hdepicts.clauses_eq, hclauses,
        hdepicts'.clauses_eq]
    ordinary_perm := by rw [ordinaryClauses, hclauses, ← ordinaryClauses]
    limit_eq := congrArg Summary.limit hsummary }

/-- **A machine is its summary, its callbacks and its resolver.** -/
theorem eq_of_summary_eq (hresolver : m.resolver = m'.resolver) : m = m' := by
  have hids := ids_eq_of_summary_eq hsummary
  have htwins := twins_of_summary_eq hsummary hbuild hbuild' hbehavior hclauses
  have hhierarchy := htwins.hierarchy_eq hids
  have htable : m.table = m'.table := by
    rw [table_eq_of_build hbuild, table_eq_of_build hbuild', hhierarchy, htwins.all_eq hids hclauses]
  exact Machine.ext (htwins.states_eq hids) hhierarchy htable (congrArg Summary.limit hsummary) hresolver

end

/-! ### Machines without guards and actions -/

def Plain (m : Machine ι κ ν γ) : Prop := ∀ t ∈ m.table.all, t.guard = none ∧ t.action = none

instance (m : Machine ι κ ν γ) : Decidable m.Plain :=
  decidable_of_iff (∀ t ∈ m.table.all, t.guard.isNone ∧ t.action.isNone) (by simp [Plain])

def Unmistakable [ToString κ] (m : Machine ι κ ν γ) : Prop :=
  ∀ t ∈ m.table.all, ∀ trigger, t.trigger = some trigger → trigger.Unmistakable

theorem clauses_eq_of_summary_eq [ToString κ] (hkinds : Function.Injective (toString : κ → String))
    (hsummary : m.summary = m'.summary) (hplain : m.Plain) (hplain' : m'.Plain) (hunmistakable : m.Unmistakable)
    (hunmistakable' : m'.Unmistakable) :
    m.table.all.map Transition.clause = m'.table.all.map Transition.clause := by
  have htransitions : m.table.all.map Transition.summary = m'.table.all.map Transition.summary :=
    congrArg Summary.transitions hsummary
  refine map_eq_map_of_map_eq htransitions fun t ht t' ht' hsame => ?_
  have hlabel : t.trigger.map Trigger.label = t'.trigger.map Trigger.label := congrArg TransitionSummary.trigger hsame
  have htrigger : t.trigger = t'.trigger := by
    cases hwaits : t.trigger with
    | none =>
      rw [hwaits, Option.map_none, eq_comm, Option.map_eq_none_iff] at hlabel
      exact hlabel.symm
    | some trigger =>
      rw [hwaits, Option.map_some, eq_comm, Option.map_eq_some_iff] at hlabel
      obtain ⟨trigger', hwaits', hlabel⟩ := hlabel
      rw [hwaits', (hunmistakable t ht trigger hwaits).eq_of_label_eq (hunmistakable' t' ht' trigger' hwaits') hkinds
        hlabel.symm]
  have hlink : t.link = t'.link := congrArg TransitionSummary.link hsame
  rw [Transition.clause, Transition.clause, hlink, htrigger, (hplain t ht).1, (hplain t ht).2, (hplain' t' ht').1,
    (hplain' t' ht').2]

/-- **Where triggers can be told by their text, a summary determines what a machine does.** They can be, in general, exactly if no kind of events is called like the completion of a composite state; for two machines with the same summary it is enough that neither waits for an event of such a kind. Without guards and actions, with the same behaviours and the same resolver, the two then start alike and process every event alike. -/
theorem determined_of_build [DecidableEq κ] [ToString κ] (hkinds : Function.Injective (toString : κ → String))
    (hbuild : Machine.build declarations = .ok m) (hbuild' : Machine.build declarations' = .ok m')
    (hsummary : m.summary = m'.summary) (hplain : m.Plain) (hplain' : m'.Plain)
    (hbehavior : ∀ id, m.behavior? id = m'.behavior? id) (hresolver : m.resolver = m'.resolver) :
    (Function.Injective (Trigger.label : Trigger κ → String) ↔ ∀ kind : κ, toString kind ≠ "CompositeStateCompleted") ∧
      (m.Unmistakable → m'.Unmistakable → (∀ context, m.start context = m'.start context) ∧
        ∀ current event context, m.process current event context = m'.process current event context) := by
  refine ⟨Trigger.label_injective_iff hkinds, fun hunmistakable hunmistakable' => ?_⟩
  have hclauses := clauses_eq_of_summary_eq hkinds hsummary hplain hplain' hunmistakable hunmistakable'
  obtain rfl := eq_of_summary_eq hsummary hbuild hbuild' hbehavior hclauses hresolver
  exact ⟨fun _ => rfl, fun _ _ _ => rfl⟩

end Machine

namespace Player

/-- The player where the end is declared final in the last line. -/
def lateEnd : List (Declaration Mode Button Unit Unit) := declarations.eraseIdx 2 ++ [.final .ended none]

def lateEndMachine : Machine Mode Button Unit Unit := (Draft.ofDeclarations lateEnd).freeze

theorem toString_injective : Function.Injective (toString : Button → String) := by
  rintro ⟨⟩ ⟨⟩ heq <;> first | rfl | exact absurd heq (by decide)

end Player

theorem Machine.player_determined : Function.Injective (toString : Player.Button → String) ∧
    Machine.build Player.declarations = .ok Player.machine ∧ Machine.build Player.lateEnd = .ok Player.lateEndMachine ∧
    Player.machine.summary = Player.lateEndMachine.summary ∧ Player.machine.Plain ∧ Player.lateEndMachine.Plain ∧
    (∀ id, Player.machine.behavior? id = Player.lateEndMachine.behavior? id) ∧
    Player.machine.resolver = Player.lateEndMachine.resolver ∧ Player.machine.Unmistakable ∧
    Player.lateEndMachine.Unmistakable ∧
    Player.machine.process .sounding ⟨.runOut, ()⟩ () = Player.lateEndMachine.process .sounding ⟨.runOut, ()⟩ () := by
  have hbuild : Machine.build Player.lateEnd = .ok Player.lateEndMachine := rfl
  have hsummary : Player.machine.summary = Player.lateEndMachine.summary := rfl
  have hbehavior : ∀ id, Player.machine.behavior? id = Player.lateEndMachine.behavior? id := by rintro ⟨⟩ <;> rfl
  have hplain : Player.machine.Plain := by decide
  have hplain' : Player.lateEndMachine.Plain := by decide
  have htexts : ∀ button : Player.Button, toString button ≠ "CompositeStateCompleted" := by rintro ⟨⟩ <;> decide
  have hunmistakable : Player.machine.Unmistakable := fun _ _ _ _ button _ => htexts button
  have hunmistakable' : Player.lateEndMachine.Unmistakable := fun _ _ _ _ button _ => htexts button
  have hdetermined := Machine.determined_of_build Player.toString_injective Player.build_eq hbuild hsummary hplain hplain'
    hbehavior rfl
  exact ⟨Player.toString_injective, Player.build_eq, hbuild, hsummary, hplain, hplain', hbehavior, rfl, hunmistakable,
    hunmistakable', (hdetermined.2 hunmistakable hunmistakable').2 .sounding ⟨.runOut, ()⟩ ()⟩

/-! ### An event called like a completion -/

namespace Ballot

/-- A vote is open or closed. -/
inductive Phase where
  | open
  | closed
deriving DecidableEq

inductive Report where
  | cast
  | complete
deriving DecidableEq

instance : ToString Report where
  toString
    | .cast => "Cast"
    | .complete => "CompositeStateCompleted"

/-- A vote that is closed by what triggers its one transition. -/
def declarations (trigger : Trigger Report) : List (Declaration Phase Report Unit Unit) := [
  .initial .open none,
  .rule { source := .open, target := .closed, trigger := some trigger }]

def machine (trigger : Trigger Report) : Machine Phase Report Unit Unit :=
  (Draft.ofDeclarations (declarations trigger)).freeze

/-- **The summary does not tell an event that is called like a completion from a completion.** Of two votes that are the same but for this, and have the same summary, a report closes one and not the other. -/
theorem mistaken : Function.Injective (toString : Report → String) ∧
    Machine.build (declarations (.event .complete)) = .ok (machine (.event .complete)) ∧
    Machine.build (declarations .completion) = .ok (machine .completion) ∧
    (machine (.event .complete)).summary = (machine .completion).summary ∧
    (machine (.event .complete)).Plain ∧ (machine .completion).Plain ∧
    (∀ id, (machine (.event .complete)).behavior? id = (machine .completion).behavior? id) ∧
    (machine (.event .complete)).resolver = (machine .completion).resolver ∧
    ((machine (.event .complete)).process .open ⟨.complete, ()⟩ ()).result = .ok .closed ∧
    ((machine .completion).process .open ⟨.complete, ()⟩ ()).result = .ok .open := by
  have hkinds : Function.Injective (toString : Report → String) := by
    rintro ⟨⟩ ⟨⟩ heq <;> first | rfl | exact absurd heq (by decide)
  have hbehavior : ∀ id, (machine (.event .complete)).behavior? id = (machine .completion).behavior? id := by
    rintro ⟨⟩ <;> rfl
  exact ⟨hkinds, rfl, rfl, rfl, by decide, by decide, hbehavior, rfl, rfl, rfl⟩

end Ballot

end NestedMachine
