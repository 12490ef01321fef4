import NestedMachine.Proofs.Machine.Depiction
import NestedMachine.Proofs.Run.Settings
import NestedMachine.Proofs.Run.Turn
import Mathlib.Algebra.Group.Nat.Defs

/-!
# The limit of an event

The limit is compared with a count of firings, and with nothing else. So two machines that differ only in their limits take the same turns for as long as the lower limit allows (`Takes.raise`), and the lower limit does no more than cut a run off (`limit_truncates`). And the count of a turn is the number of firings behind it (`Takes.counted`), so the limit is reached by just as many firings as it allows, whatever could fire next (`limit_of_build`).
-/

namespace NestedMachine.Machine

open Activity

variable {ι κ ν γ : Type} {m m' : Machine ι κ ν γ} {turn turn' : Turn ι κ ν γ} {ending : Outcome ι κ ν γ ι}
variable {limit : Nat}

/-! ### Another limit -/

def withLimit (m : Machine ι κ ν γ) (limit : Nat) : Machine ι κ ν γ := { m with limit }

variable [DecidableEq κ]

theorem step_withLimit (m : Machine ι κ ν γ) (limit count : Nat) (key : Key) (signal : Option (Signal ι κ ν)) :
    (m.withLimit limit).step count key signal = m.step count key signal := by
  have hoffer : (m.withLimit limit).offer = m.offer := m.offer_withSettings limit m.resolver
  have hfire : (m.withLimit limit).fire = m.fire := m.fire_withSettings limit m.resolver
  simp only [step, hoffer, hfire]
  rfl

theorem Next.raise (hnext : m.Next turn turn') (hle : m.limit ≤ limit) : (m.withLimit limit).Next turn turn' := by
  obtain ⟨hcount, hstep⟩ := hnext
  exact .intro (Nat.lt_of_lt_of_le hcount hle) ((congrFun (m.step_withLimit limit _ _ _) _).trans hstep)

theorem Ends.raise (hends : m.Ends turn ending) (hle : m.limit ≤ limit)
    (hresult : ∀ limit id, ending.result ≠ .error (.limitReached limit id)) : (m.withLimit limit).Ends turn ending := by
  cases hends with
  | limit _ _ => exact absurd rfl (hresult _ _)
  | rests hcount hstep hstate =>
    exact .rests (Nat.lt_of_lt_of_le hcount hle) ((congrFun (m.step_withLimit limit _ _ _) _).trans hstep) hstate
  | fails hcount hstep =>
    exact .fails (Nat.lt_of_lt_of_le hcount hle) ((congrFun (m.step_withLimit limit _ _ _) _).trans hstep)

variable [DecidableEq ι] {current : ι} {event : Event κ ν} {context : γ}

theorem Takes.raise (hturn : m.Takes current event context turn) (hle : m.limit ≤ limit) :
    (m.withLimit limit).Takes current event context turn := by
  induction hturn with
  | first hkey => exact .first hkey
  | next _ hnext ih => exact ih.next (hnext.raise hle)

/-- **A limit only cuts runs off.** Of two machines that differ in nothing but their limits, the one with the higher limit does what the other one does: all of it, if the other does not reach its limit, and that and perhaps more, if the other does. -/
theorem limit_truncates (hsame : m' = m.withLimit m'.limit) (hle : m.limit ≤ m'.limit) (current : ι)
    (event : Event κ ν) (context : γ) :
    ((∀ limit id, (m.process current event context).result ≠ .error (.limitReached limit id)) →
        m'.process current event context = m.process current event context) ∧
      ∀ limit id, (m.process current event context).result = .error (.limitReached limit id) →
        (m.process current event context).trace <+: (m'.process current event context).trace ∧
          (m.process current event context).calls <+: (m'.process current event context).calls := by
  obtain ⟨limit', rfl⟩ : ∃ limit', m' = m.withLimit limit' := ⟨_, hsame⟩
  replace hle : m.limit ≤ limit' := hle
  by_cases hcurrent : current ∈ m.ids
  · obtain ⟨last, hlast, hends⟩ := exists_last hcurrent event context
    have hraised := hlast.raise hle
    constructor
    · intro hresult
      rw [hraised.process_eq]
      exact outcome_eq_of_ends (hends.raise hle hresult)
    · intro limit id hresult
      rcases hends.of_error hresult with ⟨_, htrace, _⟩ | ⟨_, _, hother⟩
      · -- The machine with the higher limit comes to this turn as well, and goes on from there.
        have hbegins : (m.process current event context).trace <+:
            ((m.withLimit limit').process current event context).trace := by
          rw [htrace, hraised.process_eq]
          exact List.prefix_append _ _
        exact ⟨hbegins, hbegins.filterMap _⟩
      · exact absurd rfl (hother limit id)
  · have hkey : m.key? current = none := if_neg hcurrent
    have hkey' : (m.withLimit limit').key? current = none := hkey
    have hnothing : (m.withLimit limit').process current event context = m.process current event context := by
      rw [process, process, hkey, hkey']
    exact ⟨fun _ => hnothing, fun _ _ _ => hnothing ▸ ⟨List.prefix_rfl, List.prefix_rfl⟩⟩

theorem player_limit_truncates :
    Player.machine = (Player.machine.withLimit 3).withLimit Player.machine.limit ∧ 3 ≤ Player.machine.limit ∧
    (Player.machine.withLimit 3).process .sounding ⟨.runOut, ()⟩ () = Player.machine.process .sounding ⟨.runOut, ()⟩ () ∧
    Player.machine = (Player.machine.withLimit 2).withLimit Player.machine.limit ∧ 2 ≤ Player.machine.limit ∧
    ((Player.machine.withLimit 2).process .sounding ⟨.runOut, ()⟩ ()).result = .error (.limitReached 2 .stopped) ∧
    ((Player.machine.withLimit 2).process .sounding ⟨.runOut, ()⟩ ()).calls <+:
      (Player.machine.process .sounding ⟨.runOut, ()⟩ ()).calls := by
  have hthree : 3 ≤ Player.machine.limit := by decide
  have htwo : 2 ≤ Player.machine.limit := by decide
  have hended : ((Player.machine.withLimit 3).process .sounding ⟨.runOut, ()⟩ ()).result = .ok .stopped := rfl
  have hcut : ((Player.machine.withLimit 2).process .sounding ⟨.runOut, ()⟩ ()).result =
      .error (.limitReached 2 .stopped) := rfl
  refine ⟨rfl, hthree, ?_, rfl, htwo, hcut, ?_⟩
  · have hsame := (limit_truncates (m := Player.machine.withLimit 3) rfl hthree .sounding ⟨.runOut, ()⟩ ()).1
    exact (hsame fun _ _ herror => by rw [hended] at herror; cases herror).symm
  · exact ((limit_truncates (m := Player.machine.withLimit 2) rfl htwo .sounding ⟨.runOut, ()⟩ ()).2 2 .stopped hcut).2

/-! ### The count -/

/-- The count of a turn is the number of firings behind it. It rests where the last of them has come to rest, and that firing is the last thing that has been done. -/
structure Counted (m : Machine ι κ ν γ) (current : ι) (turn : Turn ι κ ν γ) : Prop where
  count_eq : turn.count = (firings turn.past).length
  count_le : turn.count ≤ m.limit
  rests : m.id? turn.key = some (restsIn current turn.past)
  past_eq : turn.past = [] ∨ ∃ past firing, turn.past = past ++ [.fired firing]

theorem Takes.counted (hturn : m.Takes current event context turn) : m.Counted current turn := by
  induction hturn with
  | first hkey => exact ⟨rfl, Nat.zero_le _, id?_eq_of_key? hkey, .inl rfl⟩
  | @next turn turn' _ hnext ih =>
    obtain ⟨t, firing, past, hpast, _, hfirings, hfires⟩ := hnext.exists_firing
    have hall : firings turn'.past = firings turn.past ++ [firing] := by
      rw [hpast, firings_concat, hfirings]
      rfl
    refine ⟨?_, ?_, ?_, .inr ⟨past, firing, hpast⟩⟩
    · rw [hnext.count_eq, hall, List.length_append, ih.count_eq]
      rfl
    · rw [hnext.count_eq]
      exact hnext.count_lt
    · rw [hfires.settled, restsIn, hall]
      simp

omit [DecidableEq ι] in
theorem Counted.firings_lt (hcounted : m.Counted current turn) (hends : m.Ends turn ending)
    (hresult : ∀ limit id, ending.result ≠ .error (.limitReached limit id)) : ending.firings.length < m.limit := by
  have hcount := hcounted.count_eq
  cases hcase : ending.result with
  | ok id =>
    obtain ⟨_, hlt, _, hfirings⟩ := hends.of_ok hcase
    rw [hfirings]
    omega
  | error error =>
    rcases hends.of_error hcase with ⟨_, _, id, _, rfl⟩ | ⟨hlt, hfirings, _⟩
    · exact absurd hcase (hresult _ _)
    · rw [hfirings]
      omega

omit [DecidableEq ι] in
theorem Counted.of_limitReached (hcounted : m.Counted current turn) (hends : m.Ends turn ending)
    (hlimit : 0 < m.limit) {id : ι} (hresult : ending.result = .error (.limitReached limit id)) :
    ending.firings.length = m.limit ∧ limit = m.limit ∧
      ∃ past firing, ending.trace = past ++ [.fired firing] ∧ firing.settled = id := by
  have hcount := hcounted.count_eq
  have hle := hcounted.count_le
  rcases hends.of_error hresult with ⟨hge, htrace, id', hid, heq⟩ | ⟨_, _, hother⟩
  · obtain ⟨rfl, rfl⟩ : limit = m.limit ∧ id = id' := by simpa using heq
    have hlength : (firings turn.past).length = m.limit := by omega
    refine ⟨by rw [Outcome.firings, htrace]; exact hlength, rfl, ?_⟩
    rcases hcounted.past_eq with hnil | ⟨past, firing, hpast⟩
    · rw [hnil] at hlength
      exact absurd hlength (Nat.ne_of_lt hlimit)
    · refine ⟨past, firing, htrace.trans hpast, ?_⟩
      have hrests := hcounted.rests.symm.trans hid
      rw [hpast, restsIn, firings_concat] at hrests
      simpa [firing?] using hrests
  · exact absurd rfl (hother limit id)

/-! ### What every run keeps to -/

/-- How a run keeps to the limit of its machine. -/
structure KeepsLimit (m : Machine ι κ ν γ) (current : ι) (event : Event κ ν) (context : γ) : Prop where
  /-- The loop comes to an end, which is that of the run. -/
  exists_last : ∃ last, m.Takes current event context last ∧ m.Ends last (m.process current event context)
  /-- It could not go on for ever. -/
  acc_next : ∀ turn, m.Takes current event context turn → Acc (Function.swap m.Next) turn
  /-- The count is that of the firings, and never exceeds the limit. So it fits into 64 bits if the limit does. -/
  count_le : ∀ turn, m.Takes current event context turn →
    turn.count = (firings turn.past).length ∧ turn.count ≤ m.limit ∧ (m.limit < 2 ^ 64 → turn.count < 2 ^ 64)
  firings_le : (m.process current event context).firings.length ≤ m.limit
  /-- The limit is reached by firing as many transitions as it allows, and in no other way. -/
  limitReached_iff : (∃ limit id, (m.process current event context).result = .error (.limitReached limit id)) ↔
    (m.process current event context).firings.length = m.limit
  /-- Then the error names the state in which the last of them has come to rest, and nothing is done after that firing. -/
  of_limitReached : ∀ limit id, (m.process current event context).result = .error (.limitReached limit id) →
    limit = m.limit ∧ ∃ past firing, (m.process current event context).trace = past ++ [.fired firing] ∧
      firing.settled = id
  firings_le_of_ok : ∀ id, (m.process current event context).result = .ok id →
    (m.process current event context).firings.length ≤ m.limit - 1
  firings_le_of_failed : ∀ role place fault,
    (m.process current event context).result = .error (.failed role place fault) →
      (m.process current event context).firings.length ≤ m.limit - 1

/-- **The limit is exact.** In a machine that a definition gives, an event fires no more transitions than the limit allows, and the run fails at the limit if and only if it has fired as many, whether or not another one could fire. Nothing is done after the last of them. -/
theorem limit_of_build {declarations : List (Declaration ι κ ν γ)} (hbuild : Machine.build declarations = .ok m)
    (hcurrent : current ∈ m.ids) (event : Event κ ν) (context : γ) :
    0 < m.limit ∧ m.KeepsLimit current event context := by
  have hlimit := limit_pos_of_build hbuild
  obtain ⟨last, hlast, hends⟩ := exists_last hcurrent event context
  have hcounted := hlast.counted
  have hbelow : (∀ limit id, (m.process current event context).result ≠ .error (.limitReached limit id)) →
      (m.process current event context).firings.length ≤ m.limit - 1 :=
    fun hresult => Nat.le_sub_one_of_lt (hcounted.firings_lt hends hresult)
  refine ⟨hlimit, ⟨last, hlast, hends⟩, fun turn _ => (wellFounded_next m).apply turn, fun turn hturn => ?_, ?_, ?_, ?_,
    fun id hok => ?_, fun role place fault hfailed => ?_⟩
  · have hturn := hturn.counted
    exact ⟨hturn.count_eq, hturn.count_le, Nat.lt_of_le_of_lt hturn.count_le⟩
  · by_cases hresult : ∃ limit id, (m.process current event context).result = .error (.limitReached limit id)
    · obtain ⟨limit, id, hresult⟩ := hresult
      exact Nat.le_of_eq (hcounted.of_limitReached hends hlimit hresult).1
    · have hle := hbelow fun limit id heq => hresult ⟨limit, id, heq⟩
      omega
  · constructor
    · intro hresult
      obtain ⟨limit, id, hresult⟩ := hresult
      exact (hcounted.of_limitReached hends hlimit hresult).1
    · intro hlength
      by_contra hresult
      have hlt := hcounted.firings_lt hends fun limit id heq => hresult ⟨limit, id, heq⟩
      omega
  · intro limit id hresult
    exact (hcounted.of_limitReached hends hlimit hresult).2
  · exact hbelow fun limit id heq => by rw [hok] at heq; cases heq
  · exact hbelow fun limit id heq => by rw [hfailed] at heq; cases heq

/-- A carousel that is set off goes round and round. -/
def carousel : List (Declaration Nat Unit Unit Unit) := [
  .initial 0 none,
  .rule { source := 0, target := 1, trigger := some (.event ()) },
  .rule { source := 1, target := 2 },
  .rule { source := 2, target := 1 },
  .limit 4]

theorem carousel_limit : ∃ m, Machine.build carousel = .ok m ∧ 0 ∈ m.ids ∧
    (m.process 0 ⟨(), ()⟩ ()).result = .error (.limitReached 4 2) ∧
    (m.process 0 ⟨(), ()⟩ ()).firings.length = 4 ∧ m.KeepsLimit 0 ⟨(), ()⟩ () := by
  have hbuild : Machine.build carousel = .ok (Draft.ofDeclarations carousel).freeze := rfl
  have hknown : 0 ∈ (Draft.ofDeclarations carousel).freeze.ids := by decide
  exact ⟨_, hbuild, hknown, rfl, rfl, (limit_of_build hbuild hknown ⟨(), ()⟩ ()).2⟩

end NestedMachine.Machine
