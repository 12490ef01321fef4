import NestedMachine.Run.Process

/-!
# What the settings have no part in

The limit is read by the loop alone, and the resolver where a transition is chosen. So a machine with other settings offers signals and fires transitions in the same way.
-/

namespace NestedMachine.Machine

variable {ι κ ν γ : Type}

theorem defaults_congr {m m' : Machine ι κ ν γ} (htable : m'.table = m.table) (hhierarchy : m'.hierarchy = m.hierarchy) :
    m'.defaults = m.defaults := by
  have hdescend : m'.descend = m.descend := by
    funext hops key
    induction hops generalizing key with
    | zero => rfl
    | succ hops ih => simp only [descend, ih, htable]
  funext key
  rw [defaults, defaults, hdescend, hhierarchy]

def withSettings (m : Machine ι κ ν γ) (limit : Nat) (resolver : Resolver ι κ ν γ) : Machine ι κ ν γ :=
  { m with limit, resolver }

variable (m : Machine ι κ ν γ) (limit : Nat) (resolver : Resolver ι κ ν γ)

theorem offer_withSettings : (m.withSettings limit resolver).offer = m.offer := by
  funext signal keys
  induction keys with
  | nil => rfl
  | cons key rest ih =>
    rw [offer, offer, ih]
    rfl

theorem fire_withSettings : (m.withSettings limit resolver).fire = m.fire := by
  have hdefaults : (m.withSettings limit resolver).defaults = m.defaults := defaults_congr rfl rfl
  funext active t signal
  simp only [fire, enterDefaults, restingKey, hdefaults]
  rfl

end NestedMachine.Machine
