/-!
# Edges

The two ends of a transition, as messages name them.
-/

namespace NestedMachine

/-- The ends of a transition. A transition that leaves the root has no source state. -/
structure Edge (ι : Type) where
  source : Option ι
  target : ι
deriving DecidableEq

/-- The text of a state, or of the root where there is none. -/
def nameOrRoot {ι : Type} [ToString ι] : Option ι → String
  | some state => toString state
  | none => "<root>"

instance {ι : Type} [ToString ι] : ToString (Edge ι) where
  toString e := nameOrRoot e.source ++ " -> " ++ toString e.target

end NestedMachine
