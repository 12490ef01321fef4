import NestedMachine.Definition.Build
import NestedMachine.Session
import NestedMachine.Script.Effect
import NestedMachine.Script.Choice
import NestedMachine.Json.Codec.History
import NestedMachine.Json.Codec.Summary
import NestedMachine.Proofs.Definition.Declared
import NestedMachine.Proofs.Definition.Search
import NestedMachine.Proofs.Machine.Coherence
import NestedMachine.Proofs.Hierarchy.Rooted
import NestedMachine.Proofs.Definition.Nesting
import NestedMachine.Proofs.Hierarchy.Ways
import NestedMachine.Proofs.Hierarchy.Approach
import NestedMachine.Proofs.Definition.Kinship
import NestedMachine.Proofs.Machine.Cascade
import NestedMachine.Proofs.Run.Crossing
import NestedMachine.Proofs.Run.Configuration
import NestedMachine.Proofs.Run.Course
import NestedMachine.Proofs.Definition.Settling
import NestedMachine.Proofs.Definition.Report
import NestedMachine.Proofs.Definition.Attached
import NestedMachine.Proofs.Definition.Admission
import NestedMachine.Proofs.Machine.Depiction
import NestedMachine.Proofs.Definition.Shape
import NestedMachine.Proofs.Definition.Rearrangement
import NestedMachine.Proofs.Run.Failure
import NestedMachine.Proofs.Run.Attention
import NestedMachine.Proofs.Run.Turn
import NestedMachine.Proofs.Run.Bound
import NestedMachine.Proofs.Run.Chronicle
import NestedMachine.Proofs.Machine.Renumbering
import NestedMachine.Proofs.Run.Matching
import NestedMachine.Proofs.Machine.Defaults
import NestedMachine.Proofs.Run.Attribution
import NestedMachine.Proofs.Run.Stability
import NestedMachine.Proofs.Run.Offering
import NestedMachine.Proofs.Machine.Rebuilding
import NestedMachine.Proofs.Machine.Determination
import NestedMachine.Proofs.Run.Absorption
import NestedMachine.Proofs.Run.Ambiguity
import NestedMachine.Proofs.Machine.Numbering
import NestedMachine.Proofs.Run.Itinerary
import NestedMachine.Proofs.Run.Bubbling
import NestedMachine.Proofs.Run.Selection
import NestedMachine.Proofs.Transition.Indexing
import NestedMachine.Proofs.Definition.Expansion
import NestedMachine.Proofs.Run.Precedence
import NestedMachine.Proofs.Definition.Refusal
