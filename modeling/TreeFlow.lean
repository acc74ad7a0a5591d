import TreeFlow.Compile
import TreeFlow.Flow.Graph
import TreeFlow.Main
import TreeFlow.Tree.Dump
import TreeFlow.Proofs.Run
import TreeFlow.Proofs.Step
import TreeFlow.Proofs.Assembly
import TreeFlow.Proofs.Blame
import TreeFlow.Proofs.Code
import TreeFlow.Proofs.Layout
import TreeFlow.Proofs.Linking
import TreeFlow.Proofs.Structure
import TreeFlow.Proofs.Bindings
import TreeFlow.Proofs.Control
import TreeFlow.Proofs.Entry
import TreeFlow.Proofs.Preservation
import TreeFlow.Proofs.Paths
import TreeFlow.Proofs.Operands
import TreeFlow.Proofs.Filling
import TreeFlow.Proofs.SingleAssignment
import TreeFlow.Proofs.Typing
import TreeFlow.Proofs.Heads
import TreeFlow.Proofs.RoundTrip
import TreeFlow.Proofs.Positional
import TreeFlow.Proofs.Flattening
import TreeFlow.Proofs.Bounds
import TreeFlow.Proofs.Renumbering
import TreeFlow.Proofs.Modes
import TreeFlow.Proofs.Skeleton
import TreeFlow.Proofs.Tracing
import TreeFlow.Proofs.Drawing
import TreeFlow.Proofs.Staleness
import TreeFlow.Proofs.Acceptance
import TreeFlow.Proofs.Conformance
import TreeFlow.Proofs.Rereading
import TreeFlow.Proofs.Drafting
import TreeFlow.Proofs.Loops
import TreeFlow.Proofs.Coupling
import TreeFlow.Proofs.Formats
import TreeFlow.Proofs.Shifting
import TreeFlow.Proofs.Isolation
import TreeFlow.Proofs.Visits
import TreeFlow.Proofs.Joins
import TreeFlow.Proofs.Cycles
import TreeFlow.Proofs.History
import TreeFlow.Proofs.Atomicity
import TreeFlow.Proofs.Promotion
import TreeFlow.Proofs.Registry
import TreeFlow.Proofs.Foresight
import TreeFlow.Proofs.Agreement
import TreeFlow.Proofs.Rewriting
import TreeFlow.Proofs.DeadCode
import TreeFlow.Proofs.Nesting
import TreeFlow.Proofs.Constants
import TreeFlow.Proofs.Trails
import TreeFlow.Proofs.Resolution
import TreeFlow.Proofs.Reachability
import TreeFlow.Proofs.Linearisation
import TreeFlow.Proofs.Ownership
import TreeFlow.Proofs.Levels
import TreeFlow.Proofs.Appending
import TreeFlow.Proofs.Increments
import TreeFlow.Proofs.Locations
import TreeFlow.Proofs.Sessions
