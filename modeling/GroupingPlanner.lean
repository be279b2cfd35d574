import GroupingPlanner.Document.Codec
import GroupingPlanner.Document.Reader
import GroupingPlanner.Document.Writer
import GroupingPlanner.Lowering.Plan
import GroupingPlanner.Plan.Text
import GroupingPlanner.Plan.GroupingValues
import GroupingPlanner.Proofs.Additions
import GroupingPlanner.Proofs.Below
import GroupingPlanner.Proofs.Bound
import GroupingPlanner.Proofs.BoundColumns
import GroupingPlanner.Proofs.CallTable
import GroupingPlanner.Proofs.Capture
import GroupingPlanner.Proofs.Children
import GroupingPlanner.Proofs.ColumnOrder
import GroupingPlanner.Proofs.ColumnRepetitions
import GroupingPlanner.Proofs.Copies
import GroupingPlanner.Proofs.DistinctNames
import GroupingPlanner.Proofs.DuplicateNames
import GroupingPlanner.Proofs.Duplication
import GroupingPlanner.Proofs.Entries
import GroupingPlanner.Proofs.Faithfulness
import GroupingPlanner.Proofs.Freshness
import GroupingPlanner.Proofs.GroupingFree
import GroupingPlanner.Proofs.GroupingValues
import GroupingPlanner.Proofs.Groups
import GroupingPlanner.Proofs.Indexes
import GroupingPlanner.Proofs.Inlining
import GroupingPlanner.Proofs.MaskSums
import GroupingPlanner.Proofs.Masks
import GroupingPlanner.Proofs.Meaning
import GroupingPlanner.Proofs.NamedEntries
import GroupingPlanner.Proofs.NewColumns
import GroupingPlanner.Proofs.Occurrences
import GroupingPlanner.Proofs.Outcome
import GroupingPlanner.Proofs.PlanFrame
import GroupingPlanner.Proofs.PlanRuns
import GroupingPlanner.Proofs.Preservation
import GroupingPlanner.Proofs.ProjectionBelow
import GroupingPlanner.Proofs.Regrouping
import GroupingPlanner.Proofs.Registries
import GroupingPlanner.Proofs.Relowering
import GroupingPlanner.Proofs.Renaming
import GroupingPlanner.Proofs.Rosters
import GroupingPlanner.Proofs.Runs
import GroupingPlanner.Proofs.Schemas
import GroupingPlanner.Proofs.Scope
import GroupingPlanner.Proofs.Scoping
import GroupingPlanner.Proofs.SetsApart
import GroupingPlanner.Proofs.SharedCalls
import GroupingPlanner.Proofs.Simulation
import GroupingPlanner.Proofs.Stability
import GroupingPlanner.Proofs.StackColumns
import GroupingPlanner.Proofs.TakenIds
import GroupingPlanner.Proofs.TopDown
import GroupingPlanner.Proofs.Types
import GroupingPlanner.Proofs.Visits
import GroupingPlanner.Proofs.CallTable
