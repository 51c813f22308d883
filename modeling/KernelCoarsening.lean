import KernelCoarsening.Coarsening.Error
import KernelCoarsening.Coarsening.Extraction
import KernelCoarsening.Coarsening.GridScaling
import KernelCoarsening.Coarsening.Kernel
import KernelCoarsening.Coarsening.Replica
import KernelCoarsening.Coarsening.Replication
import KernelCoarsening.CommandLine.Dialogue
import KernelCoarsening.CommandLine.FileSystem
import KernelCoarsening.CommandLine.Session
import KernelCoarsening.Cost.Estimate
import KernelCoarsening.Cost.Table
import KernelCoarsening.Data.Assoc
import KernelCoarsening.Data.Text
import KernelCoarsening.Data.Unseen
import KernelCoarsening.Data.Word
import KernelCoarsening.Divergence.Analysis
import KernelCoarsening.Divergence.Region
import KernelCoarsening.Execution.Arithmetic
import KernelCoarsening.Execution.Memory
import KernelCoarsening.Execution.Thread
import KernelCoarsening.Flow.Dominance
import KernelCoarsening.Flow.Graph
import KernelCoarsening.Flow.Loops
import KernelCoarsening.Flow.Path
import KernelCoarsening.Flow.TripCount
import KernelCoarsening.Flow.WellFormed
import KernelCoarsening.Grid.Coordinate
import KernelCoarsening.Grid.Reads
import KernelCoarsening.Ir.Builder
import KernelCoarsening.Ir.Copy
import KernelCoarsening.Ir.Edit
import KernelCoarsening.Ir.Func
import KernelCoarsening.Ir.Kernels
import KernelCoarsening.Ir.Listing
import KernelCoarsening.Ir.Operation
import KernelCoarsening.Ir.Operator
import KernelCoarsening.Ir.Program
import KernelCoarsening.Ir.Type
import KernelCoarsening.Json.Basic
import KernelCoarsening.Json.Reader
import KernelCoarsening.Json.Writer
import KernelCoarsening.Launch.Dispatch
import KernelCoarsening.Launch.Geometry
import KernelCoarsening.Main
import KernelCoarsening.Pass.Run
import KernelCoarsening.Pass.Settings
import KernelCoarsening.ProgramFile.Decode
import KernelCoarsening.ProgramFile.Encode
import KernelCoarsening.ProgramFile.Tag
import KernelCoarsening.Proofs.Coarsening.Completion
import KernelCoarsening.Proofs.Coarsening.Consistency
import KernelCoarsening.Proofs.Coarsening.Cutting
import KernelCoarsening.Proofs.Coarsening.Extraction
import KernelCoarsening.Proofs.Coarsening.Growth
import KernelCoarsening.Proofs.Coarsening.Identities
import KernelCoarsening.Proofs.Coarsening.Isolation
import KernelCoarsening.Proofs.Coarsening.Lockstep
import KernelCoarsening.Proofs.Coarsening.Meaning
import KernelCoarsening.Proofs.Coarsening.Merging
import KernelCoarsening.Proofs.Coarsening.Placeholders
import KernelCoarsening.Proofs.Coarsening.Progress
import KernelCoarsening.Proofs.Coarsening.Repetition
import KernelCoarsening.Proofs.Coarsening.Scaling
import KernelCoarsening.Proofs.Coarsening.Scoping
import KernelCoarsening.Proofs.Cost.Estimate
import KernelCoarsening.Proofs.Data.Answers
import KernelCoarsening.Proofs.Divergence.Discovery
import KernelCoarsening.Proofs.Divergence.Nesting
import KernelCoarsening.Proofs.Divergence.Spread
import KernelCoarsening.Proofs.Divergence.Straight
import KernelCoarsening.Proofs.Divergence.Uniformity
import KernelCoarsening.Proofs.Execution.Footprint
import KernelCoarsening.Proofs.Execution.Simulation
import KernelCoarsening.Proofs.Execution.Steps
import KernelCoarsening.Proofs.Flow.DepthFirst
import KernelCoarsening.Proofs.Flow.Dominance
import KernelCoarsening.Proofs.Flow.Exactness
import KernelCoarsening.Proofs.Flow.FunctionGraph
import KernelCoarsening.Proofs.Flow.Joining
import KernelCoarsening.Proofs.Flow.LoopNesting
import KernelCoarsening.Proofs.Flow.Loops
import KernelCoarsening.Proofs.Flow.PostDominance
import KernelCoarsening.Proofs.Flow.Scope
import KernelCoarsening.Proofs.Flow.WellFormed
import KernelCoarsening.Proofs.Ir.Assembly
import KernelCoarsening.Proofs.Ir.EditSequences
import KernelCoarsening.Proofs.Ir.Editing
import KernelCoarsening.Proofs.Ir.Flawless
import KernelCoarsening.Proofs.Ir.Growth
import KernelCoarsening.Proofs.Ir.Insertion
import KernelCoarsening.Proofs.Ir.Outline
import KernelCoarsening.Proofs.Ir.Shape
import KernelCoarsening.Proofs.Ir.Wiring
import KernelCoarsening.Proofs.Launch.Coverage
import KernelCoarsening.Proofs.Launch.Registry
import KernelCoarsening.Proofs.Pass.Effect
import KernelCoarsening.Proofs.Pass.Symbols
import KernelCoarsening.Proofs.Variant.Naming
import KernelCoarsening.Variant.Catalog
import KernelCoarsening.Variant.Symbol
import KernelCoarsening.Proofs.Json.RoundTrip
import KernelCoarsening.Proofs.ProgramFile.RoundTrip
import KernelCoarsening.Proofs.Ir.Frame
import KernelCoarsening.Proofs.Pass.Caching
import KernelCoarsening.Proofs.Coarsening.FirstReplica
import KernelCoarsening.Proofs.Coarsening.Commands
import KernelCoarsening.Proofs.Coarsening.CloneLists
import KernelCoarsening.Proofs.Coarsening.Tiling
import KernelCoarsening.Proofs.Coarsening.Resolution
import KernelCoarsening.Proofs.Coarsening.LogicalView
import KernelCoarsening.Proofs.Coarsening.RegionOperands
import KernelCoarsening.Proofs.Flow.Reducibility
import KernelCoarsening.Proofs.Flow.Stages
import KernelCoarsening.Proofs.Flow.Matching
import KernelCoarsening.Proofs.Ir.Duplication
import KernelCoarsening.Proofs.Ir.Steering
import KernelCoarsening.Proofs.Ir.Ordering
import KernelCoarsening.Proofs.Coarsening.SingleEntry
import KernelCoarsening.Proofs.Coarsening.Splicing
import KernelCoarsening.Proofs.Coarsening.Rejoining
import KernelCoarsening.Proofs.Coarsening.Liveness
import KernelCoarsening.Proofs.Coarsening.RegionFlaws
import KernelCoarsening.Proofs.Divergence.Enclosure
import KernelCoarsening.Proofs.Divergence.WholeLoops
import KernelCoarsening.Proofs.Flow.Rerouting
import KernelCoarsening.Proofs.Coarsening.WellFormedness
import KernelCoarsening.Proofs.Coarsening.NormalForm
import KernelCoarsening.Proofs.Divergence.Accesses
import KernelCoarsening.Proofs.Divergence.LeastSet
import KernelCoarsening.Proofs.Ir.Isomorphism
import KernelCoarsening.Proofs.Coarsening.SecondRepetition
import KernelCoarsening.Proofs.Variant.PlainNames
import KernelCoarsening.Proofs.Launch.ConfigText
import KernelCoarsening.Proofs.Launch.Division
import KernelCoarsening.Proofs.Flow.LoopBodies
import KernelCoarsening.Proofs.Flow.RoundCount
import KernelCoarsening.Proofs.Flow.Counter
import KernelCoarsening.Proofs.Flow.Passage
import KernelCoarsening.Proofs.Flow.TripCount
import KernelCoarsening.Proofs.Variant.Catalog
import KernelCoarsening.Proofs.Pass.Redirection
import KernelCoarsening.Proofs.Ir.Listing
import KernelCoarsening.Proofs.Cost.Totals
import KernelCoarsening.Proofs.Cost.Duplication
import KernelCoarsening.Proofs.Flow.Settling
import KernelCoarsening.Proofs.Flow.Postorder
import KernelCoarsening.Proofs.Divergence.Addresses
import KernelCoarsening.Proofs.Divergence.Ending
import KernelCoarsening.Proofs.Flow.CheckedCount
import KernelCoarsening.Proofs.Flow.WordRounds
import KernelCoarsening.Proofs.Coarsening.Transparency
import KernelCoarsening.Proofs.Coarsening.BlockMemory
