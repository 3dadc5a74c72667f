import MatrixEngine.Block.Basic
import MatrixEngine.Block.Compressed
import MatrixEngine.Block.Dense
import MatrixEngine.Block.Sparse
import MatrixEngine.Command.Arguments
import MatrixEngine.Command.Report
import MatrixEngine.Config
import MatrixEngine.Digest
import MatrixEngine.Main
import MatrixEngine.Memory.Budget
import MatrixEngine.Memory.Holdings
import MatrixEngine.Memory.Scratch
import MatrixEngine.Number.Basic
import MatrixEngine.Number.Decimal
import MatrixEngine.Physical.Operator
import MatrixEngine.Physical.Serial
import MatrixEngine.Physical.Session
import MatrixEngine.Physical.Value
import MatrixEngine.Plan.Descriptor
import MatrixEngine.Plan.Graph
import MatrixEngine.Plan.Lowering
import MatrixEngine.Plan.Placement
import MatrixEngine.Plan.Reorg
import MatrixEngine.Plan.Size
import MatrixEngine.Proofs.Block.Cells
import MatrixEngine.Proofs.Block.Compression
import MatrixEngine.Proofs.Block.Conversion
import MatrixEngine.Proofs.Block.CountingSort
import MatrixEngine.Proofs.Block.Dictionaries
import MatrixEngine.Proofs.Block.Documents
import MatrixEngine.Proofs.Block.Grid
import MatrixEngine.Proofs.Block.Lossless
import MatrixEngine.Proofs.Block.NonZeros
import MatrixEngine.Proofs.Block.Ownership
import MatrixEngine.Proofs.Block.RowCursor
import MatrixEngine.Proofs.Block.SparseCells
import MatrixEngine.Proofs.Block.SparseRows
import MatrixEngine.Proofs.Block.StoredCount
import MatrixEngine.Proofs.Block.Turning
import MatrixEngine.Proofs.EndToEnd
import MatrixEngine.Proofs.Memory.Accounts
import MatrixEngine.Proofs.Memory.Rings
import MatrixEngine.Proofs.Number.FloatText
import MatrixEngine.Proofs.Number.Rounding
import MatrixEngine.Proofs.Number.Shortest
import MatrixEngine.Proofs.Number.SignedZeros
import MatrixEngine.Proofs.Number.Sums
import MatrixEngine.Proofs.Physical.BindingOrder
import MatrixEngine.Proofs.Physical.Diagonals
import MatrixEngine.Proofs.Physical.KeyedSums
import MatrixEngine.Proofs.Physical.Manifests
import MatrixEngine.Proofs.Physical.Memo
import MatrixEngine.Proofs.Physical.ReadBack
import MatrixEngine.Proofs.Physical.Rebinding
import MatrixEngine.Proofs.Physical.Recursion
import MatrixEngine.Proofs.Physical.Reorganised
import MatrixEngine.Proofs.Plan.BreakEven
import MatrixEngine.Proofs.Plan.Built
import MatrixEngine.Proofs.Plan.Changes
import MatrixEngine.Proofs.Plan.Complete
import MatrixEngine.Proofs.Plan.Counted
import MatrixEngine.Proofs.Plan.Described
import MatrixEngine.Proofs.Plan.Edges
import MatrixEngine.Proofs.Plan.Forced
import MatrixEngine.Proofs.Plan.Kept
import MatrixEngine.Proofs.Plan.Lowered
import MatrixEngine.Proofs.Plan.Meaning
import MatrixEngine.Proofs.Plan.Placed
import MatrixEngine.Proofs.Plan.Queries
import MatrixEngine.Proofs.Plan.Reached
import MatrixEngine.Proofs.Plan.Refreshed
import MatrixEngine.Proofs.Plan.Sizes
import MatrixEngine.Proofs.Plan.Standing
import MatrixEngine.Proofs.Plan.UnknownShapes
import MatrixEngine.Proofs.Plan.Verdicts
import MatrixEngine.Proofs.Rowwise.Accumulators
import MatrixEngine.Proofs.Rowwise.ByWeight
import MatrixEngine.Proofs.Rowwise.Incremental
import MatrixEngine.Proofs.Rowwise.Outer
import MatrixEngine.Proofs.Rowwise.Outputs
import MatrixEngine.Proofs.Rowwise.Planned
import MatrixEngine.Proofs.Rowwise.Ranges
import MatrixEngine.Proofs.Rowwise.Refusals
import MatrixEngine.Proofs.Rowwise.Representations
import MatrixEngine.Proofs.Rowwise.Runs
import MatrixEngine.Proofs.Rowwise.ShownKernels
import MatrixEngine.Proofs.Rowwise.SideInputs
import MatrixEngine.Proofs.Rowwise.Slices
import MatrixEngine.Proofs.Rowwise.SparseWrites
import MatrixEngine.Proofs.Rowwise.Visits
import MatrixEngine.Proofs.Rowwise.Writes
import MatrixEngine.Proofs.Sequence
import MatrixEngine.Proofs.Text.Nesting
import MatrixEngine.Proofs.Text.ReadBack
import MatrixEngine.Proofs.Text.Records
import MatrixEngine.Proofs.Text.Written
import MatrixEngine.Rowwise.Fused
import MatrixEngine.Rowwise.Kernel
import MatrixEngine.Rowwise.Kernels.Probe
import MatrixEngine.Rowwise.Kernels.Standard
import MatrixEngine.Rowwise.Partition
import MatrixEngine.Rowwise.RowType
import MatrixEngine.Rowwise.SideInput
import MatrixEngine.Rowwise.Tasks
import MatrixEngine.Rowwise.Write
import MatrixEngine.Text.Json
import MatrixEngine.Text.Json.Canonical
import MatrixEngine.Text.Json.Reader
import MatrixEngine.Text.Numeral
import MatrixEngine.Text.Yaml
import MatrixEngine.Text.Yaml.Reader
