/-
The calls of a function that read its place in the launch.

A register is read by a call of `llvm.nvvm.read.ptx.sreg.` with the names of the
register and the dimension.  Calls that exchange values between the threads of a
warp are collected too.
-/
import KernelCoarsening.Data.Text
import KernelCoarsening.Grid.Coordinate
import KernelCoarsening.Ir.Func

namespace KernelCoarsening

/-- The names of all functions that read a register start so. -/
def Register.accessorLead : String := "llvm.nvvm.read.ptx.sreg."

/-- The name of the function that reads a register along a dimension. -/
def Register.accessor (r : Register) (d : Dimension) : String :=
  accessorLead ++ r.text ++ "." ++ d.text

/-- The register and the dimension that a function of a name reads. -/
def Register.ofAccessor? (callee : String) : Option (Register × Dimension) := do
  let (register, dim) ← Text.splitOnce? '.' (← Text.after? accessorLead callee)
  return (← ofText? register, ← Dimension.ofText? dim)

/-- A function of a name exchanges values between the threads of a warp. -/
def isShuffle (callee : String) : Bool :=
  match Text.after? "llvm.nvvm.shfl." callee with
  | none => false
  | some rest =>
    let rest := (Text.after? "sync." rest).getD rest
    ["down", "up", "bfly", "idx"].any fun kind =>
      (Text.after? kind rest).any fun tail => tail.isEmpty || Text.startsWith "." tail

/-- The register reads and the shuffles of a function, in the order of the layout. -/
structure GridReads where
  reads : List (InstId × Register × Dimension)
  shuffles : List InstId

namespace GridReads

/-- The reads and shuffles among instructions; reads along other dimensions are left out. -/
def ofOperations (selector : DimensionSelector) (ops : List (InstId × Operation)) : GridReads where
  reads := ops.filterMap fun (i, op) => do
    let (register, dim) ← Register.ofAccessor? (← op.callee?)
    if selector.includes dim then some (i, register, dim) else none
  shuffles := ops.filterMap fun (i, op) => do
    let callee ← op.callee?
    if (Register.ofAccessor? callee).isNone && isShuffle callee then some i else none

/-- The reads of a register along a dimension. -/
def along (g : GridReads) (r : Register) (d : Dimension) : List InstId :=
  (g.reads.filter (·.2 == (r, d))).map (·.1)

/-- The reads of the identity that a level merges. -/
def identities (g : GridReads) (level : Level) (d : Dimension) : List InstId :=
  g.along level.identity d

/-- The reads of the extent that a level shrinks. -/
def extents (g : GridReads) (level : Level) (d : Dimension) : List InstId :=
  g.along level.extent d

/-- The number of reads of a register along all dimensions. -/
def count (g : GridReads) (r : Register) : Nat := g.reads.countP (·.2.1 == r)

/-- All reads. -/
def all (g : GridReads) : List InstId := g.reads.map (·.1)

def isEmpty (g : GridReads) : Bool := g.reads.isEmpty && g.shuffles.isEmpty

end GridReads

/-- The register reads and shuffles of a function. -/
def Func.gridReads (f : Func) (selector : DimensionSelector) : Except Fault GridReads :=
  GridReads.ofOperations selector <$> f.operations

end KernelCoarsening
