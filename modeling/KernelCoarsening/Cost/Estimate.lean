/-
An estimate of what coarsening costs.

The cost of an instruction counts as often as the loops around it are known to run.
Coarsening adds the work of scaling extents, of recomputing identities, of deriving
the identities of the merged threads, and of repeating divergent work.  The
estimate is for information and decides nothing.
-/
import KernelCoarsening.Cost.Table
import KernelCoarsening.Divergence.Analysis
import KernelCoarsening.Flow.TripCount

namespace KernelCoarsening

/-- The costs of one kernel for one way to coarsen it. -/
structure CostReport where
  function : String
  level : Level
  dim : Dimension
  factor : Nat
  stride : Nat
  /-- The cost of the whole kernel, divergent instructions twice. -/
  total : Nat
  /-- The cost of the divergent instructions. -/
  divergent : Nat
  /-- The work that coarsening adds. -/
  duplication : Nat
  deriving DecidableEq

def CostReport.text (r : CostReport) : String :=
  r.function ++ ": " ++ r.level.text ++ "-level x" ++ toString r.factor ++ " stride "
    ++ toString r.stride ++ " along " ++ r.dim.text ++ ": total " ++ toString r.total
    ++ ", divergent " ++ toString r.divergent ++ ", duplication " ++ toString r.duplication

namespace Func

/-- How often a block runs: the product of the known trip counts of the loops around it. -/
def loopWeight (f : Func) (flow : Flow) (b : BlockId) : Except Fault Nat := do
  let around := (flow.loops.enclosing b).filterMap (flow.loops.loops[·]?)
  let counts ← around.mapM (f.tripCount? flow.graph)
  return counts.foldl (fun weight count => Cost.mul weight (max (count.getD 1) 1)) 1

/-- The cost of all executions of an instruction; one that is placed nowhere costs nothing. -/
def weightedCost (f : Func) (t : CostTable) (flow : Flow) (divergent : Bool) (i : InstId) :
    Except Fault Nat := do
  match f.blockOf i with
  | none => return 0
  | some b =>
    return Cost.mul (t.operationCost divergent (← f.operation i)) (← f.loopWeight flow b)

/-- The cost of all placed instructions, divergent ones twice. -/
def totalCost (f : Func) (t : CostTable) (flow : Flow) (d : Divergence) : Except Fault Nat := do
  let costs ← (← f.instructions).mapM fun i => do
    let cost ← f.weightedCost t flow (d.isDivergent i) i
    return if d.isDivergent i then Cost.mul cost 2 else cost
  return Cost.sum costs

/-- The cost of the divergent instructions. -/
def divergentCost (f : Func) (t : CostTable) (flow : Flow) (d : Divergence) : Except Fault Nat := do
  return Cost.sum (← d.instructions.mapM (f.weightedCost t flow true))

end Func

/-- The work that coarsening adds. -/
def CostTable.duplicationCost (t : CostTable) (grid : GridReads) (divergentCost : Nat)
    (level : Level) (dim : Dimension) (factor stride : Nat) : Nat :=
  let extra := factor - 1
  let divisor := some (Int64.ofNat stride)
  let extents := (grid.extents level dim).length
  let identities := (grid.identities level dim).length
  let perIdentity := (t.divCost divisor + t.other + t.modCost divisor + t.other) % limit64
  let scale := Cost.mul extents t.other
  let recompute := Cost.mul identities perIdentity
  let siblings := Cost.mul (Cost.mul identities extra) t.other
  let replicate := Cost.mul divergentCost extra
  Cost.add (Cost.add (Cost.add scale recompute) siblings) replicate

/-- The costs of a kernel for one way to coarsen it. -/
def Func.costReport (f : Func) (t : CostTable) (flow : Flow) (grid : GridReads) (d : Divergence)
    (factor stride : Nat) : Except Fault CostReport := do
  let total ← f.totalCost t flow d
  let divergent ← f.divergentCost t flow d
  return { function := f.name, level := d.level, dim := d.dim, factor, stride, total, divergent,
           duplication := t.duplicationCost grid divergent d.level d.dim factor stride }

end KernelCoarsening
