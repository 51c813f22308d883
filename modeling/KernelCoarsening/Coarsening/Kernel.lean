/-
Coarsening of one kernel.

The regions of the divergent branches are brought into form, the divergence is
found anew, the reads of the place in the launch are scaled, and the divergent code
is repeated.  The result has to be well-formed.
-/
import KernelCoarsening.Coarsening.Extraction
import KernelCoarsening.Coarsening.GridScaling
import KernelCoarsening.Coarsening.Replication
import KernelCoarsening.Cost.Estimate

namespace KernelCoarsening

/-- A coarsened kernel, its costs if they were asked for, and what was repeated. -/
structure CoarsenedKernel where
  func : Func
  report : Option CostReport
  stats : ReplicationStats

/-- A function with what coarsening needs to know about it. -/
structure DivergentFunc where
  func : Func
  flow : Flow
  grid : GridReads
  divergence : Divergence

namespace Func

/-- Finds the divergence of a function. -/
def analyze (f : Func) (selector : DimensionSelector) (shared : List GlobalId) (level : Level)
    (dim : Dimension) : Except Fault (Except RegionError DivergentFunc) := do
  let flow ← f.flow
  let grid ← f.gridReads selector
  return (← f.divergence flow grid shared level dim).map fun divergence =>
    { func := f, flow, grid, divergence }

/-- Why a region in form cannot be repeated: its bounds, or the end of its exiting block. -/
def regionError? (f : Func) (flow : Flow) (region : Region) :
    Except Fault (Option RegionError) := do
  match ← region.boundsError? f flow with
  | some e => return some e
  | none =>
    match ← f.terminator region.exiting with
    | some term =>
      if let .jump _ ← f.operation term then
        return none
    | none => pure ()
    return some (.exitingNotUnconditional f.name (← f.label region.exiting))

/-- Brings the regions of a function into form and finds its divergence anew. -/
def normalize (f : Func) (shared : List GlobalId) (p : CoarseningParams) :
    Except Fault (Except RegionError DivergentFunc) := do
  match ← f.analyze (.only p.dim) shared p.level p.dim with
  | .error e => return .error e
  | .ok found =>
    match ← f.extractRegions found.divergence.regions with
    | (some e, _) => return .error e
    | (none, f, _) =>
      match ← f.analyze (.only p.dim) shared p.level p.dim with
      | .error e => return .error e
      | .ok found =>
        match ← firstM? (f.regionError? found.flow) found.divergence.outermostRegions with
        | some e => return .error e
        | none => return .ok found

/-- Coarsens a kernel.  The shared globals matter at block level only; costs are reported if
a table is given. -/
def coarsen (f : Func) (shared : List GlobalId) (p : CoarseningParams) (costs : Option CostTable) :
    Except Fault (Except CoarseningError CoarsenedKernel) := do
  if let some e := p.error? then
    return .error e
  match ← f.normalize shared p with
  | .error e => return .error (.region e)
  | .ok found =>
    let report ← costs.mapM fun table =>
      found.func.costReport table found.flow found.grid found.divergence p.factor p.stride
    match ← found.func.scaleGrid found.grid p with
    | .error e => return .error e
    | .ok (scaled, map) =>
      match ← (Replication.start found.divergence p.factor scaled map).replicateAll with
      | (some e, _) => return .error e
      | (none, s) =>
        let s ← s.resolveAll
        match ← s.func.firstFlaw? with
        | some flaw => return .error (.malformed s.func.name flaw)
        | none => return .ok { func := s.func, report, stats := s.stats }

end Func

end KernelCoarsening
