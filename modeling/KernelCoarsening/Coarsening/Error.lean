/-
How one kernel is to be coarsened, and why that may fail.
-/
import KernelCoarsening.Divergence.Region
import KernelCoarsening.Flow.WellFormed
import KernelCoarsening.Grid.Coordinate

namespace KernelCoarsening

/-- Why a kernel cannot be coarsened. -/
inductive CoarseningError where
  | region (cause : RegionError)
  | invalidFactor (factor : Nat)
  | invalidStride
  | noRegionPredecessor (function header : String)
  | noRegionExit (function exiting : String)
  | malformed (function : String) (flaw : Flaw)
  deriving DecidableEq

def CoarseningError.message : CoarseningError → String
  | region cause => cause.message
  | invalidFactor factor => s!"coarsening factor must be at least 2, got {factor}"
  | invalidStride => "coarsening stride must be at least 1"
  | noRegionPredecessor function header =>
    s!"region headed by `{header}` in `{function}` has no single entry predecessor"
  | noRegionExit function exiting =>
    s!"region ending at `{exiting}` in `{function}` has no single exit"
  | malformed function flaw =>
    "`" ++ function ++ "` is malformed after coarsening: " ++ flaw.message

/-- How one kernel is coarsened: `factor` threads or blocks that lie `stride` apart along a
dimension become one. -/
structure CoarseningParams where
  level : Level
  dim : Dimension
  factor : Nat
  stride : Nat
  deriving DecidableEq

/-- At least two must become one, and they must lie apart. -/
def CoarseningParams.error? (p : CoarseningParams) : Option CoarseningError :=
  if p.factor < 2 then some (.invalidFactor p.factor)
  else if p.stride = 0 then some .invalidStride
  else none

end KernelCoarsening
