/-
Variants of kernels, and the catalog of variants that are compiled in advance.
-/
import KernelCoarsening.Coarsening.Error
import KernelCoarsening.Variant.Symbol

namespace KernelCoarsening

namespace CoarseningParams

/-- The factor of the grid, which thread level leaves alone. -/
def blockFactor (v : CoarseningParams) : Nat :=
  match v.level with
  | .block => v.factor
  | .thread => 1

/-- The factor of the blocks, which block level leaves alone. -/
def threadFactor (v : CoarseningParams) : Nat :=
  match v.level with
  | .thread => v.factor
  | .block => 1

/-- The suffix of kernels that are coarsened so. -/
def suffix (v : CoarseningParams) : String :=
  variantSuffix v.dim v.blockFactor v.threadFactor v.stride

/-- The symbol of a kernel that is coarsened so. -/
def symbol (v : CoarseningParams) (kernel : String) : String := suffixSymbol kernel v.suffix

end CoarseningParams

/-- The ways to coarsen that are compiled in advance: all combinations. -/
structure VariantCatalog where
  factors : List Nat
  strides : List Nat
  levels : List Level
  dims : List Dimension
  deriving DecidableEq

namespace VariantCatalog

/-- The catalog that is used unless another is asked for. -/
def standard : VariantCatalog where
  factors := [2, 4, 8, 16]
  strides := [1, 2, 4, 8]
  levels := Level.all
  dims := Dimension.all

/-- The catalog of factors and strides, each once, over all levels and dimensions. -/
def ofLists (factors strides : List Nat) : Except CoarseningError VariantCatalog :=
  match factors.find? (· < 2) with
  | some factor => .error (.invalidFactor factor)
  | none =>
    if strides.contains 0 then .error .invalidStride
    else .ok { standard with factors := factors.eraseDups, strides := strides.eraseDups }

/-- The catalog with other levels. -/
def withLevels (c : VariantCatalog) (levels : List Level) : VariantCatalog :=
  { c with levels := levels.eraseDups }

/-- The catalog with other dimensions. -/
def withDims (c : VariantCatalog) (dims : List Dimension) : VariantCatalog :=
  { c with dims := dims.eraseDups }

/-- The number of variants. -/
def size (c : VariantCatalog) : Nat :=
  c.levels.length * c.dims.length * c.factors.length * c.strides.length

def isEmpty (c : VariantCatalog) : Bool := c.size == 0

/-- All variants: by level, then by dimension, factor and stride. -/
def variants (c : VariantCatalog) : List CoarseningParams :=
  c.levels.flatMap fun level => c.dims.flatMap fun dim => c.factors.flatMap fun factor =>
    c.strides.map fun stride => { level, dim, factor, stride }

end VariantCatalog

end KernelCoarsening
