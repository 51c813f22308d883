/-
The choice of a variant when a kernel is launched.

A configuration names a kernel and a way to coarsen it, in five fields with commas
between them: kernel, dimension, level, factor, stride.  A registry knows the
symbols of kernels by their base names.  If the configuration names the launched
kernel, the variant is registered, and the launch can be divided, the variant is
launched on the smaller launch; otherwise the launch stays as it is.
-/
import KernelCoarsening.Data.Assoc
import KernelCoarsening.Data.Text
import KernelCoarsening.Ir.Kernels
import KernelCoarsening.Launch.Geometry
import KernelCoarsening.Variant.Catalog

namespace KernelCoarsening

/-- Why a kernel is launched as it is. -/
inductive DispatchError where
  | unset
  | fieldCount (found : Nat)
  | emptyKernel
  | unknownDimension (text : String)
  | unknownLevel (text : String)
  | invalidNumber (field value : String)
  | invalidFactor (factor : Nat)
  | invalidStride
  | kernelMismatch (configured launched : String)
  | unknownVariant (name : String)
  | strideTooLarge (stride extent factor : Nat)
  | indivisible (extent factor : Nat)
  | scaledToZero (extent factor : Nat)
  deriving DecidableEq

def DispatchError.message : DispatchError → String
  | unset => "RPC_CONFIG is not set"
  | fieldCount found => s!"expected 5 comma-separated fields, found {found}"
  | emptyKernel => "kernel name is empty"
  | unknownDimension text => s!"unknown dimension `{text}`"
  | unknownLevel text => s!"unknown level `{text}`, expected block or thread"
  | invalidNumber field value => s!"`{value}` is not a valid {field}"
  | invalidFactor factor => s!"coarsening factor must be at least 2, got {factor}"
  | invalidStride => "coarsening stride must be at least 1"
  | kernelMismatch configured launched => s!"configured for `{configured}`, launching `{launched}`"
  | unknownVariant name => s!"no registered variant `{name}`"
  | strideTooLarge stride extent factor =>
    s!"stride {stride} exceeds {extent} threads / factor {factor}"
  | indivisible extent factor => s!"extent {extent} is not a multiple of factor {factor}"
  | scaledToZero extent factor => s!"extent {extent} shrinks to zero under factor {factor}"

/-- Which kernel is to be launched coarsened, by base name, and how. -/
structure DispatchConfig where
  kernel : String
  params : CoarseningParams
  deriving DecidableEq

namespace DispatchConfig

/-- A numeric field. -/
def number (field value : String) : Except DispatchError Nat :=
  match Text.word? value with
  | some n => .ok n
  | none => .error (.invalidNumber field value)

/-- Reads a configuration; blanks around the fields do not matter. -/
def parse (text : String) : Except DispatchError DispatchConfig :=
  match (Text.split ',' text).map Text.trim with
  | [kernel, dim, level, factor, stride] => do
    if kernel.isEmpty then
      throw .emptyKernel
    let some dim := Dimension.ofText? dim | throw (.unknownDimension dim)
    let some level := Level.ofText? level | throw (.unknownLevel level)
    let factor ← number "factor" factor
    let stride ← number "stride" stride
    if factor < 2 then
      throw (.invalidFactor factor)
    if stride = 0 then
      throw .invalidStride
    return { kernel, params := { level, dim, factor, stride } }
  | fields => .error (.fieldCount fields.length)

/-- Reads a configuration that may be missing. -/
def parse? : Option String → Except DispatchError DispatchConfig
  | some text => parse text
  | none => .error .unset

/-- The text of a configuration. -/
def text (c : DispatchConfig) : String :=
  c.kernel ++ "," ++ c.params.dim.text ++ "," ++ c.params.level.text ++ ","
    ++ toString c.params.factor ++ "," ++ toString c.params.stride

/-- The base name of the variant that is to be launched. -/
def variantName (c : DispatchConfig) : String := c.kernel ++ c.params.suffix

end DispatchConfig

/-- The symbols of kernels by base name. -/
structure KernelRegistry where
  kernels : Assoc String String

namespace KernelRegistry

def empty : KernelRegistry := ⟨[]⟩

/-- The symbol of a base name. -/
def lookup? (r : KernelRegistry) (base : String) : Option String := r.kernels.get? base

/-- Enters a symbol under its base name, in place of the one that stood there. -/
def register (r : KernelRegistry) (symbol : String) : KernelRegistry :=
  ⟨r.kernels.insert (baseName symbol) symbol⟩

/-- Enters all kernels of the program with a number, and counts them. -/
def registerProgram (r : KernelRegistry) (cache : AnnotationCache) (id : Nat) (p : Program) :
    KernelRegistry × AnnotationCache × Nat :=
  let (kernels, cache) := cache.kernels id p p.functions
  ((kernels.map (·.name)).foldl register r, cache, kernels.length)

/-- The launch of the variant that a configuration asks for. -/
def resolve (r : KernelRegistry) (c : DispatchConfig) (l : Launch) :
    Except DispatchError Launch := do
  let launched := baseName l.kernel
  if launched ≠ c.kernel then
    throw (.kernelMismatch c.kernel launched)
  let some symbol := r.lookup? c.variantName | throw (.unknownVariant c.variantName)
  let { level, dim, factor, stride } := c.params
  let extent := (l.extentOf level).get dim
  if level = .thread ∧ extent / factor < stride then
    throw (.strideTooLarge stride extent factor)
  if extent / factor = 0 then
    throw (.scaledToZero extent factor)
  if extent % factor ≠ 0 then
    throw (.indivisible extent factor)
  return { l.withExtent level ((l.extentOf level).set dim (extent / factor)) with kernel := symbol }

/-- What is launched: the variant if it can be, and otherwise the kernel as it is. -/
def dispatch (r : KernelRegistry) (config : Option String) (l : Launch) : Launch :=
  match DispatchConfig.parse? config with
  | .error _ => l
  | .ok c =>
    match r.resolve c l with
    | .ok coarsened => coarsened
    | .error _ => l

end KernelRegistry

end KernelCoarsening
