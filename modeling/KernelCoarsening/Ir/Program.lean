/-
Programs: functions, global variables and the list of annotations that marks
kernels.
-/
import KernelCoarsening.Ir.Func

namespace KernelCoarsening

/-- A global variable: an array of elements of one type in one memory. -/
structure Global where
  name : String
  ty : Ty
  length : Nat
  space : AddressSpace
  deriving DecidableEq

/-- A property of a symbol: a key with a value. -/
structure Annotation where
  symbol : String
  key : String
  value : Int64
  deriving DecidableEq

/-- A unit of compilation, for the device or for the host. -/
structure Program where
  name : String
  target : String
  functions : List Func
  globals : List Global
  annotations : List Annotation
  deriving DecidableEq

namespace Program

/-- Code for the device has a target that starts with `nvptx`. -/
def isDevice (p : Program) : Bool := "nvptx".toList.isPrefixOf p.target.toList

/-- The first function of a name. -/
def function? (p : Program) (name : String) : Option Func :=
  p.functions.find? (·.name == name)

/-- The global that a handle names. -/
def global? (p : Program) (g : GlobalId) : Option Global := p.globals[g.index]?

/-- The globals in shared memory, in order. -/
def sharedGlobals (p : Program) : List GlobalId :=
  p.globals.zipIdx.filterMap fun (g, n) => if g.space = .shared then some ⟨n⟩ else none

/-- Adds an annotation behind all others. -/
def annotate (p : Program) (symbol key : String) (value : Int64) : Program :=
  { p with annotations := p.annotations ++ [{ symbol, key, value }] }

end Program

end KernelCoarsening
