/-
Which functions of a program are kernels.

A function with a body is a kernel if an annotation says so, or, where no
annotation mentions it, if its calling convention does.  Looking for annotations
takes the time of the whole list, so answers are kept in a cache.  The cache tells
programs apart by a number, and what it holds for a program has to be dropped when
the program's annotations change.
-/
import KernelCoarsening.Data.Assoc
import KernelCoarsening.Ir.Program

namespace KernelCoarsening

/-- The key of the annotation that marks kernels. -/
def kernelKey : String := "kernel"

/-- The properties of a symbol: keys with values. -/
abbrev Properties := List (String × Int64)

/-- The properties that annotations give a symbol, in order. -/
def Program.properties (p : Program) (symbol : String) : Properties :=
  (p.annotations.filter (·.symbol == symbol)).map fun a => (a.key, a.value)

/-- A function with these properties is a kernel. -/
def Func.isKernelWith (f : Func) (properties : Properties) : Bool :=
  !f.isDeclaration &&
    if properties.isEmpty then f.convention == .kernel else properties.contains (kernelKey, 1)

/-- A function is a kernel of a program. -/
def Program.isKernel (p : Program) (f : Func) : Bool := f.isKernelWith (p.properties f.name)

/-- The properties that were looked up, by program and symbol. -/
structure AnnotationCache where
  entries : Assoc (Nat × String) Properties

namespace AnnotationCache

def empty : AnnotationCache := ⟨[]⟩

/-- The properties of a symbol of the program with a number, looked up at most once. -/
def properties (c : AnnotationCache) (id : Nat) (p : Program) (symbol : String) :
    Properties × AnnotationCache :=
  match c.entries.get? (id, symbol) with
  | some found => (found, c)
  | none =>
    let found := p.properties symbol
    (found, ⟨c.entries.insert (id, symbol) found⟩)

/-- The values that a symbol has for a key. -/
def values (c : AnnotationCache) (id : Nat) (p : Program) (symbol key : String) :
    List Int64 × AnnotationCache :=
  let (found, c) := c.properties id p symbol
  ((found.filter (·.1 == key)).map (·.2), c)

/-- A function is a kernel of the program with a number.  A declaration is none, whatever the
annotations say. -/
def isKernel (c : AnnotationCache) (id : Nat) (p : Program) (f : Func) : Bool × AnnotationCache :=
  if f.isDeclaration then (false, c)
  else
    let (found, c) := c.properties id p f.name
    (f.isKernelWith found, c)

/-- The functions of a list that are kernels of the program with a number. -/
def kernels (c : AnnotationCache) (id : Nat) (p : Program) :
    List Func → List Func × AnnotationCache
  | [] => ([], c)
  | f :: rest =>
    let (isKernel, c) := c.isKernel id p f
    let (found, c) := c.kernels id p rest
    (if isKernel then f :: found else found, c)

/-- Drops what is held for the program with a number. -/
def evict (c : AnnotationCache) (id : Nat) : AnnotationCache :=
  ⟨c.entries.filter fun ((owner, _), _) => owner != id⟩

end AnnotationCache

end KernelCoarsening
