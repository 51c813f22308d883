/-
Coordinates of a launch.

A launch is a grid of blocks of threads, each three-dimensional.  A thread reads
its place in its block, the place of its block in the grid, and the extents of
both, along each dimension.
-/

namespace KernelCoarsening

/-- A dimension of the launch grid. -/
inductive Dimension where
  | x
  | y
  | z
  deriving DecidableEq

namespace Dimension

def all : List Dimension := [x, y, z]

/-- The place of a dimension among the three. -/
def index : Dimension → Nat
  | x => 0
  | y => 1
  | z => 2

/-- The dimension at a place. -/
def ofIndex? (n : Nat) : Option Dimension := all[n]?

def text : Dimension → String
  | x => "x"
  | y => "y"
  | z => "z"

/-- The dimension that a text names. -/
def ofText? : String → Option Dimension
  | "x" => some x
  | "y" => some y
  | "z" => some z
  | _ => none

@[simp] theorem ofText?_text (d : Dimension) : ofText? d.text = some d := by
  cases d <;> rfl

end Dimension

/-- The four quantities of a launch that a thread can read. -/
inductive Register where
  /-- The place of the thread in its block. -/
  | threadId
  /-- The place of the block in the grid. -/
  | blockId
  /-- The number of threads of a block. -/
  | blockExtent
  /-- The number of blocks of the grid. -/
  | gridExtent
  deriving DecidableEq

namespace Register

def all : List Register := [threadId, blockId, blockExtent, gridExtent]

/-- The name of the register. -/
def text : Register → String
  | threadId => "tid"
  | blockId => "ctaid"
  | blockExtent => "ntid"
  | gridExtent => "nctaid"

/-- The register that a text names. -/
def ofText? (s : String) : Option Register := all.find? (·.text == s)

end Register

/-- What coarsening merges. -/
inductive Level where
  /-- Threads of one block. -/
  | thread
  /-- Blocks of the grid. -/
  | block
  deriving DecidableEq

namespace Level

def all : List Level := [thread, block]

/-- The identity whose values are merged. -/
def identity : Level → Register
  | thread => .threadId
  | block => .blockId

/-- The extent that shrinks. -/
def extent : Level → Register
  | thread => .blockExtent
  | block => .gridExtent

def text : Level → String
  | thread => "thread"
  | block => "block"

/-- The level that a text names. -/
def ofText? : String → Option Level
  | "thread" => some thread
  | "block" => some block
  | _ => none

@[simp] theorem ofText?_text (l : Level) : ofText? l.text = some l := by
  cases l <;> rfl

end Level

/-- The dimensions that are looked at. -/
inductive DimensionSelector where
  | all
  | only (d : Dimension)
  deriving DecidableEq

def DimensionSelector.includes : DimensionSelector → Dimension → Bool
  | all, _ => true
  | only d, e => d = e

end KernelCoarsening
