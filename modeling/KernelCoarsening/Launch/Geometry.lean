/-
Launches: a kernel with the extents of its grid and its blocks.
-/
import KernelCoarsening.Grid.Coordinate

namespace KernelCoarsening

/-- Extents along the three dimensions. -/
structure Extent where
  x : Nat
  y : Nat
  z : Nat
  deriving DecidableEq

namespace Extent

/-- The extent along a dimension. -/
def get (e : Extent) : Dimension → Nat
  | .x => e.x
  | .y => e.y
  | .z => e.z

/-- The extents with another one along a dimension. -/
def set (e : Extent) (d : Dimension) (n : Nat) : Extent :=
  match d with
  | .x => { e with x := n }
  | .y => { e with y := n }
  | .z => { e with z := n }

/-- The number of places. -/
def volume (e : Extent) : Nat := e.x * e.y * e.z

def text (e : Extent) : String :=
  "(" ++ toString e.x ++ ", " ++ toString e.y ++ ", " ++ toString e.z ++ ")"

@[simp] theorem get_set (e : Extent) (d d' : Dimension) (n : Nat) :
    (e.set d n).get d' = if d = d' then n else e.get d' := by
  cases d <;> cases d' <;> rfl

end Extent

/-- A launch of a kernel. -/
structure Launch where
  kernel : String
  grid : Extent
  block : Extent
  deriving DecidableEq

namespace Launch

/-- The extents that a level shrinks. -/
def extentOf (l : Launch) : Level → Extent
  | .thread => l.block
  | .block => l.grid

/-- The launch with other extents at a level. -/
def withExtent (l : Launch) (level : Level) (e : Extent) : Launch :=
  match level with
  | .thread => { l with block := e }
  | .block => { l with grid := e }

end Launch

end KernelCoarsening
