/-
Costs of instructions.

Costs are numbers of 64 bits.  Sums and products that leave this range stay at its
end, so that a cost never shrinks when its parts grow.
-/
import KernelCoarsening.Data.Text
import KernelCoarsening.Data.Word
import KernelCoarsening.Ir.Func

namespace KernelCoarsening

namespace Cost

/-- The largest cost. -/
def limit : Nat := limit64 - 1

/-- A sum that stays at the limit. -/
def add (a b : Nat) : Nat := min (a + b) limit

/-- A product that stays at the limit. -/
def mul (a b : Nat) : Nat := min (a * b) limit

/-- The sum of a list. -/
def sum (costs : List Nat) : Nat := costs.foldl add 0

end Cost

/-- The cost of an instruction of each kind. -/
structure CostTable where
  other : Nat
  divPow2 : Nat
  divNonPow2 : Nat
  modPow2 : Nat
  modNonPow2 : Nat
  load : Nat
  store : Nat
  divergentBranch : Nat
  mathFunction : Nat
  deriving DecidableEq

/-- The costs that are used unless others are given. -/
def CostTable.standard : CostTable where
  other := 1
  divPow2 := 1
  divNonPow2 := 2
  modPow2 := 1
  modNonPow2 := 2
  load := 4
  store := 4
  divergentBranch := 2
  mathFunction := 8

/-- A number is a power of two. -/
def isPow2 (c : Int64) : Bool := c > 0 && c &&& (c - 1) == 0

/-- A function of a name computes a mathematical function. -/
def isMathFunction (callee : String) : Bool :=
  ["__nv_", "llvm.sqrt.", "llvm.sin.", "llvm.cos.", "llvm.exp.", "llvm.exp2.", "llvm.log.",
    "llvm.log2.", "llvm.log10.", "llvm.pow.", "llvm.fma.", "llvm.fabs.", "llvm.floor."].any
    fun lead => Text.startsWith lead callee

namespace CostTable

/-- The cost of a division; an unknown divisor counts as no power of two. -/
def divCost (t : CostTable) (divisor : Option Int64) : Nat :=
  if divisor.any isPow2 then t.divPow2 else t.divNonPow2

/-- The cost of a remainder; an unknown divisor counts as no power of two. -/
def modCost (t : CostTable) (divisor : Option Int64) : Nat :=
  if divisor.any isPow2 then t.modPow2 else t.modNonPow2

/-- The cost of one execution of an operation. -/
def operationCost (t : CostTable) (divergent : Bool) : Operation → Nat
  | .phi _ => 0
  | .binary .udiv _ r | .binary .sdiv _ r => t.divCost r.const?
  | .binary .urem _ r | .binary .srem _ r => t.modCost r.const?
  | .load _ => t.load
  | .store _ _ => t.store
  | .branch .. => if divergent then t.divergentBranch else t.other
  | .call callee _ => if isMathFunction callee then t.mathFunction else t.other
  | _ => t.other

end CostTable

end KernelCoarsening
