/-
Constant trip counts.

A counted loop has a phi that starts with a constant, is changed by a constant in
every round, and is compared with a constant where control leaves the loop: in the
header the phi itself, in the only latch the changed value.  The trip count is the
number of rounds that reach the latch.
-/
import KernelCoarsening.Data.Word
import KernelCoarsening.Flow.Loops

namespace KernelCoarsening

/-- The remainder of two words.  It comes with their quotient, which has no word where the least
number is divided by -1. -/
def remainder (a b : Int64) : Except Fault Int64 :=
  match int64Of? (a.toInt.tdiv b.toInt) with
  | some _ => .ok (a % b)
  | none => .error (.noQuotient a b)

/-- The number of steps that are taken over the distance `span` before a test fails, if the steps
lead to a value that fails it. -/
def stepsOver? (span step : Int64) : Comparison → Except Fault (Option Int64)
  | .slt | .ult =>
    .ok (if step > 0 then some (if span ≤ 0 then 0 else (span + step - 1) / step) else none)
  | .sle | .ule =>
    .ok (if step > 0 then some (if span < 0 then 0 else span / step + 1) else none)
  | .sgt | .ugt =>
    .ok (if step < 0 then some (if span ≥ 0 then 0 else (-span + -step - 1) / -step) else none)
  | .sge | .uge =>
    .ok (if step < 0 then some (if span > 0 then 0 else -span / -step + 1) else none)
  | .ne =>
    if step = 0 then .ok none
    else do
      let rest ← remainder span step
      return if rest = 0 ∧ span / step ≥ 0 then some (span / step) else none
  | .eq => .ok none

/-- The number of values `first, first + step, …` that compare with `bound` as `rel` says
before the first that does not.  It is unknown where the values run away from the bound, where
they jump over the one value that ends the count, and where an unsigned comparison meets a
negative number. -/
def countRounds (first step : Int64) (rel : Comparison) (bound : Int64) :
    Except Fault (Option Nat) :=
  if rel.isUnsigned && (first < 0 || bound < 0) then .ok none
  else match int64Of? (bound.toInt - first.toInt) with
    | none => .ok none
    | some span => do
      let count ← stepsOver? span step rel
      return count.bind fun count => if count < 0 then none else some count.toInt.toNat

/-- What an operation adds to a phi, if it adds or subtracts a constant. -/
def Operation.stepOf? (phi : InstId) : Operation → Option Int64
  | binary .add (.inst i) (.const c) => if i = phi then some c else none
  | binary .add (.const c) (.inst i) => if i = phi then some c else none
  | binary .sub (.inst i) (.const c) => if i = phi then some (-c) else none
  | _ => none

namespace Func

/-- The comparison under which a loop goes on at the end of a block, and its bound: the block
ends with a branch on the comparison of `tested` with a constant, and one way leaves the
loop. -/
def exitTest? (f : Func) (lp : Loop) (b : BlockId) (tested : InstId) :
    Except Fault (Option (Comparison × Int64)) := do
  let some term ← f.terminator b | return none
  let .branch (.inst cond) onTrue onFalse ← f.operation term | return none
  let .compare rel (.inst v) (.const bound) ← f.operation cond | return none
  if v ≠ tested then
    return none
  match lp.blocks.contains onTrue, lp.blocks.contains onFalse with
  | true, false => return some (rel, bound)
  | false, true => return some (rel.inverse, bound)
  | _, _ => return none

/-- The incoming value of a phi for a block. -/
def incomingFor? (incoming : List (Value × BlockId)) (b : BlockId) : Option Value :=
  (incoming.find? (·.2 == b)).map (·.1)

/-- Looks for a phi that counts the rounds of a loop. -/
def countedBy? (f : Func) (lp : Loop) (preheader latch : BlockId) :
    List InstId → Except Fault (Option Nat)
  | [] => .ok none
  | phi :: rest => do
    let .phi incoming ← f.operation phi | f.countedBy? lp preheader latch rest
    let some (.const start) := incomingFor? incoming preheader
      | f.countedBy? lp preheader latch rest
    let some (.inst next) := incomingFor? incoming latch
      | f.countedBy? lp preheader latch rest
    let some step := (← f.operation next).stepOf? phi
      | f.countedBy? lp preheader latch rest
    let some second := int64Of? (start.toInt + step.toInt) | return none
    match ← f.exitTest? lp lp.header phi with
    | some (rel, bound) => countRounds start step rel bound
    | none =>
      match ← f.exitTest? lp latch next with
      | some (rel, bound) => return (← countRounds second step rel bound).map (· + 1)
      | none => f.countedBy? lp preheader latch rest

/-- The trip count of a counted loop with one latch and one block before it; `g` is the graph
of the function. -/
def tripCount? (f : Func) (g : Graph) (lp : Loop) : Except Fault (Option Nat) := do
  let [latch] := lp.latches | return none
  let some preheader := g.preheader? lp | return none
  f.countedBy? lp preheader latch (← f.phis lp.header)

end Func

end KernelCoarsening
