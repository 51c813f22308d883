/-
Well-formed functions.

Every block of the layout ends with its only terminator, starts with its phis, and
reads placed instructions only; the phis of a reachable block name exactly the
reachable blocks that lead to it.  `Func.firstFlaw?` reports the first place where
this fails.
-/
import KernelCoarsening.Flow.Graph

namespace KernelCoarsening

/-- How a function fails to be well-formed. -/
inductive Flaw where
  | missingTerminator (function block : String)
  | misplacedTerminator (function block : String)
  | misplacedPhi (function block value : String)
  | phiPredecessorMismatch (function block value : String)
  | danglingOperand (function user : String)
  deriving DecidableEq

def Flaw.message : Flaw → String
  | missingTerminator function block =>
    s!"block `{block}` of `{function}` does not end in a terminator"
  | misplacedTerminator function block =>
    s!"block `{block}` of `{function}` has a terminator before its end"
  | misplacedPhi function block value =>
    s!"phi `{value}` in block `{block}` of `{function}` follows a non-phi"
  | phiPredecessorMismatch function block value =>
    s!"phi `{value}` in block `{block}` of `{function}` does not match the block's predecessors"
  | danglingOperand function user => s!"`{user}` in `{function}` uses an erased instruction"

/-- The first answer that a question has for the members of a list. -/
def firstM? {ε α β : Type} (ask : α → Except ε (Option β)) : List α → Except ε (Option β)
  | [] => .ok none
  | a :: rest => do
    match ← ask a with
    | some answer => return some answer
    | none => firstM? ask rest

namespace Func

/-- The first flaw of the instructions of a block; `body` tells whether one before them is no
phi. -/
def instFlaw? (f : Func) (b : BlockId) (body : Bool) : List InstId → Except Fault (Option Flaw)
  | [] => .ok none
  | i :: rest => do
    let inst ← f.inst i
    if inst.op.isTerminator && !rest.isEmpty then
      return some (.misplacedTerminator f.name (← f.label b))
    if inst.op.isPhi && body then
      return some (.misplacedPhi f.name (← f.label b) inst.name)
    if inst.op.usedInsts.any fun used => !f.isLive used then
      return some (.danglingOperand f.name inst.name)
    f.instFlaw? b (body || !inst.op.isPhi) rest

/-- Two lists have the same members. -/
def sameMembers {α : Type} [BEq α] (xs ys : List α) : Bool :=
  xs.all ys.contains && ys.all xs.contains

/-- The first phi of a block that names other blocks than the expected ones. -/
def phiFlaw? (f : Func) (reachable : List BlockId) (b : BlockId) (expected : List BlockId) :
    Except Fault (Option Flaw) := do
  firstM? (fun phi => do
    let inst ← f.inst phi
    let .phi incoming := inst.op | return none
    let named := (incoming.map (·.2)).filter reachable.contains
    if sameMembers named expected then
      return none
    else
      return some (.phiPredecessorMismatch f.name (← f.label b) inst.name)) (← f.phis b)

/-- The first flaw of a block. -/
def blockFlaw? (f : Func) (g : Graph) (reachable : List BlockId) (b : BlockId) :
    Except Fault (Option Flaw) := do
  let block ← f.block b
  if (← f.terminator b).isNone then
    return some (.missingTerminator f.name (← f.label b))
  if let some flaw ← f.instFlaw? b false block.insts then
    return some flaw
  if reachable.contains b then
    let expected := ((g.sources b.index).map BlockId.mk).filter fun p =>
      f.layout.contains p && reachable.contains p
    f.phiFlaw? reachable b expected
  else
    return none

/-- The first flaw of a function, in the order of its layout. -/
def firstFlaw? (f : Func) : Except Fault (Option Flaw) := do
  let g ← f.graph
  let reachable ← f.reversePostorder
  firstM? (f.blockFlaw? g reachable) f.layout

end Func

end KernelCoarsening
