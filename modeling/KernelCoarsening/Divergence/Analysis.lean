/-
Divergent instructions: those whose value, or whose direction if they are
branches, may differ between the threads or blocks that coarsening merges.

The reads of the merged identity are divergent, and with an instruction

* its readers,
* if it is a branch, the phis of the block where its ways come together again, and
  the values that are read behind a loop which the branch may leave,
* at block level, the other accesses to the shared global that it accesses.

Design notes: the divergent set is grown from a stack of instructions to look at.
Only which instructions it holds matters, so the order of the stack does not.
-/
import KernelCoarsening.Divergence.Region
import KernelCoarsening.Grid.Reads

namespace KernelCoarsening

namespace Func

/-- Follows an address to the global that it starts from, through address computations and
conversions, over at most `fuel` instructions; `start` is where the way began. -/
def addressRoot (f : Func) (start : InstId) : Nat → Value → Except Fault (Option GlobalId)
  | 0, _ => .error (.addressCycle start)
  | fuel + 1, v =>
    match v with
    | .global g => .ok (some g)
    | .inst i => do
      match ← f.operation i with
      | .element base _ => f.addressRoot start fuel base
      | .convert _ inner => f.addressRoot start fuel inner
      | _ => return none
    | _ => .ok none

/-- The global that a memory access or an address computation starts from. -/
def rootGlobal? (f : Func) (i : InstId) : Except Fault (Option GlobalId) := do
  match (← f.operation i).address? with
  | none => return none
  | some v => f.addressRoot i (f.insts.size + 1) v

/-- The placed instructions that access a shared global, with that global. -/
def sharedAccesses (f : Func) (shared : List GlobalId) :
    Except Fault (List (InstId × GlobalId)) := do
  if shared.isEmpty then
    return []
  let rooted ← (← f.instructions).mapM fun i => do return (i, ← f.rootGlobal? i)
  return rooted.filterMap fun (i, root) => do
    let g ← root
    if shared.contains g then some (i, g) else none

/-- The values of the loops that a branch at the end of a block may leave which are read
behind the loop. -/
def loopLiveOuts (f : Func) (flow : Flow) (ops : List (InstId × Operation)) (b : BlockId) :
    Except Fault (List InstId) := do
  let succs ← f.successors b
  let left := (flow.loops.enclosing b).filterMap fun n => do
    let lp ← flow.loops.loops[n]?
    if succs.all lp.blocks.contains then none else some lp
  let found ← left.mapM fun lp => do
    let blocks ← lp.blocks.mapM f.block
    return (blocks.flatMap (·.insts)).filter fun i => (readersOf ops i).any fun user =>
      (f.blockOf user).any fun b => !lp.blocks.contains b
  return found.flatten

/-- The instructions that are divergent because an instruction is. -/
def divergentWith (f : Func) (flow : Flow) (ops : List (InstId × Operation))
    (accesses : List (InstId × GlobalId)) (i : InstId) : Except Fault (List InstId) := do
  let op ← f.operation i
  let joined ← match op.isBranch, f.blockOf i with
    | true, some b => do
      let phis ← match flow.pdom.parent? b with
        | some join => f.phis join
        | none => pure []
      pure (phis ++ (← f.loopLiveOuts flow ops b))
    | _, _ => pure []
  let sharing := match ← f.rootGlobal? i with
    | some g => (accesses.filter fun (other, root) => root = g ∧ other ≠ i).map (·.1)
    | none => []
  return readersOf ops i ++ joined ++ sharing

/-- Adds to a set of instructions everything that follows from the instructions of a stack. -/
def spread (f : Func) (follow : InstId → Except Fault (List InstId)) (set stack : List InstId) :
    Except Fault (List InstId) :=
  match stack with
  | [] => .ok set
  | i :: rest =>
    if _old : i ∈ set then f.spread follow set rest
    else if _slot : i.index < f.insts.size then
      match follow i with
      | .ok more => f.spread follow (i :: set) (more ++ rest)
      | .error fault => .error fault
    else .error (.noInst i)
termination_by (unseen ((List.range f.insts.size).map InstId.mk) set, stack.length)
decreasing_by
  · exact Prod.Lex.right _ (by simp)
  · exact Prod.Lex.left _ _ (unseen_cons_lt (by simpa using ⟨_, _slot, rfl⟩) _old)

end Func

/-- The divergent instructions of a function and the regions that its divergent branches
control. -/
structure Divergence where
  level : Level
  dim : Dimension
  /-- All divergent instructions. -/
  set : List InstId
  /-- Those in reachable blocks with their block, in reverse postorder. -/
  placed : List (InstId × BlockId)
  /-- The branches among them. -/
  branches : List InstId
  regions : List Region
  /-- The register reads that were found. -/
  reads : List InstId

namespace Divergence

def isDivergent (d : Divergence) (i : InstId) : Bool := d.set.contains i

/-- The divergent instructions of reachable blocks; what an instruction dominates comes
after it. -/
def instructions (d : Divergence) : List InstId := d.placed.map (·.1)

/-- The block that a divergent instruction was found in. -/
def blockOf? (d : Divergence) (i : InstId) : Option BlockId :=
  (d.placed.reverse.find? (·.1 == i)).map (·.2)

/-- The divergent instructions outside all regions, without register reads. -/
def outermostInstructions (d : Divergence) : List InstId :=
  d.instructions.filter fun i => !d.reads.contains i &&
    (d.blockOf? i).any fun b => !d.regions.any fun r => r.blocks.contains b

/-- The regions that lie inside no other. -/
def outermostRegions (d : Divergence) : List Region := Region.outermost d.regions

end Divergence

/-- The divergence of a function for one level and dimension.  The shared globals matter at
block level only. -/
def Func.divergence (f : Func) (flow : Flow) (grid : GridReads) (shared : List GlobalId)
    (level : Level) (dim : Dimension) : Except Fault (Except RegionError Divergence) := do
  let ops ← f.operations
  let accesses ← match level with
    | .block => f.sharedAccesses shared
    | .thread => pure []
  let set ← f.spread (f.divergentWith flow ops accesses) [] (grid.identities level dim)
  let order ← f.reversePostorder
  let listed ← order.mapM fun b => do
    return ((← f.block b).insts.filter set.contains).map (·, b)
  let placed := listed.flatten
  let branches ← (placed.map (·.1)).filterM fun i => do return (← f.operation i).isBranch
  return (← Region.discover f flow branches).map fun regions =>
    { level, dim, set, placed, branches, regions, reads := grid.all }

end KernelCoarsening
