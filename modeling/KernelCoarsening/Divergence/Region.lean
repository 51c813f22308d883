/-
Regions: the part of a function that a branch controls.

A region reaches from its header to its exiting block.  It holds every block that
can be reached from the header without going beyond the exiting block, which it
holds too.  Alive values are computed inside and read outside, incoming values the
other way round.
-/
import KernelCoarsening.Flow.Loops

namespace KernelCoarsening

/-- Why a region cannot be used. -/
inductive RegionError where
  | noPostDominator (function block : String)
  | noUniqueLoopExit (function block : String)
  | headerDoesNotDominateExiting (function header exiting : String)
  | exitingDoesNotPostDominateHeader (function header exiting : String)
  | exitingNotUnconditional (function exiting : String)
  deriving DecidableEq

def RegionError.message : RegionError → String
  | noPostDominator function block =>
    s!"divergent branch in block `{block}` of `{function}` has no post-dominator"
  | noUniqueLoopExit function block =>
    s!"loop headed by `{block}` in `{function}` has no unique exit block"
  | headerDoesNotDominateExiting function header exiting =>
    s!"region header `{header}` does not dominate exiting block `{exiting}` in `{function}`"
  | exitingDoesNotPostDominateHeader function header exiting =>
    s!"exiting block `{exiting}` does not post-dominate region header `{header}` in `{function}`"
  | exitingNotUnconditional function exiting =>
    s!"exiting block `{exiting}` of `{function}` does not end in an unconditional branch"

/-- A region between two blocks. -/
structure Region where
  header : BlockId
  exiting : BlockId
  /-- The blocks in the order in which they are found, the header first. -/
  blocks : List BlockId
  /-- Computed inside and read outside, block by block. -/
  alive : List InstId
  /-- Computed outside and read inside. -/
  incoming : List InstId
  deriving DecidableEq

/-- The instructions that read the result of an instruction, among placed ones. -/
def readersOf (ops : List (InstId × Operation)) (i : InstId) : List InstId :=
  (ops.filter fun (_, op) => op.usedInsts.contains i).map (·.1)

namespace Region

/-- The blocks between the header and the exiting block. -/
def fill (r : Region) (f : Func) : Except Fault Region := do
  return { r with blocks := ← f.reachableUntil r.header r.exiting }

/-- The instructions of the blocks, block by block. -/
def instructions (r : Region) (f : Func) : Except Fault (List InstId) := do
  return (← r.blocks.mapM f.block).flatMap (·.insts)

/-- An instruction is placed outside the region. -/
def outside (r : Region) (f : Func) (i : InstId) : Bool :=
  (f.blockOf i).any fun b => !r.blocks.contains b

/-- Finds the values that cross the border of the region; `ops` are the placed
instructions. -/
def findBorder (r : Region) (f : Func) (ops : List (InstId × Operation)) :
    Except Fault Region := do
  let insts ← r.instructions f
  let inner ← insts.mapM f.operation
  return { r with
    alive := insts.filter fun i => (readersOf ops i).any (r.outside f)
    incoming := ((inner.flatMap (·.usedInsts)).filter (r.outside f)).eraseDups }

/-- Finds the blocks of the region and the values that cross its border. -/
def analyze (r : Region) (f : Func) : Except Fault Region := do
  (← r.fill f).findBorder f (← f.operations)

/-- A region of which only the bounds are known. -/
def bounds (header exiting : BlockId) : Region :=
  { header, exiting, blocks := [], alive := [], incoming := [] }

/-- The region between two blocks. -/
def between (f : Func) (header exiting : BlockId) : Except Fault Region :=
  (bounds header exiting).analyze f

/-- A block lies strictly inside: it is neither the header nor the exiting block. -/
def containsInside (r : Region) (b : BlockId) : Bool :=
  b != r.header && b != r.exiting && r.blocks.contains b

/-- The block that follows the region: the only one that the exiting block leads to. -/
def exit? (r : Region) (f : Func) : Except Fault (Option BlockId) := do
  match ← f.successors r.exiting with
  | [only] => return some only
  | _ => return none

/-- The block before the region: the only one outside that leads to the header. -/
def predecessor? (r : Region) (f : Func) : Except Fault (Option BlockId) := do
  let outer := f.layout.filter fun b => !r.blocks.contains b
  match ← outer.filterM fun b => do return (← f.successors b).contains r.header with
  | [only] => return some only
  | _ => return none

/-- The header has to dominate the exiting block, which has to post-dominate the header. -/
def boundsError? (r : Region) (f : Func) (flow : Flow) : Except Fault (Option RegionError) := do
  if !flow.dom.dominates r.header r.exiting then
    return some (.headerDoesNotDominateExiting f.name (← f.label r.header) (← f.label r.exiting))
  if !flow.pdom.dominates r.exiting r.header then
    return some
      (.exitingDoesNotPostDominateHeader f.name (← f.label r.header) (← f.label r.exiting))
  return none

/-! ### Discovery -/

/-- The exiting block of the region that the branch at the end of a block controls: its
immediate post-dominator.  If the block heads a loop that the post-dominator lies in, the
region takes in the whole loop and ends at the loop's only exit. -/
def exitingFor (f : Func) (flow : Flow) (header : BlockId) :
    Except Fault (Except RegionError BlockId) := do
  let some exiting := flow.pdom.parent? header
    | return .error (.noPostDominator f.name (← f.label header))
  let around := flow.loops.loopOf? header
  if flow.loops.isHeader header && around == flow.loops.loopOf? exiting then
    match flow.loops.innermost? header with
    | none => return .ok exiting
    | some lp =>
      match ← f.uniqueLoopExit? lp with
      | some exit => return .ok exit
      | none => return .error (.noUniqueLoopExit f.name (← f.label header))
  else
    return .ok exiting

/-- The regions that branches control, one for each; branches that are not placed control
none. -/
def ofBranches (f : Func) (flow : Flow) (ops : List (InstId × Operation)) :
    List InstId → Except Fault (Except RegionError (List Region))
  | [] => .ok (.ok [])
  | branch :: rest => do
    match f.blockOf branch with
    | none => ofBranches f flow ops rest
    | some header =>
      match ← exitingFor f flow header with
      | .error e => return .error e
      | .ok exiting =>
        let region ← (← (bounds header exiting).fill f).findBorder f ops
        return (← ofBranches f flow ops rest).map (region :: ·)

/-- Drops a region whose blocks are those of an earlier one with a dominating header. -/
def dropRepeats (dom : DominatorTree) (regions : List Region) : List Region :=
  (regions.zipIdx.filter fun (r, n) => !(regions.take n).any fun earlier =>
    r.blocks.isPerm earlier.blocks && dom.dominates earlier.header r.header).map (·.1)

/-- The regions that branches control, without repeats. -/
def discover (f : Func) (flow : Flow) (branches : List InstId) :
    Except Fault (Except RegionError (List Region)) := do
  return (← ofBranches f flow (← f.operations) branches).map (dropRepeats flow.dom)

/-- The places of the regions whose header lies strictly inside no other region. -/
def outermostPlaces (regions : List Region) : List Nat :=
  (List.range regions.length).filter fun n =>
    (regions[n]?).any fun r =>
      !regions.zipIdx.any fun (other, m) => m != n && other.containsInside r.header

/-- The regions whose header lies strictly inside no other region. -/
def outermost (regions : List Region) : List Region :=
  (outermostPlaces regions).filterMap (regions[·]?)

end Region

end KernelCoarsening
