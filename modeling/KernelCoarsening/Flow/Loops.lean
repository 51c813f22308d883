/-
Natural loops and their nesting.

An edge to a block that dominates its source closes a loop; that block is the
loop's header and the source a latch.  The body is the header with every block
that leads to a latch without passing the header.  Loops with one header are one
loop.  The forest lists larger loops first, so that the last loop in the list that
holds a block is the innermost.
-/
import KernelCoarsening.Data.Assoc
import KernelCoarsening.Flow.Dominance

namespace KernelCoarsening

/-- A natural loop; its blocks, the header among them, are in the order of their handles. -/
structure Loop where
  header : BlockId
  blocks : List BlockId
  /-- The sources of the edges that close the loop. -/
  latches : List BlockId
  /-- The place of the innermost loop around this one. -/
  parent : Option Nat
  /-- The number of loops around the blocks of this one, itself included. -/
  depth : Nat

/-- The loops of a function, larger ones first. -/
structure LoopForest where
  loops : List Loop

/-! ### Construction -/

/-- The headers with their latches: `tails` are the blocks whose edges are looked at. -/
def Graph.latches (g : Graph) (dom : DominatorTree) (tails : List Nat) : Assoc Nat (List Nat) :=
  let edges := tails.flatMap fun tail =>
    if dom.isReachable ⟨tail⟩ then
      ((g.next tail).filter fun head => dom.dominates ⟨head⟩ ⟨tail⟩).map (·, tail)
    else []
  edges.foldl (fun m (head, tail) => m.insert head ((m.get? head).getD [] ++ [tail])) []

/-- Adds to a body every node that leads to a node of the stack without passing the body. -/
def Graph.grow (g : Graph) (body stack : List Nat) : List Nat :=
  match stack with
  | [] => body
  | v :: rest =>
    if _new : v ∉ body ∧ v < g.size then g.grow (v :: body) (g.next v ++ rest)
    else g.grow body rest
termination_by (unseen (List.range g.size) body, stack.length)
decreasing_by
  · exact Prod.Lex.left _ _ (unseen_cons_lt (by simpa using _new.2) _new.1)
  · exact Prod.Lex.right _ (by simp)

/-- The graph without the edges to unreachable nodes. -/
def Graph.keepReachable (g : Graph) (dom : DominatorTree) : Graph where
  succs := g.succs.map (·.filter fun v => dom.isReachable ⟨v⟩)
  closed := by
    intro targets ht v hv
    obtain ⟨old, hold, rfl⟩ := Array.mem_map.mp ht
    simpa using g.closed old hold v (List.mem_filter.mp hv).1

/-- The loop of a header, as yet without its place in the forest. -/
def Loop.natural (g : Graph) (sources : Graph) (header : Nat) (latches : List Nat) : Loop :=
  let body := sources.grow [header] latches
  { header := ⟨header⟩, blocks := ((List.range g.size).filter (· ∈ body)).map BlockId.mk,
    latches := latches.map BlockId.mk, parent := none, depth := 1 }

/-- Larger loops come first, of loops of one size the one with the smaller header. -/
def Loop.precedes (a b : Loop) : Bool :=
  b.blocks.length < a.blocks.length ||
    (a.blocks.length == b.blocks.length && a.header.index ≤ b.header.index)

/-- Adds a loop behind larger ones, inside the last of them that holds its header. -/
def LoopForest.add (forest : List Loop) (lp : Loop) : List Loop :=
  let around := forest.zipIdx.reverse.find? fun (outer, _) =>
    lp.blocks.length < outer.blocks.length && outer.blocks.contains lp.header
  match around with
  | some (outer, n) => forest ++ [{ lp with parent := some n, depth := outer.depth + 1 }]
  | none => forest ++ [lp]

/-- The loops of a function. -/
def Func.loops (f : Func) (g : Graph) (dom : DominatorTree) : LoopForest :=
  let sources := g.inverse.keepReachable dom
  let bare := (g.latches dom (f.layout.map (·.index))).map fun (header, latches) =>
    Loop.natural g sources header latches
  ⟨(bare.mergeSort Loop.precedes).foldl LoopForest.add []⟩

/-! ### Questions -/

namespace LoopForest

/-- The place of the innermost loop that holds a block. -/
def loopOf? (forest : LoopForest) (b : BlockId) : Option Nat :=
  ((forest.loops.zipIdx.filter fun (lp, _) => lp.blocks.contains b).map (·.2)).getLast?

/-- The innermost loop that holds a block. -/
def innermost? (forest : LoopForest) (b : BlockId) : Option Loop :=
  (forest.loopOf? b).bind (forest.loops[·]?)

/-- A block is the header of a loop. -/
def isHeader (forest : LoopForest) (b : BlockId) : Bool :=
  (forest.innermost? b).any (·.header == b)

/-- The number of loops around a block. -/
def depth (forest : LoopForest) (b : BlockId) : Nat :=
  ((forest.innermost? b).map (·.depth)).getD 0

/-- The loops around the loop at a place, itself first, of at most `fuel` loops. -/
def outward (forest : LoopForest) : Nat → Option Nat → List Nat
  | 0, _ => []
  | _ + 1, none => []
  | fuel + 1, some n => n :: forest.outward fuel ((forest.loops[n]?).bind (·.parent))

/-- The places of the loops around a block, innermost first. -/
def enclosing (forest : LoopForest) (b : BlockId) : List Nat :=
  forest.outward forest.loops.length (forest.loopOf? b)

end LoopForest

namespace Func

/-- The blocks outside a loop that blocks of the loop lead to. -/
def loopExits (f : Func) (lp : Loop) : Except Fault (List BlockId) := do
  let succs ← lp.blocks.mapM f.successors
  return (succs.flatten.filter fun b => !lp.blocks.contains b).eraseDups

/-- The exit of a loop that has only one. -/
def uniqueLoopExit? (f : Func) (lp : Loop) : Except Fault (Option BlockId) := do
  match ← f.loopExits lp with
  | [only] => return some only
  | _ => return none

end Func

/-- The block from which alone control enters a loop. -/
def Graph.preheader? (g : Graph) (lp : Loop) : Option BlockId :=
  match (g.sources lp.header.index).filter fun p => !lp.blocks.contains ⟨p⟩ with
  | [only] => some ⟨only⟩
  | _ => none

/-- The structure of the control flow of a function. -/
structure Flow where
  graph : Graph
  dom : DominatorTree
  pdom : PostDominatorTree
  loops : LoopForest

/-- The structure of the control flow of a function.  Every edit of the control flow makes it
out of date. -/
def Func.flow (f : Func) : Except Fault Flow := do
  let graph ← f.graph
  let dom := f.dominators graph
  return { graph, dom, pdom := f.postDominators graph, loops := f.loops graph dom }

end KernelCoarsening
