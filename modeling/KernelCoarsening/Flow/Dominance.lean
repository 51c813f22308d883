/-
Dominator and post-dominator trees.

Immediate dominators are computed by passes over the reachable nodes in reverse
postorder until a pass changes nothing.  A node's candidate is where the chains
of its processed predecessors meet.  Post-dominators are the dominators of the
graph turned round, from an additional node that stands behind all blocks where
control ends.

Design notes: `meet` walks up two chains and always moves the node that comes
later in reverse postorder.  A step that would not move up ends the walk, and the
number of passes is bounded by the number of pairs of nodes; neither limit is
ever met, since every pass moves candidates towards the root only.
-/
import KernelCoarsening.Flow.Graph

namespace KernelCoarsening

/-- A table of immediate dominators: every reachable node has its parent, the root itself. -/
abbrev ParentTable := Array (Option Nat)

namespace ParentTable

/-- The entry of a node; there is none outside the table. -/
def parent (t : ParentTable) (v : Nat) : Option Nat := t.getD v none

/-- The chain from a node towards the root, of at most `fuel` steps. -/
def chain (t : ParentTable) : Nat → Nat → List Nat
  | 0, v => [v]
  | fuel + 1, v =>
    match t.parent v with
    | some p => if p = v then [v] else v :: t.chain fuel p
    | none => [v]

/-- The nodes above a node, itself included, up to the root. -/
def ancestors (t : ParentTable) (v : Nat) : List Nat := t.chain t.size v

/-- The nearest node above another, which the root lacks. -/
def above? (t : ParentTable) (v : Nat) : Option Nat :=
  (t.parent v).filter (· ≠ v)

/-- The node where two chains meet; `order` numbers the nodes from the root down. -/
def meet (t : ParentTable) (order : Nat → Nat) (a b : Nat) : Nat :=
  if a = b then a
  else if order b < order a then
    match t.parent a with
    | some p => if _ : order p < order a then t.meet order p b else a
    | none => a
  else if order a < order b then
    match t.parent b with
    | some p => if _ : order p < order b then t.meet order a p else b
    | none => b
  else a
termination_by order a + order b

/-- Updates the entry of a node from its predecessors. -/
def update (preds : Graph) (order : Nat → Nat) (t : ParentTable) (v : Nat) : ParentTable :=
  match (preds.next v).filter fun p => (t.parent p).isSome with
  | [] => t
  | first :: rest => t.setIfInBounds v (some (rest.foldl (fun acc p => t.meet order p acc) first))

/-- One pass over nodes. -/
def pass (preds : Graph) (order : Nat → Nat) (nodes : List Nat) (t : ParentTable) : ParentTable :=
  nodes.foldl (update preds order) t

/-- Repeats a pass until it changes nothing, at most `fuel` times. -/
def settle (step : ParentTable → ParentTable) : Nat → ParentTable → ParentTable
  | 0, t => t
  | fuel + 1, t => bif step t == t then t else settle step fuel (step t)

end ParentTable

/-- The immediate dominators of the nodes that can be reached from a root. -/
def Graph.parents (g : Graph) (root : Nat) : ParentTable :=
  let order := g.reversePostorder root
  let start : ParentTable := Array.replicate g.size none
  ParentTable.settle (ParentTable.pass g.inverse order.idxOf order.tail) (g.size * g.size + 1)
    (start.setIfInBounds root (some root))

/-! ### Dominators -/

/-- The dominator tree of a function. -/
structure DominatorTree where
  parents : ParentTable

namespace DominatorTree

/-- A block dominates another if it lies above it; each block dominates itself. -/
def dominates (t : DominatorTree) (a b : BlockId) : Bool := a.index ∈ t.parents.ancestors b.index

/-- The immediate dominator, which the entry and unreachable blocks lack. -/
def parent? (t : DominatorTree) (b : BlockId) : Option BlockId :=
  BlockId.mk <$> t.parents.above? b.index

/-- A block can be reached from the entry. -/
def isReachable (t : DominatorTree) (b : BlockId) : Bool := (t.parents.parent b.index).isSome

/-- An instruction dominates another behind it in its block, and all instructions of the
blocks that its block dominates. -/
def instDominates (t : DominatorTree) (f : Func) (a b : InstId) : Except Fault Bool := do
  match ← f.position a, ← f.position b with
  | some (blockA, n), some (blockB, m) =>
    return if blockA = blockB then n ≤ m else t.dominates blockA blockB
  | _, _ => return false

end DominatorTree

/-- The dominator tree of a function; that of a declaration is empty. -/
def Func.dominators (f : Func) (g : Graph) : DominatorTree :=
  ⟨if f.isDeclaration then #[] else g.parents f.entry.index⟩

/-! ### Post-dominators -/

/-- The post-dominator tree of a function; the last node stands behind all ends. -/
structure PostDominatorTree where
  parents : ParentTable
  exit : Nat

namespace PostDominatorTree

/-- A block post-dominates another if it lies above it; each block post-dominates itself. -/
def dominates (t : PostDominatorTree) (a b : BlockId) : Bool :=
  a.index ∈ t.parents.ancestors b.index

/-- The first block that every way from a block to an end passes, if there is one. -/
def parent? (t : PostDominatorTree) (b : BlockId) : Option BlockId :=
  BlockId.mk <$> (t.parents.above? b.index).filter (· ≠ t.exit)

end PostDominatorTree

/-- The graph turned round, with an additional node that leads to the nodes of a list. -/
def Graph.exitGraph (g : Graph) (ends : List Nat) (valid : ∀ v ∈ ends, v < g.size) : Graph where
  succs := g.inverse.succs.push ends
  closed := by
    have size : g.inverse.succs.size = g.size := by simp [inverse]
    intro targets ht v hv
    rw [Array.size_push, size]
    rcases Array.mem_push.mp ht with h | rfl
    · have := g.inverse.closed targets h v hv
      omega
    · have := valid v hv
      omega

/-- The reachable nodes that lead nowhere. -/
def Graph.ends (g : Graph) (reachable : List Nat) : List Nat :=
  (List.range g.size).filter fun v => v ∈ reachable ∧ (g.next v).isEmpty

theorem Graph.ends_lt {g : Graph} {reachable : List Nat} :
    ∀ v ∈ g.ends reachable, v < g.size := by
  intro v hv
  exact List.mem_range.mp (List.mem_filter.mp hv).1

/-- The post-dominator tree of a function. -/
def Func.postDominators (f : Func) (g : Graph) : PostDominatorTree :=
  let reachable := if f.isDeclaration then [] else g.reversePostorder f.entry.index
  ⟨(g.exitGraph (g.ends reachable) Graph.ends_lt).parents g.size, g.size⟩

end KernelCoarsening
