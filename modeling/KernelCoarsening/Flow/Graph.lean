/-
Directed graphs and the control-flow graph of a function.

A graph has the nodes `0, …, size - 1` and for each node the list of those it
leads to.  That these are nodes again is part of the type, so that a search
cannot leave the graph.

* `Graph.next_lt` — an edge leads to a node;
* `Func.graph` — the graph of a function; it has a node for every block slot and
  faults if a block leads to no slot.

Design notes: a depth-first search keeps a stack of nodes with the successors it
has still to look at.  Finished nodes are put in front of the result, which
therefore is in reverse postorder.
-/
import KernelCoarsening.Data.Unseen
import KernelCoarsening.Ir.Func

namespace KernelCoarsening

/-- A directed graph as lists of successors. -/
structure Graph where
  succs : Array (List Nat)
  closed : ∀ targets ∈ succs, ∀ v ∈ targets, v < succs.size

namespace Graph

def size (g : Graph) : Nat := g.succs.size

/-- The nodes that a node leads to. -/
def next (g : Graph) (u : Nat) : List Nat := g.succs.getD u []

theorem next_lt {g : Graph} {u v : Nat} (h : v ∈ g.next u) : v < g.size := by
  unfold next at h
  by_cases hu : u < g.succs.size
  · rw [Array.getD_eq_getD_getElem?, Array.getElem?_eq_getElem hu] at h
    exact g.closed _ (Array.getElem_mem hu) v h
  · rw [Array.getD_eq_getD_getElem?, Array.getElem?_eq_none (by omega)] at h
    simp at h

/-- The graph of successor lists, or a target that is no node. -/
def ofLists (succs : Array (List Nat)) : Except Nat Graph :=
  if h : ∀ targets ∈ succs, ∀ v ∈ targets, v < succs.size then
    .ok ⟨succs, h⟩
  else
    .error ((succs.toList.flatten.find? (succs.size ≤ ·)).getD 0)

/-- The nodes that lead to a node, in order, once for each edge. -/
def sources (g : Graph) (v : Nat) : List Nat :=
  (List.range g.size).flatMap fun u => (g.next u).filterMap fun w => if w = v then some u else none

theorem sources_lt {g : Graph} {u v : Nat} (h : u ∈ g.sources v) : u < g.size := by
  simp only [sources, List.mem_flatMap, List.mem_range] at h
  obtain ⟨w, hw, h⟩ := h
  simp only [List.mem_filterMap, Option.ite_none_right_eq_some, Option.some.injEq] at h
  obtain ⟨_, _, _, rfl⟩ := h
  exact hw

/-- The graph with all edges turned round. -/
def inverse (g : Graph) : Graph where
  succs := ((List.range g.size).map g.sources).toArray
  closed := by
    intro targets ht v hv
    simp only [List.mem_toArray, List.mem_map] at ht
    obtain ⟨w, _, rfl⟩ := ht
    simpa [List.size_toArray] using sources_lt hv

/-! ### Depth-first search -/

/-- The work that a stack of nodes with remaining successors stands for. -/
def stackWeight (stack : List (Nat × List Nat)) : Nat :=
  stack.foldr (fun (_, vs) weight => vs.length + 1 + weight) 0

/-- Continues a depth-first search: finished nodes go in front of `done`. -/
def search (g : Graph) (seen : List Nat) (stack : List (Nat × List Nat)) (done : List Nat) :
    List Nat :=
  match stack with
  | [] => done
  | (u, []) :: rest => g.search seen rest (u :: done)
  | (u, v :: vs) :: rest =>
    if _new : v ∉ seen ∧ v < g.size then
      g.search (v :: seen) ((v, g.next v) :: (u, vs) :: rest) done
    else
      g.search seen ((u, vs) :: rest) done
termination_by (unseen (List.range g.size) seen, stackWeight stack)
decreasing_by
  · exact Prod.Lex.right _ (by simp [stackWeight])
  · exact Prod.Lex.left _ _ (unseen_cons_lt (by simpa using _new.2) _new.1)
  · exact Prod.Lex.right _ (by simp [stackWeight])

/-- The nodes that can be reached from a root, in reverse postorder. -/
def reversePostorder (g : Graph) (root : Nat) : List Nat :=
  if root < g.size then g.search [root] [(root, g.next root)] [] else []

end Graph

namespace Func

/-- The control-flow graph: a node for every block slot, and an edge for every block that a
block leads to. -/
def graph (f : Func) : Except Fault Graph := do
  let succs ← f.blockIds.mapM fun b => do
    return ((← f.successors b).map (·.index)).eraseDups
  match Graph.ofLists succs.toArray with
  | .ok g => return g
  | .error v => throw (.noBlock ⟨v⟩)

/-- The blocks that can be reached from the entry, in reverse postorder.  A declaration has
none. -/
def reversePostorder (f : Func) : Except Fault (List BlockId) := do
  let g ← f.graph
  return if f.isDeclaration then [] else (g.reversePostorder f.entry.index).map BlockId.mk

/-- Continues a search that does not go beyond one block: the blocks found, last first. -/
def reach (f : Func) (stop : BlockId) (found stack : List BlockId) :
    Except Fault (List BlockId) :=
  match stack with
  | [] => .ok found
  | b :: rest =>
    if _old : b ∈ found then f.reach stop found rest
    else if _last : b = stop then f.reach stop (b :: found) rest
    else if _slot : b ∈ f.blockIds then
      match f.successors b with
      | .ok succs => f.reach stop (b :: found) (succs.filter (· ∉ b :: found) ++ rest)
      | .error fault => .error fault
    else .error (.noBlock b)
termination_by (unseen (stop :: f.blockIds) found, stack.length)
decreasing_by
  · exact Prod.Lex.right _ (by simp)
  · exact Prod.Lex.left _ _ (unseen_cons_lt (by simp [_last]) _old)
  · exact Prod.Lex.left _ _ (unseen_cons_lt (by simp [_slot]) _old)

/-- The blocks that can be reached from a block without going beyond another, in the order
in which a depth-first search finds them. -/
def reachableUntil (f : Func) (start stop : BlockId) : Except Fault (List BlockId) :=
  List.reverse <$> f.reach stop [] [start]

end Func

end KernelCoarsening
