/-
The loops of a function have all their latches and blocks.

An edge closes a loop if its source is reachable and is dominated by its target.  The edges are
collected by their targets, so a header has one loop, and that loop has the sources of all edges
that close it.  Growing the body against the edges finds what comes before a latch:

* `Func.mem_latches_iff` — the latches that are collected for a header, each once;
* `Func.IsExact` — what a loop of the forest is;
* `Func.exact_of_mem_loops` — every loop of the forest is that;
* `Func.loop_bodies_exact` — the forest has one such loop for each block that an edge closes.
-/
import KernelCoarsening.Proofs.Flow.LoopNesting
import Mathlib

namespace KernelCoarsening

/-- What is collected under a key stands there in the order in which it came. -/
theorem get?_collect (edges : List (Nat × Nat)) (m : Assoc Nat (List Nat)) (k : Nat) :
    ((edges.foldl (fun m edge =>
      m.insert edge.1 ((m.get? edge.1).getD [] ++ [edge.2])) m).get? k).getD [] =
        (m.get? k).getD [] ++ (edges.filter (·.1 = k)).map (·.2) := by
  induction edges generalizing m with
  | nil => simp
  | cons edge edges ih =>
    rw [List.foldl_cons, ih, Assoc.get?_insert]
    by_cases same : edge.1 = k <;> simp [same]

namespace Func

variable {f : Func} {g : Graph}

/-- A loop has the sources of all edges that close it, and its blocks are the header and the
blocks that lead to a latch without passing the header, in order. -/
structure IsExact (f : Func) (g : Graph) (lp : Loop) : Prop where
  mem_latches : ∀ t, t ∈ lp.latches ↔ f.Closes g t lp.header
  nodup_latches : lp.latches.Nodup
  mem_blocks : ∀ b, b ∈ lp.blocks ↔ b = lp.header ∨
    g.Reaches f.entry.index b.index ∧ ∃ t ∈ lp.latches, g.Before lp.header.index b.index t.index
  sorted : lp.blocks.Pairwise fun a b => a.index < b.index
  dominates : ∀ b ∈ lp.blocks, g.Dominates f.entry.index lp.header.index b.index

theorem nodup_closingEdges {dom : DominatorTree} {tails : List Nat} (once : tails.Nodup)
    (simple : ∀ v, (g.next v).Nodup) : (closingEdges g dom tails).Nodup := by
  have source : ∀ {tail : Nat} {edge : Nat × Nat}, edge ∈ (if dom.isReachable ⟨tail⟩ then
      ((g.next tail).filter fun head => dom.dominates ⟨head⟩ ⟨tail⟩).map (·, tail) else []) →
      edge.2 = tail := by
    intro tail edge mem
    split at mem
    · obtain ⟨head, -, rfl⟩ := List.mem_map.mp mem
      rfl
    · simp at mem
  refine List.nodup_flatMap.mpr ⟨fun tail _ => ?_, once.imp fun {a b} other edge ha hb => ?_⟩
  · split
    · exact ((simple tail).filter _).map fun a b same => (Prod.mk.inj same).1
    · exact .nil
  · exact other ((source ha).symm.trans (source hb))

/-- The latches of a header are the sources of the edges that close its loop. -/
theorem mem_latches_iff (entry : f.entry.index < g.size) (body : f.isDeclaration = false)
    {tails latches : List Nat} {h : Nat}
    (found : (h, latches) ∈ g.latches (f.dominators g) tails) :
    (∀ t, t ∈ latches ↔ t ∈ tails ∧ f.Closes g ⟨t⟩ ⟨h⟩) ∧
      (tails.Nodup → (∀ v, (g.next v).Nodup) → latches.Nodup) := by
  have keys : (g.latches (f.dominators g) tails).keys.Nodup :=
    (keys_collect _ (by simp [Assoc.keys])).1
  have here : latches =
      ((closingEdges g (f.dominators g) tails).filter (·.1 = h)).map (·.2) := by
    have listed : (g.latches (f.dominators g) tails).get? h = some latches :=
      Assoc.get?_of_mem keys found
    calc latches = ((g.latches (f.dominators g) tails).get? h).getD [] := by rw [listed]; rfl
      _ = _ := get?_collect (closingEdges g (f.dominators g) tails) [] h
  constructor
  · intro t
    rw [← mem_closingEdges entry body]
    simp [here]
  · intro once simple
    rw [here]
    refine List.Nodup.map_on ?_ ((nodup_closingEdges once simple).filter _)
    rintro ⟨a, t⟩ ha ⟨b, u⟩ hb rfl
    have ha : a = h := by simpa using (List.mem_filter.mp ha).2
    have hb : b = h := by simpa using (List.mem_filter.mp hb).2
    rw [ha, hb]

section

variable (hg : f.graph = .ok g) (layout : ∀ b, b ∈ f.layout ↔ b ∈ f.blockIds)

include hg layout

/-- Every loop of a function has all its latches and blocks. -/
theorem exact_of_mem_loops (nodup : f.layout.Nodup) {lp : Loop}
    (mem : lp ∈ (f.loops g (f.dominators g)).loops) : f.IsExact g lp := by
  have body := isDeclaration_of_mem_loops mem
  have entry := entry_lt_of_layout hg layout body
  have natural := naturalLoop_of_mem_loops entry body mem
  obtain ⟨header, latches, found, head, tails, blocks⟩ := exists_latches mem
  obtain ⟨some, closing⟩ := mem_latches entry body found
  obtain ⟨all, once⟩ := mem_latches_iff entry body found
  refine ⟨fun t => ?_, ?_, fun b => ?_, ?_, fun b hb => natural.dominates (v := b.index) hb⟩
  · rw [tails, head, List.mem_map]
    constructor
    · rintro ⟨t, ht, rfl⟩
      exact ((all t).mp ht).2
    · intro closes
      refine ⟨t.index, (all t.index).mpr ⟨List.mem_map.mpr ⟨t, (layout t).mpr ?_, rfl⟩, closes⟩, rfl⟩
      rw [mem_blockIds, ← size_graph hg]
      exact closes.reached.lt_size entry
  · rw [tails]
    refine (once ?_ (nodup_next_graph hg)).map fun a b same => by simpa using same
    exact nodup.map fun a b same => BlockId.index_inj.mp same
  · rw [blocks, head, tails, mem_natural entry body some closing, ← BlockId.index_inj]
    simp
  · rw [blocks, Loop.natural, List.pairwise_map]
    exact List.pairwise_lt_range.filter _

end

/-- The loops of a function are exact.  For each block that a reachable block leads to which it
dominates there is one loop; its latches are all those reachable blocks, and its blocks are the
header and the reachable blocks from which a latch can be reached without passing the header, in
order and without repetition; the header dominates them all. -/
theorem loop_bodies_exact (targets : f.Targeted) (nodup : f.layout.Nodup)
    (layout : ∀ b, b ∈ f.layout ↔ b ∈ f.blockIds) :
    ∃ flow, f.flow = .ok flow ∧
      (∀ b c, c.index ∈ flow.graph.next b.index ↔ f.LeadsTo b c) ∧
      (flow.loops.loops.map (·.header)).Nodup ∧
      (∀ h, h ∈ flow.loops.loops.map (·.header) ↔ ∃ t, f.Closes flow.graph t h) ∧
      ∀ lp ∈ flow.loops.loops, f.IsExact flow.graph lp := by
  obtain ⟨g, hg, edges⟩ := exists_graph targets
  refine ⟨_, by rw [flow, hg]; rfl, edges, ?_, fun h => ?_,
    fun lp mem => exact_of_mem_loops hg layout nodup mem⟩
  · have headers : (f.loops g (f.dominators g)).loops.map (·.header) =
        (f.bareLoops g (f.dominators g)).map (·.header) := by
      rw [← map_bare_loops, List.map_map]
      rfl
    rw [headers]
    exact nodup_headers
  · have header := exists_header_iff hg layout (b := h)
    constructor
    · intro mem
      obtain ⟨lp, mem, same⟩ := List.mem_map.mp mem
      obtain ⟨n, there⟩ := List.mem_iff_getElem?.mp mem
      obtain ⟨t, reached, edge, dom⟩ := header.mp ⟨n, lp, there, same⟩
      exact ⟨t, reached, edge, dom⟩
    · rintro ⟨t, closes⟩
      obtain ⟨n, lp, there, same⟩ := header.mpr ⟨t, closes.reached, closes.edge, closes.dominated⟩
      exact List.mem_map.mpr ⟨lp, List.mem_of_getElem? there, same⟩

/-- A loop that is closed from two blocks and entered, against its header, from a dead one. -/
def sharedHeader : Func := assemble "shared_header" [⟨"c", .i1⟩] [
  ("entry", [⟨.jump ⟨1⟩, .void, ""⟩]),
  ("head", [⟨.branch (.arg 0) ⟨2⟩ ⟨3⟩, .void, ""⟩]),
  ("left", [⟨.branch (.arg 0) ⟨1⟩ ⟨5⟩, .void, ""⟩]),
  ("right", [⟨.jump ⟨1⟩, .void, ""⟩]),
  ("dead", [⟨.jump ⟨3⟩, .void, ""⟩]),
  ("exit", [⟨.ret none, .void, ""⟩])]

/-- The two edges to the header close one loop, which the dead block is not in. -/
theorem loop_bodies_sharedHeader : ∃ flow lp, sharedHeader.flow = .ok flow ∧
    flow.loops.loops = [lp] ∧ lp.header = ⟨1⟩ ∧ lp.latches = [⟨2⟩, ⟨3⟩] ∧
    lp.blocks = [⟨1⟩, ⟨2⟩, ⟨3⟩] ∧ sharedHeader.IsExact flow.graph lp := by
  obtain ⟨flow, answer, -, -, -, each⟩ := loop_bodies_exact (f := sharedHeader) (by decide)
    (by decide) fun b => by rw [show sharedHeader.layout = sharedHeader.blockIds by decide]
  have loops : (fun flow => flow.loops.loops.map fun lp => (lp.header, lp.latches, lp.blocks)) <$>
      sharedHeader.flow = .ok [(⟨1⟩, [⟨2⟩, ⟨3⟩], [⟨1⟩, ⟨2⟩, ⟨3⟩])] := by cbv
  have loops : flow.loops.loops.map (fun lp => (lp.header, lp.latches, lp.blocks)) =
      [(⟨1⟩, [⟨2⟩, ⟨3⟩], [⟨1⟩, ⟨2⟩, ⟨3⟩])] := by simpa [answer] using loops
  obtain ⟨lp, only, parts⟩ := List.map_eq_singleton_iff.mp loops
  simp only [Prod.mk.injEq] at parts
  exact ⟨flow, lp, answer, only, parts.1, parts.2.1, parts.2.2, each lp (by simp [only])⟩

end Func

end KernelCoarsening
