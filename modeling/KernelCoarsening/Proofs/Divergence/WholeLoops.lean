/-
Which regions take in the whole loop of their header.

The region of a loop header goes on to the exit of the loop if the ways from the header meet in a
block whose innermost loop is this one.  If they meet in the loop, but in a loop inside it, then
the region ends there and leaves out the rest:

* `Region.CoversLoop` — a region ends outside a loop and has all blocks of it;
* `Func.coversLoop_iff` — the region of a header covers its loop exactly if the ways from the
  header do not meet in a loop inside it;
* `not_coversLoop_nestedWait` — a loop with one exit that the region of its header leaves only half
  covered.
-/
import KernelCoarsening.Proofs.Divergence.Enclosure
import KernelCoarsening.Proofs.Flow.LoopNesting

namespace KernelCoarsening

namespace Region

variable {f : Func} {flow : Flow} {header p e : BlockId} {r : Region} {lp : Loop} {n : Nat}

/-- A region ends outside a loop and has all blocks of it. -/
def CoversLoop (r : Region) (lp : Loop) : Prop :=
  r.exiting ∉ lp.blocks ∧ ∀ b ∈ lp.blocks, b ∈ r.blocks

/-- The region of a loop header goes on to the only exit of the loop if the innermost loop around
the post-dominator is this one. -/
theorem exitingFor_of_loopOf? (nested : LoopForest.Nested flow.loops.loops)
    (there : flow.loops.loops[n]? = some lp) (heads : lp.header = header)
    (parent : flow.pdom.parent? header = some p) (own : flow.loops.loopOf? p = some n)
    (h : exitingFor f flow header = .ok (.ok e)) : f.uniqueLoopExit? lp = .ok (some e) := by
  have innermost : flow.loops.loopOf? header = some n :=
    heads ▸ LoopForest.loopOf?_header nested there
  have around : flow.loops.innermost? header = some lp := by
    simp [LoopForest.innermost?, innermost, there]
  have isHeader : flow.loops.isHeader header = true := by simp [LoopForest.isHeader, around, heads]
  simp only [exitingFor, parent, isHeader, innermost, own, around, Bool.and_self, beq_self_eq_true,
    if_true, bind_eq_ok_iff] at h
  obtain ⟨exit, hexit, h⟩ := h
  cases exit with
  | some exit =>
    obtain rfl : exit = e := by simpa [pure, Except.pure] using h
    exact hexit
  | none =>
    obtain ⟨_, _, h⟩ := bind_eq_ok_iff.mp h
    simp [pure, Except.pure] at h

/-- Otherwise it ends at the post-dominator. -/
theorem exitingFor_of_ne_loopOf? (nested : LoopForest.Nested flow.loops.loops)
    (there : flow.loops.loops[n]? = some lp) (heads : lp.header = header)
    (parent : flow.pdom.parent? header = some p) (other : flow.loops.loopOf? p ≠ some n)
    (h : exitingFor f flow header = .ok (.ok e)) : e = p := by
  have innermost : flow.loops.loopOf? header = some n :=
    heads ▸ LoopForest.loopOf?_header nested there
  have apart : (some n == flow.loops.loopOf? p) = false := by simpa using Ne.symm other
  simp only [exitingFor, parent, innermost, apart, Bool.and_false] at h
  simpa [pure, Except.pure] using h.symm

/-- A block of a loop comes before whatever lies outside it, on ways from the header. -/
theorem before_of_mem_loop {g : Graph} {root stop : Nat}
    (loop : g.NaturalLoop root lp.header.index fun v => (⟨v⟩ : BlockId) ∈ lp.blocks)
    (out : (⟨stop⟩ : BlockId) ∉ lp.blocks) {b : BlockId} (hb : b ∈ lp.blocks) :
    g.Before stop lp.header.index b.index := by
  obtain ⟨nodes, way⟩ := loop.reached (v := b.index) hb
  obtain ⟨behind, p, within⟩ :=
    loop.path_inside (.refl g root) way (loop.dominates (v := b.index) hb nodes way) hb
  exact ⟨behind, p, fun mem => out (within stop mem)⟩

/-- A region that begins at the header of a loop covers it if it ends outside. -/
theorem Spans.coversLoop_iff_leaves {g : Graph} (h : r.Spans f g)
    (loop : g.NaturalLoop f.entry.index lp.header.index fun v => (⟨v⟩ : BlockId) ∈ lp.blocks)
    (heads : lp.header = r.header) : r.CoversLoop lp ↔ r.exiting ∉ lp.blocks := by
  refine ⟨And.left, fun out => ⟨out, fun b hb => (h.mem b).mpr (.inl ?_)⟩⟩
  rw [← heads]
  exact before_of_mem_loop loop out hb

end Region

namespace Func

variable {f : Func} {selector : DimensionSelector} {shared : List GlobalId} {level : Level}
  {dim : Dimension} {found : DivergentFunc} {r : Region} {lp : Loop} {n : Nat}

/-- The region of a loop header covers the loop exactly if the first block that all ways from the
header to an end share lies outside the loop, or in it and in no loop inside it. -/
theorem coversLoop_iff (consistent : f.Consistent)
    (h : f.analyze selector shared level dim = .ok (.ok found))
    (hr : r ∈ found.divergence.regions) (there : found.flow.loops.loops[n]? = some lp)
    (heads : lp.header = r.header) :
    ∃ p, found.flow.pdom.parent? r.header = some p ∧
      (r.CoversLoop lp ↔ p ∉ lp.blocks ∨ found.flow.loops.loopOf? p = some n) := by
  obtain ⟨ops, accesses, a⟩ := analyzed h
  obtain ⟨branch, hbranch, -, exiting, -⟩ := a.exists_madeFor hr
  have body := ((a.mem_branches consistent).mp hbranch).1
  have span := a.spans consistent hr
  obtain ⟨hg, hdom, -, hloops⟩ := flow_eq_ok a.flow
  rw [hdom] at hloops
  have layout : ∀ b, b ∈ f.layout ↔ b ∈ f.blockIds := fun b => by
    rw [consistent.mem_layout, mem_blockIds]
  have nested : LoopForest.Nested found.flow.loops.loops := hloops ▸ nested_loops hg layout
  have loop := naturalLoop_of_mem_loops span.entry body (hloops ▸ List.mem_of_getElem? there)
  obtain ⟨p, parent⟩ := Region.exists_parent? exiting
  refine ⟨p, parent, (span.coversLoop_iff_leaves loop heads).trans ?_⟩
  by_cases own : found.flow.loops.loopOf? p = some n
  · have exit := Region.exitingFor_of_loopOf? nested there heads parent own exiting
    have valid : ∀ b ∈ lp.blocks, b.index < found.flow.graph.size :=
      fun b hb => (loop.reached (v := b.index) hb).lt_size span.entry
    have out := (uniqueLoopExit?_eq_some hg valid exit).1
    simp [own, out]
  · obtain rfl := Region.exitingFor_of_ne_loopOf? nested there heads parent own exiting
    simp [own]

/-- The region of `head` goes on behind the block in which the ways from there meet. -/
theorem guardedTurn_covered : ∃ r ∈ guardedTurnFound.divergence.regions,
    ∃ lp ∈ guardedTurnFound.flow.loops.loops, lp.header = r.header ∧ r.CoversLoop lp := by
  refine ⟨_, List.mem_singleton_self _, _, List.mem_singleton_self _, rfl, ?_⟩
  obtain ⟨p, parent, covered⟩ := coversLoop_iff (consistent_assemble ..) analyze_guardedTurn
    (List.mem_singleton_self _) (n := 0) rfl rfl
  obtain rfl : ⟨3⟩ = p := by simpa using (show some _ = some _ from parent)
  exact covered.mpr (.inr (by decide))

end Func

/-! ### A loop that is covered in part -/

/-- A loop whose header branches on the thread, and with a loop inside it in which the ways from
there meet. -/
def nestedWait : Func := .assemble "nested_wait" [⟨"n", .i32⟩, ⟨"d", .i1⟩] [
  ("entry", [
    ⟨.call "llvm.nvvm.read.ptx.sreg.tid.x" [], .i32, "t"⟩,
    ⟨.compare .slt (.inst ⟨0⟩) (.arg 0), .i1, "c"⟩,
    ⟨.jump ⟨1⟩, .void, ""⟩]),
  ("head", [⟨.branch (.inst ⟨1⟩) ⟨2⟩ ⟨3⟩, .void, ""⟩]),
  ("side", [⟨.jump ⟨3⟩, .void, ""⟩]),
  ("wait", [⟨.branch (.arg 1) ⟨3⟩ ⟨4⟩, .void, ""⟩]),
  ("latch", [⟨.branch (.arg 1) ⟨1⟩ ⟨5⟩, .void, ""⟩]),
  ("exit", [⟨.ret none, .void, ""⟩])]

/-- What the analysis finds: one region, from `head` to `wait`. -/
def nestedWaitFound : DivergentFunc where
  func := nestedWait
  flow :=
    { graph := ⟨#[[1], [2, 3], [3], [3, 4], [1, 5], []], by decide⟩
      dom := ⟨#[some 0, some 0, some 1, some 1, some 3, some 4]⟩
      pdom := ⟨#[some 1, some 3, some 3, some 4, some 5, some 6, some 6], 6⟩
      loops := ⟨[⟨⟨1⟩, [⟨1⟩, ⟨2⟩, ⟨3⟩, ⟨4⟩], [⟨4⟩], none, 1⟩, ⟨⟨3⟩, [⟨3⟩], [⟨3⟩], some 0, 2⟩]⟩ }
  grid := ⟨[(⟨0⟩, .threadId, .x)], []⟩
  divergence :=
    { level := .thread
      dim := .x
      set := [⟨3⟩, ⟨1⟩, ⟨0⟩]
      placed := [(⟨0⟩, ⟨0⟩), (⟨1⟩, ⟨0⟩), (⟨3⟩, ⟨1⟩)]
      branches := [⟨3⟩]
      regions := [⟨⟨1⟩, ⟨3⟩, [⟨1⟩, ⟨2⟩, ⟨3⟩], [], [⟨1⟩]⟩]
      reads := [⟨0⟩] }

/-- The header `head` of a loop with one exit has a region that ends at `wait`, which lies in the
loop, and that leaves out the block `latch` of the loop. -/
theorem not_coversLoop_nestedWait :
    nestedWait.Consistent ∧ nestedWait.firstFlaw? = .ok none ∧
      nestedWait.analyze (.only .x) [] .thread .x = .ok (.ok nestedWaitFound) ∧
      ∃ r ∈ nestedWaitFound.divergence.regions, ∃ lp ∈ nestedWaitFound.flow.loops.loops,
        lp.header = r.header ∧ nestedWait.uniqueLoopExit? lp = .ok (some ⟨5⟩) ∧
        r.exiting ∈ lp.blocks ∧ ⟨4⟩ ∈ lp.blocks ∧ ⟨4⟩ ∉ r.blocks ∧ ¬ r.CoversLoop lp := by
  refine ⟨Func.consistent_assemble .., by cbv,
    Func.analyze_eq_ok_iff.mpr ⟨by cbv, by rfl, by cbv, rfl⟩, _, List.mem_singleton_self _, _,
    List.mem_cons_self, rfl, by cbv, by decide, by decide, by decide, fun covers => ?_⟩
  exact absurd covers.1 (by decide)

end KernelCoarsening
