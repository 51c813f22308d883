/-
Definitions dominate uses in coarsened kernels.

A coarsened kernel keeps what every kernel has that was compiled, that a value is there where it
is read, as long as no branch is divergent.  With divergent branches it can lose it.

* `Func.Merges.scoped_right` — a merged function reads what is there, like the function it is made
  of;
* `Func.scoped_of_uniform_branches` — so does what coarsening makes of a kernel without divergent
  branches;
* `not_scoped_lateHeader` — where a region starts at the header of a loop but ends in a loop
  inside it, the copy of the region reads values from a part of the loop behind it.
-/
import KernelCoarsening.Proofs.Coarsening.Lockstep

namespace KernelCoarsening

/-! ### Kernels without divergent branches -/

/-- Where chunks are split in two, one of them is. -/
theorem exists_split_of_flatMap {chunk : InstId → List InstId} {code front back : List InstId}
    {x : InstId} (split : code.flatMap chunk = front ++ x :: back) :
    ∃ before i after start rest, code = before ++ i :: after ∧ chunk i = start ++ x :: rest ∧
      front = before.flatMap chunk ++ start := by
  induction code generalizing front with
  | nil => simp at split
  | cons i code ih =>
    rw [List.flatMap_cons, List.append_eq_append_iff] at split
    rcases split with ⟨more, rfl, later⟩ | ⟨more, here, later⟩
    · obtain ⟨before, j, after, start, rest, rfl, own, rfl⟩ := ih later
      exact ⟨i :: before, j, after, start, rest, rfl, own, by simp⟩
    · cases more with
      | nil =>
        obtain ⟨before, j, after, start, rest, rfl, own, same⟩ :=
          ih (show code.flatMap chunk = [] ++ x :: back from later.symm)
        exact ⟨i :: before, j, after, start, rest, rfl, own, by simp_all⟩
      | cons y more =>
        obtain ⟨rfl, -⟩ := List.cons.inj later
        exact ⟨[], i, code, front, more, rfl, here, rfl⟩

namespace Func

variable {f g : Func} {graph : Graph} {b d : BlockId} {i j x : InstId}

namespace Merges

variable {c : CoarseningParams} {chunk : InstId → List InstId} {replica : Nat → InstId → InstId}

/-- Where an instruction is there, so are its replicas. -/
theorem available_replica (merges : f.Merges g c chunk replica)
    {before after start rest : List InstId} (code : f.code b = before ++ after)
    (code' : g.code b = before.flatMap chunk ++ start ++ rest)
    (placed : (f.blockOf j).isSome) {k : Nat} (hk : k < c.factor)
    (there : f.Available graph j b before.length) :
    g.Available graph (replica k j) b (before.flatMap chunk ++ start).length := by
  have mem := merges.replica_mem placed hk
  rw [available_iff_mem merges.consistent code']
  rcases (available_iff_mem merges.consistent_left code).mp there with
    here | ⟨d, other, home, dominates⟩
  · exact .inl (List.mem_append_left _ (List.mem_flatMap.mpr ⟨j, here, mem⟩))
  · refine .inr ⟨d, other, merges.consistent.mem_code.mp ?_, merges.entry_eq ▸ dominates⟩
    rw [merges.code]
    exact List.mem_flatMap.mpr ⟨j, merges.consistent_left.mem_code.mpr home, mem⟩

/-- Where what an operation reads is there, so is what its replicas read. -/
theorem readsAvailable_replica (merges : f.Merges g c chunk replica)
    {before after start rest : List InstId} (code : f.code b = before ++ after)
    (code' : g.code b = before.flatMap chunk ++ start ++ rest) {op : Operation}
    (operands : ∀ j ∈ op.usedInsts, (f.blockOf j).isSome) {k : Nat} (hk : k < c.factor)
    (reads : f.ReadsAvailable graph b before.length op) :
    g.ReadsAvailable graph b (before.flatMap chunk ++ start).length
      (op.mapOperands (·.mapInst (replica k))) := by
  cases phi : op.isPhi with
  | false =>
    rw [readsAvailable_of_plain phi] at reads
    rw [readsAvailable_of_plain (by simpa using phi)]
    intro y used'
    obtain ⟨j, used, rfl⟩ := Operation.mem_usedInsts_mapInst.mp used'
    exact merges.available_replica code code' (operands j used) hk (reads j used)
  | true =>
    cases op with
    | phi incoming =>
      -- a phi reads at the ends of the blocks that it names
      intro y source mem last hlast
      obtain ⟨⟨v, source'⟩, hv, same⟩ := List.mem_map.mp mem
      obtain ⟨value, rfl⟩ : v.mapInst (replica k) = .inst y ∧ source' = source := by
        simpa using same
      cases v with
      | inst j =>
        obtain rfl : replica k j = y := by simpa [Value.mapInst] using value
        have used : j ∈ (Operation.phi incoming).usedInsts :=
          List.mem_filterMap.mpr ⟨_, List.mem_map_of_mem hv, rfl⟩
        obtain ⟨last', hlast', insts'⟩ := exists_block (f := f) (b := source')
          (merges.size_blocks ▸ lt_of_block hlast)
        have there := reads j source' hv last' hlast'
        rw [insts'] at there
        have there' := merges.available_replica
          (show f.code source' = f.code source' ++ [] by simp)
          (show g.code source' = (f.code source').flatMap chunk ++ [] ++ [] by simp [merges.code])
          (operands j used) hk there
        simpa [← code_of_block hlast, merges.code] using there'
      | _ => simp [Value.mapInst] at value
    | _ => simp [Operation.isPhi] at phi

/-- In a merged function definitions dominate uses, if they do in the function it is made of. -/
theorem scoped_right (merges : f.Merges g c chunk replica) (inScope : f.Scoped graph) :
    g.Scoped graph := by
  intro b block place x op' reached hblock here hop
  rw [merges.entry_eq] at reached
  rw [← code_of_block hblock] at here
  obtain ⟨front, back, split, rfl⟩ : ∃ front back, g.code b = front ++ x :: back ∧
      front.length = place := by
    obtain ⟨bound, rfl⟩ := List.getElem?_eq_some_iff.mp here
    exact ⟨(g.code b).take place, (g.code b).drop (place + 1), by simp, by simp; omega⟩
  obtain ⟨before, i, after, start, rest, code, own, rfl⟩ :=
    exists_split_of_flatMap (merges.code b ▸ split)
  have placed := merges.placed (b := b) (i := i) (by simp [code])
  obtain ⟨op, ty, line, piece⟩ := merges.exists_piece placed
  have operands := merges.formed.operands i op ty placed line
  obtain ⟨block', hblock', insts⟩ := exists_block (f := f) (b := b)
    (merges.size_blocks ▸ lt_of_block hblock)
  have reads : f.ReadsAvailable graph b before.length op :=
    inScope b block' before.length i op reached hblock' (by simp [insts, code])
      (operation_eq_ok_iff.mpr ⟨ty, line⟩)
  obtain ⟨ty', line'⟩ := operation_eq_ok_iff.mp hop
  rcases piece.line_of_split merges.positive own with
    ⟨k, hk, lineX⟩ | ⟨-, -, op₁, lineX, plain, -, earlier⟩
  · obtain ⟨rfl, -⟩ : op.mapOperands (·.mapInst (replica k)) = op' ∧ ty = ty' := by
      simpa [lineX] using line'
    exact merges.readsAvailable_replica code split operands hk reads
  · -- what a read is computed with stands before it in the chunk
    obtain ⟨rfl, -⟩ : op₁ = op' ∧ ty = ty' := by simpa [lineX] using line'
    rw [readsAvailable_of_plain plain]
    intro y used
    exact (available_iff_mem merges.consistent split).mpr
      (.inl (List.mem_append_right _ (earlier y used)))

end Merges

/-- Definitions dominate uses in what coarsening makes of a kernel without divergent branches, if
they do in the kernel.  It makes something; if costs are asked for, exactly if no trip count is
computed with a quotient that has no word. -/
theorem scoped_of_uniform_branches {shared : List GlobalId} {c : CoarseningParams}
    {found : DivergentFunc} (consistent : f.Consistent) (flawless : f.firstFlaw? = .ok none)
    (values : f.ReadsValues) (calls : f.CallsRead c.dim) (factor : 2 ≤ c.factor)
    (stride : 1 ≤ c.stride)
    (analyzed : f.analyze (.only c.dim) shared c.level c.dim = .ok (.ok found))
    (reached : ∀ b ∈ f.layout, found.flow.graph.Reaches f.entry.index b.index)
    (branches : found.divergence.branches = []) (inScope : f.Scoped found.flow.graph)
    (costs : Option CostTable) :
    ((∃ made, f.coarsen shared c costs = .ok (.ok made)) ↔
        (costs.isSome → f.RoundsFit found.flow)) ∧
      ∀ made, f.coarsen shared c costs = .ok (.ok made) →
        made.func.graph = .ok found.flow.graph ∧ made.func.Scoped found.flow.graph := by
  obtain ⟨ops, accesses, alike⟩ := exists_alike consistent flawless values calls factor stride
    analyzed reached branches
  obtain ⟨succeeds, merges⟩ := alike.coarsen_merges flawless analyzed costs
  refine ⟨succeeds, fun made coarsened => ?_⟩
  obtain ⟨chunk, replica, merges, -⟩ := merges made coarsened
  obtain ⟨hg, -⟩ := flow_eq_ok alike.analyzed.flow
  exact ⟨merges.graph_eq.trans hg, merges.scoped_right inScope⟩

end Func

theorem scoped_tally : tally.Scoped tallyFound.flow.graph ∧
    ∃ made, tally.coarsen [] ⟨.thread, .x, 2, 1⟩ none = .ok (.ok made) ∧
      made.func.graph = .ok tallyFound.flow.graph ∧ made.func.Scoped tallyFound.flow.graph := by
  have graph : tally.graph = .ok tallyFound.flow.graph := by cbv
  have inScope : tally.Scoped tallyFound.flow.graph :=
    (Func.scoped_iff (by decide) (by decide) graph).mpr (by cbv)
  obtain ⟨succeeds, dominated⟩ := Func.scoped_of_uniform_branches (c := ⟨.thread, .x, 2, 1⟩)
    (Func.consistent_assemble ..) (by cbv) (by decide) (by decide) (by decide) (by decide)
    analyze_tally reaches_tally rfl inScope none
  obtain ⟨made, coarsened⟩ := succeeds.mpr (by simp)
  exact ⟨inScope, made, coarsened, dominated made coarsened⟩

/-! ### A region that covers only a part of its loop -/

/-- A divergent branch at the header `head` of a loop, which is also in a loop around `lead`.
All its ways to an end go on to `wait`, which lies in the loop of `head` and in a loop of its
own. -/
def lateHeader : Func := .assemble "late_header" [⟨"n", .i32⟩, ⟨"d", .i1⟩] [
  ("entry", [
    ⟨.call "llvm.nvvm.read.ptx.sreg.tid.x" [], .i32, "t"⟩,
    ⟨.jump ⟨1⟩, .void, ""⟩]),
  ("lead", [⟨.jump ⟨2⟩, .void, ""⟩]),
  ("head", [
    ⟨.phi [(.const 0, ⟨1⟩), (.inst ⟨7⟩, ⟨4⟩)], .i32, "h"⟩,
    ⟨.compare .slt (.inst ⟨0⟩) (.arg 0), .i1, "c"⟩,
    ⟨.branch (.inst ⟨4⟩) ⟨1⟩ ⟨3⟩, .void, ""⟩]),
  ("wait", [⟨.branch (.arg 1) ⟨3⟩ ⟨4⟩, .void, ""⟩]),
  ("latch", [
    ⟨.binary .add (.inst ⟨3⟩) (.const 1), .i32, "x"⟩,
    ⟨.branch (.arg 1) ⟨2⟩ ⟨5⟩, .void, ""⟩]),
  ("exit", [⟨.ret none, .void, ""⟩])]

/-- What the analysis finds in the kernel: a region from `head` to `wait`. -/
def lateHeaderFound : DivergentFunc where
  func := lateHeader
  flow :=
    { graph := ⟨#[[1], [2], [1, 3], [3, 4], [2, 5], []], by decide⟩
      dom := ⟨#[some 0, some 0, some 1, some 2, some 3, some 4]⟩
      pdom := ⟨#[some 1, some 2, some 3, some 4, some 5, some 6, some 6], 6⟩
      loops := ⟨[⟨⟨1⟩, [⟨1⟩, ⟨2⟩, ⟨3⟩, ⟨4⟩], [⟨2⟩], none, 1⟩,
        ⟨⟨2⟩, [⟨2⟩, ⟨3⟩, ⟨4⟩], [⟨4⟩], some 0, 2⟩, ⟨⟨3⟩, [⟨3⟩], [⟨3⟩], some 1, 3⟩]⟩ }
  grid := ⟨[(⟨0⟩, .threadId, .x)], []⟩
  divergence :=
    { level := .thread
      dim := .x
      set := [⟨5⟩, ⟨4⟩, ⟨0⟩]
      placed := [(⟨0⟩, ⟨0⟩), (⟨4⟩, ⟨2⟩), (⟨5⟩, ⟨2⟩)]
      branches := [⟨5⟩]
      regions := [⟨⟨2⟩, ⟨3⟩, [⟨2⟩, ⟨1⟩, ⟨3⟩], [⟨3⟩], [⟨7⟩, ⟨0⟩]⟩]
      reads := [⟨0⟩] }

/-- The kernel with its region in a form that can be repeated. -/
def lateHeaderSplit : Func where
  name := "late_header"
  params := [⟨"n", .i32⟩, ⟨"d", .i1⟩]
  returnTy := .void
  convention := .kernel
  blocks := #[
    ⟨"entry", [⟨0⟩, ⟨1⟩]⟩,
    ⟨"lead", [⟨2⟩]⟩,
    ⟨"head", [⟨3⟩, ⟨4⟩, ⟨5⟩]⟩,
    ⟨"wait", [⟨10⟩]⟩,
    ⟨"latch", [⟨7⟩, ⟨8⟩]⟩,
    ⟨"exit", [⟨9⟩]⟩,
    ⟨"wait.split", [⟨6⟩]⟩]
  layout := [⟨0⟩, ⟨1⟩, ⟨2⟩, ⟨3⟩, ⟨6⟩, ⟨4⟩, ⟨5⟩]
  insts := #[
    ⟨.call "llvm.nvvm.read.ptx.sreg.tid.x" [], .i32, "t", some ⟨0⟩⟩,
    ⟨.jump ⟨1⟩, .void, "", some ⟨0⟩⟩,
    ⟨.jump ⟨2⟩, .void, "", some ⟨1⟩⟩,
    ⟨.phi [(.const 0, ⟨1⟩), (.inst ⟨7⟩, ⟨4⟩)], .i32, "h", some ⟨2⟩⟩,
    ⟨.compare .slt (.inst ⟨0⟩) (.arg 0), .i1, "c", some ⟨2⟩⟩,
    ⟨.branch (.inst ⟨4⟩) ⟨1⟩ ⟨3⟩, .void, "", some ⟨2⟩⟩,
    ⟨.branch (.arg 1) ⟨3⟩ ⟨4⟩, .void, "", some ⟨6⟩⟩,
    ⟨.binary .add (.inst ⟨3⟩) (.const 1), .i32, "x", some ⟨4⟩⟩,
    ⟨.branch (.arg 1) ⟨2⟩ ⟨5⟩, .void, "", some ⟨4⟩⟩,
    ⟨.ret none, .void, "", some ⟨5⟩⟩,
    ⟨.jump ⟨6⟩, .void, "", some ⟨3⟩⟩]

/-- What the analysis finds in the kernel in form. -/
def lateHeaderSplitFound : DivergentFunc where
  func := lateHeaderSplit
  flow :=
    { graph := ⟨#[[1], [2], [1, 3], [6], [2, 5], [], [3, 4]], by decide⟩
      dom := ⟨#[some 0, some 0, some 1, some 2, some 6, some 4, some 3]⟩
      pdom := ⟨#[some 1, some 2, some 3, some 6, some 5, some 7, some 4, some 7], 7⟩
      loops := ⟨[⟨⟨1⟩, [⟨1⟩, ⟨2⟩, ⟨3⟩, ⟨4⟩, ⟨6⟩], [⟨2⟩], none, 1⟩,
        ⟨⟨2⟩, [⟨2⟩, ⟨3⟩, ⟨4⟩, ⟨6⟩], [⟨4⟩], some 0, 2⟩, ⟨⟨3⟩, [⟨3⟩, ⟨6⟩], [⟨6⟩], some 1, 3⟩]⟩ }
  grid := ⟨[(⟨0⟩, .threadId, .x)], []⟩
  divergence :=
    { level := .thread
      dim := .x
      set := [⟨5⟩, ⟨4⟩, ⟨0⟩]
      placed := [(⟨0⟩, ⟨0⟩), (⟨4⟩, ⟨2⟩), (⟨5⟩, ⟨2⟩)]
      branches := [⟨5⟩]
      regions := [⟨⟨2⟩, ⟨3⟩, [⟨2⟩, ⟨1⟩, ⟨3⟩], [⟨3⟩], [⟨7⟩, ⟨0⟩]⟩]
      reads := [⟨0⟩] }

/-- What coarsening makes of the kernel.  Control comes to the copy of `head` (block 7) from
`wait` (block 3), and there the phi of the copy reads `x`, number 7, of block 4. -/
def lateHeaderCoarse : Func where
  name := "late_header"
  params := [⟨"n", .i32⟩, ⟨"d", .i1⟩]
  returnTy := .void
  convention := .kernel
  blocks := #[
    ⟨"entry", [⟨0⟩, ⟨11⟩, ⟨12⟩, ⟨13⟩, ⟨14⟩, ⟨15⟩, ⟨1⟩]⟩,
    ⟨"lead", [⟨2⟩]⟩,
    ⟨"head", [⟨3⟩, ⟨4⟩, ⟨5⟩]⟩,
    ⟨"wait", [⟨10⟩]⟩,
    ⟨"latch", [⟨7⟩, ⟨8⟩]⟩,
    ⟨"exit", [⟨9⟩]⟩,
    ⟨"wait.split", [⟨6⟩]⟩,
    ⟨"head.cf2", [⟨16⟩, ⟨17⟩, ⟨18⟩]⟩,
    ⟨"lead.cf2", [⟨19⟩]⟩,
    ⟨"wait.cf2", [⟨20⟩]⟩]
  layout := [⟨0⟩, ⟨1⟩, ⟨2⟩, ⟨3⟩, ⟨6⟩, ⟨4⟩, ⟨5⟩, ⟨7⟩, ⟨8⟩, ⟨9⟩]
  insts := #[
    ⟨.call "llvm.nvvm.read.ptx.sreg.tid.x" [], .i32, "t", some ⟨0⟩⟩,
    ⟨.jump ⟨1⟩, .void, "", some ⟨0⟩⟩,
    ⟨.jump ⟨2⟩, .void, "", some ⟨1⟩⟩,
    ⟨.phi [(.const 0, ⟨1⟩), (.inst ⟨7⟩, ⟨4⟩)], .i32, "h", some ⟨2⟩⟩,
    ⟨.compare .slt (.inst ⟨14⟩) (.arg 0), .i1, "c", some ⟨2⟩⟩,
    ⟨.branch (.inst ⟨4⟩) ⟨1⟩ ⟨3⟩, .void, "", some ⟨2⟩⟩,
    ⟨.branch (.arg 1) ⟨3⟩ ⟨4⟩, .void, "", some ⟨6⟩⟩,
    ⟨.binary .add (.inst ⟨3⟩) (.const 1), .i32, "x", some ⟨4⟩⟩,
    ⟨.branch (.arg 1) ⟨2⟩ ⟨5⟩, .void, "", some ⟨4⟩⟩,
    ⟨.ret none, .void, "", some ⟨5⟩⟩,
    ⟨.jump ⟨7⟩, .void, "", some ⟨3⟩⟩,
    ⟨.binary .udiv (.inst ⟨0⟩) (.const 1), .i32, "t.div", some ⟨0⟩⟩,
    ⟨.binary .mul (.inst ⟨11⟩) (.const 2), .i32, "t.mul", some ⟨0⟩⟩,
    ⟨.binary .urem (.inst ⟨0⟩) (.const 1), .i32, "t.rem", some ⟨0⟩⟩,
    ⟨.binary .add (.inst ⟨12⟩) (.inst ⟨13⟩), .i32, "t.base", some ⟨0⟩⟩,
    ⟨.binary .add (.inst ⟨14⟩) (.const 1), .i32, "t.cf2", some ⟨0⟩⟩,
    ⟨.phi [(.const 0, ⟨8⟩), (.inst ⟨7⟩, ⟨3⟩)], .i32, "h.cf2", some ⟨7⟩⟩,
    ⟨.compare .slt (.inst ⟨15⟩) (.arg 0), .i1, "c.cf2", some ⟨7⟩⟩,
    ⟨.branch (.inst ⟨17⟩) ⟨8⟩ ⟨9⟩, .void, "", some ⟨7⟩⟩,
    ⟨.jump ⟨7⟩, .void, "", some ⟨8⟩⟩,
    ⟨.jump ⟨6⟩, .void, "", some ⟨9⟩⟩]

/-- The graph of the coarsened kernel. -/
def lateHeaderCoarseGraph : Graph where
  succs := #[[1], [2], [1, 3], [7], [2, 5], [], [3, 4], [8, 9], [7], [6]]
  closed := by decide

theorem analyze_lateHeader :
    lateHeader.analyze (.only .x) [] .thread .x = .ok (.ok lateHeaderFound) :=
  Func.analyze_eq_ok_iff.mpr ⟨by cbv, by rfl, by cbv, rfl⟩

theorem analyze_lateHeaderSplit :
    lateHeaderSplit.analyze (.only .x) [] .thread .x = .ok (.ok lateHeaderSplitFound) :=
  Func.analyze_eq_ok_iff.mpr ⟨by cbv, by rfl, by cbv, rfl⟩

theorem normalize_lateHeader :
    lateHeader.normalize [] ⟨.thread, .x, 2, 1⟩ = .ok (.ok lateHeaderSplitFound) :=
  have extracted : lateHeader.extractRegions lateHeaderFound.divergence.regions =
      .ok (none, lateHeaderSplit, lateHeaderSplitFound.divergence.regions) := by cbv
  Func.normalize_eq_ok analyze_lateHeader extracted analyze_lateHeaderSplit (by cbv)

theorem coarsen_lateHeader : lateHeader.coarsen [] ⟨.thread, .x, 2, 1⟩ none =
    .ok (.ok ⟨lateHeaderCoarse, none, ⟨0, 1, 0, 0⟩⟩) := by
  simp only [Func.coarsen, normalize_lateHeader, bind, Except.bind, pure, Except.pure]
  cbv

/-- Coarsening succeeds for a well-formed kernel in which all blocks can be reached, no operand
names a terminator and definitions dominate uses, and in what it makes they do not. -/
theorem not_scoped_lateHeader :
    lateHeader.Consistent ∧ lateHeader.firstFlaw? = .ok none ∧
      (∀ b ∈ lateHeader.blockIds, lateHeaderFound.flow.dom.isReachable b) ∧
      lateHeader.ReadsValues ∧
      lateHeader.graph = .ok lateHeaderFound.flow.graph ∧
      lateHeader.Scoped lateHeaderFound.flow.graph ∧
      lateHeader.coarsen [] ⟨.thread, .x, 2, 1⟩ none =
        .ok (.ok ⟨lateHeaderCoarse, none, ⟨0, 1, 0, 0⟩⟩) ∧
      lateHeaderCoarse.graph = .ok lateHeaderCoarseGraph ∧
      ¬lateHeaderCoarse.Scoped lateHeaderCoarseGraph := by
  have graph : lateHeader.graph = .ok lateHeaderFound.flow.graph := by cbv
  have coarse : lateHeaderCoarse.graph = .ok lateHeaderCoarseGraph := by cbv
  refine ⟨Func.consistent_assemble .., by cbv, by decide, by decide, graph,
    (Func.scoped_iff (by decide) (by decide) graph).mpr (by cbv), coarsen_lateHeader, coarse, ?_⟩
  rw [Func.scoped_iff (by decide) (by decide) coarse, Bool.not_eq_true]
  cbv

end KernelCoarsening
