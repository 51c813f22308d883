/-
Costs can be estimated wherever instructions read what is there.

The estimate follows handles to placed instructions, to what these read and to blocks of loops, so
it has an answer for every function in which placed instructions read only instructions that exist,
unless the rounds of a loop are computed with a quotient that has no word.
Its products and sums saturate, and where on the way they do so makes no difference:

* `Cost.foldl_mul`, `Cost.sum_map_min` — a saturating product or sum is the exact one, up to the
  limit;
* `Func.loopsCounted_iff` — the trip count of each loop is known or unknown, but not a fault;
* `Func.exactCost` — the cost of an instruction without a limit;
* `Func.weightedCost_eq` — the cost of an instruction is the exact one, up to the limit;
* `Func.totalCost_eq`, `Func.divergentCost_eq` — the costs of a kernel, over the lists that their
  sums go through;
* `Func.answers_costReport_iff` — when the costs of a kernel are there.
-/
import KernelCoarsening.Cost.Estimate
import KernelCoarsening.Proofs.Coarsening.Preservation
import KernelCoarsening.Proofs.Divergence.Discovery
import KernelCoarsening.Proofs.Flow.Counter
import KernelCoarsening.Proofs.Flow.LoopNesting
import KernelCoarsening.Proofs.Ir.Wiring

namespace KernelCoarsening

/-! ### Saturation -/

namespace Cost

/-- Where a factor of a product saturates makes no difference. -/
theorem mul_min (c a : Nat) : mul c (min a limit) = min (c * a) limit := by
  unfold mul
  rcases Nat.eq_zero_or_pos c with rfl | positive
  · simp
  · rcases Nat.le_total a limit with small | large
    · rw [Nat.min_eq_left small]
    · have first : limit ≤ c * limit := Nat.le_mul_of_pos_left _ positive
      have second : limit ≤ c * a := large.trans (Nat.le_mul_of_pos_left _ positive)
      rw [Nat.min_eq_right large, Nat.min_eq_right first, Nat.min_eq_right second]

theorem min_mul (a c : Nat) : mul (min a limit) c = min (c * a) limit := by
  rw [mul, Nat.mul_comm, ← mul, mul_min]

theorem foldl_mul (factors : List Nat) (a : Nat) :
    factors.foldl mul (min a limit) = min (a * factors.prod) limit := by
  induction factors generalizing a with
  | nil => simp
  | cons c factors ih =>
    rw [List.foldl_cons, min_mul, ih, List.prod_cons, Nat.mul_comm c, Nat.mul_assoc]

/-- Where terms of a sum saturate makes no difference. -/
theorem add_min (a b : Nat) : add (min a limit) (min b limit) = min (a + b) limit := by
  unfold add
  omega

theorem foldl_add {α : Type} (cost : α → Nat) (xs : List α) (a : Nat) :
    (xs.map fun x => min (cost x) limit).foldl add (min a limit) =
      min (a + (xs.map cost).sum) limit := by
  induction xs generalizing a with
  | nil => simp
  | cons x xs ih =>
    rw [List.map_cons, List.foldl_cons, add_min, ih, List.map_cons, List.sum_cons, Nat.add_assoc]

theorem sum_map_min {α : Type} (cost : α → Nat) (xs : List α) :
    sum (xs.map fun x => min (cost x) limit) = min (xs.map cost).sum limit := by
  simpa [sum] using foldl_add cost xs 0

end Cost

/-! ### Trip counts -/

namespace Func

variable {f : Func} {b : BlockId} {i j : InstId} {op : Operation}

theorem exists_operation (inside : i.index < f.insts.size) : ∃ op, f.operation i = .ok op := by
  obtain ⟨inst, hi⟩ := exists_inst inside
  exact ⟨inst.op, map_eq_ok_iff.mpr ⟨inst, hi, rfl⟩⟩

section

variable (consistent : f.Consistent) (defined : f.Defined)
include consistent defined

theorem exists_exitTest? (lp : Loop) (inside : b.index < f.blocks.size) (tested : InstId) :
    ∃ answer, f.exitTest? lp b tested = .ok answer := by
  obtain ⟨term, hterm, mem⟩ := consistent.exists_terminator inside
  cases term with
  | none => exact ⟨none, by simp [exitTest?, hterm, bind, Except.bind, pure, Except.pure]⟩
  | some last =>
    have placed : (f.blockOf last).isSome :=
      Option.isSome_of_eq_some (consistent.mem_code.mp (mem last rfl))
    obtain ⟨op, hop⟩ := exists_operation (lt_of_placed placed)
    simp only [exitTest?, hterm, hop, bind, Except.bind]
    split
    · rename_i cond yes no
      obtain ⟨op', hop'⟩ := exists_operation (defined last _ placed hop cond
        (by simp [Operation.usedInsts, Operation.operands, Value.inst?]))
      simp only [hop']
      split
      · split
        · exact ⟨none, rfl⟩
        · split <;> exact ⟨_, rfl⟩
      · exact ⟨none, rfl⟩
    · exact ⟨none, rfl⟩

theorem exists_counterAmong? {lp : Loop} {preheader latch : BlockId}
    (header : lp.header.index < f.blocks.size) (inside : latch.index < f.blocks.size)
    {phis : List InstId} (placed : ∀ i ∈ phis, (f.blockOf i).isSome) :
    ∃ found, f.counterAmong? lp preheader latch phis = .ok found := by
  induction phis with
  | nil => exact ⟨none, rfl⟩
  | cons phi rest ih =>
    rw [List.forall_mem_cons] at placed
    obtain ⟨found, later⟩ := ih placed.2
    obtain ⟨op, hop⟩ := exists_operation (lt_of_placed placed.1)
    simp only [counterAmong?, hop, bind, Except.bind]
    split
    · rename_i incoming
      split
      · split
        · rename_i next named
          have used : next ∈ (Operation.phi incoming).usedInsts := by
            obtain ⟨⟨v, b⟩, hv, rfl⟩ := Option.map_eq_some_iff.mp named
            have mem := List.mem_map_of_mem (f := (·.1)) (List.mem_of_find?_eq_some hv)
            exact List.mem_filterMap.mpr ⟨_, mem, rfl⟩
          obtain ⟨op', hop'⟩ := exists_operation (defined phi _ placed.1 hop next used)
          simp only [hop']
          obtain ⟨first, hfirst⟩ := exists_exitTest? consistent defined lp header phi
          obtain ⟨second, hsecond⟩ := exists_exitTest? consistent defined lp inside next
          simp only [hfirst, hsecond]
          split
          · split
            · split
              · exact ⟨_, rfl⟩
              · split
                · exact ⟨_, rfl⟩
                · exact ⟨found, later⟩
            · exact ⟨none, rfl⟩
          · exact ⟨found, later⟩
        · exact ⟨found, later⟩
      · exact ⟨found, later⟩
    · exact ⟨found, later⟩

/-- The search for the counter of a loop comes to an end. -/
theorem exists_counter? {lp : Loop} (g : Graph) (header : lp.header.index < f.blocks.size)
    (inside : ∀ t ∈ lp.latches, t.index < f.blocks.size) :
    ∃ found, f.counter? g lp = .ok found := by
  unfold counter?
  split
  · rename_i latch only
    split
    · rename_i preheader _
      simp only [consistent.phis_eq header, bind, Except.bind]
      refine exists_counterAmong? consistent defined header (inside latch (by simp [only])) ?_
      intro i hi
      exact Option.isSome_of_eq_some (consistent.mem_code.mp ((List.takeWhile_sublist _).subset hi))
    · exact ⟨none, rfl⟩
  · exact ⟨none, rfl⟩

end

/-- The trip count of each loop is known or unknown, but not a fault. -/
def LoopsCounted (f : Func) (flow : Flow) : Prop :=
  ∀ lp ∈ flow.loops.loops, Answers (f.tripCount? flow.graph lp)

/-- The search for the counter of each loop comes to an end. -/
def CountersKnown (f : Func) (flow : Flow) : Prop :=
  ∀ lp ∈ flow.loops.loops, Answers (f.counter? flow.graph lp)

/-- No trip count is computed with a quotient that has no word. -/
def RoundsFit (f : Func) (flow : Flow) : Prop :=
  ∀ lp ∈ flow.loops.loops, ∀ c, f.counter? flow.graph lp = .ok (some c) → ¬ c.Overflows

theorem loopsCounted_iff {flow : Flow} :
    f.LoopsCounted flow ↔ f.CountersKnown flow ∧ f.RoundsFit flow := by
  constructor
  · intro counted
    refine ⟨fun lp mem => ?_, fun lp mem c hc => ?_⟩
    · obtain ⟨found, answer, -⟩ := answers_tripCount?_iff.mp (counted lp mem)
      exact ⟨found, answer⟩
    · obtain ⟨found, answer, fit⟩ := answers_tripCount?_iff.mp (counted lp mem)
      obtain rfl : found = some c := Except.ok.inj (answer.symm.trans hc)
      exact fit c rfl
  · rintro ⟨known, fit⟩ lp mem
    obtain ⟨found, answer⟩ := known lp mem
    exact answers_tripCount?_iff.mpr ⟨found, answer, fun c hc => fit lp mem c (hc ▸ answer)⟩

theorem countersKnown_of_defined (consistent : f.Consistent) (defined : f.Defined) {flow : Flow}
    (hflow : f.flow = .ok flow) : f.CountersKnown flow := by
  intro lp mem
  obtain ⟨hg, hdom, -, hloops⟩ := flow_eq_ok hflow
  rw [hloops, hdom] at mem
  have body := isDeclaration_of_mem_loops mem
  obtain ⟨header, latches⟩ := lt_of_mem_loops (entry_lt_size consistent body hg) body mem
  rw [size_graph hg] at header latches
  exact exists_counter? consistent defined flow.graph header latches

/-! ### Exact costs -/

/-- How often a loop counts: its trip count, if that is known, but at least once. -/
def tripFactor (f : Func) (g : Graph) (lp : Loop) : Nat :=
  match f.tripCount? g lp with
  | .ok count => max (count.getD 1) 1
  | .error _ => 1

theorem map_tripFactor {g : Graph} {loops : List Loop} {counts : List (Option Nat)}
    (h : loops.mapM (f.tripCount? g) = .ok counts) :
    counts.map (fun count => max (count.getD 1) 1) = loops.map (f.tripFactor g) := by
  have each := mapM_eq_ok_iff.mp h
  clear h
  induction each with
  | nil => rfl
  | cons answer _ ih => rw [List.map_cons, List.map_cons, ih, tripFactor, answer]

/-- The product of the factors of the loops that hold a block. -/
def exactWeight (f : Func) (flow : Flow) (b : BlockId) : Nat :=
  ((flow.loops.loops.filter (·.blocks.contains b)).map (f.tripFactor flow.graph)).prod

/-- The cost of all executions of an instruction, without a limit. -/
def exactCost (f : Func) (t : CostTable) (flow : Flow) (divergent : Bool) (i : InstId) : Nat :=
  match f.blockOf i, f.operation i with
  | some b, .ok op => t.operationCost divergent op * f.exactWeight flow b
  | _, _ => 0

/-- The loops around a block are those that hold it. -/
theorem around_eq (consistent : f.Consistent) {flow : Flow} (hflow : f.flow = .ok flow)
    (b : BlockId) : (flow.loops.enclosing b).filterMap (flow.loops.loops[·]?) =
      (flow.loops.loops.filter (·.blocks.contains b)).reverse := by
  obtain ⟨hg, hdom, -, hloops⟩ := flow_eq_ok hflow
  have nested := nested_loops hg consistent.mem_layout_iff
  rw [← hdom, ← hloops] at nested
  have settled : LoopForest.Settled flow.loops.loops := by
    rw [hloops]
    exact settled_loops
  rw [show flow.loops.enclosing b = _ from LoopForest.enclosing_eq nested settled,
    List.filterMap_reverse, LoopForest.filterMap_holders]

/-- What an instruction adds to the cost of a kernel, without a limit. -/
def share (f : Func) (t : CostTable) (flow : Flow) (d : Divergence) (i : InstId) : Nat :=
  if d.isDivergent i then 2 * f.exactCost t flow true i else f.exactCost t flow false i

section

variable (consistent : f.Consistent) {flow : Flow} (hflow : f.flow = .ok flow)
include consistent hflow

/-- Every loop has a placed instruction: a latch ends in one. -/
theorem exists_placed_of_mem_loops {lp : Loop} (mem : lp ∈ flow.loops.loops) :
    ∃ i b, f.blockOf i = some b ∧ b ∈ lp.blocks := by
  obtain ⟨hg, hdom, -, hloops⟩ := flow_eq_ok hflow
  rw [hloops, hdom] at mem
  have body := isDeclaration_of_mem_loops mem
  have entry := entry_lt_size consistent body hg
  obtain ⟨header, latches, found, -, -, blocks⟩ := exists_latches mem
  obtain ⟨some, closing⟩ := mem_latches entry body found
  obtain ⟨t, ht⟩ := List.exists_mem_of_ne_nil latches some
  obtain ⟨reached, edge, -⟩ := closing t ht
  have inside : (⟨t⟩ : BlockId) ∈ lp.blocks := by
    rw [blocks, mem_natural entry body some closing]
    by_cases same : t = header
    · exact .inl same
    · exact .inr ⟨reached, t, ht, .refl same⟩
  have slot : (⟨t⟩ : BlockId).index < flow.graph.size := reached.lt_size entry
  obtain ⟨succs, hsuccs, next⟩ := successors_graph hg slot
  obtain ⟨term, hterm, last⟩ := consistent.exists_terminator (size_graph hg ▸ slot)
  cases term with
  | none =>
    obtain rfl : [] = succs := by
      simpa [successors, hterm, bind, Except.bind, pure, Except.pure] using hsuccs
    simp [next] at edge
  | some i => exact ⟨i, ⟨t⟩, consistent.mem_code.mp (last i rfl), inside⟩

/-- Only the loops that hold a block count for what is placed in it. -/
theorem answers_of_weightedCost {t : CostTable} {divergent : Bool} {i : InstId} {b : BlockId}
    (h : Answers (f.weightedCost t flow divergent i)) (home : f.blockOf i = some b) {lp : Loop}
    (mem : lp ∈ flow.loops.loops) (inside : b ∈ lp.blocks) :
    Answers (f.tripCount? flow.graph lp) := by
  simp only [weightedCost, home, loopWeight, around_eq consistent hflow b, answers_bind_iff] at h
  obtain ⟨op, -, weight, answer, -⟩ := h
  obtain ⟨counts, hcounts, -⟩ := bind_eq_ok_iff.mp answer
  exact answers_mapM_iff.mp ⟨counts, hcounts⟩ lp
    (List.mem_reverse.mpr (List.mem_filter.mpr ⟨mem, by simpa using inside⟩))

/-- A total takes the trip counts of all loops. -/
theorem counted_of_answers {t : CostTable} {d : Divergence}
    (h : Answers (f.totalCost t flow d)) : f.LoopsCounted flow := by
  intro lp mem
  obtain ⟨i, b, home, inside⟩ := exists_placed_of_mem_loops consistent hflow mem
  obtain ⟨all, listed, mem_all⟩ := consistent.instructions
  obtain ⟨all', listed', h⟩ := answers_bind_iff.mp h
  obtain rfl := Except.ok.inj (listed.symm.trans listed')
  obtain ⟨costs, each, -⟩ := answers_bind_iff.mp h
  obtain ⟨_, -, answer⟩ := exists_of_mapM_eq_ok each ((mem_all i).mpr (by simp [home]))
  obtain ⟨cost, weighted, -⟩ := bind_eq_ok_iff.mp answer
  exact answers_of_weightedCost consistent hflow ⟨cost, weighted⟩ home mem inside

variable (counted : f.LoopsCounted flow)
include counted

/-- The weight of a block is the exact one, up to the limit. -/
theorem loopWeight_eq (b : BlockId) :
    f.loopWeight flow b = .ok (min (f.exactWeight flow b) Cost.limit) := by
  obtain ⟨counts, hcounts⟩ : Answers ((flow.loops.loops.filter (·.blocks.contains b)).reverse.mapM
      (f.tripCount? flow.graph)) :=
    answers_mapM_iff.mpr fun lp hlp => counted lp (List.mem_of_mem_filter (List.mem_reverse.mp hlp))
  have folded : counts.foldl (fun weight count => Cost.mul weight (max (count.getD 1) 1)) 1 =
      min (f.exactWeight flow b) Cost.limit := by
    have product := Cost.foldl_mul (counts.map fun count => max (count.getD 1) 1) 1
    rwa [map_tripFactor hcounts, List.map_reverse, List.prod_reverse, Nat.one_mul,
      ← List.map_reverse, ← map_tripFactor hcounts, List.foldl_map] at product
  simp only [loopWeight, around_eq consistent hflow b, hcounts, bind, Except.bind, pure,
    Except.pure, folded]

/-- The cost of an instruction is the exact one, up to the limit. -/
theorem weightedCost_eq (t : CostTable) (divergent : Bool) (i : InstId) :
    f.weightedCost t flow divergent i = .ok (min (f.exactCost t flow divergent i) Cost.limit) := by
  unfold weightedCost exactCost
  cases placed : f.blockOf i with
  | none => rfl
  | some b =>
    obtain ⟨op, hop⟩ := exists_operation (lt_of_blockOf placed)
    simp only [hop, loopWeight_eq consistent hflow counted b, bind, Except.bind, pure, Except.pure,
      Cost.mul_min]

theorem share_eq (t : CostTable) (d : Divergence) (i : InstId) : (do
      let cost ← f.weightedCost t flow (d.isDivergent i) i
      return if d.isDivergent i then Cost.mul cost 2 else cost : Except Fault Nat) =
    .ok (min (f.share t flow d i) Cost.limit) := by
  rw [weightedCost_eq consistent hflow counted, share]
  cases d.isDivergent i with
  | true => simp only [if_true, Cost.min_mul, bind, Except.bind, pure, Except.pure]
  | false => rfl

theorem totalCost_eq (t : CostTable) (d : Divergence) {all : List InstId}
    (listed : f.instructions = .ok all) :
    f.totalCost t flow d = .ok (min (all.map (f.share t flow d)).sum Cost.limit) := by
  rw [← Cost.sum_map_min]
  refine bind_eq_ok_iff.mpr ⟨all, listed, bind_eq_ok_iff.mpr ⟨_, mapM_eq_ok_map fun i _ => ?_, rfl⟩⟩
  exact share_eq consistent hflow counted t d i

theorem divergentCost_eq (t : CostTable) (d : Divergence) : f.divergentCost t flow d =
    .ok (min (d.instructions.map (f.exactCost t flow true)).sum Cost.limit) := by
  rw [← Cost.sum_map_min]
  refine bind_eq_ok_iff.mpr ⟨_, mapM_eq_ok_map fun i _ => ?_, rfl⟩
  exact weightedCost_eq consistent hflow counted t true i

end

/-- The costs of a kernel can be estimated exactly if each of its loops has a trip count, known or
not. -/
theorem answers_costReport_iff (consistent : f.Consistent) {flow : Flow} (hflow : f.flow = .ok flow)
    {t : CostTable} {grid : GridReads} {d : Divergence} {factor stride : Nat} :
    Answers (f.costReport t flow grid d factor stride) ↔ f.LoopsCounted flow := by
  constructor
  · rintro ⟨report, answer⟩
    obtain ⟨total, totaled, -⟩ := bind_eq_ok_iff.mp answer
    exact counted_of_answers consistent hflow ⟨total, totaled⟩
  · intro counted
    obtain ⟨all, listed, -⟩ := consistent.instructions
    simp only [costReport, totalCost_eq consistent hflow counted t d listed,
      divergentCost_eq consistent hflow counted t d, bind, Except.bind]
    exact ⟨_, rfl⟩

end Func

end KernelCoarsening
