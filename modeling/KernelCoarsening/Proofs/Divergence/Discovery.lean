/-
What the divergence analysis finds.

* `Func.Analyzed`, `Func.analyzed` — the questions that a successful analysis has asked, with
  their answers;
* `Func.Analyzed.mem_placed` — the listed instructions are the divergent ones of reachable
  blocks;
* `Region.Spans`, `Func.Analyzed.spans` — a region reaches from the block of a divergent
  branch to the first block that all its ways to an end share, or it is a loop with one exit.
-/
import KernelCoarsening.Coarsening.Kernel
import KernelCoarsening.Proofs.Flow.Loops

namespace KernelCoarsening

namespace Graph

/-- How far a region reaches from its header: to the immediate post-dominator, or to the only
exit of the loop that the header heads. -/
inductive Bounds (g : Graph) (root h e : Nat) : Prop where
  | nearest (meets : g.MeetsAt h e)
  | loop {inside : Nat → Prop} (loop : g.NaturalLoop root h inside) (out : ¬ inside e)
      (leave : ∀ x, inside x → ∀ y ∈ g.next x, inside y ∨ y = e) (finish : g.CanEnd h)
      (goes : ¬ g.IsEnd h)

namespace Bounds

variable {g : Graph} {root h e : Nat}

theorem ne (b : g.Bounds root h e) : h ≠ e := by
  cases b with
  | nearest meets => exact meets.other.symm
  | loop loop out _ _ _ =>
    rintro rfl
    exact out loop.head

theorem finish (b : g.Bounds root h e) : g.CanEnd h := by
  cases b with
  | nearest meets => exact meets.finish
  | loop _ _ _ finish _ => exact finish

/-- Control cannot end before it has come to the exiting block. -/
theorem post (b : g.Bounds root h e) : g.PostDominates e h := by
  cases b with
  | nearest meets => exact meets.post
  | @loop inside loop out leave finish goes =>
    intro v nodes hv p
    by_contra avoids
    -- a way that avoids the exit stays in the loop, where every block goes on to the header
    have hin := Graph.NaturalLoop.stays leave loop.head p avoids
    obtain ⟨back, q, -⟩ := loop.back hin
    cases q with
    | stay => exact goes hv
    | go edge rest => simp [IsEnd] at hv; simp [hv] at edge

/-- Some way from the exiting block comes to an end. -/
theorem canEnd_exit (b : g.Bounds root h e) : g.CanEnd e := b.post.canEnd b.finish

end Bounds

end Graph

/-! ### Exiting blocks -/

namespace Func

variable {f : Func} {flow : Flow}

theorem flow_eq_ok (h : f.flow = .ok flow) :
    f.graph = .ok flow.graph ∧ flow.dom = f.dominators flow.graph ∧
      flow.pdom = f.postDominators flow.graph ∧ flow.loops = f.loops flow.graph flow.dom := by
  unfold Func.flow at h
  rw [bind_eq_ok_iff] at h
  obtain ⟨g, hg, h⟩ := h
  obtain rfl : _ = flow := by simpa [pure, Except.pure] using h
  exact ⟨hg, rfl, rfl, rfl⟩

/-- The only exit of a loop is where all edges out of it lead. -/
theorem uniqueLoopExit?_eq_some {lp : Loop} {e : BlockId} (hg : f.graph = .ok flow.graph)
    (valid : ∀ b ∈ lp.blocks, b.index < flow.graph.size)
    (h : f.uniqueLoopExit? lp = .ok (some e)) :
    e ∉ lp.blocks ∧ ∀ b ∈ lp.blocks, ∀ v ∈ flow.graph.next b.index,
      (⟨v⟩ : BlockId) ∈ lp.blocks ∨ v = e.index := by
  unfold uniqueLoopExit? at h
  rw [bind_eq_ok_iff] at h
  obtain ⟨exits, hx, h⟩ := h
  obtain rfl : exits = [e] := by
    split at h
    · obtain rfl : _ = e := by simpa [pure, Except.pure] using h
      rfl
    · simp [pure, Except.pure] at h
  unfold loopExits at hx
  rw [bind_eq_ok_iff] at hx
  obtain ⟨succs, hs, hx⟩ := hx
  have only : (succs.flatten.filter fun b => !lp.blocks.contains b).eraseDups = [e] := by
    simpa [pure, Except.pure] using hx
  have exits : ∀ b, b ∈ succs.flatten ∧ b ∉ lp.blocks ↔ b = e := by
    intro b
    have := List.mem_eraseDups (a := b) (l := succs.flatten.filter fun b => !lp.blocks.contains b)
    rw [only, List.mem_singleton, List.mem_filter] at this
    simpa using this.symm
  refine ⟨((exits e).mpr rfl).2, fun b hb v hv => ?_⟩
  by_cases inside : (⟨v⟩ : BlockId) ∈ lp.blocks
  · exact .inl inside
  · obtain ⟨next, hn, answer⟩ := exists_of_mapM_eq_ok hs hb
    have target : (⟨v⟩ : BlockId) ∈ next := (mem_next_graph hg answer (valid b hb)).mp hv
    have same := (exits ⟨v⟩).mp ⟨List.mem_flatten.mpr ⟨next, hn, target⟩, inside⟩
    exact .inr (by rw [← same])

/-- The only exit of the loop of a header bounds the region of the header. -/
theorem bounds_of_uniqueLoopExit? {header p e : BlockId} {lp : Loop}
    (entry : f.entry.index < flow.graph.size) (body : f.isDeclaration = false)
    (hf : f.flow = .ok flow) (heads : flow.loops.isHeader header = true)
    (innermost : flow.loops.innermost? header = some lp)
    (meets : flow.graph.MeetsAt header.index p.index)
    (h : f.uniqueLoopExit? lp = .ok (some e)) :
    flow.graph.Bounds f.entry.index header.index e.index := by
  obtain ⟨hg, hdom, _, hloops⟩ := flow_eq_ok hf
  have same : lp.header = header := by
    simpa [LoopForest.isHeader, innermost] using heads
  have listed : lp ∈ flow.loops.loops := by
    unfold LoopForest.innermost? at innermost
    obtain ⟨n, _, hn⟩ := Option.bind_eq_some_iff.mp innermost
    exact List.mem_of_getElem? hn
  rw [hloops, hdom] at listed
  have natural := naturalLoop_of_mem_loops entry body listed
  rw [same] at natural
  have valid : ∀ b ∈ lp.blocks, b.index < flow.graph.size :=
    fun b hb => (natural.reached hb).lt_size entry
  obtain ⟨out, leave⟩ := uniqueLoopExit?_eq_some hg valid h
  refine .loop natural out (fun x hx y hy => leave ⟨x⟩ hx y hy) meets.finish fun isEnd => ?_
  -- control that ends in the header would have come to the post-dominator before
  have := meets.post _ _ isEnd (.stay _)
  exact meets.other (List.mem_singleton.mp this)

end Func

/-- The exiting block that is chosen for a header bounds the region. -/
theorem Region.exitingFor_bounds {f : Func} {flow : Flow} {header e : BlockId}
    (entry : f.entry.index < flow.graph.size) (body : f.isDeclaration = false)
    (hf : f.flow = .ok flow) (reached : flow.graph.Reaches f.entry.index header.index)
    (h : Region.exitingFor f flow header = .ok (.ok e)) :
    flow.graph.Bounds f.entry.index header.index e.index := by
  obtain ⟨_, _, hpdom, _⟩ := Func.flow_eq_ok hf
  unfold exitingFor at h
  split at h
  · rename_i p hp
    rw [hpdom] at hp
    have meets := (Func.parent?_postDominators_iff entry body reached).mp hp
    have near : flow.graph.Bounds f.entry.index header.index p.index := .nearest meets
    by_cases widen : (flow.loops.isHeader header &&
        flow.loops.loopOf? header == flow.loops.loopOf? p) = true
    · -- the post-dominator lies in the loop of the header: the region is the whole loop
      simp only [widen, if_true] at h
      split at h
      · obtain rfl : p = e := by simpa [pure, Except.pure] using h
        exact near
      · rename_i lp innermost
        rw [bind_eq_ok_iff] at h
        obtain ⟨exit, hexit, h⟩ := h
        split at h
        · obtain rfl : _ = e := by simpa [pure, Except.pure] using h
          have heads := (Bool.and_eq_true_iff.mp widen).1
          exact Func.bounds_of_uniqueLoopExit? entry body hf heads innermost meets hexit
        · rw [bind_eq_ok_iff] at h
          obtain ⟨_, _, h⟩ := h
          simp [pure, Except.pure] at h
    · simp only [widen] at h
      obtain rfl : p = e := by simpa [pure, Except.pure] using h
      exact near
  · rw [bind_eq_ok_iff] at h
    obtain ⟨_, _, h⟩ := h
    simp [pure, Except.pure] at h

/-- A header that a region is found for has a post-dominator. -/
theorem Region.exists_parent? {f : Func} {flow : Flow} {header e : BlockId}
    (h : Region.exitingFor f flow header = .ok (.ok e)) : ∃ p, flow.pdom.parent? header = some p := by
  cases parent : flow.pdom.parent? header with
  | some p => exact ⟨p, rfl⟩
  | none =>
    simp only [exitingFor, parent, bind_eq_ok_iff] at h
    obtain ⟨_, _, h⟩ := h
    simp [pure, Except.pure] at h

/-! ### Regions -/

namespace Region

/-- A region reaches from its header to the block that bounds it. -/
structure Spans (f : Func) (g : Graph) (r : Region) : Prop where
  entry : f.entry.index < g.size
  reached : g.Reaches f.entry.index r.header.index
  bounds : g.Bounds f.entry.index r.header.index r.exiting.index
  mem : ∀ b, b ∈ r.blocks ↔ Func.Until g r.exiting r.header b

variable {f : Func} {flow : Flow} {ops : List (InstId × Operation)}

/-- A region was made for a branch: its bounds are those of the branch's block. -/
def MadeFor (f : Func) (flow : Flow) (r : Region) (branch : InstId) : Prop :=
  f.blockOf branch = some r.header ∧ exitingFor f flow r.header = .ok (.ok r.exiting) ∧
    f.reachableUntil r.header r.exiting = .ok r.blocks

/-- Regions are made for branches, one for each that is placed. -/
theorem madeFor_of_ofBranches {branches : List InstId} {regions : List Region}
    (h : ofBranches f flow ops branches = .ok (.ok regions)) :
    (∀ r ∈ regions, ∃ branch ∈ branches, MadeFor f flow r branch) ∧
      ∀ branch ∈ branches, (f.blockOf branch).isSome → ∃ r ∈ regions, MadeFor f flow r branch := by
  induction branches generalizing regions with
  | nil =>
    obtain rfl : [] = regions := by simpa [ofBranches] using h
    simp
  | cons branch rest ih =>
    rw [ofBranches] at h
    split at h
    · -- a branch that is in no block is passed over
      rename_i gone
      obtain ⟨made, cover⟩ := ih h
      refine ⟨fun r hr => ?_, fun other ho placed => ?_⟩
      · obtain ⟨branch', hb, made⟩ := made r hr
        exact ⟨branch', List.mem_cons_of_mem _ hb, made⟩
      · rcases List.mem_cons.mp ho with rfl | ho
        · simp [gone] at placed
        · exact cover other ho placed
    · rename_i header place
      rw [bind_eq_ok_iff] at h
      obtain ⟨answer, ha, h⟩ := h
      split at h
      · simp [pure, Except.pure] at h
      · rename_i exiting
        simp only [bind_eq_ok_iff] at h
        obtain ⟨filled, hfill, region, hborder, others, hothers, h⟩ := h
        obtain ⟨later, rfl, rfl⟩ :
            ∃ later, others = .ok later ∧ region :: later = regions := by
          cases others with
          | error e => simp [pure, Except.pure, Except.map] at h
          | ok later => exact ⟨later, rfl, by simpa [pure, Except.pure, Except.map] using h⟩
        obtain ⟨blocks, hblocks, hfill⟩ := bind_eq_ok_iff.mp hfill
        obtain rfl : { bounds header exiting with blocks } = filled := by
          simpa [pure, Except.pure] using hfill
        -- the search for the border changes neither the bounds nor the blocks
        have made : MadeFor f flow region branch := by
          unfold findBorder at hborder
          simp only [bind_eq_ok_iff] at hborder
          obtain ⟨_, _, _, _, hborder⟩ := hborder
          obtain rfl : _ = region := by simpa [pure, Except.pure] using hborder
          exact ⟨place, ha, hblocks⟩
        obtain ⟨madeLater, cover⟩ := ih hothers
        refine ⟨fun r hr => ?_, fun other ho placed => ?_⟩
        · rcases List.mem_cons.mp hr with rfl | hr
          · exact ⟨branch, by simp, made⟩
          · obtain ⟨branch', hb, made⟩ := madeLater r hr
            exact ⟨branch', List.mem_cons_of_mem _ hb, made⟩
        · rcases List.mem_cons.mp ho with rfl | ho
          · exact ⟨region, by simp, made⟩
          · obtain ⟨r, hr, made⟩ := cover other ho placed
            exact ⟨r, List.mem_cons_of_mem _ hr, made⟩

theorem mem_of_mem_dropRepeats {dom : DominatorTree} {regions : List Region} {r : Region}
    (h : r ∈ dropRepeats dom regions) : r ∈ regions := by
  unfold dropRepeats at h
  obtain ⟨⟨r', n⟩, hr, rfl⟩ := List.mem_map.mp h
  exact List.mem_of_getElem? (List.mem_zipIdx_iff_getElem?.mp (List.mem_filter.mp hr).1)

/-- A region that is dropped has the blocks of one that is kept. -/
theorem exists_kept {dom : DominatorTree} {regions : List Region} {r : Region} (h : r ∈ regions) :
    ∃ kept ∈ dropRepeats dom regions, r.blocks.Perm kept.blocks := by
  obtain ⟨n, hn⟩ := List.mem_iff_getElem?.mp h
  clear h
  -- the first region of the list with these blocks is never dropped
  induction n using Nat.strongRecOn generalizing r with
  | _ n ih =>
    by_cases repeated : (regions.take n).any fun earlier =>
        r.blocks.isPerm earlier.blocks && dom.dominates earlier.header r.header
    · obtain ⟨earlier, he, same⟩ := List.any_eq_true.mp repeated
      have perm := List.isPerm_iff.mp (Bool.and_eq_true_iff.mp same).1
      obtain ⟨m, hm⟩ := List.mem_iff_getElem?.mp he
      have before : m < n := by
        by_contra beyond
        rw [List.getElem?_eq_none (by rw [List.length_take]; omega)] at hm
        simp at hm
      rw [List.getElem?_take_of_lt before] at hm
      obtain ⟨kept, hk, perm'⟩ := ih m before hm
      exact ⟨kept, hk, perm.trans perm'⟩
    · refine ⟨r, ?_, List.Perm.refl _⟩
      unfold dropRepeats
      refine List.mem_map.mpr ⟨(r, n), List.mem_filter.mpr ⟨?_, ?_⟩, rfl⟩
      · exact List.mem_zipIdx_iff_getElem?.mpr hn
      · simpa using repeated

end Region

/-! ### Analyses -/

namespace Func

variable {f : Func} {selector : DimensionSelector} {shared : List GlobalId} {level : Level}
  {dim : Dimension} {found : DivergentFunc} {ops : List (InstId × Operation)}
  {accesses : List (InstId × GlobalId)}

/-- The questions that a successful analysis has asked, with their answers. -/
structure Analyzed (f : Func) (selector : DimensionSelector) (level : Level) (dim : Dimension)
    (found : DivergentFunc) (ops : List (InstId × Operation))
    (accesses : List (InstId × GlobalId)) : Prop where
  flow : f.flow = .ok found.flow
  grid : f.gridReads selector = .ok found.grid
  listing : f.operations = .ok ops
  set : f.spread (f.divergentWith found.flow ops accesses) []
    (found.grid.identities level dim) = .ok found.divergence.set
  placed : ∃ order listed, f.reversePostorder = .ok order ∧
    (order.mapM fun b => do
      return ((← f.block b).insts.filter found.divergence.set.contains).map (·, b)) =
        .ok listed ∧ found.divergence.placed = listed.flatten
  branches : ((found.divergence.placed.map (·.1)).filterM fun i => do
    return (← f.operation i).isBranch) = .ok found.divergence.branches
  regions : Region.discover f found.flow found.divergence.branches =
    .ok (.ok found.divergence.regions)
  reads : found.divergence.reads = found.grid.all

/-- The accesses to shared globals that a level looks at. -/
def accessesAt (f : Func) (shared : List GlobalId) (level : Level) :
    Except Fault (List (InstId × GlobalId)) :=
  match level with
  | .block => f.sharedAccesses shared
  | .thread => pure []

/-- The questions that finding divergence asks, whichever reads it starts from, with their answers. -/
theorem divergence_eq_ok {flow : Flow} {grid : GridReads} {d : Divergence}
    (h : f.divergence flow grid shared level dim = .ok (.ok d)) :
    ∃ ops accesses, f.operations = .ok ops ∧ f.accessesAt shared level = .ok accesses ∧
      f.spread (f.divergentWith flow ops accesses) [] (grid.identities level dim) = .ok d.set ∧
      (∃ order listed, f.reversePostorder = .ok order ∧ (order.mapM fun b => do
          return ((← f.block b).insts.filter d.set.contains).map (·, b)) = .ok listed ∧
        d.placed = listed.flatten) ∧
      ((d.placed.map (·.1)).filterM fun i => do return (← f.operation i).isBranch) =
        .ok d.branches ∧
      Region.discover f flow d.branches = .ok (.ok d.regions) ∧ d.reads = grid.all := by
  unfold divergence at h
  obtain ⟨ops, hops, h⟩ := bind_eq_ok_iff.mp h
  -- the two levels differ in the accesses that are looked at and in nothing else
  cases level
  all_goals
    simp only [bind_eq_ok_iff] at h
    obtain ⟨accesses, haccesses, set, hset, order, horder, listed, hlisted, branches, hbranches,
      answer, hregions, h⟩ := h
    cases answer with
    | error e => simp [pure, Except.pure, Except.map] at h
    | ok regions =>
      obtain rfl : _ = d := by simpa [pure, Except.pure, Except.map] using h
      exact ⟨ops, accesses, hops, haccesses, hset, ⟨order, listed, horder, hlisted, rfl⟩, hbranches,
        hregions, rfl⟩

/-- An analysis answers if its parts do, and what it finds is what they find. -/
theorem analyze_eq_ok_iff : f.analyze selector shared level dim = .ok (.ok found) ↔
    f.flow = .ok found.flow ∧ f.gridReads selector = .ok found.grid ∧
      f.divergence found.flow found.grid shared level dim = .ok (.ok found.divergence) ∧
        found.func = f := by
  obtain ⟨func, flow, grid, d⟩ := found
  simp only [analyze, bind_eq_ok_iff]
  constructor
  · rintro ⟨flow', hflow, grid', hgrid, answer, hd, h⟩
    cases answer with
    | error e => simp [pure, Except.pure, Except.map] at h
    | ok d' =>
      obtain ⟨rfl, rfl, rfl, rfl⟩ : f = func ∧ flow' = flow ∧ grid' = grid ∧ d' = d := by
        simpa [pure, Except.pure, Except.map] using h
      exact ⟨hflow, hgrid, hd, rfl⟩
  · rintro ⟨hflow, hgrid, hd, rfl⟩
    exact ⟨flow, hflow, grid, hgrid, .ok d, hd, rfl⟩

theorem analyzed_with (h : f.analyze selector shared level dim = .ok (.ok found)) :
    ∃ ops accesses, f.Analyzed selector level dim found ops accesses ∧ found.func = f ∧
      f.accessesAt shared level = .ok accesses := by
  obtain ⟨hflow, hgrid, hd, same⟩ := analyze_eq_ok_iff.mp h
  obtain ⟨ops, accesses, hops, haccesses, hset, hplaced, hbranches, hregions, hreads⟩ :=
    divergence_eq_ok hd
  exact ⟨ops, accesses, ⟨hflow, hgrid, hops, hset, hplaced, hbranches, hregions, hreads⟩, same,
    haccesses⟩

theorem analyzed (h : f.analyze selector shared level dim = .ok (.ok found)) :
    ∃ ops accesses, f.Analyzed selector level dim found ops accesses := by
  obtain ⟨ops, accesses, a, -, -⟩ := analyzed_with h
  exact ⟨ops, accesses, a⟩

/-- A function that is analyzed, brought into form, and analyzed again. -/
theorem normalize_eq_ok {p : CoarseningParams} {before found : DivergentFunc} {g : Func}
    {regions : List Region}
    (analyzed : f.analyze (.only p.dim) shared p.level p.dim = .ok (.ok before))
    (extracted : f.extractRegions before.divergence.regions = .ok (none, g, regions))
    (again : g.analyze (.only p.dim) shared p.level p.dim = .ok (.ok found))
    (inForm : firstM? (g.regionError? found.flow) found.divergence.outermostRegions = .ok none) :
    f.normalize shared p = .ok (.ok found) := by
  simp only [normalize, analyzed, extracted, again, inForm, bind, Except.bind, pure, Except.pure]

/-- Where there are no regions, there is nothing to bring into form. -/
theorem normalize_of_regions {c : CoarseningParams} (regions : found.divergence.regions = [])
    (analyzed : f.analyze (.only c.dim) shared c.level c.dim = .ok (.ok found)) :
    f.normalize shared c = .ok (.ok found) := by
  have outermost : found.divergence.outermostRegions = [] := by
    rw [Divergence.outermostRegions, regions]
    rfl
  have extracted : f.extractRegions found.divergence.regions = .ok (none, f, []) := by
    rw [regions]
    rfl
  exact normalize_eq_ok analyzed extracted analyzed (by rw [outermost]; rfl)

/-- The block that a handle names lists an instruction exactly if the instruction is placed
in it. -/
theorem Consistent.mem_insts_iff (consistent : f.Consistent) {b : BlockId} {block : Block}
    (h : f.block b = .ok block) {i : InstId} : i ∈ block.insts ↔ f.blockOf i = some b := by
  rw [consistent.mem_insts b block (block_eq_ok_iff.mp h) i, blockOf, Option.bind_eq_some_iff]

namespace Analyzed

theorem graph (a : f.Analyzed selector level dim found ops accesses) :
    f.graph = .ok found.flow.graph := (flow_eq_ok a.flow).1

/-- The instructions that are listed are the divergent ones of the blocks that control can
come to. -/
theorem mem_placed (a : f.Analyzed selector level dim found ops accesses)
    (consistent : f.Consistent) {i : InstId} {b : BlockId} :
    (i, b) ∈ found.divergence.placed ↔ f.isDeclaration = false ∧
      found.flow.graph.Reaches f.entry.index b.index ∧ f.blockOf i = some b ∧
        i ∈ found.divergence.set := by
  obtain ⟨order, listed, horder, hlisted, shape⟩ := a.placed
  have mem : (i, b) ∈ found.divergence.placed ↔ b ∈ order ∧ ∃ block, f.block b = .ok block ∧
      i ∈ block.insts ∧ i ∈ found.divergence.set := by
    rw [shape, List.mem_flatten]
    constructor
    · rintro ⟨here, hh, hi⟩
      obtain ⟨c, hc, answer⟩ := (mem_of_mapM_eq_ok hlisted).mp hh
      obtain ⟨block, hb, answer⟩ := bind_eq_ok_iff.mp answer
      obtain rfl : _ = here := by simpa [pure, Except.pure] using answer
      obtain ⟨j, hj, same⟩ := List.mem_map.mp hi
      obtain ⟨rfl, rfl⟩ := Prod.mk.injEq .. ▸ same
      obtain ⟨hj, divergent⟩ := List.mem_filter.mp hj
      exact ⟨hc, block, hb, hj, by simpa using divergent⟩
    · rintro ⟨hb, block, answer, hi, divergent⟩
      obtain ⟨here, hh, answer'⟩ := exists_of_mapM_eq_ok hlisted hb
      refine ⟨here, hh, ?_⟩
      obtain ⟨block', hb', answer'⟩ := bind_eq_ok_iff.mp answer'
      obtain rfl : block' = block := by simpa [hb'] using answer
      obtain rfl : _ = here := by simpa [pure, Except.pure] using answer'
      exact List.mem_map.mpr ⟨i, List.mem_filter.mpr ⟨hi, by simpa using divergent⟩, rfl⟩
  rw [mem, mem_reversePostorder consistent a.graph horder]
  constructor
  · rintro ⟨⟨body, hb⟩, block, answer, hi, divergent⟩
    exact ⟨body, hb, (consistent.mem_insts_iff answer).mp hi, divergent⟩
  · rintro ⟨body, hb, place, divergent⟩
    have inside : b.index < f.blocks.size := by
      rw [← size_graph a.graph]
      exact hb.lt_size (entry_lt_size consistent body a.graph)
    have answer : f.block b = .ok f.blocks[b.index] := by
      rw [block_eq_ok_iff]
      exact Array.getElem?_eq_getElem inside
    exact ⟨⟨body, hb⟩, _, answer, (consistent.mem_insts_iff answer).mpr place, divergent⟩

/-- The branches of an analysis are the divergent ones of the blocks that control can come
to. -/
theorem mem_branches (a : f.Analyzed selector level dim found ops accesses)
    (consistent : f.Consistent) {i : InstId} :
    i ∈ found.divergence.branches ↔ f.isDeclaration = false ∧
      ∃ b op, found.flow.graph.Reaches f.entry.index b.index ∧ f.blockOf i = some b ∧
        i ∈ found.divergence.set ∧ f.operation i = .ok op ∧ op.isBranch := by
  rw [mem_of_filterM_eq_ok a.branches, List.mem_map]
  constructor
  · rintro ⟨⟨⟨i, b⟩, hi, rfl⟩, answer⟩
    obtain ⟨body, reached, place, divergent⟩ := (a.mem_placed consistent).mp hi
    obtain ⟨op, hop, answer⟩ := bind_eq_ok_iff.mp answer
    exact ⟨body, b, op, reached, place, divergent, hop, by simpa [pure, Except.pure] using answer⟩
  · rintro ⟨body, b, op, reached, place, divergent, hop, isBranch⟩
    refine ⟨⟨(i, b), (a.mem_placed consistent).mpr ⟨body, reached, place, divergent⟩, rfl⟩, ?_⟩
    simp [hop, isBranch, bind, Except.bind, pure, Except.pure]

/-- The regions before repeats are dropped. -/
theorem discovered (a : f.Analyzed selector level dim found ops accesses) :
    ∃ regions, Region.ofBranches f found.flow ops found.divergence.branches = .ok (.ok regions) ∧
      found.divergence.regions = Region.dropRepeats found.flow.dom regions := by
  have h := a.regions
  unfold Region.discover at h
  simp only [bind_eq_ok_iff] at h
  obtain ⟨ops', hops, answer, hmade, h⟩ := h
  obtain rfl : ops = ops' := by simpa [a.listing] using hops
  cases answer with
  | error e => simp [pure, Except.pure, Except.map] at h
  | ok regions => exact ⟨regions, hmade, by simpa [pure, Except.pure, Except.map] using h.symm⟩

/-- A region that is made for a divergent branch spans what the branch controls. -/
theorem spans_of_madeFor (a : f.Analyzed selector level dim found ops accesses)
    (consistent : f.Consistent) {r : Region} {branch : InstId}
    (hb : branch ∈ found.divergence.branches) (made : Region.MadeFor f found.flow r branch) :
    r.Spans f found.flow.graph := by
  obtain ⟨place, exiting, blocks⟩ := made
  obtain ⟨body, b, _, reached, placeB, _⟩ := (a.mem_branches consistent).mp hb
  obtain rfl : b = r.header := by simpa [placeB] using place
  have entry := entry_lt_size consistent body a.graph
  have bounds := Region.exitingFor_bounds entry body a.flow reached exiting
  refine ⟨entry, reached, bounds, fun b => mem_reachableUntil a.graph ?_ blocks⟩
  exact BlockId.index_inj.not.mp bounds.ne

/-- A region of an analysis is made for one of its branches. -/
theorem exists_madeFor (a : f.Analyzed selector level dim found ops accesses) {r : Region}
    (h : r ∈ found.divergence.regions) :
    ∃ branch ∈ found.divergence.branches, Region.MadeFor f found.flow r branch := by
  obtain ⟨regions, made, kept⟩ := a.discovered
  exact (Region.madeFor_of_ofBranches made).1 r (Region.mem_of_mem_dropRepeats (kept ▸ h))

theorem spans (a : f.Analyzed selector level dim found ops accesses) (consistent : f.Consistent)
    {r : Region} (h : r ∈ found.divergence.regions) : r.Spans f found.flow.graph := by
  obtain ⟨branch, hb, made⟩ := a.exists_madeFor h
  exact a.spans_of_madeFor consistent hb made

/-- Every divergent branch that control can come to has a region, up to repeats. -/
theorem exists_region (a : f.Analyzed selector level dim found ops accesses)
    (consistent : f.Consistent) {branch : InstId} (hb : branch ∈ found.divergence.branches) :
    ∃ r, Region.MadeFor f found.flow r branch ∧
      ∃ kept ∈ found.divergence.regions, r.blocks.Perm kept.blocks := by
  obtain ⟨regions, made, kept⟩ := a.discovered
  obtain ⟨_, b, _, _, place, _⟩ := (a.mem_branches consistent).mp hb
  obtain ⟨r, hr, made⟩ := (Region.madeFor_of_ofBranches made).2 branch hb (by simp [place])
  exact ⟨r, made, kept ▸ Region.exists_kept hr⟩

end Analyzed

end Func

/-- The flow of a function with a single block. -/
def Flow.ofOneBlock : Flow where
  graph := ⟨#[[]], by decide⟩
  dom := ⟨#[some 0]⟩
  pdom := ⟨#[some 1, some 1], 1⟩
  loops := ⟨[]⟩

end KernelCoarsening
