/-
What the regions of an analysis enclose.

A region ends where all ways from its header to an end meet, or behind the loop that its header
heads.  Both ends are alike in what they close off: control comes to the exiting block before it
can end, and it leaves the blocks of the region only there.

* `Func.until_iff` — what a search up to a node finds is what lies on ways that do not go on from
  that node;
* `Func.reach_adds` — a search adds each block once;
* `Region.Encloses`, `Func.regions_enclose` — what a region of an analysis encloses;
* `guardedTurn_encloses` — a region that takes in a whole loop.
-/
import KernelCoarsening.Proofs.Divergence.Nesting
import KernelCoarsening.Proofs.Flow.Reducibility
import KernelCoarsening.Proofs.Flow.Stages

namespace KernelCoarsening

/-! ### Searches -/

namespace Func

variable {f : Func} {g : Graph} {stop start b : BlockId} {found stack bs : List BlockId}

/-- A search adds blocks to those that it has found, each once. -/
theorem reach_adds (h : f.reach stop found stack = .ok bs) :
    found <:+ bs ∧ (found.Nodup → bs.Nodup) := by
  induction found, stack using Func.reach.induct f stop with
  | case1 found =>
    obtain rfl : found = bs := by simpa [reach] using h
    exact ⟨List.suffix_refl found, id⟩
  | case2 found b rest old ih =>
    rw [reach, dif_pos old] at h
    exact ih h
  | case3 found rest new ih =>
    rw [reach, dif_neg new, dif_pos rfl] at h
    obtain ⟨suffix, once⟩ := ih h
    exact ⟨(List.suffix_cons stop found).trans suffix,
      fun nodup => once (List.nodup_cons.mpr ⟨new, nodup⟩)⟩
  | case4 found b rest new last slot succs hs ih =>
    rw [reach, dif_neg new, dif_neg last, dif_pos slot, hs] at h
    obtain ⟨suffix, once⟩ := ih h
    exact ⟨(List.suffix_cons b found).trans suffix,
      fun nodup => once (List.nodup_cons.mpr ⟨new, nodup⟩)⟩
  | case5 found b rest new last slot fault hs =>
    rw [reach, dif_neg new, dif_neg last, dif_pos slot, hs] at h
    simp at h
  | case6 found b rest new last slot =>
    rw [reach, dif_neg new, dif_neg last, dif_neg slot] at h
    simp at h

theorem nodup_reachableUntil (h : f.reachableUntil start stop = .ok bs) : bs.Nodup := by
  obtain ⟨found, hfound, rfl⟩ := map_eq_ok_iff.mp h
  exact List.nodup_reverse.mpr ((reach_adds hfound).2 List.nodup_nil)

/-- The block where the search begins comes first. -/
theorem head?_reachableUntil (h : f.reachableUntil start stop = .ok bs) :
    bs.head? = some start := by
  obtain ⟨found, hfound, rfl⟩ := map_eq_ok_iff.mp h
  have first : [start] <:+ found := by
    by_cases same : start = stop
    · subst same
      rw [reach, dif_neg (by simp), dif_pos rfl] at hfound
      exact (reach_adds hfound).1
    · by_cases slot : start ∈ f.blockIds
      · rw [reach, dif_neg (by simp), dif_neg same, dif_pos slot] at hfound
        split at hfound
        · exact (reach_adds hfound).1
        · simp at hfound
      · rw [reach, dif_neg (by simp), dif_neg same, dif_neg slot] at hfound
        simp at hfound
  obtain ⟨later, rfl⟩ := first
  simp

/-- What a search up to a block finds lies on ways that do not go on from that block. -/
theorem until_iff (other : start ≠ stop) : Until g stop start b ↔
    ∃ nodes, g.Path start.index b.index nodes ∧ stop.index ∉ nodes.dropLast := by
  constructor
  · rintro (⟨nodes, p, avoids⟩ | ⟨rfl, u, ⟨nodes, p, avoids⟩, edge⟩)
    · exact ⟨nodes, p, fun mem => avoids (List.dropLast_subset nodes mem)⟩
    · exact ⟨_, p.append (.go edge (.stay _)), by simpa using avoids⟩
  · rintro ⟨nodes, p, avoids⟩
    obtain ⟨front, shape⟩ := List.getLast?_eq_some_iff.mp p.getLast?
    obtain rfl : nodes = front ++ [b.index] := shape
    rw [List.dropLast_concat] at avoids
    by_cases last : b = stop
    · subst last
      have goes : front ≠ [] := by
        rintro rfl
        have same : start.index = b.index := by simpa using p.head?.symm
        exact other (BlockId.index_inj.mp same)
      obtain ⟨u, way, edge⟩ := p.last_edge goes
      exact .inr ⟨rfl, u, ⟨front, way, avoids⟩, edge⟩
    · have apart : stop.index ≠ b.index := BlockId.index_inj.not.mpr (Ne.symm last)
      exact .inl ⟨_, p, by simp [avoids, apart]⟩

end Func

/-! ### Regions -/

/-- What a region encloses: what can be reached from its header without going on from the exiting
block.  Control comes to that block before it can end, and leaves the region there only. -/
structure Region.Encloses (f : Func) (flow : Flow) (r : Region) : Prop where
  other : r.header ≠ r.exiting
  above : flow.pdom.dominates r.exiting r.header
  finish : flow.graph.CanEnd r.header.index
  post : flow.graph.PostDominates r.exiting.index r.header.index
  first : r.blocks.head? = some r.header
  last : r.exiting ∈ r.blocks
  nodup : r.blocks.Nodup
  mem : ∀ b, b ∈ r.blocks ↔ ∃ nodes, flow.graph.Path r.header.index b.index nodes ∧
    r.exiting.index ∉ nodes.dropLast
  closed : ∀ b ∈ r.blocks, b ≠ r.exiting → ∀ c, f.LeadsTo b c → c ∈ r.blocks

/-- What comes behind a block of a region, other than its exiting block, lies in the region. -/
theorem Region.Spans.closed {f : Func} {g : Graph} {r : Region} (h : r.Spans f g) {b c : BlockId}
    (hb : b ∈ r.blocks) (other : b ≠ r.exiting) (edge : c.index ∈ g.next b.index) :
    c ∈ r.blocks := by
  have before := ((h.mem b).mp hb).resolve_right fun last => other last.1
  by_cases last : c = r.exiting
  · exact last ▸ h.exiting_mem
  · exact (h.mem c).mpr (.inl (before.step edge (BlockId.index_inj.not.mpr last)))

namespace Func

variable {f : Func} {selector : DimensionSelector} {shared : List GlobalId} {level : Level}
  {dim : Dimension} {found : DivergentFunc}

/-- What the regions of an analysis enclose. -/
theorem regions_enclose (consistent : f.Consistent)
    (h : f.analyze selector shared level dim = .ok (.ok found)) :
    ∀ r ∈ found.divergence.regions, r.Encloses f found.flow := by
  intro r hr
  obtain ⟨ops, accesses, a⟩ := analyzed h
  obtain ⟨branch, hbranch, -, -, blocks⟩ := a.exists_madeFor hr
  have body := ((a.mem_branches consistent).mp hbranch).1
  have span := a.spans consistent hr
  have other : r.header ≠ r.exiting := BlockId.index_inj.not.mp span.bounds.ne
  obtain ⟨-, -, hpdom, -⟩ := flow_eq_ok a.flow
  refine ⟨other, ?_, span.bounds.finish, span.bounds.post, head?_reachableUntil blocks,
    span.exiting_mem, nodup_reachableUntil blocks, fun b => (span.mem b).trans (until_iff other), ?_⟩
  · rw [hpdom]
    exact (dominates_postDominators span.entry body span.reached span.bounds.finish
      (span.slot span.exiting_mem)).mpr span.bounds.post
  · rintro b hb notLast c ⟨succs, answer, hc⟩
    exact span.closed hb notLast ((mem_next_graph a.graph answer (span.slot hb)).mpr hc)

end Func

/-! ### A region that takes in a whole loop -/

/-- A loop whose header branches on the thread: the ways from there meet inside the loop. -/
def guardedTurn : Func := .assemble "guarded_turn" [⟨"n", .i32⟩, ⟨"d", .i1⟩] [
  ("entry", [
    ⟨.call "llvm.nvvm.read.ptx.sreg.tid.x" [], .i32, "t"⟩,
    ⟨.compare .slt (.inst ⟨0⟩) (.arg 0), .i1, "c"⟩,
    ⟨.jump ⟨1⟩, .void, ""⟩]),
  ("head", [⟨.branch (.inst ⟨1⟩) ⟨2⟩ ⟨3⟩, .void, ""⟩]),
  ("side", [⟨.jump ⟨3⟩, .void, ""⟩]),
  ("latch", [⟨.branch (.arg 1) ⟨1⟩ ⟨4⟩, .void, ""⟩]),
  ("exit", [⟨.ret none, .void, ""⟩])]

/-- What the analysis finds: one region from `head` to `exit`. -/
def guardedTurnFound : DivergentFunc where
  func := guardedTurn
  flow :=
    { graph := ⟨#[[1], [2, 3], [3], [1, 4], []], by decide⟩
      dom := ⟨#[some 0, some 0, some 1, some 1, some 3]⟩
      pdom := ⟨#[some 1, some 3, some 3, some 4, some 5, some 5], 5⟩
      loops := ⟨[⟨⟨1⟩, [⟨1⟩, ⟨2⟩, ⟨3⟩], [⟨3⟩], none, 1⟩]⟩ }
  grid := ⟨[(⟨0⟩, .threadId, .x)], []⟩
  divergence :=
    { level := .thread
      dim := .x
      set := [⟨3⟩, ⟨1⟩, ⟨0⟩]
      placed := [(⟨0⟩, ⟨0⟩), (⟨1⟩, ⟨0⟩), (⟨3⟩, ⟨1⟩)]
      branches := [⟨3⟩]
      regions := [⟨⟨1⟩, ⟨4⟩, [⟨1⟩, ⟨2⟩, ⟨3⟩, ⟨4⟩], [], [⟨1⟩]⟩]
      reads := [⟨0⟩] }

theorem analyze_guardedTurn :
    guardedTurn.analyze (.only .x) [] .thread .x = .ok (.ok guardedTurnFound) :=
  Func.analyze_eq_ok_iff.mpr ⟨by cbv, by rfl, by cbv, rfl⟩

/-- The ways from `head` meet at `latch`, which lies in its loop, so the region goes on to the exit
of the loop and encloses all of it. -/
theorem guardedTurn_encloses :
    guardedTurn.Consistent ∧ guardedTurnFound.flow.pdom.parent? ⟨1⟩ = some ⟨3⟩ ∧
      ∀ r ∈ guardedTurnFound.divergence.regions, r.exiting = ⟨4⟩ ∧
        r.Encloses guardedTurn guardedTurnFound.flow :=
  ⟨Func.consistent_assemble .., by decide, fun r hr => ⟨by
    obtain rfl := List.mem_singleton.mp hr
    rfl, Func.regions_enclose (Func.consistent_assemble ..) analyze_guardedTurn r hr⟩⟩

end KernelCoarsening
