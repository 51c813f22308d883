/-
Which divergent code lies in the outermost regions.

Of two regions, one of which holds the header of the other strictly inside, the outer one holds
all blocks of the inner one, unless the inner one holds the header of the outer one as well.
Regions that hold each other's headers are both counted as inner ones, and their code is then
lost if no third region holds it:

* `Graph.Bounds.apart` — the bounds of two such regions do not cross;
* `Region.Spans.blocks_subset` — a region inside another has its blocks there;
* `Func.divergence_complete_iff` — all divergent code is outside the regions or in an
  outermost one exactly if regions that hold each other's headers lie in an outermost one;
* `divergence_twoWaysOut_lost` — in a loop with two ways out they do not.
-/
import KernelCoarsening.Proofs.Divergence.Discovery
import KernelCoarsening.Proofs.Ir.Assembly
import KernelCoarsening.Proofs.Ir.Outline
import Mathlib

namespace KernelCoarsening

namespace Graph

variable {g : Graph} {root h e h' e' : Nat}

/-- If a region begins before the end of another and not the other way round, then it does not
go on beyond that end. -/
theorem Bounds.apart (inner : g.Bounds root h e) (outer : g.Bounds root h' e')
    (reached' : g.Reaches root h') (begins : g.Before e' h' h) (alone : ¬ g.Before e h h') :
    ¬ g.Before e h e' := by
  intro crosses
  have post : g.PostDominates e' h := outer.post.of_before begins
  cases inner with
  | nearest meets =>
    -- each end would post-dominate the other
    have forth : g.PostDominates e' e := meets.first e' (Ne.symm begins.ne) post
    have back : g.PostDominates e e' := meets.post.of_before crosses
    exact crosses.ne (forth.antisymm back outer.canEnd_exit)
  | loop loop out leave finish goes =>
    have hit := (loop.before_iff out leave).mp crosses
    have outside := fun inside => alone ((loop.before_iff out leave).mpr inside)
    cases outer with
    | nearest meets =>
      -- the loop is entered at its header, which therefore lies on the ways to the other end
      have passes : g.PostDominates h h' := by
        intro v nodes hv p
        obtain ⟨before, behind, front, _, rfl⟩ := p.split (meets.post v nodes hv p)
        exact List.mem_append_left _ (loop.header_mem reached' outside front hit)
      have same : h ≠ h' := fun same => outside (same ▸ loop.head)
      have forth : g.PostDominates h e' := meets.first h same passes
      exact begins.ne (forth.antisymm post finish)
    | loop loop' out' leave' finish' goes' =>
      -- inside the loop the end leads back to the header, and on this way into the other loop
      obtain ⟨nodes, p, within⟩ := loop.back hit
      have mem := loop'.header_mem (loop.reached hit) out' p ((loop'.before_iff out' leave').mp begins)
      exact outside (within h' mem)

/-- A way that comes to a node has an edge that leads there first. -/
theorem exists_before {u v stop : Nat} {nodes : List Nat} (p : g.Path u v nodes)
    (hit : stop ∈ nodes) (other : u ≠ stop) : ∃ w, g.Before stop u w ∧ stop ∈ g.next w := by
  induction p with
  | stay v => exact absurd (List.mem_singleton.mp hit).symm other
  | @go u v w nodes edge rest ih =>
    by_cases here : v = stop
    · exact ⟨u, .refl other, here ▸ edge⟩
    · have later := (List.mem_cons.mp hit).resolve_left (Ne.symm other)
      obtain ⟨x, before, last⟩ := ih later here
      exact ⟨x, ((Before.refl other).step edge here).trans before, last⟩

end Graph

namespace Region

variable {f : Func} {g : Graph} {r o : Region} {regions : List Region}

theorem Spans.header_mem (h : r.Spans f g) : r.header ∈ r.blocks :=
  (h.mem _).mpr (.inl (.refl h.bounds.ne))

theorem Spans.exiting_mem (h : r.Spans f g) : r.exiting ∈ r.blocks := by
  obtain ⟨v, ends, nodes, p⟩ := h.bounds.finish
  exact (h.mem _).mpr (.inr ⟨rfl, Graph.exists_before p (h.bounds.post v nodes ends p) h.bounds.ne⟩)

/-- The blocks of a region exist. -/
theorem Spans.slot (h : r.Spans f g) {b : BlockId} (hb : b ∈ r.blocks) : b.index < g.size := by
  rcases (h.mem b).mp hb with before | ⟨rfl, u, before, edge⟩
  · exact before.reaches.lt_size (h.reached.lt_size h.entry)
  · exact g.next_lt edge

theorem Spans.containsInside_iff (h : r.Spans f g) {b : BlockId} :
    r.containsInside b ↔ b ≠ r.header ∧ g.Before r.exiting.index r.header.index b.index := by
  simp only [containsInside, Bool.and_eq_true, bne_iff_ne, List.contains_iff_mem]
  rw [h.mem b, Func.Until]
  constructor
  · rintro ⟨⟨other, inner⟩, before | ⟨same, -⟩⟩
    · exact ⟨other, before⟩
    · exact absurd same inner
  · rintro ⟨other, before⟩
    exact ⟨⟨other, BlockId.index_inj.not.mp before.ne⟩, .inl before⟩

/-- What comes before the end of a region comes before the end of one around it. -/
theorem Spans.before_of_inside (hr : r.Spans f g) (ho : o.Spans f g)
    (inside : o.containsInside r.header) (alone : ¬ r.containsInside o.header) {v : Nat}
    (before : g.Before r.exiting.index r.header.index v) :
    g.Before o.exiting.index o.header.index v := by
  obtain ⟨other, begins⟩ := ho.containsInside_iff.mp inside
  have alone : ¬ g.Before r.exiting.index r.header.index o.header.index :=
    fun held => alone (hr.containsInside_iff.mpr ⟨Ne.symm other, held⟩)
  have apart := hr.bounds.apart ho.bounds ho.reached begins alone
  obtain ⟨nodes, p, avoids⟩ := before
  refine begins.trans ⟨nodes, p, fun hit => apart ?_⟩
  exact .of_mem p avoids hit

/-- A region inside another has its blocks there. -/
theorem Spans.blocks_subset (hr : r.Spans f g) (ho : o.Spans f g)
    (inside : o.containsInside r.header) (alone : ¬ r.containsInside o.header) :
    ∀ b ∈ r.blocks, b ∈ o.blocks := by
  intro b hb
  rw [ho.mem b]
  rcases (hr.mem b).mp hb with before | ⟨rfl, u, before, edge⟩
  · exact .inl (hr.before_of_inside ho inside alone before)
  · have before := hr.before_of_inside ho inside alone before
    by_cases same : r.exiting = o.exiting
    · exact .inr ⟨same, u, before, same ▸ edge⟩
    · exact .inl (before.step edge (BlockId.index_inj.not.mpr same))

theorem mem_outermost :
    r ∈ outermost regions ↔ r ∈ regions ∧ ∀ o ∈ regions, ¬ o.containsInside r.header := by
  have own : ¬ r.containsInside r.header := by simp [containsInside]
  simp only [outermost, outermostPlaces, List.mem_filterMap, List.mem_filter, List.mem_range]
  constructor
  · rintro ⟨n, ⟨_, free⟩, hn⟩
    rw [hn] at free
    refine ⟨List.mem_of_getElem? hn, fun o ho inside => ?_⟩
    obtain ⟨m, hm⟩ := List.mem_iff_getElem?.mp ho
    have other : m ≠ n := by
      rintro rfl
      obtain rfl : r = o := by simpa [hn] using hm
      exact own inside
    have listed : (o, m) ∈ regions.zipIdx := List.mem_zipIdx_iff_getElem?.mpr hm
    simp only [Option.any_some, Bool.not_eq_true', List.any_eq_false, Bool.and_eq_true,
      bne_iff_ne, not_and] at free
    exact free (o, m) listed other inside
  · rintro ⟨hr, free⟩
    obtain ⟨n, hn⟩ := List.mem_iff_getElem?.mp hr
    refine ⟨n, ⟨(List.getElem?_eq_some_iff.mp hn).1, ?_⟩, hn⟩
    simp only [hn, Option.any_some, Bool.not_eq_true', List.any_eq_false, Bool.and_eq_true,
      bne_iff_ne, not_and]
    rintro ⟨o, m⟩ ho -
    exact free o (List.mem_of_getElem? (List.mem_zipIdx_iff_getElem?.mp ho))

/-- Regions that hold each other's headers lie in an outermost one. -/
def NoneLost (regions : List Region) : Prop :=
  ∀ r ∈ regions, ∀ o ∈ regions, o.containsInside r.header → r.containsInside o.header →
    ∃ w ∈ outermost regions, w.containsInside r.header

open Classical in
/-- The nodes that do not come before the end of a region. -/
noncomputable def beyond (g : Graph) (r : Region) : Finset Nat :=
  (Finset.range g.size).filter fun v => ¬ g.Before r.exiting.index r.header.index v

theorem mem_beyond {v : Nat} : v ∈ beyond g r ↔
    v < g.size ∧ ¬ g.Before r.exiting.index r.header.index v := by
  simp [beyond]

/-- Every region lies in an outermost one. -/
theorem exists_outermost (spans : ∀ r ∈ regions, r.Spans f g)
    (kept : NoneLost regions) (hr : r ∈ regions) :
    ∃ o ∈ outermost regions, (∀ v, g.Before r.exiting.index r.header.index v →
      g.Before o.exiting.index o.header.index v) ∧ ∀ b ∈ r.blocks, b ∈ o.blocks := by
  -- going outwards, fewer and fewer nodes are beyond the region
  induction hn : (beyond g r).card using Nat.strongRecOn generalizing r with
  | _ n ih =>
    by_cases top : ∀ o ∈ regions, ¬ o.containsInside r.header
    · exact ⟨r, mem_outermost.mpr ⟨hr, top⟩, fun v hv => hv, fun b hb => hb⟩
    · push Not at top
      obtain ⟨o, ho, inside⟩ := top
      by_cases back : r.containsInside o.header
      · obtain ⟨w, hw, holds⟩ := kept r hr o ho inside back
        obtain ⟨hw', free⟩ := mem_outermost.mp hw
        exact ⟨w, hw, fun v => (spans r hr).before_of_inside (spans w hw') holds (free r hr),
          (spans r hr).blocks_subset (spans w hw') holds (free r hr)⟩
      · have wider : ∀ v, g.Before r.exiting.index r.header.index v →
            g.Before o.exiting.index o.header.index v :=
          fun v => (spans r hr).before_of_inside (spans o ho) inside back
        obtain ⟨other, begins⟩ := (spans o ho).containsInside_iff.mp inside
        have fewer : (beyond g o).card < (beyond g r).card := by
          refine Finset.card_lt_card ⟨fun v hv => ?_, fun sub => ?_⟩
          · obtain ⟨small, notO⟩ := mem_beyond.mp hv
            exact mem_beyond.mpr ⟨small, fun held => notO (wider v held)⟩
          · have far : o.header.index ∈ beyond g r := by
              refine mem_beyond.mpr
                ⟨(spans o ho).reached.lt_size (spans o ho).entry, fun held => back ?_⟩
              exact (spans r hr).containsInside_iff.mpr ⟨Ne.symm other, held⟩
            exact (mem_beyond.mp (sub far)).2 (.refl (spans o ho).bounds.ne)
        obtain ⟨w, hw, around, blocks⟩ := ih _ (hn ▸ fewer) ho rfl
        exact ⟨w, hw, fun v hv => around v (wider v hv), fun b hb =>
          blocks b ((spans r hr).blocks_subset (spans o ho) inside back b hb)⟩

end Region

namespace Func

variable {f : Func} {selector : DimensionSelector} {shared : List GlobalId} {level : Level}
  {dim : Dimension} {found : DivergentFunc} {ops : List (InstId × Operation)}
  {accesses : List (InstId × GlobalId)}

theorem Analyzed.mem_outermostInstructions
    (a : f.Analyzed selector level dim found ops accesses) (consistent : f.Consistent)
    {i : InstId} {b : BlockId} (place : f.blockOf i = some b)
    (reached : found.flow.graph.Reaches f.entry.index b.index)
    (divergent : found.divergence.isDivergent i) (other : i ∉ found.divergence.reads)
    (free : ∀ r ∈ found.divergence.regions, b ∉ r.blocks) :
    i ∈ found.divergence.outermostInstructions := by
  have body := consistent.isDeclaration_of_blockOf place
  have divergent : i ∈ found.divergence.set := by simpa [Divergence.isDivergent] using divergent
  have listed := (a.mem_placed consistent).mpr ⟨body, reached, place, divergent⟩
  have block : found.divergence.blockOf? i = some b := by
    unfold Divergence.blockOf?
    cases last : found.divergence.placed.reverse.find? (·.1 == i) with
    | none => exact absurd (List.find?_eq_none.mp last (i, b) (by simpa using listed)) (by simp)
    | some entry =>
      obtain ⟨j, c⟩ := entry
      obtain rfl : j = i := by simpa using List.find?_some last
      have hc := (a.mem_placed consistent).mp (by simpa using List.mem_of_find?_eq_some last)
      simpa [place] using hc.2.2.1.symm
  unfold Divergence.outermostInstructions
  refine List.mem_filter.mpr ⟨List.mem_map.mpr ⟨(i, b), listed, rfl⟩, ?_⟩
  simpa [block, other] using free

end Func

/-- No divergent code is lost: it is listed outside the regions, or lies in an outermost one, and
the header of every region lies in an outermost one. -/
structure Divergence.Complete (f : Func) (g : Graph) (d : Divergence) : Prop where
  code : ∀ i b, d.isDivergent i → i ∉ d.reads → f.blockOf i = some b →
    g.Reaches f.entry.index b.index →
      i ∈ d.outermostInstructions ∨ ∃ r ∈ d.outermostRegions, b ∈ r.blocks
  headers : ∀ r ∈ d.regions, ∃ o ∈ d.outermostRegions,
    o.header = r.header ∨ o.containsInside r.header

/-- No divergent code is lost exactly if regions that hold each other's headers lie in an
outermost one. -/
theorem Func.divergence_complete_iff {f : Func} {selector : DimensionSelector}
    {shared : List GlobalId} {level : Level} {dim : Dimension} {found : DivergentFunc}
    (consistent : f.Consistent) (h : f.analyze selector shared level dim = .ok (.ok found)) :
    found.divergence.Complete f found.flow.graph ↔ Region.NoneLost found.divergence.regions := by
  obtain ⟨ops, accesses, a⟩ := analyzed h
  have spans := fun r hr => a.spans consistent (r := r) hr
  constructor
  · intro complete r hr o ho inside back
    obtain ⟨w, hw, same | holds⟩ := complete.headers r hr
    · exact absurd (same ▸ inside) ((Region.mem_outermost.mp hw).2 o ho)
    · exact ⟨w, hw, holds⟩
  · intro kept
    refine ⟨fun i b divergent other place reached => ?_, fun r hr => ?_⟩
    · by_cases free : ∀ r ∈ found.divergence.regions, b ∉ r.blocks
      · exact .inl (a.mem_outermostInstructions consistent place reached divergent other free)
      · push Not at free
        obtain ⟨r, hr, hb⟩ := free
        obtain ⟨o, ho, -, blocks⟩ := Region.exists_outermost spans kept hr
        exact .inr ⟨o, ho, blocks b hb⟩
    · obtain ⟨o, ho, around, -⟩ := Region.exists_outermost spans kept hr
      refine ⟨o, ho, ?_⟩
      by_cases same : o.header = r.header
      · exact .inl same
      · have own := around _ (.refl (spans r hr).bounds.ne)
        exact .inr ((spans o (Region.mem_outermost.mp ho).1).containsInside_iff.mpr
          ⟨Ne.symm same, own⟩)

/-! ### A loop with two ways out -/

/-- A loop that is left behind either of two divergent branches.  Each branch can be reached
from the other before the loop is left, so their regions hold each other's headers. -/
def twoWaysOut : Func := .assemble "two_ways_out" [⟨"out", .ptr .global⟩, ⟨"n", .i32⟩] [
  ("entry", [
    ⟨.call "llvm.nvvm.read.ptx.sreg.tid.x" [], .i32, "t"⟩,
    ⟨.jump ⟨1⟩, .void, ""⟩]),
  ("head", [
    ⟨.phi [(.const 0, ⟨0⟩), (.inst ⟨3⟩, ⟨4⟩)], .i32, "i"⟩,
    ⟨.binary .add (.inst ⟨2⟩) (.const 1), .i32, "i1"⟩,
    ⟨.compare .slt (.inst ⟨2⟩) (.arg 1), .i1, "u"⟩,
    ⟨.branch (.inst ⟨4⟩) ⟨2⟩ ⟨3⟩, .void, ""⟩]),
  ("a", [
    ⟨.compare .eq (.inst ⟨0⟩) (.inst ⟨2⟩), .i1, "c1"⟩,
    ⟨.branch (.inst ⟨6⟩) ⟨5⟩ ⟨4⟩, .void, ""⟩]),
  ("b", [
    ⟨.compare .sle (.inst ⟨0⟩) (.inst ⟨2⟩), .i1, "c2"⟩,
    ⟨.branch (.inst ⟨8⟩) ⟨5⟩ ⟨4⟩, .void, ""⟩]),
  ("latch", [⟨.jump ⟨1⟩, .void, ""⟩]),
  ("exit", [
    ⟨.element (.arg 0) (.inst ⟨0⟩), .ptr .global, "p"⟩,
    ⟨.store (.inst ⟨11⟩) (.const 7), .void, ""⟩,
    ⟨.ret none, .void, ""⟩])]

/-- What the analysis finds in the loop with two ways out. -/
def twoWaysOutFound : DivergentFunc where
  func := twoWaysOut
  flow :=
    { graph := ⟨#[[1], [2, 3], [5, 4], [5, 4], [1], []], by decide⟩
      dom := ⟨#[some 0, some 0, some 1, some 1, some 1, some 1]⟩
      pdom := ⟨#[some 1, some 5, some 5, some 5, some 1, some 6, some 6], 6⟩
      loops := ⟨[⟨⟨1⟩, [⟨1⟩, ⟨2⟩, ⟨3⟩, ⟨4⟩], [⟨4⟩], none, 1⟩]⟩ }
  grid := ⟨[(⟨0⟩, .threadId, .x)], []⟩
  divergence :=
    { level := .thread
      dim := .x
      set := [⟨12⟩, ⟨11⟩, ⟨9⟩, ⟨8⟩, ⟨7⟩, ⟨6⟩, ⟨0⟩]
      placed := [(⟨0⟩, ⟨0⟩), (⟨8⟩, ⟨3⟩), (⟨9⟩, ⟨3⟩), (⟨6⟩, ⟨2⟩), (⟨7⟩, ⟨2⟩), (⟨11⟩, ⟨5⟩),
        (⟨12⟩, ⟨5⟩)]
      branches := [⟨9⟩, ⟨7⟩]
      regions := [
        ⟨⟨3⟩, ⟨5⟩, [⟨3⟩, ⟨5⟩, ⟨4⟩, ⟨1⟩, ⟨2⟩], [], [⟨0⟩]⟩,
        ⟨⟨2⟩, ⟨5⟩, [⟨2⟩, ⟨5⟩, ⟨4⟩, ⟨1⟩, ⟨3⟩], [], [⟨0⟩]⟩]
      reads := [⟨0⟩] }

theorem analyze_twoWaysOut :
    twoWaysOut.analyze (.only .x) [] .thread .x = .ok (.ok twoWaysOutFound) :=
  Func.analyze_eq_ok_iff.mpr ⟨by cbv, by rfl, by cbv, rfl⟩

/-- All divergent code of the loop with two ways out is lost: it is well-formed and has divergent
code, but no region is an outermost one and no code is outside the regions. -/
theorem divergence_twoWaysOut_lost :
    twoWaysOut.firstFlaw? = .ok none ∧
      twoWaysOut.analyze (.only .x) [] .thread .x = .ok (.ok twoWaysOutFound) ∧
      twoWaysOutFound.divergence.outermostInstructions = [] ∧
      twoWaysOutFound.divergence.outermostRegions = [] ∧
      ¬ twoWaysOutFound.divergence.Complete twoWaysOut twoWaysOutFound.flow.graph := by
  have none : Region.outermost twoWaysOutFound.divergence.regions = [] := by decide
  refine ⟨by cbv, analyze_twoWaysOut, by decide, none, fun complete => ?_⟩
  have kept := (Func.divergence_complete_iff (Func.consistent_assemble ..) analyze_twoWaysOut).mp
    complete
  obtain ⟨w, hw, -⟩ := kept ⟨⟨3⟩, ⟨5⟩, [⟨3⟩, ⟨5⟩, ⟨4⟩, ⟨1⟩, ⟨2⟩], [], [⟨0⟩]⟩ (by decide)
    ⟨⟨2⟩, ⟨5⟩, [⟨2⟩, ⟨5⟩, ⟨4⟩, ⟨1⟩, ⟨3⟩], [], [⟨0⟩]⟩ (by decide) (by decide) (by decide)
  rw [none] at hw
  exact absurd hw (by simp)

end KernelCoarsening
