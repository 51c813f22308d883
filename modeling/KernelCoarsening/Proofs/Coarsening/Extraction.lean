/-
Bringing regions into form keeps what a function does.

Each region is brought into form by two cuts and perhaps a new exiting block, and each of these
keeps what the function does, so any number of regions may be brought into form one after the
other:

* `Func.Rewrites` — a tidy function does what another one does;
* `Func.cutHeader_cut`, `Func.cutExiting_cut`, `Func.isolate_divided` — what the edits are;
* `Func.Stable` — what such edits keep holds however far regions have been brought into form;
* `Func.extractRegions_runs_iff` — bringing regions into form;
* `not_runs_iff_stalePhi` — it may change what a function does whose phis name blocks that are
  not there.
-/
import KernelCoarsening.Coarsening.Kernel
import KernelCoarsening.Proofs.Coarsening.Isolation
import KernelCoarsening.Proofs.Divergence.Discovery
import KernelCoarsening.Proofs.Ir.Assembly
import Mathlib

namespace KernelCoarsening

namespace Func

variable {f g h : Func}

/-- A tidy function does what another one does. -/
structure Rewrites (f g : Func) : Prop where
  tidy : g.outline.Tidy
  runs : ∀ given m m', f.Runs given m m' ↔ g.Runs given m m'

theorem Rewrites.refl (tidy : f.outline.Tidy) : f.Rewrites f := ⟨tidy, fun _ _ _ => Iff.rfl⟩

theorem Rewrites.trans (hg : f.Rewrites g) (hh : g.Rewrites h) : f.Rewrites h :=
  ⟨hh.tidy, fun given m m' => (hg.runs given m m').trans (hh.runs given m m')⟩

/-! ### Cuts -/

section

variable {b : BlockId} {phis front back : List InstId} {last : InstId}

/-- A block is cut behind its phis or later. -/
theorem splitBlock_cut (formed : f.outline.Formed)
    (shape : f.outline.Shape b phis (front ++ back) last) {cut : Nat}
    (place : cut = phis.length + front.length) (name : String) :
    Yields (f.splitBlock b cut name) fun r => r.2 = ⟨f.blocks.size⟩ ∧
      ∃ targets, f.Cut r.1 b phis front back last targets := by
  obtain ⟨g, targets, answer, cutting⟩ := exists_splitBlock formed shape name
  exact .of_answer (place ▸ answer) ⟨rfl, targets, cutting⟩

/-- A header stays as it is if it heads a loop, and otherwise all but its terminator stays in front
of the cut. -/
theorem cutHeader_cut (formed : f.outline.Formed) {loops : LoopForest} {header : BlockId} :
    Yields (f.cutHeader loops header) fun r =>
      (loops.isHeader header = true ∧ r = (f, header)) ∨
      (loops.isHeader header = false ∧ r.2 = ⟨f.blocks.size⟩ ∧
        ∃ phis body last targets, f.Cut r.1 header phis body [] last targets) := by
  unfold cutHeader
  split
  · rename_i heads
    exact .pure (.inl ⟨heads, rfl⟩)
  · rename_i plain
    refine .ask fun block hblock => .ask fun label _ => ?_
    obtain ⟨phis, body, last, shape⟩ := formed.formed header (lt_of_block hblock)
    have all : f.outline.Shape header phis (body ++ []) last := by simpa using shape
    have place : block.insts.length - 1 = phis.length + body.length := by
      rw [← code_of_block hblock, show f.code header = _ from shape.code]
      simp
    refine (splitBlock_cut formed all place _).mono fun r cut => ?_
    obtain ⟨new, targets, cut⟩ := cut
    exact .inr ⟨by simpa using plain, new, phis, body, last, targets, cut⟩

/-- Only the phis of an exiting block stay in front of the cut. -/
theorem cutExiting_cut (formed : f.outline.Formed) {exiting : BlockId} :
    Yields (f.cutExiting exiting) fun r => r.2 = ⟨f.blocks.size⟩ ∧
      ∃ phis body last targets, f.Cut r.1 exiting phis [] body last targets := by
  refine .ask fun first hfirst => .ask fun label _ => ?_
  obtain ⟨phis', hphis, count⟩ := bind_eq_ok_iff.mp hfirst
  obtain ⟨block, hblock, -⟩ := bind_eq_ok_iff.mp hphis
  obtain ⟨phis, body, last, shape⟩ := formed.formed exiting (lt_of_block hblock)
  have all : f.outline.Shape exiting phis ([] ++ body) last := shape
  obtain rfl : phis = phis' := by simpa [phis_of_shape shape] using hphis
  have place : first = phis.length + ([] : List InstId).length := by
    simpa [pure, Except.pure] using count.symm
  refine (splitBlock_cut formed all place _).mono fun r cut => ?_
  obtain ⟨new, targets, cut⟩ := cut
  exact ⟨new, phis, body, last, targets, cut⟩

end

/-! ### Exiting blocks -/

/-- A search finds blocks of the function, and perhaps the block at which it stops. -/
theorem slot_of_mem_reach {stop : BlockId} {found stack bs : List BlockId}
    (hr : f.reach stop found stack = .ok bs)
    (slots : ∀ b ∈ found, b = stop ∨ b.index < f.blocks.size) {b : BlockId} (hb : b ∈ bs) :
    b = stop ∨ b.index < f.blocks.size := by
  induction found, stack using Func.reach.induct f stop with
  | case1 found =>
    obtain rfl : found = bs := by simpa [reach] using hr
    exact slots b hb
  | case2 found c rest old ih =>
    rw [reach, dif_pos old] at hr
    exact ih hr slots
  | case3 found rest new ih =>
    rw [reach, dif_neg new, dif_pos rfl] at hr
    exact ih hr (List.forall_mem_cons.mpr ⟨.inl rfl, slots⟩)
  | case4 found c rest new last slot succs hs ih =>
    rw [reach, dif_neg new, dif_neg last, dif_pos slot, hs] at hr
    exact ih hr (List.forall_mem_cons.mpr ⟨.inr (mem_blockIds.mp slot), slots⟩)
  | case5 found c rest new last slot fault hs =>
    rw [reach, dif_neg new, dif_neg last, dif_pos slot, hs] at hr
    simp at hr
  | case6 found c rest new last slot =>
    rw [reach, dif_neg new, dif_neg last, dif_neg slot] at hr
    simp at hr

theorem slot_of_mem_fill {region filled : Region} (h : region.fill f = .ok filled)
    (exiting : filled.exiting.index < f.blocks.size) {b : BlockId} (hb : b ∈ filled.blocks) :
    b.index < f.blocks.size := by
  obtain ⟨blocks, search, h⟩ := bind_eq_ok_iff.mp h
  obtain rfl := Except.ok.inj h
  obtain ⟨found, reached, rfl⟩ := map_eq_ok_iff.mp search
  rcases slot_of_mem_reach reached (by simp) (List.mem_reverse.mp hb) with rfl | slot
  · exact exiting
  · exact slot

/-- Where the header does not dominate the exiting block, the region gets one of its own. -/
theorem exists_isolated (formed : f.outline.Formed) {region filled : Region}
    (hfill : region.fill f = .ok filled) (slot : filled.exiting.index < f.blocks.size)
    {graph : Graph} (hgraph : f.graph = .ok graph)
    (aside : (f.dominators graph).dominates filled.header filled.exiting = false) :
    ∃ g done body last, f.isolate filled = .ok (g, { filled with exiting := ⟨f.blocks.size⟩ }) ∧
      f.Divided g filled.exiting filled.blocks done [] body last := by
  obtain ⟨block, hblock, -⟩ := exists_block slot
  have hlabel : ∃ label, f.label filled.exiting = .ok label :=
    ⟨_, bind_eq_ok_iff.mpr ⟨block, hblock, rfl⟩⟩
  obtain ⟨label, hlabel⟩ := hlabel
  obtain ⟨phis, body, last, shape⟩ := formed.formed filled.exiting slot
  obtain ⟨f₁, f₂, added, redirected, start⟩ := Divided.exists_start formed shape
    (fun b hb => slot_of_mem_fill hfill slot hb) (suffixed label ".extracted")
  obtain ⟨g, done, divided, all⟩ := start.divideAll formed
  have phis₂ := phis_of_shape (start.shape_start formed)
  refine ⟨g, done, body, last, ?_, all⟩
  unfold isolate
  simp only [hgraph, hlabel, aside, bind, Except.bind, Bool.false_eq_true, if_false]
  simp only [show (f.addBlockBefore filled.exiting (suffixed label ".extracted")).2 =
    ⟨f.blocks.size⟩ from rfl, added, redirected, phis₂, divided]
  rfl

/-- An exiting block stays as it is if the header dominates it, and otherwise the region gets one of
its own. -/
theorem isolate_divided (formed : f.outline.Formed) {region filled : Region}
    (hfill : region.fill f = .ok filled) :
    Yields (f.isolate filled) fun r => ∃ graph, f.graph = .ok graph ∧
      (((f.dominators graph).dominates filled.header filled.exiting = true ∧ r = (f, filled)) ∨
      ((f.dominators graph).dominates filled.header filled.exiting = false ∧
        r.2 = { filled with exiting := ⟨f.blocks.size⟩ } ∧
        ∃ done body last, f.Divided r.1 filled.exiting filled.blocks done [] body last)) := by
  intro r answer
  have whole := answer
  obtain ⟨graph, hgraph, answer⟩ := bind_eq_ok_iff.mp answer
  dsimp only at answer
  split at answer
  · rename_i above
    obtain rfl := Except.ok.inj answer
    exact ⟨graph, hgraph, .inl ⟨above, rfl⟩⟩
  · rename_i aside
    rw [Bool.not_eq_true] at aside
    obtain ⟨label, hlabel, -⟩ := bind_eq_ok_iff.mp answer
    obtain ⟨block, hblock, -⟩ := bind_eq_ok_iff.mp hlabel
    obtain ⟨g, done, body, last, own, divided⟩ :=
      exists_isolated formed hfill (lt_of_block hblock) hgraph aside
    obtain rfl := Except.ok.inj (whole.symm.trans own)
    exact ⟨graph, hgraph, .inr ⟨aside, rfl, done, body, last, divided⟩⟩

/-! ### Regions -/

/-- What cuts and new exiting blocks keep. -/
structure Stable (P : Func → Prop) : Prop where
  formed : ∀ {f}, P f → f.outline.Formed
  cut : ∀ {f g b phis front back last targets}, P f → f.Cut g b phis front back last targets → P g
  divide : ∀ {f g x members done body last}, P f → f.Divided g x members done [] body last → P g

namespace Stable

variable {P : Func → Prop} {regions : List Region}

theorem extractRegion (stable : Stable P) (hf : P f) {n : Nat} {region : Region} :
    Yields (f.extractRegion regions n region) fun r => P r.2.1 := by
  refine .ask fun flow _ => .ask fun exiting _ => ?_
  split
  · exact .pure hf
  · refine Yields.bind (p := fun r => P r.1) ((cutHeader_cut (stable.formed hf)).mono fun r cut => ?_)
      fun _ h₁ => ?_
    · rcases cut with ⟨-, rfl⟩ | ⟨-, -, _, _, _, _, cut⟩
      · exact hf
      · exact stable.cut hf cut
    refine Yields.bind (p := fun r => P r.1)
      ((cutExiting_cut (stable.formed h₁)).mono fun r cut => ?_) fun _ h₂ => ?_
    · obtain ⟨-, _, _, _, _, cut⟩ := cut
      exact stable.cut h₁ cut
    dsimp only
    split
    · exact .pure h₂
    · refine .ask fun filled hfill => ?_
      refine Yields.bind (p := fun r => P r.1)
        ((isolate_divided (stable.formed h₂) hfill).mono fun r own => ?_) fun _ h₃ => ?_
      · obtain ⟨_, -, ⟨-, rfl⟩ | ⟨-, -, _, _, _, divided⟩⟩ := own
        · exact h₂
        · exact stable.divide h₂ divided
      exact .ask fun _ _ => .pure h₃

theorem extractPlaces (stable : Stable P) (hf : P f) {places : List Nat} :
    Yields (f.extractPlaces regions places) fun r => P r.2.1 := by
  induction places generalizing f regions with
  | nil => exact .pure hf
  | cons n rest ih =>
    rw [Func.extractPlaces]
    split
    · exact ih hf
    · refine (stable.extractRegion hf).bind fun r hr => ?_
      obtain ⟨error, g, regions⟩ := r
      cases error with
      | some e => exact .pure hr
      | none => exact ih hr

/-- It holds however far regions have been brought into form. -/
theorem extractRegions (stable : Stable P) (hf : P f) :
    Yields (f.extractRegions regions) fun r => P r.2.1 := stable.extractPlaces hf

end Stable

theorem stable_rewrites (f : Func) : Stable f.Rewrites where
  formed h := h.tidy.toFormed
  cut h cut := h.trans ⟨cut.tidy h.tidy, fun _ _ _ => cut.runs_iff h.tidy⟩
  divide h divided := h.trans ⟨divided.tidy h.tidy, fun _ _ _ => divided.runs_iff h.tidy⟩

/-- Bringing regions into form keeps what a function does, whichever regions these are and
however far the work goes, if its phis name blocks of the function. -/
theorem extractRegions_runs_iff (consistent : f.Consistent) (flawless : f.firstFlaw? = .ok none)
    (named : ∀ i incoming, f.isLive i → f.operation i = .ok (.phi incoming) →
      ∀ p ∈ incoming, p.2.index < f.blocks.size)
    {regions after : List Region} {error : Option RegionError}
    (extracted : f.extractRegions regions = .ok (error, g, after)) (given : Surroundings)
    (m m' : Memory) : f.Runs given m m' ↔ g.Runs given m m' :=
  ((stable_rewrites f).extractRegions (.refl (tidy_of_flawless consistent flawless named)) _
    extracted).runs given m m'

end Func

/-! ### Phis that name blocks which are not there -/

/-- A kernel in which each thread stores which way it has come.  Its phi may have further
entries, at the front. -/
def guardedValue (stale : List (Value × BlockId)) : Func :=
  .assemble "guarded_value" [⟨"out", .ptr .global⟩, ⟨"n", .i32⟩] [
    ("entry", [
      ⟨.call "llvm.nvvm.read.ptx.sreg.tid.x" [], .i32, "t"⟩,
      ⟨.compare .slt (.inst ⟨0⟩) (.arg 1), .i1, "c"⟩,
      ⟨.branch (.inst ⟨1⟩) ⟨1⟩ ⟨2⟩, .void, ""⟩]),
    ("body", [⟨.jump ⟨2⟩, .void, ""⟩]),
    ("exit", [
      ⟨.phi (stale ++ [(.const 1, ⟨0⟩), (.const 2, ⟨1⟩)]), .i32, "r"⟩,
      ⟨.element (.arg 0) (.inst ⟨0⟩), .ptr .global, "p"⟩,
      ⟨.store (.inst ⟨5⟩) (.inst ⟨4⟩), .void, ""⟩,
      ⟨.ret none, .void, ""⟩])]

/-- The kernel with its region in form: the branch has moved to the new block 3. -/
def guardedValueSplit (stale : List (Value × BlockId)) : Func where
  name := "guarded_value"
  params := [⟨"out", .ptr .global⟩, ⟨"n", .i32⟩]
  returnTy := .void
  convention := .kernel
  blocks := #[
    ⟨"entry", [⟨0⟩, ⟨1⟩, ⟨8⟩]⟩,
    ⟨"body", [⟨3⟩]⟩,
    ⟨"exit", [⟨4⟩, ⟨9⟩]⟩,
    ⟨"entry.split", [⟨2⟩]⟩,
    ⟨"exit.split", [⟨5⟩, ⟨6⟩, ⟨7⟩]⟩]
  layout := [⟨0⟩, ⟨3⟩, ⟨1⟩, ⟨2⟩, ⟨4⟩]
  insts := #[
    ⟨.call "llvm.nvvm.read.ptx.sreg.tid.x" [], .i32, "t", some ⟨0⟩⟩,
    ⟨.compare .slt (.inst ⟨0⟩) (.arg 1), .i1, "c", some ⟨0⟩⟩,
    ⟨.branch (.inst ⟨1⟩) ⟨1⟩ ⟨2⟩, .void, "", some ⟨3⟩⟩,
    ⟨.jump ⟨2⟩, .void, "", some ⟨1⟩⟩,
    ⟨.phi (stale ++ [(.const 1, ⟨3⟩), (.const 2, ⟨1⟩)]), .i32, "r", some ⟨2⟩⟩,
    ⟨.element (.arg 0) (.inst ⟨0⟩), .ptr .global, "p", some ⟨4⟩⟩,
    ⟨.store (.inst ⟨5⟩) (.inst ⟨4⟩), .void, "", some ⟨4⟩⟩,
    ⟨.ret none, .void, "", some ⟨4⟩⟩,
    ⟨.jump ⟨3⟩, .void, "", some ⟨0⟩⟩,
    ⟨.jump ⟨4⟩, .void, "", some ⟨2⟩⟩]

theorem guardedValue_closed :
    ∀ targets ∈ (#[[1, 2], [2], []] : Array (List Nat)), ∀ v ∈ targets, v < 3 := by decide

/-- What the analysis finds in the kernel. -/
def guardedValueFound (stale : List (Value × BlockId)) : DivergentFunc where
  func := guardedValue stale
  flow :=
    { graph := ⟨#[[1, 2], [2], []], guardedValue_closed⟩
      dom := ⟨#[some 0, some 0, some 0]⟩
      pdom := ⟨#[some 2, some 2, some 3, some 3], 3⟩
      loops := ⟨[]⟩ }
  grid := ⟨[(⟨0⟩, .threadId, .x)], []⟩
  divergence :=
    { level := .thread
      dim := .x
      set := [⟨5⟩, ⟨6⟩, ⟨4⟩, ⟨2⟩, ⟨1⟩, ⟨0⟩]
      placed := [(⟨0⟩, ⟨0⟩), (⟨1⟩, ⟨0⟩), (⟨2⟩, ⟨0⟩), (⟨4⟩, ⟨2⟩), (⟨5⟩, ⟨2⟩), (⟨6⟩, ⟨2⟩)]
      branches := [⟨2⟩]
      regions := [⟨⟨0⟩, ⟨2⟩, [⟨0⟩, ⟨1⟩, ⟨2⟩], [], []⟩]
      reads := [⟨0⟩] }

/-- The first thread of the kernel, which does not go through the body. -/
def guardedThread : Surroundings where
  position := ⟨⟨0, 0, 0⟩, ⟨0, 0, 0⟩, ⟨1, 1, 1⟩, ⟨1, 1, 1⟩⟩
  args := [.address ⟨0, 0⟩, .number 0]
  globals := []

theorem named_guardedValue : ∀ i incoming, (guardedValue []).isLive i →
    (guardedValue []).operation i = .ok (.phi incoming) →
      ∀ p ∈ incoming, p.2.index < (guardedValue []).blocks.size := by
  rintro ⟨n⟩ incoming - phi
  have bound : n < 8 := by
    obtain ⟨inst, hinst, -⟩ := map_eq_ok_iff.mp phi
    exact Func.line_isSome_iff.mp (by rw [Func.line_of_inst hinst]; rfl)
  interval_cases n <;> cases phi
  decide

/-- Bringing the region into form keeps what the kernel does if its phi has no further entries. -/
theorem runs_iff_guardedValueSplit :
    (guardedValue []).extractRegions (guardedValueFound []).divergence.regions =
      .ok (none, guardedValueSplit [], [⟨⟨3⟩, ⟨2⟩, [⟨3⟩, ⟨1⟩, ⟨2⟩], [⟨4⟩], [⟨1⟩]⟩]) ∧
    (guardedValue []).Runs guardedThread ⟨[[5]]⟩ ⟨[[1]]⟩ ∧
    ((guardedValue []).Runs guardedThread ⟨[[5]]⟩ ⟨[[1]]⟩ ↔
      (guardedValueSplit []).Runs guardedThread ⟨[[5]]⟩ ⟨[[1]]⟩) := by
  have extracted : (guardedValue []).extractRegions (guardedValueFound []).divergence.regions =
      .ok (none, guardedValueSplit [], [⟨⟨3⟩, ⟨2⟩, [⟨3⟩, ⟨1⟩, ⟨2⟩], [⟨4⟩], [⟨1⟩]⟩]) := by cbv
  exact ⟨extracted, Func.finishes_iff_run.mpr ⟨12, by rfl⟩, Func.extractRegions_runs_iff
    (Func.consistent_assemble ..) (by cbv) named_guardedValue extracted _ _ _⟩

/-- The kernel is well-formed with an entry for a block 3 that is not there.  With the new block 3
the entry counts, and the thread stores what it says. -/
theorem not_runs_iff_stalePhi :
    (guardedValue [(.const 0, ⟨3⟩)]).Consistent ∧
      (guardedValue [(.const 0, ⟨3⟩)]).firstFlaw? = .ok none ∧
      (guardedValue [(.const 0, ⟨3⟩)]).analyze (.only .x) [] .thread .x =
        .ok (.ok (guardedValueFound [(.const 0, ⟨3⟩)])) ∧
      (guardedValue [(.const 0, ⟨3⟩)]).extractRegions
        (guardedValueFound [(.const 0, ⟨3⟩)]).divergence.regions =
        .ok (none, guardedValueSplit [(.const 0, ⟨3⟩)],
          [⟨⟨3⟩, ⟨2⟩, [⟨3⟩, ⟨1⟩, ⟨2⟩], [⟨4⟩], [⟨1⟩]⟩]) ∧
      (guardedValue [(.const 0, ⟨3⟩)]).Runs guardedThread ⟨[[5]]⟩ ⟨[[1]]⟩ ∧
      ¬ (guardedValueSplit [(.const 0, ⟨3⟩)]).Runs guardedThread ⟨[[5]]⟩ ⟨[[1]]⟩ := by
  refine ⟨Func.consistent_assemble .., by cbv,
    Func.analyze_eq_ok_iff.mpr ⟨by cbv, by rfl, by cbv, rfl⟩, by cbv,
    Func.finishes_iff_run.mpr ⟨12, by rfl⟩, fun runs => ?_⟩
  have zero : (guardedValueSplit [(.const 0, ⟨3⟩)]).Runs guardedThread ⟨[[5]]⟩ ⟨[[0]]⟩ :=
    Func.finishes_iff_run.mpr ⟨12, by rfl⟩
  exact absurd (zero.unique runs) (by decide)

end KernelCoarsening
