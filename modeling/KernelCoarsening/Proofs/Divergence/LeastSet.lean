/-
The divergent set is the least one.

Divergence passes on from an instruction in four ways: to what reads it, from a branch to the phis
where its ways meet and to the values of the loops that it may leave, and from an access to the
other accesses of its shared global.  What is divergent is what divergence passes on to, step by
step, from the reads of the merged identity, in whatever order a search takes the steps:

* `Func.Passes` — the four ways;
* `Func.mem_divergentWith_iff` — what a search follows from an instruction is one step of them;
* `Func.mem_spread_iff` — a search finds what steps lead to, and nothing else;
* `Func.divergence_least` — the divergent set, how it grows, and its listing.
-/
import KernelCoarsening.Proofs.Divergence.Straight
import KernelCoarsening.Proofs.Flow.LoopNesting
import KernelCoarsening.Proofs.Ir.Assembly
import Mathlib.Logic.Relation

namespace KernelCoarsening

/-- What is in one of the lists that members of a list are asked for. -/
theorem mem_flatten_of_mapM_eq_ok {ε α β : Type} {ask : α → Except ε (List β)} {xs : List α}
    {rows : List (List β)} {y : β} {p : α → Prop} (h : xs.mapM ask = .ok rows)
    (each : ∀ x ∈ xs, ∀ row, ask x = .ok row → (y ∈ row ↔ p x)) :
    y ∈ rows.flatten ↔ ∃ x ∈ xs, p x := by
  rw [List.mem_flatten]
  constructor
  · rintro ⟨row, hr, hy⟩
    obtain ⟨x, hx, answer⟩ := (mem_of_mapM_eq_ok h).mp hr
    exact ⟨x, hx, (each x hx row answer).mp hy⟩
  · rintro ⟨x, hx, holds⟩
    obtain ⟨row, hr, answer⟩ := exists_of_mapM_eq_ok h hx
    exact ⟨row, hr, (each x hx row answer).mpr holds⟩

namespace Func

variable {f : Func} {flow : Flow} {grid : GridReads} {shared : List GlobalId} {level : Level}
  {dim : Dimension} {d : Divergence} {ops : List (InstId × Operation)}
  {accesses : List (InstId × GlobalId)} {i j : InstId} {g : GlobalId} {b : BlockId}

/-! ### Steps -/

/-- An instruction of a block reads another instruction. -/
def ReadsIn (f : Func) (b : BlockId) (user i : InstId) : Prop :=
  f.blockOf user = some b ∧ ∃ op, f.operation user = .ok op ∧ i ∈ op.usedInsts

/-- An instruction of a block is a conditional branch. -/
def BranchesIn (f : Func) (b : BlockId) (i : InstId) : Prop :=
  f.blockOf i = some b ∧ ∃ op, f.operation i = .ok op ∧ op.isBranch = true

/-- Divergence passes on from an instruction to another. -/
inductive Passes (f : Func) (flow : Flow) (shared : List GlobalId) (level : Level) (i : InstId) :
    InstId → Prop where
  /-- To what reads it. -/
  | reader {user : InstId} {b : BlockId} (reads : f.ReadsIn b user i) :
      Passes f flow shared level i user
  /-- From a branch to the phis of the immediate post-dominator of its block. -/
  | meeting {phi : InstId} {b join : BlockId} {phis : List InstId} (branches : f.BranchesIn b i)
      (parent : flow.pdom.parent? b = some join) (listed : f.phis join = .ok phis)
      (mem : phi ∈ phis) : Passes f flow shared level i phi
  /-- From a branch whose block leads out of a loop to the values of the loop that are read
  outside. -/
  | leaving {value user : InstId} {lp : Loop} {b out home away : BlockId}
      (branches : f.BranchesIn b i) (listed : lp ∈ flow.loops.loops) (inside : b ∈ lp.blocks)
      (leads : f.LeadsTo b out) (left : out ∉ lp.blocks) (placed : f.blockOf value = some home)
      (own : home ∈ lp.blocks) (reads : f.ReadsIn away user value) (beyond : away ∉ lp.blocks) :
      Passes f flow shared level i value
  /-- At block level, from an access of a shared global to the other accesses of it. -/
  | sharing {other : InstId} {g : GlobalId} (block : level = .block) (mem : g ∈ shared)
      (touches : f.Touches i g) (placed : (f.blockOf other).isSome) (also : f.Touches other g)
      (distinct : other ≠ i) : Passes f flow shared level i other

/-- More shared globals let divergence pass on further. -/
theorem Passes.mono {shared' : List GlobalId} (more : shared ⊆ shared')
    (h : f.Passes flow shared level i j) : f.Passes flow shared' level i j := by
  cases h with
  | reader reads => exact .reader reads
  | meeting branches parent listed mem => exact .meeting branches parent listed mem
  | leaving branches listed inside leads left placed own reads beyond =>
    exact .leaving branches listed inside leads left placed own reads beyond
  | sharing block mem touches placed also distinct =>
    exact .sharing block (more mem) touches placed also distinct

theorem mem_readersOf_iff (consistent : f.Consistent) (listing : f.operations = .ok ops) :
    j ∈ readersOf ops i ↔ ∃ b, f.ReadsIn b j i := by
  simp only [mem_readersOf, mem_operations consistent listing, ReadsIn]
  constructor
  · rintro ⟨op, ⟨⟨b, hb⟩, hop⟩, reads⟩
    exact ⟨b, hb, op, hop, reads⟩
  · rintro ⟨b, hb, op, hop, reads⟩
    exact ⟨op, ⟨⟨b, hb⟩, hop⟩, reads⟩

/-- The loops around a block are those that hold it. -/
theorem mem_enclosing_iff (consistent : f.Consistent) (hf : f.flow = .ok flow) {n : Nat} :
    n ∈ flow.loops.enclosing b ↔ ∃ lp, flow.loops.loops[n]? = some lp ∧ b ∈ lp.blocks := by
  obtain ⟨hg, hdom, -, hloops⟩ := flow_eq_ok hf
  have layout : ∀ c, c ∈ f.layout ↔ c ∈ f.blockIds := fun c => by
    rw [consistent.mem_layout, mem_blockIds]
  rw [hloops, hdom, LoopForest.enclosing_eq (nested_loops hg layout) settled_loops, List.mem_reverse,
    LoopForest.mem_holders]

/-- The values that threads take along from the loops that a block leads out of. -/
theorem mem_loopLiveOuts_iff (consistent : f.Consistent) (hf : f.flow = .ok flow)
    (listing : f.operations = .ok ops) {outs : List InstId}
    (h : f.loopLiveOuts flow ops b = .ok outs) :
    j ∈ outs ↔ ∃ lp ∈ flow.loops.loops, b ∈ lp.blocks ∧ (∃ c, f.LeadsTo b c ∧ c ∉ lp.blocks) ∧
      (∃ c ∈ lp.blocks, f.blockOf j = some c) ∧
      ∃ user c, f.ReadsIn c user j ∧ c ∉ lp.blocks := by
  obtain ⟨succs, hs, h⟩ := bind_eq_ok_iff.mp h
  obtain ⟨rows, hr, h⟩ := bind_eq_ok_iff.mp h
  obtain rfl := Except.ok.inj h
  have row : ∀ lp : Loop, ∀ row, (do
      let blocks ← lp.blocks.mapM f.block
      return (blocks.flatMap (·.insts)).filter fun i => (readersOf ops i).any fun user =>
        (f.blockOf user).any fun b => !lp.blocks.contains b) = Except.ok row →
      (j ∈ row ↔ (∃ c ∈ lp.blocks, f.blockOf j = some c) ∧
        ∃ user c, f.ReadsIn c user j ∧ c ∉ lp.blocks) := by
    intro lp row answer
    obtain ⟨blocks, hb, answer⟩ := bind_eq_ok_iff.mp answer
    obtain rfl := Except.ok.inj answer
    have code : blocks.flatMap (·.insts) = lp.blocks.flatMap f.code :=
      flatMap_of_mapM_eq_ok hb fun c block hc => (code_of_block hc).symm
    rw [List.mem_filter, code, List.mem_flatMap, List.any_eq_true]
    simp only [consistent.mem_code, mem_readersOf_iff consistent listing, Option.any_eq_true,
      Bool.not_eq_true', ← Bool.not_eq_true, List.contains_iff_mem]
    refine and_congr_right fun _ => ?_
    constructor
    · rintro ⟨user, ⟨c, reads⟩, c', hc', beyond⟩
      obtain rfl : c = c' := Option.some.inj (reads.1.symm.trans hc')
      exact ⟨user, c, reads, beyond⟩
    · rintro ⟨user, c, reads, beyond⟩
      exact ⟨user, ⟨c, reads⟩, c, reads.1, beyond⟩
  rw [mem_flatten_of_mapM_eq_ok hr fun lp _ => row lp]
  have leads : ∀ lp : Loop, succs.all lp.blocks.contains = false ↔
      ∃ c, f.LeadsTo b c ∧ c ∉ lp.blocks := by
    intro lp
    rw [List.all_eq_false]
    constructor
    · rintro ⟨c, hc, out⟩
      exact ⟨c, ⟨succs, hs, hc⟩, by simpa using out⟩
    · rintro ⟨c, ⟨succs', hs', hc⟩, out⟩
      obtain rfl : succs = succs' := Except.ok.inj (hs.symm.trans hs')
      exact ⟨c, hc, by simpa using out⟩
  constructor
  · rintro ⟨lp, hlp, rest⟩
    obtain ⟨n, hn, kept⟩ := List.mem_filterMap.mp hlp
    obtain ⟨lp', there, kept⟩ := Option.bind_eq_some_iff.mp kept
    obtain ⟨out, rfl⟩ : succs.all lp'.blocks.contains = false ∧ lp' = lp := by
      simpa [Option.ite_none_left_eq_some] using kept
    obtain ⟨lp, there', held⟩ := (mem_enclosing_iff consistent hf).mp hn
    obtain rfl : lp = lp' := Option.some.inj (there'.symm.trans there)
    exact ⟨lp, List.mem_of_getElem? there, held, (leads lp).mp out, rest⟩
  · rintro ⟨lp, hlp, held, out, rest⟩
    obtain ⟨n, there⟩ := List.mem_iff_getElem?.mp hlp
    refine ⟨lp, List.mem_filterMap.mpr ⟨n, ?_, ?_⟩, rest⟩
    · exact (mem_enclosing_iff consistent hf).mpr ⟨lp, there, held⟩
    · simp only [there, Option.bind_eq_bind, Option.bind_some, (leads lp).mpr out,
        Bool.false_eq_true, if_false]

/-- What a search follows from an instruction, part by part.  Only a branch has a second part: the
phis where the ways of its block meet, and the values that threads take along. -/
theorem divergentWith_parts {more : List InstId}
    (h : f.divergentWith flow ops accesses i = .ok more) :
    ∃ joined root, f.rootGlobal? i = .ok root ∧
      (∀ j, j ∈ more ↔ j ∈ readersOf ops i ∨ j ∈ joined ∨
        ∃ g, root = some g ∧ (j, g) ∈ accesses ∧ j ≠ i) ∧
      ((∀ b, ¬ f.BranchesIn b i) ∧ joined = [] ∨ ∃ b phis outs, f.BranchesIn b i ∧
        (∀ j, j ∈ phis ↔ ∃ join phis, flow.pdom.parent? b = some join ∧ f.phis join = .ok phis ∧
          j ∈ phis) ∧
        f.loopLiveOuts flow ops b = .ok outs ∧ joined = phis ++ outs) := by
  unfold divergentWith at h
  rw [bind_eq_ok_iff] at h
  obtain ⟨op, hop, h⟩ := h
  split at h
  · rename_i b isBranch placed
    have branches : f.BranchesIn b i := ⟨placed, op, hop, isBranch⟩
    split at h
    · rename_i join parent
      simp only [bind_eq_ok_iff] at h
      obtain ⟨phis, hphis, outs, houts, joined, hjoined, root, hroot, h⟩ := h
      obtain rfl := Except.ok.inj hjoined
      obtain rfl := Except.ok.inj h
      refine ⟨phis ++ outs, root, hroot, fun j => ?_, .inr ⟨b, phis, outs, branches, fun j => ?_,
        houts, rfl⟩⟩
      · cases root <;> simp [or_assoc]
      · simp [parent, hphis]
    · -- the ways of the block do not meet
      rename_i parent
      simp only [bind_eq_ok_iff] at h
      obtain ⟨phis, hphis, outs, houts, joined, hjoined, root, hroot, h⟩ := h
      obtain rfl := Except.ok.inj hphis
      obtain rfl := Except.ok.inj hjoined
      obtain rfl := Except.ok.inj h
      refine ⟨[] ++ outs, root, hroot, fun j => ?_, .inr ⟨b, [], outs, branches, fun j => ?_,
        houts, rfl⟩⟩
      · cases root <;> simp
      · simp [parent]
  · rename_i other
    simp only [bind_eq_ok_iff] at h
    obtain ⟨joined, hjoined, root, hroot, h⟩ := h
    obtain rfl := Except.ok.inj hjoined
    obtain rfl := Except.ok.inj h
    refine ⟨[], root, hroot, fun j => ?_, .inl ⟨fun b branches => ?_, rfl⟩⟩
    · cases root <;> simp
    · obtain ⟨placed, op', hop', isBranch⟩ := branches
      obtain rfl : op = op' := Except.ok.inj (hop.symm.trans hop')
      exact other b isBranch placed

/-- What a search follows from an instruction is what divergence passes on to from it. -/
theorem mem_divergentWith_iff (consistent : f.Consistent) (hf : f.flow = .ok flow)
    (listing : f.operations = .ok ops) (haccesses : f.accessesAt shared level = .ok accesses)
    {more : List InstId} (h : f.divergentWith flow ops accesses i = .ok more) :
    j ∈ more ↔ f.Passes flow shared level i j := by
  obtain ⟨joined, root, hroot, parts, shape⟩ := divergentWith_parts h
  simp only [parts, mem_readersOf_iff consistent listing, mem_accessesAt_iff consistent haccesses,
    ← touches_iff_of_rootGlobal? hroot]
  constructor
  · rintro (⟨b, reads⟩ | joins | ⟨g, touches, ⟨block, mem, placed, also⟩, distinct⟩)
    · exact .reader reads
    · obtain ⟨-, rfl⟩ | ⟨b, phis, outs, branches, meet, houts, rfl⟩ := shape
      · simp at joins
      · rcases List.mem_append.mp joins with hj | hj
        · obtain ⟨join, phis', parent, listed, mem⟩ := (meet j).mp hj
          exact .meeting branches parent listed mem
        · obtain ⟨lp, hlp, inside, ⟨out, leads, left⟩, ⟨home, own, placed⟩, user, away, reads,
            beyond⟩ := (mem_loopLiveOuts_iff consistent hf listing houts).mp hj
          exact .leaving branches hlp inside leads left placed own reads beyond
    · exact .sharing block mem touches placed also distinct
  · -- a branch has one block only
    have here : ∀ {b}, f.BranchesIn b i → ∃ phis outs,
        (∀ j, j ∈ phis ↔ ∃ join phis, flow.pdom.parent? b = some join ∧ f.phis join = .ok phis ∧
          j ∈ phis) ∧ f.loopLiveOuts flow ops b = .ok outs ∧ joined = phis ++ outs := by
      intro b branches
      obtain ⟨none, -⟩ | ⟨b', phis, outs, branches', rest⟩ := shape
      · exact absurd branches (none b)
      · obtain rfl : b = b' := Option.some.inj (branches.1.symm.trans branches'.1)
        exact ⟨phis, outs, rest⟩
    intro passes
    cases passes with
    | reader reads => exact .inl ⟨_, reads⟩
    | meeting branches parent listed mem =>
      obtain ⟨phis, outs, meet, -, rfl⟩ := here branches
      exact .inr (.inl (List.mem_append_left _ ((meet j).mpr ⟨_, _, parent, listed, mem⟩)))
    | leaving branches listed inside leads left placed own reads beyond =>
      obtain ⟨phis, outs, -, houts, rfl⟩ := here branches
      have taken := (mem_loopLiveOuts_iff consistent hf listing houts).mpr
        ⟨_, listed, inside, ⟨_, leads, left⟩, ⟨_, own, placed⟩, _, _, reads, beyond⟩
      exact .inr (.inl (List.mem_append_right _ taken))
    | sharing block mem touches placed also distinct =>
      exact .inr (.inr ⟨_, touches, ⟨block, mem, placed, also⟩, distinct⟩)

/-! ### The search -/

/-- A search finds what the steps that it follows lead to from where it starts, and nothing else. -/
theorem mem_spread_iff {follow : InstId → Except Fault (List InstId)} {step : InstId → InstId → Prop}
    {seeds result : List InstId} (h : f.spread follow [] seeds = .ok result)
    (one : ∀ i more, follow i = .ok more → ∀ j, j ∈ more ↔ step i j) :
    i ∈ result ↔ ∃ s ∈ seeds, Relation.ReflTransGen step s i := by
  constructor
  · refine spread_induction (P := fun i => ∃ s ∈ seeds, Relation.ReflTransGen step s i) h
      (fun s hs => ?_) (fun i _ known more hm j hj => ?_) i
    · exact ⟨s, by simpa using hs, .refl⟩
    · obtain ⟨s, hs, steps⟩ := known
      exact ⟨s, hs, steps.tail ((one i more hm j).mp hj)⟩
  · rintro ⟨s, hs, steps⟩
    obtain ⟨holds, closed⟩ := spread_closed (by simp [SpreadInv]) h
    induction steps with
    | refl => exact holds s (.inr hs)
    | tail _ last ih =>
      obtain ⟨more, hm, all⟩ := closed _ ih
      simpa using all _ ((one _ more hm _).mpr last)

/-! ### The divergent set -/

/-- The search of an analysis finds what divergence passes on to. -/
theorem mem_search_iff (consistent : f.Consistent) (hf : f.flow = .ok flow)
    (listing : f.operations = .ok ops) (haccesses : f.accessesAt shared level = .ok accesses)
    {seeds set : List InstId}
    (search : f.spread (f.divergentWith flow ops accesses) [] seeds = .ok set) :
    i ∈ set ↔ ∃ s ∈ seeds, Relation.ReflTransGen (f.Passes flow shared level) s i :=
  mem_spread_iff search fun _ _ hm _ => mem_divergentWith_iff consistent hf listing haccesses hm

theorem isDivergent_iff (consistent : f.Consistent) (hf : f.flow = .ok flow)
    (h : f.divergence flow grid shared level dim = .ok (.ok d)) :
    d.isDivergent i = true ↔ ∃ s ∈ grid.identities level dim,
      Relation.ReflTransGen (f.Passes flow shared level) s i := by
  obtain ⟨ops, accesses, listing, haccesses, search, -⟩ := divergence_eq_ok h
  rw [Divergence.isDivergent, List.contains_iff_mem]
  exact mem_search_iff consistent hf listing haccesses search

/-- The divergent set is the least set that holds the reads of the merged identity and whatever
divergence passes on to from its members: an instruction is divergent exactly if steps lead to it from
a read.  So the set grows with the reads and with the shared globals.  Its listing holds the divergent
instructions of the blocks that control can come to, each once, block by block in reverse postorder
and in the order of their blocks. -/
theorem divergence_least (consistent : f.Consistent) (hf : f.flow = .ok flow)
    (h : f.divergence flow grid shared level dim = .ok (.ok d)) :
    (∀ selector, f.gridReads selector = .ok grid → selector.includes dim = true → ∀ s,
      s ∈ grid.identities level dim ↔ (f.blockOf s).isSome ∧ f.outline.Does s fun op =>
        op.callee?.bind Register.ofAccessor? = some (level.identity, dim)) ∧
    (∀ i, d.isDivergent i = true ↔ ∃ s ∈ grid.identities level dim,
      Relation.ReflTransGen (f.Passes flow shared level) s i) ∧
    (∀ grid' shared' d', f.divergence flow grid' shared' level dim = .ok (.ok d') →
      grid.identities level dim ⊆ grid'.identities level dim → shared ⊆ shared' →
        ∀ i, d.isDivergent i = true → d'.isDivergent i = true) ∧
    ∃ order, f.reversePostorder = .ok order ∧ order.Nodup ∧
      (∀ b, b ∈ order ↔ b ∈ f.layout ∧ flow.graph.Reaches f.entry.index b.index) ∧
      d.instructions = order.flatMap (fun b => (f.code b).filter d.isDivergent) ∧
      d.instructions.Nodup ∧
      ∀ i, i ∈ d.instructions ↔ d.isDivergent i = true ∧ ∃ b ∈ order, f.blockOf i = some b := by
  have found := fun i => isDivergent_iff (i := i) consistent hf h
  refine ⟨fun selector hgrid included s => mem_along consistent hgrid included, found, ?_, ?_⟩
  · intro grid' shared' d' h' more wider i divergent
    obtain ⟨s, hs, steps⟩ := (found i).mp divergent
    exact (isDivergent_iff consistent hf h').mpr ⟨s, more hs, 
      Relation.ReflTransGen.mono (fun _ _ step => step.mono wider) s i steps⟩
  · obtain ⟨_, _, -, -, -, placed, -⟩ := divergence_eq_ok h
    obtain ⟨order, postorder, nodup, listing⟩ := instructions_eq_flatMap placed
    obtain ⟨hg, -⟩ := flow_eq_ok hf
    refine ⟨order, postorder, nodup, fun b => ?_, listing, nodup_instructions consistent placed,
      fun i => ?_⟩
    · rw [mem_reversePostorder consistent hg postorder]
      refine ⟨fun ⟨body, reached⟩ => ⟨?_, reached⟩, fun ⟨listed, reached⟩ => ⟨?_, reached⟩⟩
      · rw [consistent.mem_layout, ← size_graph hg]
        exact reached.lt_size (entry_lt_size consistent body hg)
      · simpa [isDeclaration] using List.ne_nil_of_mem listed
    · rw [listing]
      simp only [List.mem_flatMap, List.mem_filter, consistent.mem_code]
      constructor
      · rintro ⟨b, hb, home, divergent⟩
        exact ⟨divergent, b, hb, home⟩
      · rintro ⟨divergent, b, hb, home⟩
        exact ⟨b, hb, home, divergent⟩

/-- Each block puts its place into shared memory and goes round a loop, which it leaves when it reads a
small number there.  Then it stores to the word of the number of its rounds. -/
def relay : Func := .assemble "relay" [⟨"out", .ptr .global⟩] [
  ("entry", [
    ⟨.call "llvm.nvvm.read.ptx.sreg.ctaid.x" [], .i32, "b"⟩,
    ⟨.store (.global ⟨0⟩) (.inst ⟨0⟩), .void, ""⟩,
    ⟨.jump ⟨1⟩, .void, ""⟩]),
  ("loop", [
    ⟨.phi [(.const 0, ⟨0⟩), (.inst ⟨4⟩, ⟨1⟩)], .i32, "i"⟩,
    ⟨.binary .add (.inst ⟨3⟩) (.const 1), .i32, "i1"⟩,
    ⟨.load (.global ⟨0⟩), .i32, "v"⟩,
    ⟨.compare .slt (.inst ⟨5⟩) (.const 3), .i1, "c"⟩,
    ⟨.branch (.inst ⟨6⟩) ⟨2⟩ ⟨1⟩, .void, ""⟩]),
  ("exit", [
    ⟨.phi [(.const 7, ⟨1⟩)], .i32, "s"⟩,
    ⟨.element (.arg 0) (.inst ⟨4⟩), .ptr .global, "p"⟩,
    ⟨.store (.inst ⟨9⟩) (.inst ⟨8⟩), .void, ""⟩,
    ⟨.ret none, .void, ""⟩])]

/-- The control flow of the kernel. -/
def relayFlow : Flow where
  graph := ⟨#[[1], [2, 1], []], by decide⟩
  dom := ⟨#[some 0, some 0, some 1]⟩
  pdom := ⟨#[some 1, some 2, some 3, some 3], 3⟩
  loops := ⟨[⟨⟨1⟩, [⟨1⟩], [⟨1⟩], none, 1⟩]⟩

/-- What the analysis finds in the kernel. -/
def relayDivergence : Divergence where
  level := .block
  dim := .x
  set := [⟨9⟩, ⟨3⟩, ⟨4⟩, ⟨10⟩, ⟨8⟩, ⟨7⟩, ⟨6⟩, ⟨5⟩, ⟨1⟩, ⟨0⟩]
  placed := [(⟨0⟩, ⟨0⟩), (⟨1⟩, ⟨0⟩), (⟨3⟩, ⟨1⟩), (⟨4⟩, ⟨1⟩), (⟨5⟩, ⟨1⟩), (⟨6⟩, ⟨1⟩), (⟨7⟩, ⟨1⟩),
    (⟨8⟩, ⟨2⟩), (⟨9⟩, ⟨2⟩), (⟨10⟩, ⟨2⟩)]
  branches := [⟨7⟩]
  regions := [⟨⟨1⟩, ⟨2⟩, [⟨1⟩, ⟨2⟩], [], []⟩]
  reads := [⟨0⟩]

/-- The store to shared memory makes the load divergent, the load the branch, and the branch the phi
behind the loop and the number of rounds; so steps lead from the place to the last store. -/
theorem relay_least : relay.Consistent ∧ relay.flow = .ok relayFlow ∧
    relay.divergence relayFlow ⟨[(⟨0⟩, .blockId, .x)], []⟩ [⟨0⟩] .block .x =
      .ok (.ok relayDivergence) ∧
    (∀ i, relayDivergence.isDivergent i = true ↔
      ∃ s ∈ ([⟨0⟩] : List InstId), Relation.ReflTransGen (relay.Passes relayFlow [⟨0⟩] .block) s i) ∧
    Relation.ReflTransGen (relay.Passes relayFlow [⟨0⟩] .block) ⟨0⟩ ⟨10⟩ ∧
    relayDivergence.instructions =
      [⟨0⟩, ⟨1⟩, ⟨3⟩, ⟨4⟩, ⟨5⟩, ⟨6⟩, ⟨7⟩, ⟨8⟩, ⟨9⟩, ⟨10⟩] := by
  have consistent : relay.Consistent := consistent_assemble ..
  have flow : relay.flow = .ok relayFlow := by cbv
  have divergence : relay.divergence relayFlow ⟨[(⟨0⟩, .blockId, .x)], []⟩ [⟨0⟩] .block .x =
      .ok (.ok relayDivergence) := by cbv
  obtain ⟨-, found, -⟩ := divergence_least consistent flow divergence
  have seeds : GridReads.identities ⟨[(⟨0⟩, .blockId, .x)], []⟩ .block .x = [⟨0⟩] := by decide
  rw [seeds] at found
  obtain ⟨s, hs, steps⟩ := (found ⟨10⟩).mp (by decide)
  obtain rfl := List.mem_singleton.mp hs
  exact ⟨consistent, flow, divergence, found, steps, by decide⟩

end Func

end KernelCoarsening
