/-
Flaws of functions with a repeated region.

A function without flaws has its blocks in order, all its operands are placed, and its phis match.
When a region is repeated, blocks stay in order, and operands are placed if the placeholders that
are read are; but phis need not match:

* `Replication.Supplied` — what the copies of a region are going to read is there;
* `Replication.InRow.orderly`, `Replication.InRow.live` — blocks stay in order, and what is read is
  placed;
* `Replication.Supplied.flawless_replicateRegion_iff` — there are no flaws afterwards exactly if the
  phis of the region name what they may;
* `Replication.region_keeps_flawless_iff` — so it is after any commands;
* `Replication.not_flawless_retry` — a phi of a region that names a block behind the region.
-/
import KernelCoarsening.Proofs.Coarsening.CloneLists
import KernelCoarsening.Proofs.Coarsening.Liveness
import KernelCoarsening.Proofs.Coarsening.Rejoining

namespace KernelCoarsening

namespace Func

variable {f : Func} {g : Graph} {i j : InstId}

/-- Where no operand names a terminator, what a placed instruction reads is none. -/
theorem ends_of_uses (values : f.ReadsValues) (placed : (f.blockOf i).isSome) (uses : f.Uses i j) :
    f.ends j ≠ some true := by
  obtain ⟨op, ty, line, used⟩ := uses_iff.mp uses
  obtain ⟨inst, hi, rfl, -⟩ := inst_of_line line
  have slot := inst_eq_ok_iff.mp hi
  have home : inst.block.isSome := by simpa [blockOf, slot] using placed
  have plain := values inst (Array.mem_toList_iff.mpr (Array.mem_of_getElem? slot)) home j used
  intro term
  obtain ⟨⟨op, ty⟩, line, term⟩ := Option.map_eq_some_iff.mp term
  rw [operation_eq_ok_iff.mpr ⟨ty, line⟩] at plain
  simp_all [Except.toOption]

theorem placed_of_uses (formed : f.outline.Formed) (placed : (f.blockOf i).isSome)
    (uses : f.Uses i j) : (f.blockOf j).isSome := by
  obtain ⟨op, ty, line, used⟩ := uses_iff.mp uses
  exact formed.operands i op ty placed line j used

/-- A function is in form if its blocks are in order, with all operands placed. -/
theorem Consistent.formed_of_orderly (hf : f.Consistent) (hg : f.graph = .ok g)
    (orderly : ∀ b : BlockId, b.index < f.blocks.size → f.Orderly b)
    (live : ∀ i j, (f.blockOf i).isSome → f.Uses i j → (f.blockOf j).isSome) :
    f.outline.Formed where
  consistent := consistent_iff.mp hf
  formed b slot := hf.exists_shape_iff.mpr (orderly b slot)
  operands i op ty placed line j used := live i j placed (uses_iff.mpr ⟨op, ty, line, used⟩)
  targets i op ty placed line t target := by
    obtain ⟨b, home⟩ := Option.isSome_iff_exists.mp placed
    have mem := hf.mem_code.mpr home
    obtain ⟨phis, body, last, shape⟩ := hf.exists_shape_iff.mpr (orderly b (slot_of_mem_code mem))
    exact target_lt_of_shape hg shape mem line target

end Func

/-- A region reads the result of an instruction. -/
def Region.Reads (r : Region) (f : Func) (v : InstId) : Prop :=
  ∃ b ∈ r.blocks, ∃ i ∈ f.code b, f.Uses i v

namespace Replication

open Func

variable {s t : Replication} {region : Region} {entry bottom : BlockId} {i j v : InstId}
  {made : Func} {copies : List BlockCopy} {copy : BlockCopy} {splice : Splice} {bound : Nat}
  {top b : BlockId} {before : Option (Bool × Bool) → Option (Bool × Bool) → Prop}

/-- Blocks stay in order when copies of a region are put into place. -/
theorem InRow.orderly {wanted : InstId → Prop}
    (row : InRow splice bound wanted RankedBefore s top copies t)
    (orderly : s.func.Orderly b) : t.func.Orderly b := by
  induction row with
  | nil => exact orderly
  | cons put _ ih => exact ih (put.orderly orderly).2

/-- What the copies of a region are going to read is there: replicas are placed, and so are the
placeholders of values that the region reads.  Divergent values exist, and the region neither reads
a placeholder nor ends a block with one. -/
structure Supplied (s : Replication) (region : Region) : Prop where
  known : ∀ v ∈ s.divergence.set, v.index < s.func.insts.size
  replicas : ∀ v list, s.map.get? v = some list → ∀ c ∈ list, (s.func.blockOf c).isSome
  held : ∀ v list, region.Reads s.func v → s.divergence.isDivergent v = true →
    s.map.get? v = none → s.placeholders.get? v = some list → ∀ c ∈ list, (s.func.blockOf c).isSome
  apart : ∀ v ∈ s.placeholders.all, ¬ region.Reads s.func v
  kept : ∀ b ∈ region.blocks, ∀ i, (s.func.code b).getLast? = some i → i ∉ s.placeholders.all

/-- What was there may be read if the region reads it. -/
def MayRead (s : Replication) (region : Region) (v : InstId) : Prop :=
  v.index < s.func.insts.size → region.Reads s.func v

/-- What is read may be repeated right behind itself, since it is no terminator. -/
theorem Supplied.repeats (supplied : Supplied s region) (consistent : s.func.Consistent)
    (values : s.func.ReadsValues) (hv : v ∈ s.divergence.set) (may : s.MayRead region v) :
    v.index < s.func.insts.size ∧ RankedBefore (s.func.rankOf v) (s.func.rankOf v) := by
  have slot := supplied.known v hv
  obtain ⟨b, hb, u, hu, uses⟩ := may slot
  have plain := ends_of_uses values (by simp [consistent.mem_code.mp hu]) uses
  obtain ⟨⟨op, ty⟩, line⟩ := Option.isSome_iff_exists.mp (line_isSome_iff.mpr slot)
  refine ⟨slot, ?_, id⟩
  simpa [rankOf_of_line line, Operation.rank, ends, line] using plain

section

variable (multiplies : Multiplies s.func splice.region.blocks made copies)
  (copied : Copied s.func made splice.region copies)

include multiplies copied

/-- What was placed is not taken out. -/
theorem Multiplies.stays_old (hs : s.func.Consistent) (placed : (s.func.blockOf j).isSome) :
    made.Stays (fun j => ∃ copy ∈ copies, splice.Doomed copy j) j := by
  obtain ⟨b, home⟩ := Option.isSome_iff_exists.mp placed
  have mem := hs.mem_code.mpr home
  rw [← multiplies.carries.code b (slot_of_mem_code mem)] at mem
  refine ⟨by simp [multiplies.consistent.mem_code.mp mem], ?_⟩
  rintro ⟨copy, hc, k, -, entry⟩
  exact absurd (copied.placed copy hc k j entry).1 (Nat.not_le.mpr (lt_of_blockOf home))

/-- The copy of what is no placeholder is not taken out. -/
theorem Multiplies.stays_copy (hc : copy ∈ copies)
    (hi : i ∈ splice.region.blocks.flatMap s.func.code) (kept : i ∉ splice.held) :
    made.Stays (fun j => ∃ copy ∈ copies, splice.Doomed copy j) (copy.mapInst i) := by
  have mem := (multiplies.twins copy hc).mem_instMap hi
  refine ⟨(copied.placed copy hc i _ mem).2, ?_⟩
  rintro ⟨copy', hc', k, hk, mem'⟩
  exact kept (copied.unique hc hc' mem mem' ▸ hk)

/-- When copies have been made, what is not going to be taken out reads what is not. -/
theorem Multiplies.closed (hs : s.func.Consistent)
    (live : ∀ i j, (s.func.blockOf i).isSome → s.func.Uses i j → (s.func.blockOf j).isSome)
    (apart : ∀ v ∈ splice.held, ¬ splice.region.Reads s.func v) :
    made.Closed fun j => ∃ copy ∈ copies, splice.Doomed copy j := by
  intro i j stays uses
  obtain ⟨b, home⟩ := Option.isSome_iff_exists.mp stays.1
  have mem := multiplies.consistent.mem_code.mpr home
  rcases multiplies.block_cases hs (slot_of_mem_code mem) with old | ⟨copy, hc, a, ha, rfl⟩
  · rw [multiplies.carries.code b old] at mem
    refine multiplies.stays_old copied hs (live i j (by simp [hs.mem_code.mp mem]) ?_)
    exact uses.congr (by rw [reads, reads, multiplies.carries.line i (hs.lt_of_mem_code mem)])
  · have twin := multiplies.twins copy hc
    rw [twin.code a ha] at mem
    obtain ⟨o, ho, rfl⟩ := List.mem_map.mp mem
    obtain ⟨v, read, rfl⟩ := twin.uses (List.mem_flatMap.mpr ⟨a, ha, ho⟩) uses
    by_cases inside : v ∈ splice.region.blocks.flatMap s.func.code
    · exact multiplies.stays_copy copied hc inside fun held => apart v held ⟨a, ha, o, ho, read⟩
    · rw [twin.mapInst_of_not_mem inside]
      exact multiplies.stays_old copied hs (live o v (by simp [hs.mem_code.mp ho]) read)

/-- All operands are placed when the copies are in place, if what those read was there. -/
theorem InRow.live (hs : s.func.Consistent) (supplied : Supplied s splice.region)
    (live : ∀ i j, (s.func.blockOf i).isSome → s.func.Uses i j → (s.func.blockOf j).isSome)
    (held : splice.held = s.placeholders.all)
    (can : ∀ copy ∈ copies, Spliceable splice made copy)
    (row : InRow splice bound (s.MayRead splice.region) before { s with func := made } top copies t)
    (new : ∀ copy ∈ copies, ∀ b ∈ copy.blocks, bound ≤ b.index)
    (placed : (t.func.blockOf i).isSome) (uses : t.func.Uses i j) : (t.func.blockOf j).isSome := by
  have old := fun {j} => multiplies.stays_old (j := j) copied hs
  have sound : Sound (fun j => ∃ copy ∈ copies, splice.Doomed copy j) (s.MayRead splice.region)
      { s with func := made } :=
    { consistent := multiplies.consistent
      bound := fun j ⟨copy, hc, doomed⟩ => ((can copy hc).inner j doomed).1
      closed := multiplies.closed copied hs live (held ▸ supplied.apart)
      replicas := fun v list replicas c hc => old (supplied.replicas v list replicas c hc)
      held := fun v list wants divergent none some c hc =>
        old (supplied.held v list (wants (supplied.known v (by
          simpa [Divergence.isDivergent] using divergent))) divergent none some c hc) }
  obtain ⟨sustains, gone⟩ := row.sound sound (fun copy hc => (multiplies.twins copy hc).nodup) new
    multiplies.apart can (fun copy hc j doomed => ⟨copy, hc, doomed⟩)
    fun copy hc b hb i hi doomed => by
      obtain ⟨copy', hc', k, hk, mem'⟩ := doomed
      have twin := multiplies.twins copy hc
      obtain ⟨a, ha, rfl⟩ := twin.mem_map.mp hb
      rw [twin.code a ha] at hi
      obtain ⟨o, ho, rfl⟩ := List.mem_map.mp hi
      have mem := twin.mem_instMap (List.mem_flatMap.mpr ⟨a, ha, ho⟩)
      exact ⟨o, copied.unique hc hc' mem mem' ▸ hk, mem⟩
  refine (sustains.sound.closed i j ⟨placed, ?_⟩ uses).1
  rintro ⟨copy, hc, doomed⟩
  simp [gone copy hc i doomed] at placed

end

/-- What is known of a function without flaws that has a region to repeat. -/
theorem site_of_flawless {splice : Splice} {f : Func} {g : Graph} (hf : f.Consistent)
    (hg : f.graph = .ok g) (flawless : f.firstFlaw? = .ok none)
    (named : ∀ b names, f.Names b names → ∀ p ∈ names, p.index < f.blocks.size)
    (reached : g.Reaches f.entry.index splice.region.header.index)
    (enclosed : splice.region.Enclosed f g)
    (leads : f.leads splice.region.exiting = [splice.bottom])
    (ahead : splice.entry.index < f.blocks.size) (behind : splice.bottom.index < f.blocks.size)
    (before : splice.entry ∉ splice.region.blocks)
    (outside : splice.bottom ∉ splice.region.blocks) : Site splice f g where
  enclosed := enclosed
  start := by
    cases h : f.layout with
    | nil => exact absurd ((hf.mem_layout _).mpr ahead) (by simp [h])
    | cons b rest => exact (hf.mem_layout _).mp (by simp [Func.entry, h])
  ahead := ahead
  behind := behind
  entry := before
  bottom := outside
  leads := leads
  comes := (reaches_iff_goes hf hg).mp reached
  targets b c edge := (g.next_lt ((hf.mem_next hg).mpr edge)).trans_eq (size_graph hg)
  named := named
  fits := (matches_iff hf hg).mp ((flawless_iff hf hg).mp flawless).2

/-- When a region is repeated, a function without flaws has none afterwards exactly if the phis of
the region name the block before the region in its header, and no other block outside. -/
theorem Supplied.flawless_replicateRegion_iff {g : Graph} (supplied : Supplied s region)
    (consistent : s.func.Consistent) (flawless : s.func.firstFlaw? = .ok none)
    (values : s.func.ReadsValues)
    (named : ∀ b names, s.func.Names b names → ∀ p ∈ names, p.index < s.func.blocks.size)
    (several : 0 < s.replicas) (hg : s.func.graph = .ok g)
    (reached : g.Reaches s.func.entry.index region.header.index)
    (filled : s.func.reachableUntil region.header region.exiting = .ok region.blocks)
    (inside : region.exiting ∈ region.blocks)
    (term : s.func.terminator region.exiting = .ok (some i))
    (jump : s.func.operation i = .ok (.jump bottom)) (outside : bottom ∉ region.blocks)
    (pred : region.predecessor? s.func = .ok (some entry)) :
    ∃ t, s.replicateRegion region = .ok (none, t) ∧ (t.func.firstFlaw? = .ok none ↔
      region.NamesInside s.func s.placeholders.all entry) := by
  obtain ⟨enclosed, slots, leads, behind, listed, before⟩ :=
    Region.bounds_of_filled consistent hg filled inside term jump pred
  have site : Site ⟨region, entry, bottom, s.placeholders.all⟩ s.func g :=
    site_of_flawless consistent hg flawless named reached enclosed leads
      ((consistent.mem_layout _).mp listed) behind before outside
  obtain ⟨formed, -⟩ := (flawless_iff consistent hg).mp flawless
  have orderly : ∀ b : BlockId, b.index < s.func.blocks.size → s.func.Orderly b := fun b slot =>
    consistent.exists_shape_iff.mp (formed.formed b slot)
  obtain ⟨t, made, copies, answer, copying, length, multiplies, row⟩ := exists_replicateRegion
    (s.MayRead region) RankedBefore consistent (fun v => supplied.repeats consistent values)
    (fun b hb i hi j uses _ => ⟨b, hb, i, hi, uses⟩)
    (fun j new old => absurd old (Nat.not_lt.mpr new)) enclosed slots behind supplied.kept leads pred
  have copied := (copied_copyRegion consistent _ copying).1
  have strung := strung_of_inRow consistent enclosed slots leads outside multiplies row
  obtain ⟨graph, hgraph⟩ := strung.exists_graph enclosed consistent hg behind
  have can : ∀ copy ∈ copies, Spliceable ⟨region, entry, bottom, s.placeholders.all⟩ made copy :=
    fun copy hc => spliceable_of_twin multiplies.consistent (multiplies.twins copy hc)
      enclosed.header enclosed.exiting supplied.kept
  have form : t.func.outline.Formed := strung.consistent.formed_of_orderly hgraph
    (fun b slot => row.orderly (multiplies.orderly consistent orderly slots (by
      rw [← strung.consistent.mem_layout, row.layout] at slot
      exact (multiplies.consistent.mem_layout b).mp slot)))
    fun i j => row.live multiplies copied consistent supplied (fun _ _ => placed_of_uses formed) rfl
      can fun copy hc b => multiplies.fresh hc
  have fits : t.func.Matches ↔ _ := multiplies.matches_iff site consistent orderly slots copied.one row
  have some : copies ≠ [] := List.ne_nil_of_length_pos (length ▸ several)
  refine ⟨_, answer, ?_⟩
  show t.func.firstFlaw? = .ok none ↔ _
  rw [flawless_iff strung.consistent hgraph, matches_iff strung.consistent hgraph, fits]
  simp [form, some]

/-- After any commands, a region is repeated in a function without flaws.  Control comes to its
header, its blocks are found between the header and the exiting block, which ends in a jump to a
block outside, and there is a block before it.  The region neither reads a placeholder nor ends a
block with one, and the placeholders that its copies are going to read are still placed.  Then there
are no flaws afterwards exactly if the phis of the region name the block before it in the header,
and apart from that no block outside that control comes to. -/
theorem region_keeps_flawless_iff {f func : Func} {factor : Nat} {map : ReplicaMap}
    {twins : InstId → InstId → Prop} {selector : DimensionSelector} {shared : List GlobalId}
    {level : Level} {dim : Dimension} {found : DivergentFunc} {commands : List Command} {g : Graph}
    (consistent : f.Consistent) (analysis : f.analyze selector shared level dim = .ok (.ok found))
    (several : 2 ≤ factor) (seed : Seed f factor func map twins)
    (allowed : (start found.divergence factor func map).allowsAll commands = true)
    (run : (start found.divergence factor func map).performAll commands = .ok s)
    (flawless : s.func.firstFlaw? = .ok none) (values : s.func.ReadsValues)
    (named : ∀ b names, s.func.Names b names → ∀ p ∈ names, p.index < s.func.blocks.size)
    (hg : s.func.graph = .ok g) (reached : g.Reaches s.func.entry.index region.header.index)
    (filled : s.func.reachableUntil region.header region.exiting = .ok region.blocks)
    (inside : region.exiting ∈ region.blocks)
    (term : s.func.terminator region.exiting = .ok (some i))
    (jump : s.func.operation i = .ok (.jump bottom)) (outside : bottom ∉ region.blocks)
    (pred : region.predecessor? s.func = .ok (some entry))
    (apart : ∀ v ∈ s.placeholders.all, ¬ region.Reads s.func v)
    (kept : ∀ b ∈ region.blocks, ∀ j, s.func.terminator b = .ok (some j) → j ∉ s.placeholders.all)
    (held : ∀ v list, region.Reads s.func v → s.divergence.isDivergent v = true →
      s.map.get? v = none → s.placeholders.get? v = some list →
      ∀ c ∈ list, (s.func.blockOf c).isSome) :
    ∃ t, s.replicateRegion region = .ok (none, t) ∧ (t.func.firstFlaw? = .ok none ↔
      region.NamesInside s.func s.placeholders.all entry) := by
  obtain ⟨ops, accesses, a⟩ := analyzed analysis
  obtain ⟨stocked, -, same⟩ := (seed.stocked consistent found.divergence).performAll consistent
    ⟨fun i hi => a.placed_outermost consistent hi, fun r hr => a.inside consistent hr⟩ allowed s run
  have supplied : Supplied s region := by
    refine ⟨fun v hv => ?_, fun v list some => (stocked.fills v list some).placed, held, apart,
      fun b hb j last => ?_⟩
    · rw [show s.divergence = found.divergence from same.1] at hv
      exact (lt_of_mem_spread a.set (by simp) v hv).trans_le stocked.size
    · have formed := formed_of_flawless stocked.consistent flawless
      obtain ⟨phis, body, t, shape⟩ := formed.formed b (slot_of_mem_code (List.mem_of_getLast? last))
      obtain rfl : t = j := Option.some.inj (shape.getLast?.symm.trans last)
      exact kept b hb t (terminator_of_shape shape)
  have replicas : 0 < s.replicas := by
    rw [replicas, show s.factor = factor from same.2]
    exact Nat.sub_pos_of_lt several
  exact supplied.flawless_replicateRegion_iff stocked.consistent flawless values named replicas hg
    reached filled inside term jump outside pred

/-- The region of the example can be repeated, for its only phi names blocks of the region. -/
theorem pick_keeps_flawless : ∃ t,
    (start pickFound.divergence 3 pick .empty).replicateRegion pickRegion = .ok (none, t) ∧
      t.func.firstFlaw? = .ok none := by
  have within : pickRegion.NamesInside pick [] ⟨0⟩ := by
    rintro b hb names ⟨i, hi, -, named⟩
    have all : ∀ b ∈ pickRegion.blocks, ∀ i ∈ pick.code b, ∀ names ∈ pick.namesOf i,
        b ≠ pickRegion.header ∧ names ⊆ pickRegion.blocks := by decide
    obtain ⟨other, sub⟩ := all b hb i hi names named
    exact ⟨fun here => absurd here other, fun p hp out => absurd (sub hp) out⟩
  have consistent : pick.Consistent := consistent_assemble ..
  have run : (start pickFound.divergence 3 pick .empty).performAll [] =
    .ok (start pickFound.divergence 3 pick .empty) := rfl
  have named : ∀ n < pick.insts.size, ∀ names ∈ pick.namesOf ⟨n⟩, ∀ p ∈ names,
    p.index < pick.blocks.size := by decide
  obtain ⟨t, answer, iff⟩ := region_keeps_flawless_iff consistent analyze_pick
    (show 2 ≤ 3 by decide) .bare rfl run (by cbv) (by decide)
    (fun b names ⟨i, hi, these⟩ => named i.index (consistent.lt_of_mem_code hi) names these)
    (show pick.graph = .ok pickFound.flow.graph by cbv) (.of_edge (by decide))
    (show pick.reachableUntil pickRegion.header pickRegion.exiting = .ok pickRegion.blocks by cbv)
    (by decide) (show pick.terminator ⟨3⟩ = .ok (some ⟨7⟩) by rfl)
    (show pick.operation ⟨7⟩ = .ok (.jump ⟨4⟩) by rfl) (by decide)
    (show pickRegion.predecessor? pick = .ok (some ⟨0⟩) by cbv)
    (fun v held => absurd held List.not_mem_nil) (fun b _ j _ held => absurd held List.not_mem_nil)
    fun v list _ _ _ none => by cases none
  exact ⟨t, answer, iff.mpr within⟩

end Replication

/-- Threads below a bound go through `body`, and all of them come to `join` again as long as `d`
holds: the region of the branch ends there, and it heads a loop. -/
def retry : Func := .assemble "retry" [⟨"n", .i32⟩, ⟨"d", .i1⟩] [
  ("entry", [
    ⟨.call "llvm.nvvm.read.ptx.sreg.tid.x" [], .i32, "t"⟩,
    ⟨.compare .slt (.inst ⟨0⟩) (.arg 0), .i1, "c"⟩,
    ⟨.jump ⟨1⟩, .void, ""⟩]),
  ("head", [⟨.branch (.inst ⟨1⟩) ⟨2⟩ ⟨3⟩, .void, ""⟩]),
  ("body", [⟨.jump ⟨3⟩, .void, ""⟩]),
  ("join", [
    ⟨.phi [(.const 0, ⟨1⟩), (.const 1, ⟨2⟩), (.const 2, ⟨4⟩)], .i32, "y"⟩,
    ⟨.jump ⟨4⟩, .void, ""⟩]),
  ("more", [⟨.branch (.arg 1) ⟨3⟩ ⟨5⟩, .void, ""⟩]),
  ("exit", [⟨.ret none, .void, ""⟩])]

/-- The region of the branch. -/
def retryRegion : Region := ⟨⟨1⟩, ⟨3⟩, [⟨1⟩, ⟨2⟩, ⟨3⟩], [], [⟨1⟩]⟩

/-- What the analysis finds in the kernel. -/
def retryFound : DivergentFunc where
  func := retry
  flow :=
    { graph := ⟨#[[1], [2, 3], [3], [4], [3, 5], []], by decide⟩
      dom := ⟨#[some 0, some 0, some 1, some 1, some 3, some 4]⟩
      pdom := ⟨#[some 1, some 3, some 3, some 4, some 5, some 6, some 6], 6⟩
      loops := ⟨[⟨⟨3⟩, [⟨3⟩, ⟨4⟩], [⟨4⟩], none, 1⟩]⟩ }
  grid := ⟨[(⟨0⟩, .threadId, .x)], []⟩
  divergence :=
    { level := .thread
      dim := .x
      set := [⟨5⟩, ⟨3⟩, ⟨1⟩, ⟨0⟩]
      placed := [(⟨0⟩, ⟨0⟩), (⟨1⟩, ⟨0⟩), (⟨3⟩, ⟨1⟩), (⟨5⟩, ⟨3⟩)]
      branches := [⟨3⟩]
      regions := [retryRegion]
      reads := [⟨0⟩] }

theorem analyze_retry : retry.analyze (.only .x) [] .thread .x = .ok (.ok retryFound) :=
  Func.analyze_eq_ok_iff.mpr ⟨by cbv, by rfl, by cbv, rfl⟩

namespace Replication

open Func

/-- A function without flaws has one when a region of it has been repeated whose blocks are all
dominated by its header: in the copy of `join` the phi names `more`, which does not lead there. -/
theorem not_flawless_retry :
    retry.Consistent ∧ retry.firstFlaw? = .ok none ∧ retry.ReadsValues ∧
      retry.analyze (.only .x) [] .thread .x = .ok (.ok retryFound) ∧
      retryFound.divergence.regions = [retryRegion] ∧ retry.graph = .ok retryFound.flow.graph ∧
      retryFound.flow.graph.Reaches retry.entry.index retryRegion.header.index ∧
      (∀ b ∈ retryRegion.blocks, retryFound.flow.graph.Dominates retry.entry.index
        retryRegion.header.index b.index) ∧
      retry.reachableUntil retryRegion.header retryRegion.exiting = .ok retryRegion.blocks ∧
      retryRegion.exiting ∈ retryRegion.blocks ∧
      retry.terminator retryRegion.exiting = .ok (some ⟨6⟩) ∧
      retry.operation ⟨6⟩ = .ok (.jump ⟨4⟩) ∧ ⟨4⟩ ∉ retryRegion.blocks ∧
      retryRegion.predecessor? retry = .ok (some ⟨0⟩) ∧
      (start retryFound.divergence 2 retry .empty).placeholders.all = [] ∧
      ∃ t,
        (start retryFound.divergence 2 retry .empty).replicateRegion retryRegion = .ok (none, t) ∧
        t.func.firstFlaw? = .ok (some (.phiPredecessorMismatch "retry" "join.cf2" "y.cf2")) := by
  have graph : retry.graph = .ok retryFound.flow.graph := by cbv
  refine ⟨consistent_assemble .., by cbv, by decide, analyze_retry, rfl, graph,
    .of_edge (by decide), ?_, by cbv, by decide, by rfl, by rfl, by decide, by cbv, rfl, ?_⟩
  · have flow : retry.flow = .ok retryFound.flow := by cbv
    have dom := (flow_eq_ok flow).2.1
    have head : retryFound.flow.graph.Reaches 0 1 := .of_edge (by decide)
    have reached : ∀ b ∈ retryRegion.blocks, retryFound.flow.graph.Reaches 0 b.index := by
      rw [show retryRegion.blocks = [⟨1⟩, ⟨2⟩, ⟨3⟩] from rfl]
      simp only [List.forall_mem_cons]
      exact ⟨head, head.trans (.of_edge (by decide)), head.trans (.of_edge (by decide)), by simp⟩
    intro b hb
    rw [← dominates_dominators (by decide) rfl (reached b hb), ← dom]
    exact (show ∀ b ∈ retryRegion.blocks, retryFound.flow.dom.dominates ⟨1⟩ b = true by decide) b hb
  · have done :
        ((start retryFound.divergence 2 retry .empty).replicateRegion retryRegion).toOption.map
          (fun r => (r.1, r.2.func.firstFlaw?.toOption)) =
        some (none, some (some (.phiPredecessorMismatch "retry" "join.cf2" "y.cf2"))) := by cbv
    obtain ⟨⟨e, t⟩, answer, same⟩ := Option.map_eq_some_iff.mp done
    obtain ⟨rfl, flaw⟩ := Prod.mk.inj same
    exact ⟨t, toOption_eq_some_iff.mp answer, toOption_eq_some_iff.mp flaw⟩

end Replication

end KernelCoarsening
