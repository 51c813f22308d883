/-
Which analyses come to an end.

In a function without flaws nothing that is not there is asked for, and every search takes up an
instruction once.  So an analysis of divergence can only be held up on its walks along addresses:
those of the instructions that turn out divergent, and at block level, if there are shared globals,
those of all placed instructions.

* `Func.Asks` — the instructions whose addresses an analysis walks along;
* `Func.faults_spread` — a search is held up by what it comes to and by nothing else;
* `Func.analysis_ends_iff` — an analysis ends exactly if none of these addresses circles;
* `Func.not_analysis_lostStep` — one may circle in a block that control does not come to: there is
  no flaw, and the analysis does not end.
-/
import KernelCoarsening.Proofs.Coarsening.WellFormedness
import KernelCoarsening.Proofs.Divergence.Addresses
import KernelCoarsening.Proofs.Divergence.LeastSet
import KernelCoarsening.Proofs.Ir.Assembly

namespace KernelCoarsening

namespace Func

variable {f : Func} {flow : Flow} {grid : GridReads} {selector : DimensionSelector}
  {shared : List GlobalId} {level : Level} {dim : Dimension} {ops : List (InstId × Operation)}
  {accesses : List (InstId × GlobalId)} {i j : InstId} {b : BlockId}

/-- An analysis walks along the address of an instruction. -/
inductive Asks (f : Func) (flow : Flow) (grid : GridReads) (shared : List GlobalId) (level : Level)
    (dim : Dimension) (i : InstId) : Prop where
  /-- Divergence passes on to it from a read of the merged identity. -/
  | divergent {s : InstId} (seed : s ∈ grid.identities level dim)
      (steps : Relation.ReflTransGen (f.Passes flow shared level) s i) :
      Asks f flow grid shared level dim i
  /-- It is placed, and all accesses to shared globals are looked for. -/
  | placed (block : level = .block) (some : shared ≠ []) (home : (f.blockOf i).isSome) :
      Asks f flow grid shared level dim i

/-- What is asked is where the address of an instruction leads, and it circles. -/
def HeldUp (f : Func) (asks : InstId → Prop) (e : Fault) : Prop :=
  ∃ i, asks i ∧ f.Circling i ∧ e = .addressCycle i

/-! ### What is placed -/

theorem placed_of_mem_identities (consistent : f.Consistent) (h : f.gridReads selector = .ok grid)
    (hi : i ∈ grid.identities level dim) : (f.blockOf i).isSome := by
  obtain ⟨ops, listing, rfl⟩ := map_eq_ok_iff.mp h
  obtain ⟨⟨i, read⟩, hread, rfl⟩ := List.mem_map.mp hi
  obtain ⟨⟨j, op⟩, hj, found⟩ := List.mem_filterMap.mp (List.mem_filter.mp hread).1
  obtain ⟨⟨b, home⟩, -⟩ := (mem_operations consistent listing).mp hj
  simp only [Option.bind_eq_bind, Option.bind_eq_some_iff, Option.ite_none_right_eq_some,
    Option.some.injEq, Prod.mk.injEq] at found
  obtain ⟨_, _, _, _, -, rfl, -⟩ := found
  exact Option.isSome_of_mem home

/-- Divergence passes on to placed instructions only. -/
theorem Passes.placed (consistent : f.Consistent) (hf : f.flow = .ok flow)
    (h : f.Passes flow shared level i j) : (f.blockOf j).isSome := by
  cases h with
  | reader reads => exact Option.isSome_of_mem reads.1
  | @meeting b join phis branches parent listed mem =>
    obtain ⟨hg, -, hpdom, -⟩ := flow_eq_ok hf
    have slot : join.index < f.blocks.size :=
      size_graph hg ▸ lt_of_parent?_postDominators (hpdom ▸ parent)
    obtain rfl := Except.ok.inj ((consistent.phis_eq slot).symm.trans listed)
    exact Option.isSome_of_mem (consistent.mem_code.mp ((List.takeWhile_sublist _).subset mem))
  | leaving _ _ _ _ _ placed _ _ _ => exact Option.isSome_of_mem placed
  | sharing _ _ _ placed _ _ => exact placed

/-! ### Searches -/

/-- A search is held up only where it is held up at an instruction that it comes to. -/
theorem faults_spread {follow : InstId → Except Fault (List InstId)} {P : InstId → Prop}
    {q : Fault → Prop} (slot : ∀ i, P i → i.index < f.insts.size)
    (faults : ∀ i, P i → Faults (follow i) q)
    (next : ∀ i, P i → ∀ more, follow i = .ok more → ∀ j ∈ more, P j)
    {set stack : List InstId} (known : ∀ i ∈ stack, P i) : Faults (f.spread follow set stack) q := by
  induction set, stack using Func.spread.induct f follow with
  | case1 set =>
    rw [spread]
    exact .pure
  | case2 set i rest old ih =>
    rw [spread, dif_pos old]
    exact ih fun j hj => known j (List.mem_cons_of_mem _ hj)
  | case3 set i rest new inside more hm ih =>
    rw [spread, dif_neg new, dif_pos inside, hm]
    refine ih fun j hj => ?_
    rcases List.mem_append.mp hj with hj | hj
    · exact next i (known i (by simp)) more hm j hj
    · exact known j (List.mem_cons_of_mem _ hj)
  | case4 set i rest new inside fault hm =>
    rw [spread, dif_neg new, dif_pos inside, hm]
    intro e same
    obtain rfl : fault = e := Except.error.inj same
    exact faults i (known i (by simp)) fault hm
  | case5 set i rest new outside =>
    exact absurd (slot i (known i (by simp))) outside

theorem faults_rootGlobal? (formed : f.outline.Formed) (home : (f.blockOf i).isSome)
    {asks : InstId → Prop} (asked : asks i) : Faults (f.rootGlobal? i) (f.HeldUp asks) := by
  by_cases circling : f.Circling i
  · rw [rootGlobal?_circling circling]
    intro e same
    exact ⟨i, asked, circling, (Except.error.inj same).symm⟩
  · exact .of_answers ((answers_rootGlobal?_iff formed home).mpr circling)

theorem answers_loopLiveOuts (linked : f.Linked) (hf : f.flow = .ok flow)
    (slot : b.index < f.blocks.size) : Answers (f.loopLiveOuts flow ops b) := by
  obtain ⟨succs, answer, -⟩ := linked.exists_successors slot
  refine Answers.bind ⟨succs, answer⟩ fun succs' _ => ?_
  refine Answers.bind (answers_mapM_iff.mpr fun lp hlp => ?_) fun _ _ => .pure
  obtain ⟨n, -, kept⟩ := List.mem_filterMap.mp hlp
  obtain ⟨lp', there, kept⟩ := Option.bind_eq_some_iff.mp kept
  obtain ⟨-, rfl⟩ : succs'.all lp'.blocks.contains = false ∧ lp' = lp := by
    simpa [Option.ite_none_left_eq_some] using kept
  have slots := linked.slots_of_loop hf slot (List.mem_of_getElem? there)
  exact ((linked.blocks slots).answers).bind fun _ _ => .pure

/-- What follows from a placed instruction is found unless its address circles. -/
theorem faults_divergentWith (formed : f.outline.Formed) (hf : f.flow = .ok flow)
    (home : (f.blockOf i).isSome) {asks : InstId → Prop} (asked : asks i) :
    Faults (f.divergentWith flow ops accesses i) (f.HeldUp asks) := by
  have linked := linked_of_formed formed
  obtain ⟨hg, -, hpdom, -⟩ := flow_eq_ok hf
  have walk : Faults (f.rootGlobal? i) (f.HeldUp asks) := faults_rootGlobal? formed home asked
  refine .bind (.of_answers (answers_operation (lt_of_placed home))) fun op _ => ?_
  split
  · rename_i b _ place
    have slot := slot_of_mem_code (linked.consistent.mem_code.mpr place)
    have values : Answers (f.loopLiveOuts flow ops b) := answers_loopLiveOuts linked hf slot
    dsimp only
    split
    · rename_i join parent
      have there : join.index < f.blocks.size :=
        size_graph hg ▸ lt_of_parent?_postDominators (hpdom ▸ parent)
      have phis : Answers (f.phis join) := ⟨_, linked.consistent.phis_eq there⟩
      exact .bind (.of_answers phis) fun _ _ => .bind (.of_answers values) fun _ _ =>
        .bind .pure fun _ _ => .bind walk fun _ _ => .pure
    · exact .bind .pure fun _ _ => .bind (.of_answers values) fun _ _ =>
        .bind .pure fun _ _ => .bind walk fun _ _ => .pure
  · exact .bind .pure fun _ _ => .bind walk fun _ _ => .pure

theorem faults_accessesAt (formed : f.outline.Formed) :
    Faults (f.accessesAt shared level) (f.HeldUp (f.Asks flow grid shared level dim)) := by
  cases level with
  | thread => exact .pure
  | block =>
    simp only [accessesAt, sharedAccesses]
    split
    · exact .pure
    · rename_i some
      obtain ⟨all, instructions, placed⟩ := (consistent_iff.mpr formed.consistent).instructions
      refine .bind (.of_answers ⟨all, instructions⟩) fun all' same => ?_
      obtain rfl := Except.ok.inj (instructions.symm.trans same)
      refine .bind (.mapM fun i hi => ?_) fun _ _ => .pure
      have home := (placed i).mp hi
      have asked : f.Asks flow grid shared .block dim i :=
        .placed rfl (by simpa [List.isEmpty_iff] using some) home
      exact .bind (faults_rootGlobal? formed home asked) fun _ _ => .pure

/-! ### Analyses -/

theorem answers_ofBranches (linked : f.Linked) (hf : f.flow = .ok flow) (branches : List InstId) :
    Answers (Region.ofBranches f flow ops branches) := by
  induction branches with
  | nil => exact .pure
  | cons branch rest ih =>
    rw [Region.ofBranches]
    split
    · exact ih
    · rename_i header place
      have slot := slot_of_mem_code (linked.consistent.mem_code.mpr place)
      obtain ⟨found, answer, ends⟩ := linked.exitingFor hf slot
      refine Answers.bind ⟨found, answer⟩ fun found' same => ?_
      obtain rfl := Except.ok.inj (answer.symm.trans same)
      cases found with
      | error e => exact .pure
      | ok exiting =>
        obtain ⟨filled, hfill, -, -, slots⟩ :=
          linked.fill (show (Region.bounds header exiting).header.index < _ from slot)
            (ends exiting rfl)
        refine Answers.bind ⟨filled, hfill⟩ fun filled' same => ?_
        obtain rfl := Except.ok.inj (hfill.symm.trans same)
        exact (linked.findBorder slots ops).answers.bind fun _ _ => ih.bind fun _ _ => .pure

/-- Once the divergent set has been found, the rest of an analysis has an answer. -/
theorem answers_rest (linked : f.Linked) (hf : f.flow = .ok flow) {set : List InstId}
    (slots : ∀ i ∈ set, i.index < f.insts.size) :
    ∃ order listed branches, f.reversePostorder = .ok order ∧ (order.mapM fun b => do
        return ((← f.block b).insts.filter set.contains).map (·, b)) = .ok listed ∧
      ((listed.flatten.map (·.1)).filterM fun i => do return (← f.operation i).isBranch) =
        .ok branches ∧ Answers (Region.discover f flow branches) := by
  obtain ⟨hg, -⟩ := flow_eq_ok hf
  have postorder : Answers f.reversePostorder := Answers.bind ⟨_, hg⟩ fun _ _ => .pure
  obtain ⟨order, horder⟩ := postorder
  have blocks : ∀ b ∈ order, b.index < f.blocks.size := by
    intro b hb
    obtain ⟨body, reached⟩ := (mem_reversePostorder linked.consistent hg horder).mp hb
    rw [← size_graph hg]
    exact reached.lt_size (entry_lt_size linked.consistent body hg)
  have rows : Answers (order.mapM fun b => do
      return ((← f.block b).insts.filter set.contains).map (·, b)) :=
    answers_mapM_iff.mpr fun b hb => by
      obtain ⟨block, answer, -⟩ := exists_block (blocks b hb)
      exact Answers.bind ⟨block, answer⟩ fun _ _ => .pure
  obtain ⟨listed, hlisted⟩ := rows
  have branches : Answers
      ((listed.flatten.map (·.1)).filterM fun i => do return (← f.operation i).isBranch) := by
    refine Answers.filterM fun i hi => ?_
    obtain ⟨⟨i, b⟩, hp, rfl⟩ := List.mem_map.mp hi
    obtain ⟨row, hr, hp⟩ := List.mem_flatten.mp hp
    obtain ⟨b, -, answer⟩ := (mem_of_mapM_eq_ok hlisted).mp hr
    obtain ⟨block, -, answer⟩ := bind_eq_ok_iff.mp answer
    obtain rfl := Except.ok.inj answer
    obtain ⟨j, hj, same⟩ := List.mem_map.mp hp
    obtain ⟨rfl, -⟩ := Prod.mk.inj same
    have inside : j ∈ set := by simpa using (List.mem_filter.mp hj).2
    exact (answers_operation (slots j inside)).bind fun _ _ => .pure
  obtain ⟨branches, hbranches⟩ := branches
  refine ⟨order, listed, branches, horder, hlisted, hbranches, ?_⟩
  exact linked.answers_operations.bind fun ops _ =>
    (answers_ofBranches linked hf branches).bind fun _ _ => .pure

/-- An analysis is held up at an address that it walks along and that circles, or it ends. -/
theorem faults_divergence (formed : f.outline.Formed) (hf : f.flow = .ok flow)
    (hgrid : f.gridReads selector = .ok grid) :
    Faults (f.divergence flow grid shared level dim)
      (f.HeldUp (f.Asks flow grid shared level dim)) := by
  have linked := linked_of_formed formed
  have search : ∀ ops accesses, f.operations = .ok ops → f.accessesAt shared level = .ok accesses →
      Faults (f.spread (f.divergentWith flow ops accesses) [] (grid.identities level dim))
        (f.HeldUp (f.Asks flow grid shared level dim)) := by
    intro ops accesses listing found
    refine faults_spread (P := fun i => (f.blockOf i).isSome ∧ ∃ s ∈ grid.identities level dim,
      Relation.ReflTransGen (f.Passes flow shared level) s i) ?_ ?_ ?_ ?_
    · exact fun i known => lt_of_placed known.1
    · rintro i ⟨home, s, seed, steps⟩
      exact faults_divergentWith formed hf home (.divergent seed steps)
    · rintro i ⟨home, s, seed, steps⟩ more hm j hj
      have step := (mem_divergentWith_iff linked.consistent hf listing found hm).mp hj
      exact ⟨step.placed linked.consistent hf, s, seed, steps.tail step⟩
    · exact fun i hi => ⟨placed_of_mem_identities linked.consistent hgrid hi, i, hi, .refl⟩
  have slots : ∀ set ops accesses,
      f.spread (f.divergentWith flow ops accesses) [] (grid.identities level dim) = .ok set →
      ∀ i ∈ set, i.index < f.insts.size := fun set ops accesses h => lt_of_mem_spread h (by simp)
  have accesses : Faults (f.accessesAt shared level)
      (f.HeldUp (f.Asks flow grid shared level dim)) := faults_accessesAt formed
  unfold divergence
  refine .bind (.of_answers linked.answers_operations) fun ops listing => ?_
  -- the two levels differ in the accesses that are looked at and in nothing else
  cases level
  all_goals
    refine .bind accesses fun accesses found => ?_
    refine .bind (search ops accesses listing found) fun set found => .of_answers ?_
    obtain ⟨order, listed, branches, horder, hlisted, hbranches, regions, hregions⟩ :=
      answers_rest linked hf (slots set ops accesses found)
    exact ⟨_, bind_eq_ok_iff.mpr ⟨order, horder, bind_eq_ok_iff.mpr ⟨listed, hlisted,
      bind_eq_ok_iff.mpr ⟨branches, hbranches, bind_eq_ok_iff.mpr ⟨regions, hregions, rfl⟩⟩⟩⟩⟩

/-- An analysis that ends has found the accesses and the divergent set. -/
theorem exists_search (h : Answers (f.divergence flow grid shared level dim)) :
    ∃ ops accesses set, f.operations = .ok ops ∧ f.accessesAt shared level = .ok accesses ∧
      f.spread (f.divergentWith flow ops accesses) [] (grid.identities level dim) = .ok set := by
  obtain ⟨answer, h⟩ := h
  unfold divergence at h
  obtain ⟨ops, listing, h⟩ := bind_eq_ok_iff.mp h
  cases level
  all_goals
    obtain ⟨accesses, found, h⟩ := bind_eq_ok_iff.mp h
    obtain ⟨set, search, -⟩ := bind_eq_ok_iff.mp h
    exact ⟨ops, accesses, set, listing, found, search⟩

/-- Where an analysis ends, no address that it walks along circles. -/
theorem not_circling_of_answers (consistent : f.Consistent) (hf : f.flow = .ok flow)
    (h : Answers (f.divergence flow grid shared level dim))
    (asked : f.Asks flow grid shared level dim i) : ¬ f.Circling i := by
  obtain ⟨ops, accesses, set, listing, found, search⟩ := exists_search h
  intro circling
  have none := rootGlobal?_circling circling
  cases asked with
  | @divergent s seed steps =>
    have inside := (mem_search_iff consistent hf listing found search).mpr ⟨s, seed, steps⟩
    obtain ⟨more, hm, -⟩ := (spread_closed (by simp [SpreadInv]) search).2 i inside
    obtain ⟨_, root, answer, -⟩ := divergentWith_parts hm
    simp [none] at answer
  | placed block some home =>
    subst block
    simp only [accessesAt, sharedAccesses, List.isEmpty_iff, some, if_false] at found
    obtain ⟨all, instructions, placed⟩ := consistent.instructions
    obtain ⟨all', same, found⟩ := bind_eq_ok_iff.mp found
    obtain rfl := Except.ok.inj (instructions.symm.trans same)
    obtain ⟨rooted, answers, -⟩ := bind_eq_ok_iff.mp found
    obtain ⟨_, -, answer⟩ := exists_of_mapM_eq_ok answers ((placed i).mpr home)
    obtain ⟨root, answer, -⟩ := bind_eq_ok_iff.mp answer
    simp [none] at answer

/-- In a consistent function without flaws, the walk along the address of a placed access comes
within as many steps as there are instructions to what is no address computation or conversion,
unless the address circles; then it never does.  So an analysis ends exactly if it walks along no
address that circles, and it is held up by nothing else. -/
theorem analysis_ends_iff (consistent : f.Consistent) (flawless : f.firstFlaw? = .ok none) :
    (∀ i op v, (f.blockOf i).isSome → f.operation i = .ok op → op.address? = some v →
      ((∃ is w, f.Walks v is w ∧ f.Final w ∧ is.length ≤ f.insts.size) ↔ ¬ f.Circles v) ∧
      (Answers (f.rootGlobal? i) ↔ ¬ f.Circles v) ∧
      (f.Circles v → f.rootGlobal? i = .error (.addressCycle i))) ∧
    ∀ flow selector grid shared level dim, f.flow = .ok flow → f.gridReads selector = .ok grid →
      (Answers (f.divergence flow grid shared level dim) ↔
        ∀ i, f.Asks flow grid shared level dim i → ¬ f.Circling i) ∧
      ∀ e, f.divergence flow grid shared level dim = .error e →
        ∃ i, f.Asks flow grid shared level dim i ∧ f.Circling i ∧ e = .addressCycle i := by
  have formed := formed_of_flawless consistent flawless
  refine ⟨fun i op v home does address => ?_, fun flow selector grid shared level dim hf hgrid => ?_⟩
  · have same : f.Circling i ↔ f.Circles v := circling_iff does address
    refine ⟨exists_final_walk_iff, ?_, fun circles => rootGlobal?_circling (same.mpr circles)⟩
    rw [← same]
    exact answers_rootGlobal?_iff formed home
  · have faults : Faults (f.divergence flow grid shared level dim)
        (f.HeldUp (f.Asks flow grid shared level dim)) := faults_divergence formed hf hgrid
    refine ⟨⟨fun answers i asked => ?_, fun straight => ?_⟩, faults⟩
    · exact not_circling_of_answers consistent hf answers asked
    · refine faults.answers ?_
      rintro e ⟨i, asked, circling, -⟩
      exact straight i asked circling

/-- A kernel with a step along an address in a block that control does not come to. -/
def lostStep (base : Value) : Func := .assemble "lost_step" [⟨"out", .ptr .global⟩] [
  ("entry", [
    ⟨.call "llvm.nvvm.read.ptx.sreg.tid.x" [], .i32, "t"⟩,
    ⟨.ret none, .void, ""⟩]),
  ("lost", [
    ⟨.element base (.inst ⟨0⟩), .ptr .global, "p"⟩,
    ⟨.store (.inst ⟨2⟩) (.const 0), .void, ""⟩,
    ⟨.ret none, .void, ""⟩])]

/-- The control flow of the kernel. -/
def lostStepFlow : Flow where
  graph := ⟨#[[], []], by decide⟩
  dom := ⟨#[some 0, none]⟩
  pdom := ⟨#[some 2, none, some 2], 2⟩
  loops := ⟨[]⟩

/-- What is read of the launch in the kernel. -/
def lostStepReads : GridReads := ⟨[(⟨0⟩, .threadId, .x)], []⟩

theorem flow_lostStep (base : Value) : (lostStep base).flow = .ok lostStepFlow := by cbv

theorem gridReads_lostStep (base : Value) :
    (lostStep base).gridReads (.only .x) = .ok lostStepReads := by rfl

/-- If the step starts from a parameter, the walk from the store ends behind it, and so does the
analysis. -/
theorem analysis_lostStep : (lostStep (.arg 0)).Consistent ∧
    (lostStep (.arg 0)).firstFlaw? = .ok none ∧
    (lostStep (.arg 0)).flow = .ok lostStepFlow ∧
    (lostStep (.arg 0)).gridReads (.only .x) = .ok lostStepReads ∧
    ¬ (lostStep (.arg 0)).Circles (.inst ⟨2⟩) ∧
    Answers ((lostStep (.arg 0)).rootGlobal? ⟨3⟩) ∧
    ∀ i, (lostStep (.arg 0)).Asks lostStepFlow lostStepReads [⟨0⟩] .block .x i →
      ¬ (lostStep (.arg 0)).Circling i := by
  have consistent : (lostStep (.arg 0)).Consistent := consistent_assemble ..
  have flawless : (lostStep (.arg 0)).firstFlaw? = .ok none := by cbv
  have flow := flow_lostStep (.arg 0)
  have grid := gridReads_lostStep (.arg 0)
  obtain ⟨walks, analyses⟩ := analysis_ends_iff consistent flawless
  have walk := walks ⟨3⟩ (.store (.inst ⟨2⟩) (.const 0)) (.inst ⟨2⟩) (by decide) rfl rfl
  have ends : ¬ (lostStep (.arg 0)).Circles (.inst ⟨2⟩) := by
    refine walk.1.mp ⟨[⟨2⟩], .arg 0, .step (.element rfl) (.stay _), ?_, by decide⟩
    rintro i w ⟨⟩
  have analysis : Answers ((lostStep (.arg 0)).divergence lostStepFlow lostStepReads
      [⟨0⟩] .block .x) := ⟨_, by cbv⟩
  exact ⟨consistent, flawless, flow, grid, ends, walk.2.1.mpr ends,
    (analyses _ _ _ _ _ _ flow grid).1.mp analysis⟩

/-- If the step starts from its own result, there is no flaw either, but the walk does not end, and
at both levels neither does the analysis. -/
theorem not_analysis_lostStep : (lostStep (.inst ⟨2⟩)).Consistent ∧
    (lostStep (.inst ⟨2⟩)).firstFlaw? = .ok none ∧
    (lostStep (.inst ⟨2⟩)).blockOf ⟨2⟩ = some ⟨1⟩ ∧
    (lostStep (.inst ⟨2⟩)).operation ⟨2⟩ = .ok (.element (.inst ⟨2⟩) (.inst ⟨0⟩)) ∧
    (¬ ∃ is w, (lostStep (.inst ⟨2⟩)).Walks (.inst ⟨2⟩) is w ∧ (lostStep (.inst ⟨2⟩)).Final w) ∧
    (lostStep (.inst ⟨2⟩)).flow = .ok lostStepFlow ∧
    (lostStep (.inst ⟨2⟩)).gridReads (.only .x) = .ok lostStepReads ∧
    (lostStep (.inst ⟨2⟩)).divergence lostStepFlow lostStepReads [] .thread .x =
      .error (.addressCycle ⟨2⟩) ∧
    (lostStep (.inst ⟨2⟩)).divergence lostStepFlow lostStepReads [⟨0⟩] .block .x =
      .error (.addressCycle ⟨2⟩) := by
  have circles : (lostStep (.inst ⟨2⟩)).Circles (.inst ⟨2⟩) :=
    ⟨[], [], ⟨2⟩, .stay _, .step (.element rfl) (.stay _)⟩
  refine ⟨consistent_assemble .., by cbv, by decide, rfl, ?_, flow_lostStep _, gridReads_lostStep _,
    by cbv, by cbv⟩
  rintro ⟨is, w, walk, final⟩
  obtain ⟨js, x, longer, le⟩ := circles.exists_walk (is.length + 1)
  have := walk.length_le final longer
  omega

end Func

end KernelCoarsening
