/-
Kernels whose branches do not diverge.

Where no branch is divergent there are no regions, and coarsening only scales reads of the place
in the launch and repeats divergent instructions in place.  So what it makes is a merged function,
which takes with one thread the way that all the logical threads take:

* `Func.Merges.flawless` — a merged function is well-formed like the function it is made of;
* `Func.Alike.task` — what is divergent can be repeated where reads have been scaled;
* `Func.Alike.merges` — what coarsening makes is a merged function;
* `Func.coarsen_of_uniform_branches` — coarsening succeeds, and keeps what the kernel does.
-/
import KernelCoarsening.Proofs.Coarsening.Merging
import KernelCoarsening.Proofs.Coarsening.Repetition
import KernelCoarsening.Proofs.Coarsening.Scaling
import KernelCoarsening.Proofs.Cost.Estimate
import KernelCoarsening.Proofs.Divergence.Straight
import KernelCoarsening.Proofs.Ir.Flawless

namespace KernelCoarsening

/-- An operation that becomes a phi was one, and it named the same blocks. -/
theorem Operation.of_mapOperands_eq_phi {k : Value → Value} {op : Operation}
    {incoming : List (Value × BlockId)} (h : op.mapOperands k = .phi incoming) :
    ∃ incoming', op = .phi incoming' ∧ incoming'.map (·.2) = incoming.map (·.2) := by
  cases op with
  | phi incoming' =>
    obtain rfl : _ = incoming := by simpa [mapOperands] using h
    exact ⟨incoming', rfl, by simp⟩
  | _ => simp [mapOperands] at h

namespace Func

/-! ### Merged functions are well-formed -/

namespace Merges

variable {f g : Func} {c : CoarseningParams} {chunk : InstId → List InstId}
  {replica : Nat → InstId → InstId} {b : BlockId} {i x : InstId}

theorem size_blocks (merges : f.Merges g c chunk replica) : g.blocks.size = f.blocks.size :=
  size_blocks_eq merges.consistent_left merges.consistent merges.layout

/-- The instructions of a block belong to chunks of instructions of this block. -/
theorem exists_origin (merges : f.Merges g c chunk replica) (placed : g.blockOf x = some b) :
    ∃ i op ty, f.blockOf i = some b ∧ x ∈ chunk i ∧ f.line i = some (op, ty) ∧
      g.Piece c chunk replica i op ty := by
  have mem := merges.consistent.mem_code.mpr placed
  rw [merges.code] at mem
  obtain ⟨i, hi, hx⟩ := List.mem_flatMap.mp mem
  obtain ⟨op, ty, line, piece⟩ := merges.exists_piece (merges.placed hi)
  exact ⟨i, op, ty, merges.consistent_left.mem_code.mp hi, hx, line, piece⟩

theorem isSome_blockOf (merges : f.Merges g c chunk replica) (placed : (f.blockOf i).isSome)
    (hx : x ∈ chunk i) : (g.blockOf x).isSome :=
  (isSome_blockOf_iff merges.consistent_left merges.consistent merges.code).mpr ⟨i, placed, hx⟩

/-- The merged function is in shape. -/
theorem formed_right (merges : f.Merges g c chunk replica) : g.outline.Formed := by
  -- a line is the one of a replica, or it is made for a read and only reads within its chunk
  refine ⟨consistent_iff.mp merges.consistent, fun b inside => ?_,
    fun x op' ty' placed line j hj => ?_, fun x op' ty' placed line t ht => ?_⟩
  · have inside' : b.index < f.blocks.size := merges.size_blocks ▸ inside
    obtain ⟨phis, body, last, shape⟩ := merges.formed.formed b inside'
    exact ⟨_, _, _, merges.shape shape⟩
  · obtain ⟨b, hb⟩ := Option.isSome_iff_exists.mp placed
    obtain ⟨i, op, ty, home, hx, lineI, piece⟩ := merges.exists_origin hb
    have placedI := Option.isSome_of_eq_some home
    replace line : g.line x = some (op', ty') := line
    rcases piece.line_of_mem merges.positive hx with ⟨k, hk, lineX⟩ | ⟨-, -, op₁, lineX, -, -, own⟩
    · obtain ⟨rfl, -⟩ : op.mapOperands (·.mapInst (replica k)) = op' ∧ ty = ty' := by
        simpa [lineX] using line
      obtain ⟨j', used, rfl⟩ := Operation.mem_usedInsts_mapInst.mp hj
      have placedJ := merges.formed.operands i op ty placedI lineI j' used
      exact merges.isSome_blockOf placedJ (merges.replica_mem placedJ hk)
    · obtain ⟨rfl, -⟩ : op₁ = op' ∧ ty = ty' := by simpa [lineX] using line
      exact merges.isSome_blockOf placedI (own j hj)
  · obtain ⟨b, hb⟩ := Option.isSome_iff_exists.mp placed
    obtain ⟨i, op, ty, home, hx, lineI, piece⟩ := merges.exists_origin hb
    replace line : g.line x = some (op', ty') := line
    rcases piece.line_of_mem merges.positive hx with ⟨k, hk, lineX⟩ | ⟨-, -, op₁, lineX, -, plain, -⟩
    · obtain ⟨rfl, -⟩ : op.mapOperands (·.mapInst (replica k)) = op' ∧ ty = ty' := by
        simpa [lineX] using line
      show t.index < g.blocks.size
      rw [merges.size_blocks]
      exact merges.formed.targets i op ty (Option.isSome_of_eq_some home) lineI t (by simpa using ht)
    · obtain ⟨rfl, -⟩ : op₁ = op' ∧ ty = ty' := by simpa [lineX] using line
      simp [Operation.successors_of_plain plain] at ht

/-- Blocks of the merged function lead where they led. -/
theorem graph_eq (merges : f.Merges g c chunk replica) : g.graph = f.graph := by
  refine graph_congr merges.size_blocks fun b hb => ?_
  obtain ⟨phis, body, last, shape⟩ := merges.formed.formed b (mem_blockIds.mp hb)
  obtain ⟨op, ty, line, term⟩ := shape.last
  have placed : (f.blockOf last).isSome := merges.placed shape.last_mem
  have piece := merges.piece last op ty placed line
  have alone := piece.chunk_of_terminator term
  rw [successors_of_shape shape (operation_eq_ok_iff.mpr ⟨ty, line⟩)]
  rcases piece.line_of_mem merges.positive (x := last) (by simp [alone]) with
    ⟨k, -, line'⟩ | ⟨-, plain, -⟩
  · rw [successors_of_shape (merges.shape shape) (operation_eq_ok_iff.mpr ⟨ty, line'⟩),
      Operation.successors_mapOperands]
  · simp [plain] at term

theorem phisMatch (merges : f.Merges g c chunk replica) {graph : Graph}
    (phisMatch : f.PhisMatch graph) : g.PhisMatch graph := by
  intro x b incoming ty' placed reached line p hp
  rw [merges.entry_eq] at reached hp
  obtain ⟨i, op, ty, home, hx, lineI, piece⟩ := merges.exists_origin placed
  rcases piece.line_of_mem merges.positive hx with ⟨k, hk, lineX⟩ | ⟨-, -, op₁, lineX, notPhi, -⟩
  · obtain ⟨phi, -⟩ : op.mapOperands (·.mapInst (replica k)) = .phi incoming ∧ ty = ty' := by
      simpa [lineX] using line
    obtain ⟨incoming', rfl, named⟩ := Operation.of_mapOperands_eq_phi phi
    rw [← named]
    exact phisMatch i b incoming' ty home reached lineI p hp
  · obtain ⟨rfl, -⟩ : op₁ = .phi incoming ∧ ty = ty' := by simpa [lineX] using line
    simp [Operation.isPhi] at notPhi

/-- A merged function has no flaws if the function it is made of has none. -/
theorem flawless (merges : f.Merges g c chunk replica) {graph : Graph}
    (hg : f.graph = .ok graph) (flawless : f.firstFlaw? = .ok none) : g.firstFlaw? = .ok none := by
  obtain ⟨-, matches'⟩ := (flawless_iff merges.consistent_left hg).mp flawless
  exact (flawless_iff merges.consistent (merges.graph_eq.trans hg)).mpr
    ⟨merges.formed_right, merges.phisMatch matches'⟩

end Merges

/-! ### Kernels in which threads take one way -/

/-- A placed instruction stands in its slot. -/
theorem mem_insts_of_line {f : Func} {i : InstId} {op : Operation} {ty : Ty}
    (placed : (f.blockOf i).isSome) (line : f.line i = some (op, ty)) :
    ∃ inst ∈ f.insts.toList, inst.block.isSome ∧ inst.op = op ∧ inst.ty = ty := by
  obtain ⟨inst, hi, hop, hty⟩ := inst_of_line line
  have slot := inst_eq_ok_iff.mp hi
  refine ⟨inst, Array.mem_toList_iff.mpr (Array.mem_of_getElem? slot), ?_, hop, hty⟩
  simpa [blockOf, slot] using placed

/-- What coarsening relies on in a kernel without divergent branches. -/
structure Alike (f : Func) (c : CoarseningParams) (found : DivergentFunc)
    (ops : List (InstId × Operation)) (accesses : List (InstId × GlobalId)) : Prop
    extends f.Straight c.level c.dim found ops accesses where
  formed : f.outline.Formed
  values : f.ReadsValues
  calls : f.CallsRead c.dim
  factor : 2 ≤ c.factor
  stride : 0 < c.stride

/-- The divergent instructions that are repeated: terminators are not. -/
def repeatable (f : Func) (d : Divergence) : List InstId :=
  d.outermostInstructions.filter fun i => !(f.line i).any (·.1.isTerminator)

/-- The instructions that become of one: its replicas, and what is computed from it. -/
def chunkOf (news : InstId → List (InstId × Operation × Ty)) (copies : InstId → List InstId)
    (i : InstId) : List InstId :=
  (i :: (news i).map (·.1)).flatMap fun x => x :: copies x

/-- What has the value that an instruction has for a thread. -/
def replicaAt (map : ReplicaMap) (todo : List InstId) (copies : InstId → List InstId)
    (rename : InstId → InstId) : Nat → InstId → InstId
  | 0, i => rename i
  | n + 1, i => Replication.replicaOf map todo copies n (rename i)

/-- What is not repeated has the same value for all threads. -/
theorem replicaAt_of_none {map : ReplicaMap} {todo : List InstId} {copies : InstId → List InstId}
    {rename : InstId → InstId} {j : InstId} (none : map.get? (rename j) = none)
    (out : rename j ∉ todo) (k : Nat) : replicaAt map todo copies rename k j = rename j := by
  cases k with
  | zero => rfl
  | succ n => simp [replicaAt, Replication.replicaOf, none, out]

namespace Alike

variable {f g h : Func} {c : CoarseningParams} {found : DivergentFunc}
  {ops : List (InstId × Operation)} {accesses : List (InstId × GlobalId)} {i j x : InstId}
  {op : Operation} {ty : Ty} {r : Register}

section

variable (alike : f.Alike c found ops accesses)
include alike

theorem mem_along_iff : i ∈ found.grid.along r c.dim ↔ (f.blockOf i).isSome ∧
    f.outline.Does i fun op => op.register? = some (r, c.dim) :=
  mem_along alike.consistent alike.analyzed.grid (by simp [DimensionSelector.includes])

/-- A read of a register is a call without arguments, into a word that is wide enough. -/
theorem call_of_read (read : i ∈ found.grid.along r c.dim) (line : f.line i = some (op, ty)) :
    ty.isWide ∧ ∃ callee, op = .call callee [] ∧
      Register.ofAccessor? callee = some (r, c.dim) := by
  obtain ⟨placed, op', ty', line', register⟩ := alike.mem_along_iff.mp read
  obtain ⟨rfl, rfl⟩ : op = op' ∧ ty = ty' := by simpa [show f.line i = _ from line'] using line.symm
  obtain ⟨callee, args, rfl, accessor⟩ := Operation.exists_call_of_register register
  obtain ⟨inst, mem, home, hop, hty⟩ := mem_insts_of_line placed line
  obtain ⟨rfl, r', d, accessor', wide⟩ := alike.calls inst mem home _ _ hop
  obtain ⟨rfl, rfl⟩ : r' = r ∧ d = c.dim := by simpa [accessor] using accessor'.symm
  exact ⟨hty ▸ wide rfl, _, rfl, accessor⟩

theorem identity_mem (read : i ∈ found.grid.identities c.level c.dim) :
    i ∈ found.divergence.set := by
  obtain ⟨placed, op, ty, line, -⟩ := alike.mem_along_iff.mp read
  obtain ⟨-, callee, rfl, accessor⟩ := alike.call_of_read read line
  obtain ⟨b, hb⟩ := Option.isSome_iff_exists.mp placed
  exact alike.analyzed.identity_mem alike.consistent (by simp [DimensionSelector.includes]) hb
    (operation_eq_ok_iff.mpr ⟨ty, line⟩) accessor

theorem mem_repeatable : i ∈ f.repeatable found.divergence ↔ i ∈ found.divergence.set ∧
    i ∉ found.grid.all ∧ f.outline.Does i fun op => op.isTerminator = false := by
  rw [repeatable, List.mem_filter, alike.mem_outermostInstructions, and_assoc]
  refine and_congr_right fun divergent => and_congr_right fun _ => ?_
  obtain ⟨op, ty, line⟩ := exists_line (alike.reason i divergent).1
  simp [Outline.Does, show f.outline.line i = _ from line, line]

theorem notMem_repeatable_of_read (read : i ∈ found.grid.along r c.dim) :
    i ∉ f.repeatable found.divergence := fun mem =>
  (alike.mem_repeatable.mp mem).2.1 ((mem_all_reads alike.analyzed.grid).mpr ⟨r, read⟩)

/-- What is divergent reads the merged identity, or it is repeated, or it returns. -/
theorem divergent_cases (divergent : i ∈ found.divergence.set) (line : f.line i = some (op, ty)) :
    i ∈ found.grid.identities c.level c.dim ∨ i ∈ f.repeatable found.divergence ∨
      ∃ v, op = .ret v := by
  obtain ⟨placed, reason⟩ := alike.reason i divergent
  by_cases identity : i ∈ found.grid.identities c.level c.dim
  · exact .inl identity
  obtain ⟨op', ty', line', reads⟩ := reason.resolve_left identity
  obtain ⟨rfl, rfl⟩ : op = op' ∧ ty = ty' := by simpa [show f.line i = _ from line'] using line.symm
  have other : i ∉ found.grid.all := by
    intro read
    obtain ⟨r, read⟩ := (mem_all_reads alike.analyzed.grid).mp read
    obtain ⟨-, callee, rfl, -⟩ := alike.call_of_read read line
    simp [Operation.usedInsts, Operation.operands, Operation.address?] at reads
  refine .inr ?_
  by_cases term : op.isTerminator = true
  · have plain := alike.not_isBranch divergent placed (operation_eq_ok_iff.mpr ⟨ty, line⟩)
    cases op with
    | ret v => exact .inr ⟨v, rfl⟩
    | branch => simp [Operation.isBranch] at plain
    | jump => simp [Operation.usedInsts, Operation.operands, Operation.address?] at reads
    | unreachable => simp [Operation.usedInsts, Operation.operands, Operation.address?] at reads
    | _ => simp [Operation.isTerminator] at term
  · exact .inl (alike.mem_repeatable.mpr ⟨divergent, other, op, ty, line, by simpa using term⟩)

/-- The extent of the launch is the same for all threads. -/
theorem extent_notMem (read : i ∈ found.grid.extents c.level c.dim) : i ∉ found.divergence.set := by
  intro divergent
  obtain ⟨-, op, ty, line, register⟩ := alike.mem_along_iff.mp read
  obtain ⟨-, callee, rfl, -⟩ := alike.call_of_read read line
  rcases alike.divergent_cases divergent line with identity | repeated | ⟨v, ret⟩
  · obtain ⟨-, op', ty', line', register'⟩ := alike.mem_along_iff.mp identity
    obtain ⟨rfl, rfl⟩ : .call callee [] = op' ∧ ty = ty' := by simpa [line] using line'
    have := register.symm.trans register'
    cases hl : c.level <;> simp [hl, Level.identity, Level.extent] at this
  · exact alike.notMem_repeatable_of_read read repeated
  · simp at ret

end

section

variable {map : ReplicaMap} {news : InstId → List (InstId × Operation × Ty)}
  {rename : InstId → InstId} (alike : f.Alike c found ops accesses)
  (scaled : f.Scaled h c (found.grid.extents c.level c.dim).reverse
    (found.grid.identities c.level c.dim).reverse map news rename)
include alike scaled

theorem rename_of_repeatable (mem : i ∈ f.repeatable found.divergence) :
    news i = [] ∧ rename i = i :=
  scaled.idle i (fun read => alike.notMem_repeatable_of_read (List.mem_reverse.mp read) mem)
    fun read => alike.notMem_repeatable_of_read (List.mem_reverse.mp read) mem

/-- What all threads compute alike is not repeated. -/
theorem uniform_rename (placed : (f.blockOf j).isSome) (uniform : j ∉ found.divergence.set) :
    map.get? (rename j) = none ∧ rename j ∉ f.repeatable found.divergence := by
  constructor
  · by_contra known
    obtain ⟨-, i, hi, same⟩ := scaled.known (rename j) (Option.isSome_iff_ne_none.mpr known)
    have read := List.mem_reverse.mp hi
    have placedI := (alike.mem_along_iff.mp read).1
    obtain rfl : j = i := scaled.eq_of_rename alike.consistent placedI placed (by
      rcases same with same | same
      · simp [same]
      · exact same ▸ scaled.rename_mem placedI)
    exact uniform (alike.identity_mem read)
  · intro mem
    have divergent := (alike.mem_repeatable.mp mem).1
    have same := scaled.eq_of_rename alike.consistent (alike.reason _ divergent).1 placed
      (List.mem_cons_self ..)
    exact uniform (same ▸ divergent)

/-- What is read and divergent is repeated, unless its replicas are known. -/
theorem repeatable_of_read (placed : (f.blockOf i).isSome) (line : f.line i = some (op, ty))
    (used : j ∈ op.usedInsts) (divergent : rename j ∈ found.divergence.set)
    (unknown : map.get? (rename j) = none) : rename j ∈ f.repeatable found.divergence := by
  have placedJ := alike.formed.operands i op ty placed line j used
  -- the analysis knows the function before the reads were scaled, so the operand is not a new one
  have same := scaled.eq_of_rename alike.consistent (alike.reason _ divergent).1 placedJ
    (List.mem_cons_self ..)
  rw [← same] at divergent unknown ⊢
  obtain ⟨inst, mem, home, rfl, rfl⟩ := mem_insts_of_line placed line
  obtain ⟨op', ty', line'⟩ := exists_line placedJ
  rcases alike.divergent_cases divergent line' with identity | repeated | ⟨v, rfl⟩
  · obtain ⟨n, -, -, known, -⟩ := scaled.identity j (List.mem_reverse.mpr identity) _ _ line'
    simp [known] at unknown
  · exact repeated
  · have := alike.values inst mem home j used
    simp [operation_eq_ok_iff.mpr ⟨_, line'⟩, Except.toOption, Operation.isTerminator] at this

theorem lt_of_mem_chunk (placed : (f.blockOf i).isSome) (hx : x ∈ i :: (news i).map (·.1)) :
    x.index < h.insts.size :=
  lt_of_placed ((scaled.expands.isSome_blockOf alike.consistent).mpr ⟨i, placed, hx⟩)

/-- The scaled function reads what it has. -/
theorem operands_lt (placed : (h.blockOf x).isSome) (line : h.line x = some (op, ty))
    (used : j ∈ op.usedInsts) : j.index < h.insts.size := by
  obtain ⟨i, hi, mem⟩ := (scaled.expands.isSome_blockOf alike.consistent).mp placed
  rcases List.mem_cons.mp mem with rfl | mem
  · obtain ⟨op', ty', line'⟩ := exists_line hi
    obtain ⟨rfl, rfl⟩ : op'.mapOperands (·.mapInst rename) = op ∧ ty' = ty := by
      simpa [scaled.expands.line_of_placed hi line'] using line
    obtain ⟨j', used', rfl⟩ := Operation.mem_usedInsts_mapInst.mp used
    have hj := alike.formed.operands x op' ty' hi line' j' used'
    exact alike.lt_of_mem_chunk scaled hj (scaled.rename_mem hj)
  · obtain ⟨l, hl, rfl⟩ := List.mem_map.mp mem
    obtain ⟨-, line', -⟩ := scaled.expands.new i l hl
    obtain ⟨rfl, rfl⟩ : l.2.1 = op ∧ l.2.2 = ty := by simpa [Prod.ext_iff, line'] using line
    exact alike.lt_of_mem_chunk scaled hi (scaled.reads_chunk hi hl used)

/-- The replicas that are known are the siblings of reads, one for each further thread. -/
theorem known_siblings {list : List InstId} (held : map.get? i = some list) :
    i.index < h.insts.size ∧ list.length = c.factor - 1 ∧ ∀ x ∈ list, x.index < h.insts.size := by
  obtain ⟨lt, k, hk, same⟩ := scaled.known i (Option.isSome_of_eq_some held)
  obtain ⟨placed, op, ty, line, -⟩ := alike.mem_along_iff.mp (List.mem_reverse.mp hk)
  obtain ⟨n, lines, renamed, first, base⟩ := scaled.identity k hk op ty line
  obtain rfl : siblingsAt c n = list := by
    rcases same with rfl | rfl
    · simpa [first] using held
    · simpa [renamed, base] using held
  refine ⟨lt, by simp [siblingsAt], fun x hx => alike.lt_of_mem_chunk scaled placed ?_⟩
  obtain ⟨m, hm, rfl⟩ := List.mem_map.mp hx
  have : (⟨n + 4 + m⟩ : InstId) ∈ (siblingLines ⟨n + 3⟩ ty c.stride (n + 4) 1 (c.factor - 1)).map
      (·.1) := by simpa [siblingLines] using hm
  simp [lines, identityLines, this]

/-- What is divergent can be repeated in the scaled function. -/
theorem task : Replication.Task h map found.divergence (c.factor - 1)
    (f.repeatable found.divergence) := by
  have placed : ∀ i ∈ f.repeatable found.divergence, (f.blockOf i).isSome := fun i hi =>
    (alike.reason i (alike.mem_repeatable.mp hi).1).1
  refine
    { consistent := scaled.expands.consistent
      placed := fun i hi => (scaled.expands.isSome_blockOf alike.consistent).mpr
        ⟨i, placed i hi, List.mem_cons_self ..⟩
      plain := fun i hi => ?_
      new := fun i hi => ?_
      divergent := fun i hi => ?_
      known := fun i list held => alike.known_siblings scaled held
      inside := fun x op ty hx line j used => alike.operands_lt scaled hx line used
      operands := fun i hi => ?_ }
  · obtain ⟨-, -, op, ty, line, plain⟩ := alike.mem_repeatable.mp hi
    exact ⟨_, ty, scaled.expands.line_of_placed (placed i hi) line, by simpa using plain⟩
  · exact scaled.get?_eq_none (placed i hi) fun read =>
      alike.notMem_repeatable_of_read (List.mem_reverse.mp read) hi
  · simpa [Divergence.isDivergent] using (alike.mem_repeatable.mp hi).1
  · obtain ⟨-, -, op, ty, line, -⟩ := alike.mem_repeatable.mp hi
    refine ⟨_, ty, scaled.expands.line_of_placed (placed i hi) line,
      fun j used divergent unknown => ?_⟩
    obtain ⟨j', used', rfl⟩ := Operation.mem_usedInsts_mapInst.mp used
    exact alike.repeatable_of_read scaled (placed i hi) line used'
      (by simpa [Divergence.isDivergent] using divergent) unknown

/-- What is not repeated in place ends a block. -/
theorem repeatable_or_terminator (mem : i ∈ found.divergence.outermostInstructions) :
    i ∈ f.repeatable found.divergence ∨ i.index < h.insts.size ∧
      h.outline.Does i fun op => op.isTerminator = true := by
  obtain ⟨divergent, other⟩ := alike.mem_outermostInstructions.mp mem
  have placed := (alike.reason i divergent).1
  obtain ⟨op, ty, line⟩ := exists_line placed
  by_cases term : op.isTerminator = true
  · exact .inr ⟨(lt_of_placed placed).trans_le scaled.expands.size, _, ty,
      scaled.expands.line_of_placed placed line, by simpa using term⟩
  · exact .inl (alike.mem_repeatable.mpr ⟨divergent, other, op, ty, line, by simpa using term⟩)

variable {copies : InstId → List InstId} (repeated : Replication.Repeated h g map (c.factor - 1)
    (f.repeatable found.divergence) copies)

theorem replicaAt_of_uniform (placed : (f.blockOf j).isSome) (uniform : j ∉ found.divergence.set)
    (k : Nat) : replicaAt map (f.repeatable found.divergence) copies rename k j = rename j := by
  obtain ⟨none, out⟩ := alike.uniform_rename scaled placed uniform
  exact replicaAt_of_none none out k

theorem replicaAt_of_identity (read : i ∈ found.grid.identities c.level c.dim) {n : Nat}
    (renamed : rename i = ⟨n + 3⟩) (base : map.get? ⟨n + 3⟩ = some (siblingsAt c n)) {k : Nat}
    (hk : k < c.factor) :
    replicaAt map (f.repeatable found.divergence) copies rename k i = ⟨n + 3 + k⟩ := by
  cases k with
  | zero => exact renamed
  | succ m =>
    have out : (⟨n + 3⟩ : InstId) ∉ f.repeatable found.divergence := fun mem => by
      obtain ⟨placed, -⟩ := alike.mem_along_iff.mp read
      have divergent := (alike.mem_repeatable.mp mem).1
      have same := scaled.eq_of_rename alike.consistent (alike.reason _ divergent).1 placed
        (renamed ▸ List.mem_cons_self ..)
      exact alike.notMem_repeatable_of_read read (same ▸ mem)
    have bound : m < c.factor - 1 := by omega
    simp [replicaAt, Replication.replicaOf, renamed, out, base, siblingsAt, bound]
    omega

include repeated

theorem chunkOf_of_repeatable (mem : i ∈ f.repeatable found.divergence) :
    chunkOf news copies i = (List.range c.factor).map
      (replicaAt map (f.repeatable found.divergence) copies rename · i) := by
  obtain ⟨none, renamed⟩ := alike.rename_of_repeatable scaled mem
  have factor : c.factor = (copies i).length + 1 := by
    have := alike.factor
    rw [repeated.lengths i mem]
    omega
  simp only [chunkOf, none, List.map_nil, List.flatMap_cons, List.flatMap_nil, List.append_nil,
    factor, List.range_succ_eq_map, List.map_cons, List.map_map, Function.comp_def, replicaAt,
    renamed, Replication.replicaOf, if_pos mem, Option.bind_some]
  refine congrArg _ (List.ext_getElem (by simp) fun n bound _ => by simp [bound])

theorem chunkOf_of_notMem (placed : (f.blockOf i).isSome)
    (out : i ∉ f.repeatable found.divergence) :
    chunkOf news copies i = i :: (news i).map (·.1) := by
  have none : ∀ x ∈ i :: (news i).map (·.1), x :: copies x = [x] := by
    intro x hx
    rw [repeated.outside x]
    rcases List.mem_cons.mp hx with rfl | hx
    · exact out
    · obtain ⟨l, hl, rfl⟩ := List.mem_map.mp hx
      intro mem
      have := lt_of_placed (alike.reason _ (alike.mem_repeatable.mp mem).1).1
      have := (scaled.expands.new i l hl).1
      omega
  rw [chunkOf, List.flatMap_congr none, List.flatMap_singleton']

/-- The line of an instruction reads what is read by the first thread. -/
theorem line_first (placed : (f.blockOf i).isSome) (line : f.line i = some (op, ty)) :
    g.line i = some (op.mapOperands (·.mapInst rename), ty) := by
  have home := (scaled.expands.isSome_blockOf alike.consistent).mpr
    ⟨i, placed, List.mem_cons_self ..⟩
  rw [repeated.line i home, scaled.expands.line_of_placed placed line]

theorem line_new (placed : (f.blockOf i).isSome) {l : InstId × Operation × Ty} (hl : l ∈ news i) :
    g.line l.1 = some l.2 := by
  have home := (scaled.expands.isSome_blockOf alike.consistent).mpr
    ⟨i, placed, List.mem_cons_of_mem _ (List.mem_map_of_mem hl)⟩
  rw [repeated.line _ home, (scaled.expands.new i l hl).2.1]

/-- Each thread reads its own identity. -/
theorem piece_of_identity (read : i ∈ found.grid.identities c.level c.dim)
    (line : f.line i = some (op, ty)) :
    g.Piece c (chunkOf news copies) (replicaAt map (f.repeatable found.divergence) copies rename)
      i op ty := by
  obtain ⟨placed, -⟩ := alike.mem_along_iff.mp read
  obtain ⟨wide, callee, rfl, accessor⟩ := alike.call_of_read read line
  obtain ⟨n, lines, renamed, -, base⟩ := scaled.identity i (List.mem_reverse.mpr read) _ ty line
  have at' : ∀ k < c.factor, replicaAt map (f.repeatable found.divergence) copies rename k i =
      ⟨n + 3 + k⟩ := fun k hk => alike.replicaAt_of_identity scaled read renamed base hk
  have factor := alike.factor
  have out := alike.notMem_repeatable_of_read read
  have new : ∀ l ∈ identityLines c i ty n, g.line l.1 = some l.2 := fun l hl =>
    alike.line_new scaled repeated placed (lines ▸ hl)
  simp only [identityLines, baseLines, List.forall_mem_append, List.forall_mem_cons] at new
  obtain ⟨⟨quotient, product, remainder, first, -⟩, siblings⟩ := new
  refine .identity wide rfl accessor ?_ (alike.line_first scaled repeated placed line) quotient
    product remainder ?_ fun k hk zero => ?_
  · -- the chunk ends in the replicas: the base and its siblings, in the order of the threads
    have places : (List.range c.factor).map
        (replicaAt map (f.repeatable found.divergence) copies rename · i) =
          (List.range c.factor).map fun k => ⟨n + 3 + k⟩ :=
      List.map_congr_left fun k hk => at' k (List.mem_range.mp hk)
    have range : List.range c.factor = 0 :: (List.range (c.factor - 1)).map (· + 1) := by
      rw [← List.range_succ_eq_map]
      congr 1
      omega
    rw [alike.chunkOf_of_notMem scaled repeated placed out, lines, places, range]
    simp +arith [identityLines, baseLines, siblingLines, Function.comp_def]
  · rw [at' 0 (by omega)]
    exact first
  · obtain ⟨m, rfl⟩ : ∃ m, k = m + 1 := ⟨k - 1, by omega⟩
    rw [at' 0 (by omega), at' (m + 1) hk]
    have mem : m ∈ List.range (c.factor - 1) := List.mem_range.mpr (by omega)
    have := siblings _ (List.mem_map_of_mem mem)
    rw [show n + 3 + (m + 1) = n + 4 + m by omega, Nat.add_comm m 1]
    exact this

/-- All threads read the extent of the logical launch. -/
theorem piece_of_extent (read : i ∈ found.grid.extents c.level c.dim)
    (line : f.line i = some (op, ty)) :
    g.Piece c (chunkOf news copies) (replicaAt map (f.repeatable found.divergence) copies rename)
      i op ty := by
  obtain ⟨placed, -⟩ := alike.mem_along_iff.mp read
  obtain ⟨wide, callee, rfl, accessor⟩ := alike.call_of_read read line
  obtain ⟨n, lines, renamed⟩ := scaled.extent i (List.mem_reverse.mpr read) _ ty line
  have uniform := alike.extent_notMem read
  have out : i ∉ f.repeatable found.divergence := fun mem => uniform (alike.mem_repeatable.mp mem).1
  have code : chunkOf news copies i = [i, ⟨n⟩] := by
    rw [alike.chunkOf_of_notMem scaled repeated placed out, lines]
    rfl
  refine .extent wide rfl accessor code (fun k _ => ?_)
    (alike.line_first scaled repeated placed line) ?_
  · rw [alike.replicaAt_of_uniform scaled placed uniform, renamed]
  · exact alike.line_new scaled repeated placed
      (l := (⟨n⟩, .binary .mul (.inst i) (.ofNat c.factor), ty)) (by simp [lines, extentLines])

/-- Each thread computes its own value. -/
theorem piece_of_repeatable (mem : i ∈ f.repeatable found.divergence)
    (line : f.line i = some (op, ty)) :
    g.Piece c (chunkOf news copies) (replicaAt map (f.repeatable found.divergence) copies rename)
      i op ty := by
  obtain ⟨divergent, other, op', ty', line', plain⟩ := alike.mem_repeatable.mp mem
  obtain ⟨rfl, rfl⟩ : op = op' ∧ ty = ty' := by simpa [show f.line i = _ from line'] using line.symm
  have placed := (alike.reason i divergent).1
  obtain ⟨-, renamed⟩ := alike.rename_of_repeatable scaled mem
  refine .repeated plain ?_ (alike.chunkOf_of_repeatable scaled repeated mem) fun k hk => ?_
  · -- a call would be a read
    cases op with
    | call callee args =>
      obtain ⟨inst, slot, home, hop, -⟩ := mem_insts_of_line placed line
      obtain ⟨rfl, -⟩ := alike.calls inst slot home _ _ hop
      rcases (alike.reason i divergent).2 with read | ⟨op', ty', line'', reads⟩
      · exact absurd ((mem_all_reads alike.analyzed.grid).mpr ⟨_, read⟩) other
      · obtain ⟨rfl, -⟩ : .call callee [] = op' ∧ ty = ty' := by
          simpa [show f.outline.line i = _ from line] using line''
        simp [Operation.usedInsts, Operation.operands, Operation.address?] at reads
    | _ => rfl
  · cases k with
    | zero =>
      show g.line (rename i) = _
      rw [renamed]
      exact alike.line_first scaled repeated placed line
    | succ n =>
      have bound : n < (copies i).length := by
        rw [repeated.lengths i mem]
        omega
      have here : replicaAt map (f.repeatable found.divergence) copies rename (n + 1) i =
          (copies i)[n] := by
        simp [replicaAt, Replication.replicaOf, renamed, mem, bound]
      rw [here, repeated.copy i n _ (List.getElem?_eq_getElem bound), scaled.expands.line i placed,
        line]
      simp only [Option.map_some, Operation.mapOperands_mapOperands, Value.mapInst_mapInst]
      rfl

/-- Only divergent instructions and reads of the launch become several. -/
theorem divergent_or_read_of_chunk (placed : (f.blockOf i).isSome)
    (several : chunkOf news copies i ≠ [i]) :
    i ∈ found.divergence.set ∨ i ∈ found.grid.all := by
  by_contra neither
  obtain ⟨uniform, unread⟩ := not_or.mp neither
  have out : i ∉ f.repeatable found.divergence := fun mem => uniform (alike.mem_repeatable.mp mem).1
  have idle := scaled.idle i
    (fun read => unread ((mem_all_reads alike.analyzed.grid).mpr ⟨_, List.mem_reverse.mp read⟩))
    fun read => unread ((mem_all_reads alike.analyzed.grid).mpr ⟨_, List.mem_reverse.mp read⟩)
  refine several ?_
  rw [alike.chunkOf_of_notMem scaled repeated placed out, idle.1]
  rfl

/-- What coarsening makes is a merged function. -/
theorem merges : f.Merges g c (chunkOf news copies)
    (replicaAt map (f.repeatable found.divergence) copies rename) where
  formed := alike.formed
  factor := alike.factor
  stride := alike.stride
  consistent := repeated.consistent
  params := repeated.params.trans scaled.expands.params
  layout := repeated.layout.trans scaled.expands.layout
  code b := by
    rw [repeated.code, scaled.expands.code, List.flatMap_assoc]
    rfl
  piece i op ty placed line := by
    by_cases identity : i ∈ found.grid.identities c.level c.dim
    · exact alike.piece_of_identity scaled repeated identity line
    by_cases extent : i ∈ found.grid.extents c.level c.dim
    · exact alike.piece_of_extent scaled repeated extent line
    by_cases repeats : i ∈ f.repeatable found.divergence
    · exact alike.piece_of_repeatable scaled repeated repeats line
    obtain ⟨none, renamed⟩ := scaled.idle i (by simpa using extent) (by simpa using identity)
    have code : chunkOf news copies i = [i] := by
      rw [alike.chunkOf_of_notMem scaled repeated placed repeats, none]
      rfl
    have line' := alike.line_first scaled repeated placed line
    by_cases divergent : i ∈ found.divergence.set
    · -- all threads return where the one thread does, and what they return is not looked at
      obtain ⟨v, rfl⟩ := ((alike.divergent_cases divergent line).resolve_left identity).resolve_left
        repeats
      have unknown := scaled.get?_eq_none placed (by simpa using identity)
      refine .ended rfl code (fun k _ => ?_) line'
      rw [replicaAt_of_none (by rwa [renamed]) (by rwa [renamed]), renamed]
    · -- what is not divergent reads nothing divergent, so each thread would compute the same
      have register : ∀ r, i ∉ found.grid.along r c.dim → op.register? ≠ some (r, c.dim) :=
        fun r other same => other (alike.mem_along_iff.mpr ⟨placed, op, ty, line, same⟩)
      refine .kept code (fun k _ => ?_) (register _ identity) (register _ extent)
        (fun j used k _ => ?_) line'
      · rw [alike.replicaAt_of_uniform scaled placed divergent, renamed]
      · have placedJ := alike.formed.operands i op ty placed line j used
        obtain ⟨b, hb⟩ := Option.isSome_iff_exists.mp placed
        have uniform : j ∉ found.divergence.set := fun mem => divergent
          (alike.analyzed.reader_mem alike.consistent mem hb (operation_eq_ok_iff.mpr ⟨ty, line⟩) used)
        rw [alike.replicaAt_of_uniform scaled placedJ uniform,
          alike.replicaAt_of_uniform scaled placedJ uniform]

end

end Alike

/-! ### Coarsening -/

section

variable {f : Func} {shared : List GlobalId} {c : CoarseningParams} {found : DivergentFunc}

/-- The loops have trip counts, known or not, unless one is computed with a quotient that has no
word. -/
theorem Alike.loopsCounted_iff {ops : List (InstId × Operation)}
    {accesses : List (InstId × GlobalId)} (alike : f.Alike c found ops accesses) :
    f.LoopsCounted found.flow ↔ f.RoundsFit found.flow := by
  rw [Func.loopsCounted_iff, and_iff_right]
  exact countersKnown_of_defined alike.consistent (defined_of_formed alike.formed)
    alike.analyzed.flow

/-- Coarsening succeeds where costs can be estimated if they are asked for, and what it makes is a
merged function in which only divergent instructions and reads of the launch have become several. -/
theorem Alike.exists_coarsen {ops : List (InstId × Operation)} {accesses : List (InstId × GlobalId)}
    (alike : f.Alike c found ops accesses) (flawless : f.firstFlaw? = .ok none)
    (analyzed : f.analyze (.only c.dim) shared c.level c.dim = .ok (.ok found))
    {costs : Option CostTable} (fit : costs.isSome → f.RoundsFit found.flow) :
    ∃ made chunk replica, f.coarsen shared c costs = .ok (.ok made) ∧
      f.Merges made.func c chunk replica ∧
      ∀ i, (f.blockOf i).isSome → chunk i ≠ [i] →
        i ∈ found.divergence.set ∨ i ∈ found.grid.all := by
  obtain ⟨-, -, -, same, -⟩ := analyzed_with analyzed
  have valid : c.error? = none :=
    CoarseningParams.error?_eq_none_iff.mpr ⟨alike.factor, alike.stride⟩
  obtain ⟨report, reported⟩ : ∃ report, (costs.mapM fun table =>
      f.costReport table found.flow found.grid found.divergence c.factor c.stride) = .ok report := by
    cases costs with
    | none => exact ⟨none, rfl⟩
    | some table =>
      have reports : Answers (f.costReport table found.flow found.grid found.divergence c.factor
          c.stride) := (answers_costReport_iff alike.consistent alike.analyzed.flow).mpr
        (alike.loopsCounted_iff.mpr (fit rfl))
      obtain ⟨report, reported⟩ := reports
      exact ⟨some report, by simp [reported]⟩
  obtain ⟨h, map, news, rename, scaling, scaled⟩ := exists_scaleGrid alike.consistent found.grid c
    valid (nodup_reads alike.consistent alike.analyzed.grid)
    (fun i read => by
      obtain ⟨r, read⟩ := (mem_all_reads alike.analyzed.grid).mp read
      exact (alike.mem_along_iff.mp read).1)
    (fun i read => by
      obtain ⟨r, read⟩ := (mem_all_reads alike.analyzed.grid).mp read
      obtain ⟨-, op, ty, line, -⟩ := alike.mem_along_iff.mp read
      obtain ⟨-, callee, rfl, -⟩ := alike.call_of_read read line
      exact ⟨_, ty, line, rfl⟩)
  have task := alike.task scaled
  obtain ⟨s, s', copies, replicated, resolved, repeated⟩ := Replication.exists_repeated task c.factor
    rfl alike.outermostRegions (alike.analyzed.nodup_outermostInstructions alike.consistent)
    (fun i hi => (List.mem_filter.mp hi).1) fun i hi => alike.repeatable_or_terminator scaled hi
  have merges := alike.merges scaled repeated
  obtain ⟨hg, -⟩ := flow_eq_ok alike.analyzed.flow
  have sound := merges.flawless hg flawless
  refine ⟨⟨s'.func, report, s'.stats⟩, _, _, ?_, merges,
    fun i placed several => alike.divergent_or_read_of_chunk scaled repeated placed several⟩
  simp only [coarsen, valid, normalize_of_regions alike.regions analyzed, same, reported, scaling,
    replicated, resolved, sound, bind, Except.bind, pure, Except.pure]

/-- Where coarsening succeeds, costs could be estimated if they were asked for. -/
theorem Alike.roundsFit_of_coarsen {ops : List (InstId × Operation)}
    {accesses : List (InstId × GlobalId)} (alike : f.Alike c found ops accesses)
    (analyzed : f.analyze (.only c.dim) shared c.level c.dim = .ok (.ok found))
    {costs : Option CostTable} {made : CoarsenedKernel}
    (h : f.coarsen shared c costs = .ok (.ok made)) (asked : costs.isSome) :
    f.RoundsFit found.flow := by
  obtain ⟨table, rfl⟩ := Option.isSome_iff_exists.mp asked
  obtain ⟨-, -, -, same, -⟩ := analyzed_with analyzed
  have valid : c.error? = none :=
    CoarseningParams.error?_eq_none_iff.mpr ⟨alike.factor, alike.stride⟩
  simp only [coarsen, valid, normalize_of_regions alike.regions analyzed, bind, Except.bind] at h
  have h := bind_eq_ok_iff.mp h
  obtain ⟨report, reported, -⟩ := h
  obtain ⟨report, reported, -⟩ := map_eq_ok_iff.mp reported
  rw [← alike.loopsCounted_iff, ← answers_costReport_iff alike.consistent alike.analyzed.flow]
  exact ⟨report, same ▸ reported⟩

/-- Coarsening succeeds exactly where costs can be estimated if they are asked for, and what it makes
is a merged function in which only divergent instructions and reads of the launch have become
several. -/
theorem Alike.coarsen_merges {ops : List (InstId × Operation)}
    {accesses : List (InstId × GlobalId)} (alike : f.Alike c found ops accesses)
    (flawless : f.firstFlaw? = .ok none)
    (analyzed : f.analyze (.only c.dim) shared c.level c.dim = .ok (.ok found))
    (costs : Option CostTable) :
    ((∃ made, f.coarsen shared c costs = .ok (.ok made)) ↔
        (costs.isSome → f.RoundsFit found.flow)) ∧
      ∀ made, f.coarsen shared c costs = .ok (.ok made) → ∃ chunk replica,
        f.Merges made.func c chunk replica ∧ ∀ i, (f.blockOf i).isSome → chunk i ≠ [i] →
          i ∈ found.divergence.set ∨ i ∈ found.grid.all := by
  refine ⟨⟨fun ⟨made, coarsened⟩ => alike.roundsFit_of_coarsen analyzed coarsened, fun fit => ?_⟩,
    fun made coarsened => ?_⟩
  · obtain ⟨made, -, -, coarsened, -⟩ := alike.exists_coarsen flawless analyzed fit
    exact ⟨made, coarsened⟩
  · obtain ⟨made', chunk, replica, coarsened', merges⟩ := alike.exists_coarsen flawless analyzed
      (alike.roundsFit_of_coarsen analyzed coarsened)
    obtain rfl := Except.ok.inj (Except.ok.inj (coarsened'.symm.trans coarsened))
    exact ⟨chunk, replica, merges⟩

/-- A well-formed kernel without divergent branches in which all blocks can be reached, no operand
names a terminator and calls only read the place in the launch. -/
theorem exists_alike (consistent : f.Consistent) (flawless : f.firstFlaw? = .ok none)
    (values : f.ReadsValues) (calls : f.CallsRead c.dim) (factor : 2 ≤ c.factor)
    (stride : 1 ≤ c.stride)
    (analyzed : f.analyze (.only c.dim) shared c.level c.dim = .ok (.ok found))
    (reached : ∀ b ∈ f.layout, found.flow.graph.Reaches f.entry.index b.index)
    (branches : found.divergence.branches = []) :
    ∃ ops accesses, f.Alike c found ops accesses := by
  obtain ⟨ops, accesses, analysis, -, looked⟩ := analyzed_with analyzed
  exact ⟨ops, accesses,
    { consistent, analyzed := analysis, reached, branches, values, calls, factor, stride
      accesses := fun p hp => mem_accessesAt consistent looked hp
      formed := formed_of_flawless consistent flawless }⟩

/-- Coarsening succeeds for a well-formed kernel without divergent branches in which all blocks can
be reached, no operand names a terminator and calls only read the place in the launch; if costs are
asked for, exactly if no trip count is computed with a quotient that has no word.  If the logical
threads end on a memory, and what one writes the others do not access, then what coarsening makes
leaves with one thread the memory that they leave one after the other. -/
theorem coarsen_of_uniform_branches (consistent : f.Consistent) (flawless : f.firstFlaw? = .ok none)
    (values : f.ReadsValues) (calls : f.CallsRead c.dim) (factor : 2 ≤ c.factor)
    (stride : 1 ≤ c.stride)
    (analyzed : f.analyze (.only c.dim) shared c.level c.dim = .ok (.ok found))
    (reached : ∀ b ∈ f.layout, found.flow.graph.Reaches f.entry.index b.index)
    (branches : found.divergence.branches = []) (costs : Option CostTable) :
    ((∃ made, f.coarsen shared c costs = .ok (.ok made)) ↔
        (costs.isSome → f.RoundsFit found.flow)) ∧
      ∀ made, f.coarsen shared c costs = .ok (.ok made) → ∀ one m,
        (∀ k < c.factor, c.identityOf (one.position.read c.level.identity c.dim) k < 2 ^ 32) →
        f.AllApart c one m → (∀ k < c.factor, ∃ μ, f.Runs (c.thread one k) m μ) →
          ∃ m', f.RunsAll ((List.range c.factor).map (c.thread one)) m m' ∧
            made.func.Runs one m m' := by
  obtain ⟨ops, accesses, alike⟩ := exists_alike consistent flawless values calls factor stride
    analyzed reached branches
  obtain ⟨succeeds, merges⟩ := alike.coarsen_merges flawless analyzed costs
  refine ⟨succeeds, fun made coarsened one m small apart alone => ?_⟩
  obtain ⟨chunk, replica, merges, -⟩ := merges made coarsened
  obtain ⟨m', all, -⟩ := exists_runsAll (pairwise_apart apart) (fun t ht => by
    obtain ⟨k, hk, rfl⟩ := List.mem_map.mp ht
    exact alone k (List.mem_range.mp hk)) rfl fun _ _ _ _ => rfl
  exact ⟨m', all, merges.keeps apart small all⟩

end

end Func

/-! ### A sum around a loop -/

/-- Threads add the extent of their block to their identity, as often as the kernel is told, and
store the sum to their own word. -/
def tally : Func := .assemble "tally" [⟨"out", .ptr .global⟩, ⟨"n", .i32⟩] [
  ("entry", [
    ⟨.call "llvm.nvvm.read.ptx.sreg.tid.x" [], .i32, "t"⟩,
    ⟨.call "llvm.nvvm.read.ptx.sreg.ntid.x" [], .i32, "e"⟩,
    ⟨.jump ⟨1⟩, .void, ""⟩]),
  ("loop", [
    ⟨.phi [(.const 0, ⟨0⟩), (.inst ⟨6⟩, ⟨1⟩)], .i32, "i"⟩,
    ⟨.phi [(.inst ⟨0⟩, ⟨0⟩), (.inst ⟨5⟩, ⟨1⟩)], .i32, "s"⟩,
    ⟨.binary .add (.inst ⟨4⟩) (.inst ⟨1⟩), .i32, "u"⟩,
    ⟨.binary .add (.inst ⟨3⟩) (.const 1), .i32, "j"⟩,
    ⟨.compare .slt (.inst ⟨6⟩) (.arg 1), .i1, "c"⟩,
    ⟨.branch (.inst ⟨7⟩) ⟨1⟩ ⟨2⟩, .void, ""⟩]),
  ("exit", [
    ⟨.element (.arg 0) (.inst ⟨0⟩), .ptr .global, "p"⟩,
    ⟨.store (.inst ⟨9⟩) (.inst ⟨5⟩), .void, ""⟩,
    ⟨.ret none, .void, ""⟩])]

/-- What the analysis finds in the kernel: the sum is divergent, the test of the loop is not. -/
def tallyFound : DivergentFunc where
  func := tally
  flow :=
    { graph := ⟨#[[1], [1, 2], []], by decide⟩
      dom := ⟨#[some 0, some 0, some 1]⟩
      pdom := ⟨#[some 1, some 2, some 3, some 3], 3⟩
      loops := ⟨[⟨⟨1⟩, [⟨1⟩], [⟨1⟩], none, 1⟩]⟩ }
  grid := ⟨[(⟨0⟩, .threadId, .x), (⟨1⟩, .blockExtent, .x)], []⟩
  divergence :=
    { level := .thread
      dim := .x
      set := [⟨9⟩, ⟨10⟩, ⟨5⟩, ⟨4⟩, ⟨0⟩]
      placed := [(⟨0⟩, ⟨0⟩), (⟨4⟩, ⟨1⟩), (⟨5⟩, ⟨1⟩), (⟨9⟩, ⟨2⟩), (⟨10⟩, ⟨2⟩)]
      branches := []
      regions := []
      reads := [⟨0⟩, ⟨1⟩] }

theorem analyze_tally : tally.analyze (.only .x) [] .thread .x = .ok (.ok tallyFound) :=
  Func.analyze_eq_ok_iff.mpr ⟨by cbv, by rfl, by cbv, rfl⟩

theorem reaches_tally : ∀ b ∈ tally.layout,
    tallyFound.flow.graph.Reaches tally.entry.index b.index := by
  intro b hb
  have dom : tally.dominators tallyFound.flow.graph = tallyFound.flow.dom := by cbv
  rw [← Func.isReachable_dominators (by decide) (by decide), dom]
  exact (by decide : ∀ b ∈ tally.layout, tallyFound.flow.dom.isReachable b) b hb

/-- The thread of the coarsened kernel, which is told to go around twice. -/
def tallyThread : Surroundings where
  position := onlyThread
  args := [.address ⟨0, 0⟩, .number 2]
  globals := []

/-- The two logical threads access a word each. -/
theorem allApart_tally : tally.AllApart ⟨.thread, .x, 2, 1⟩ tallyThread ⟨[[0, 0]]⟩ := by
  have first : ∀ a, tally.Accesses (CoarseningParams.thread ⟨.thread, .x, 2, 1⟩ tallyThread 0)
      ⟨[[0, 0]]⟩ a → a = ⟨0, 0⟩ := by
    intro a h
    exact List.mem_singleton.mp (Func.mem_accessed 24 (by rfl) h)
  have second : ∀ a, tally.Accesses (CoarseningParams.thread ⟨.thread, .x, 2, 1⟩ tallyThread 1)
      ⟨[[0, 0]]⟩ a → a = ⟨0, 1⟩ := by
    intro a h
    exact List.mem_singleton.mp (Func.mem_accessed 24 (by rfl) h)
  intro j hj k hk other w writes accesses
  obtain ⟨a, ha, cell⟩ := writes.accessesAt
  obtain ⟨a', ha', cell'⟩ := accesses
  obtain ⟨rfl, rfl⟩ | ⟨rfl, rfl⟩ : j = 0 ∧ k = 1 ∨ j = 1 ∧ k = 0 := by
    have : j < 2 := hj
    have : k < 2 := hk
    omega
  · rw [first a ha] at cell
    rw [second a' ha'] at cell'
    exact absurd (cell.trans cell'.symm) (by decide)
  · rw [second a ha] at cell
    rw [first a' ha'] at cell'
    exact absurd (cell.trans cell'.symm) (by decide)

/-- The two logical threads store 4 and 5, and so does the one thread of the coarsened kernel. -/
theorem coarsen_tally :
    ∃ made, tally.coarsen [] ⟨.thread, .x, 2, 1⟩ none = .ok (.ok made) ∧
      made.func.Runs tallyThread ⟨[[0, 0]]⟩ ⟨[[4, 5]]⟩ := by
  have first : tally.Runs (CoarseningParams.thread ⟨.thread, .x, 2, 1⟩ tallyThread 0)
      ⟨[[0, 0]]⟩ ⟨[[4, 0]]⟩ := Func.finishes_iff_run.mpr ⟨24, by rfl⟩
  have second : tally.Runs (CoarseningParams.thread ⟨.thread, .x, 2, 1⟩ tallyThread 1)
      ⟨[[0, 0]]⟩ ⟨[[0, 5]]⟩ := Func.finishes_iff_run.mpr ⟨24, by rfl⟩
  obtain ⟨succeeds, keeps⟩ := Func.coarsen_of_uniform_branches
    (f := tally) (c := ⟨.thread, .x, 2, 1⟩) (Func.consistent_assemble ..) (by cbv) (by decide)
    (by decide) (by decide) (by decide) analyze_tally reaches_tally rfl none
  obtain ⟨made, coarsened⟩ := succeeds.mpr (by simp)
  obtain ⟨m', all, runs⟩ := keeps made coarsened tallyThread ⟨[[0, 0]]⟩ (by decide)
      allApart_tally fun k hk => by
    obtain rfl | rfl : k = 0 ∨ k = 1 := by
      have : k < 2 := hk
      omega
    · exact ⟨_, first⟩
    · exact ⟨_, second⟩
  have threads : tally.RunsAll ((List.range 2).map
      (CoarseningParams.thread ⟨.thread, .x, 2, 1⟩ tallyThread)) ⟨[[0, 0]]⟩ ⟨[[4, 5]]⟩ :=
    .one first (.one (Func.finishes_iff_run.mpr ⟨24, by rfl⟩) (.none _))
  exact ⟨made, coarsened, all.unique threads ▸ runs⟩

end KernelCoarsening
