/-
One thread that does what several threads do.

A merged function executes for each instruction of a function a chunk of instructions: the
instruction itself if all threads compute the same, one replica for each thread if they do not,
and what it takes to know the place of each thread in the launch.  If the threads take the same
ways and do not write where others read or write, then one thread of the merged function leaves
the memory that they leave.

* `Func.Piece` — what becomes of an instruction;
* `Func.Merges` — a function whose chunks are pieces of another;
* `Func.Merges.step` — one step of all threads, and a chunk of the merged function;
* `Func.Merges.keeps` — the merged function leaves the memory that the threads leave.
-/
import KernelCoarsening.Proofs.Coarsening.Chains
import KernelCoarsening.Proofs.Execution.Footprint
import KernelCoarsening.Proofs.Ir.Insertion

namespace KernelCoarsening

namespace Func

/-- What becomes of an instruction in a merged function: the instructions of its chunk, of which
`replica k` has the value that the instruction has for thread `k`. -/
inductive Piece (g : Func) (c : CoarseningParams) (chunk : InstId → List InstId)
    (replica : Nat → InstId → InstId) (i : InstId) (op : Operation) (ty : Ty) : Prop where
  /-- All threads compute the same. -/
  | kept (code : chunk i = [i]) (same : ∀ k < c.factor, replica k i = i)
      (identity : op.register? ≠ some (c.level.identity, c.dim))
      (extent : op.register? ≠ some (c.level.extent, c.dim))
      (operands : ∀ j ∈ op.usedInsts, ∀ k < c.factor, replica k j = replica 0 j)
      (line : g.line i = some (op.mapOperands (·.mapInst (replica 0)), ty))
  /-- All threads return; what they return does not matter. -/
  | ended {v : Option Value} (ret : op = .ret v) (code : chunk i = [i])
      (same : ∀ k < c.factor, replica k i = i)
      (line : g.line i = some (op.mapOperands (·.mapInst (replica 0)), ty))
  /-- Each thread computes its own value. -/
  | repeated (plain : op.isTerminator = false) (noRead : op.callee? = none)
      (code : chunk i = (List.range c.factor).map (replica · i))
      (line : ∀ k < c.factor, g.line (replica k i) =
        some (op.mapOperands (·.mapInst (replica k)), ty))
  /-- All threads read the extent of the logical launch. -/
  | extent {callee : String} {scaled : InstId} (wide : ty.isWide) (read : op = .call callee [])
      (register : Register.ofAccessor? callee = some (c.level.extent, c.dim))
      (code : chunk i = [i, scaled]) (same : ∀ k < c.factor, replica k i = scaled)
      (line : g.line i = some (op, ty))
      (product : g.line scaled = some (.binary .mul (.inst i) (.ofNat c.factor), ty))
  /-- Each thread reads its own identity. -/
  | identity {callee : String} {div mul rem : InstId} (wide : ty.isWide)
      (read : op = .call callee [])
      (register : Register.ofAccessor? callee = some (c.level.identity, c.dim))
      (code : chunk i = i :: div :: mul :: rem :: (List.range c.factor).map (replica · i))
      (line : g.line i = some (op, ty))
      (quotient : g.line div = some (.binary .udiv (.inst i) (.ofNat c.stride), ty))
      (product : g.line mul = some (.binary .mul (.inst div)
        (.const (Int64.ofNat c.factor * Int64.ofNat c.stride)), ty))
      (remainder : g.line rem = some (.binary .urem (.inst i) (.ofNat c.stride), ty))
      (base : g.line (replica 0 i) = some (.binary .add (.inst mul) (.inst rem), ty))
      (sibling : ∀ k < c.factor, k ≠ 0 → g.line (replica k i) = some (.binary .add
        (.inst (replica 0 i)) (.const (Int64.ofNat k * Int64.ofNat c.stride)), ty))

/-- A function that is made of pieces of another. -/
structure Merges (f g : Func) (c : CoarseningParams) (chunk : InstId → List InstId)
    (replica : Nat → InstId → InstId) : Prop where
  formed : f.outline.Formed
  factor : 2 ≤ c.factor
  stride : 0 < c.stride
  consistent : g.Consistent
  params : g.params = f.params
  layout : g.layout = f.layout
  code : ∀ b, g.code b = (f.code b).flatMap chunk
  piece : ∀ i op ty, (f.blockOf i).isSome → f.line i = some (op, ty) →
    g.Piece c chunk replica i op ty

variable {f g : Func} {c : CoarseningParams} {chunk : InstId → List InstId}
  {replica : Nat → InstId → InstId}

namespace Piece

variable {i : InstId} {op : Operation} {ty : Ty} {k : Nat}

theorem replica_mem (piece : g.Piece c chunk replica i op ty) (hk : k < c.factor) :
    replica k i ∈ chunk i := by
  cases piece with
  | kept code same => simp [code, same k hk]
  | ended _ code same => simp [code, same k hk]
  | repeated _ _ code => exact code ▸ List.mem_map.mpr ⟨k, List.mem_range.mpr hk, rfl⟩
  | extent _ _ _ code same => simp [code, same k hk]
  | identity _ _ _ code =>
    rw [code]
    simp only [List.mem_cons, List.mem_map, List.mem_range]
    exact .inr (.inr (.inr (.inr ⟨k, hk, rfl⟩)))

/-- The replicas have the type of the instruction. -/
theorem type (piece : g.Piece c chunk replica i op ty) (hk : k < c.factor) :
    (g.line (replica k i)).map (·.2) = some ty := by
  cases piece with
  | kept _ same _ _ _ line => rw [same k hk, line]; rfl
  | ended _ _ same line => rw [same k hk, line]; rfl
  | repeated _ _ _ line => rw [line k hk]; rfl
  | extent _ _ _ _ same _ product => rw [same k hk, product]; rfl
  | identity _ _ _ _ _ _ _ _ base sibling =>
    by_cases zero : k = 0
    · rw [zero, base]; rfl
    · rw [sibling k hk zero]; rfl

/-- The lines of a chunk: the line of the instruction, which reads replicas, or arithmetic that
reads what stands before it in the chunk. -/
theorem line_of_split (piece : g.Piece c chunk replica i op ty) (factor : 0 < c.factor) {x : InstId}
    {before after : List InstId} (split : chunk i = before ++ x :: after) :
    (∃ k < c.factor, g.line x = some (op.mapOperands (·.mapInst (replica k)), ty)) ∨
      op.isPhi = false ∧ op.isTerminator = false ∧ ∃ op', g.line x = some (op', ty) ∧
        op'.isPhi = false ∧ op'.isTerminator = false ∧ ∀ j ∈ op'.usedInsts, j ∈ before := by
  have hx : x ∈ chunk i := by simp [split]
  cases piece with
  | kept code _ _ _ _ line =>
    obtain rfl : x = i := by simpa [code] using hx
    exact .inl ⟨0, factor, line⟩
  | ended _ code _ line =>
    obtain rfl : x = i := by simpa [code] using hx
    exact .inl ⟨0, factor, line⟩
  | repeated _ _ code line =>
    obtain ⟨k, hk, rfl⟩ : ∃ k < c.factor, replica k i = x := by simpa [code] using hx
    exact .inl ⟨k, hk, line k hk⟩
  | extent _ read _ code _ line product =>
    subst read
    refine .inr ⟨rfl, rfl, ?_⟩
    rw [code] at split
    rcases before with _ | ⟨_, rest⟩
    · obtain ⟨rfl, -⟩ := List.cons.inj split
      exact ⟨_, line, rfl, rfl, by simp [Operation.usedInsts, Operation.operands]⟩
    · obtain ⟨rfl, rfl, rfl, rfl⟩ : i = _ ∧ rest = [] ∧ x = _ ∧ after = [] := by
        simpa [List.singleton_eq_append_iff] using split
      exact ⟨_, product, rfl, rfl,
        by simp [Operation.usedInsts, Operation.operands, Value.inst?, Value.ofNat]⟩
  | identity _ read _ code line quotient product remainder base sibling =>
    subst read
    refine .inr ⟨rfl, rfl, ?_⟩
    rw [code] at split
    rcases before with _ | ⟨_, _ | ⟨_, _ | ⟨_, _ | ⟨_, rest⟩⟩⟩⟩
    · obtain ⟨rfl, -⟩ := List.cons.inj split
      exact ⟨_, line, rfl, rfl, by simp [Operation.usedInsts, Operation.operands]⟩
    · obtain ⟨rfl, rfl, -⟩ : _ ∧ _ ∧ _ := by simpa using split
      exact ⟨_, quotient, rfl, rfl,
        by simp [Operation.usedInsts, Operation.operands, Value.inst?, Value.ofNat]⟩
    · obtain ⟨rfl, rfl, rfl, -⟩ : _ ∧ _ ∧ _ ∧ _ := by simpa using split
      exact ⟨_, product, rfl, rfl,
        by simp [Operation.usedInsts, Operation.operands, Value.inst?]⟩
    · obtain ⟨rfl, rfl, rfl, rfl, -⟩ : _ ∧ _ ∧ _ ∧ _ ∧ _ := by simpa using split
      exact ⟨_, remainder, rfl, rfl,
        by simp [Operation.usedInsts, Operation.operands, Value.inst?, Value.ofNat]⟩
    · obtain ⟨rfl, rfl, rfl, rfl, others⟩ : _ ∧ _ ∧ _ ∧ _ ∧ _ := by simpa using split
      obtain ⟨front, back, range, rfl, last⟩ := List.map_eq_append_iff.mp others
      obtain ⟨k, back, rfl, rfl, -⟩ := List.map_eq_cons_iff.mp last
      have hk : k < c.factor := List.mem_range.mp (by simp [range])
      by_cases zero : k = 0
      · subst zero
        exact ⟨_, base, rfl, rfl,
          by simp [Operation.usedInsts, Operation.operands, Value.inst?]⟩
      · have first : 0 ∈ front := by
          cases front with
          | nil =>
            have : k = 0 := by
              simpa [List.head?_range, factor.ne'] using congrArg List.head? range.symm
            exact absurd this zero
          | cons a front =>
            obtain rfl : 0 = a := by
              simpa [List.head?_range, factor.ne'] using congrArg List.head? range
            simp
        refine ⟨_, sibling k hk zero, rfl, rfl, fun j hj => ?_⟩
        obtain rfl : j = replica 0 i := by
          simpa [Operation.usedInsts, Operation.operands, Value.inst?] using hj
        iterate 4 refine List.mem_cons_of_mem _ ?_
        exact List.mem_map_of_mem first

theorem line_of_mem (piece : g.Piece c chunk replica i op ty) (factor : 0 < c.factor) {x : InstId}
    (hx : x ∈ chunk i) :
    (∃ k < c.factor, g.line x = some (op.mapOperands (·.mapInst (replica k)), ty)) ∨
      op.isPhi = false ∧ op.isTerminator = false ∧ ∃ op', g.line x = some (op', ty) ∧
        op'.isPhi = false ∧ op'.isTerminator = false ∧ ∀ j ∈ op'.usedInsts, j ∈ chunk i := by
  obtain ⟨before, after, split⟩ := List.append_of_mem hx
  refine (piece.line_of_split factor split).imp_right fun h => ?_
  obtain ⟨phi, term, op', line, phi', term', own⟩ := h
  exact ⟨phi, term, op', line, phi', term', fun j hj => by simp [split, own j hj]⟩

/-- The instructions of a chunk are of the kind of the instruction. -/
theorem does (piece : g.Piece c chunk replica i op ty) (factor : 0 < c.factor) {x : InstId}
    (hx : x ∈ chunk i) :
    g.outline.Does x fun op' =>
      op'.isPhi = op.isPhi ∧ op'.isTerminator = op.isTerminator := by
  rcases piece.line_of_mem factor hx with ⟨k, -, line⟩ | ⟨phi, term, op', line, phi', term', -⟩
  · exact ⟨_, _, line, by simp⟩
  · exact ⟨op', ty, line, by rw [phi, phi'], by rw [term, term']⟩

/-- A terminator is a chunk of its own. -/
theorem chunk_of_terminator (piece : g.Piece c chunk replica i op ty)
    (term : op.isTerminator = true) : chunk i = [i] := by
  cases piece with
  | kept code => exact code
  | ended _ code => exact code
  | repeated plain => simp [plain] at term
  | extent _ read => simp [read, Operation.isTerminator] at term
  | identity _ read => simp [read, Operation.isTerminator] at term

/-- The replicas of a phi are phis that read replicas. -/
theorem line_of_phi (piece : g.Piece c chunk replica i op ty) (phi : op.isPhi = true)
    (hk : k < c.factor) :
    g.line (replica k i) = some (op.mapOperands (·.mapInst (replica k)), ty) := by
  cases piece with
  | kept _ same _ _ operands line =>
    rw [same k hk, line, Operation.mapInst_congr fun j hj => operands j hj k hk]
  | ended ret => simp [ret, Operation.isPhi] at phi
  | repeated _ _ _ line => exact line k hk
  | extent _ read => simp [read, Operation.isPhi] at phi
  | identity _ read => simp [read, Operation.isPhi] at phi

theorem exists_replica_of_phi (piece : g.Piece c chunk replica i op ty) (phi : op.isPhi = true)
    (factor : 0 < c.factor) {x : InstId} (hx : x ∈ chunk i) : ∃ k < c.factor, x = replica k i := by
  cases piece with
  | kept code same => exact ⟨0, factor, by simpa [same 0 factor, code] using hx⟩
  | ended ret => simp [ret, Operation.isPhi] at phi
  | repeated _ _ code =>
    obtain ⟨k, hk, rfl⟩ : ∃ k < c.factor, replica k i = x := by simpa [code] using hx
    exact ⟨k, hk, rfl⟩
  | extent _ read => simp [read, Operation.isPhi] at phi
  | identity _ read => simp [read, Operation.isPhi] at phi

end Piece

namespace Merges

variable {b : BlockId} {i j x : InstId} {op : Operation} {ty : Ty} {k : Nat}

theorem positive (merges : f.Merges g c chunk replica) : 0 < c.factor :=
  Nat.lt_of_lt_of_le Nat.two_pos merges.factor

theorem entry_eq (merges : f.Merges g c chunk replica) : g.entry = f.entry := by
  simp [Func.entry, merges.layout]

theorem consistent_left (merges : f.Merges g c chunk replica) : f.Consistent :=
  consistent_iff.mpr merges.formed.consistent

theorem placed (merges : f.Merges g c chunk replica) (hi : i ∈ f.code b) :
    (f.blockOf i).isSome :=
  Option.isSome_of_eq_some (merges.consistent_left.mem_code.mp hi)

/-- Every placed instruction has a piece. -/
theorem exists_piece (merges : f.Merges g c chunk replica) (placed : (f.blockOf i).isSome) :
    ∃ op ty, f.line i = some (op, ty) ∧ g.Piece c chunk replica i op ty := by
  obtain ⟨op, ty, line⟩ := exists_line placed
  exact ⟨op, ty, line, merges.piece i op ty placed line⟩

/-- The code consists of chunks. -/
theorem chunks (merges : f.Merges g c chunk replica) (b : BlockId) :
    (g.code b).filter (fun _ => true) = (f.code b).flatMap chunk := by
  rw [List.filter_true, merges.code]

/-- An instruction belongs to the chunk of one instruction only. -/
theorem eq_of_mem_chunk (merges : f.Merges g c chunk replica) (hi : (f.blockOf i).isSome)
    (hj : (f.blockOf j).isSome) (hx : x ∈ chunk i) (hx' : x ∈ chunk j) : i = j :=
  Func.eq_of_mem_chunk merges.consistent_left merges.consistent merges.chunks hi hj hx hx'

theorem nodup_chunk (merges : f.Merges g c chunk replica) (placed : (f.blockOf i).isSome) :
    (chunk i).Nodup :=
  Func.nodup_chunk merges.consistent_left merges.consistent merges.chunks placed

theorem replica_mem (merges : f.Merges g c chunk replica) (placed : (f.blockOf i).isSome)
    (hk : k < c.factor) : replica k i ∈ chunk i := by
  obtain ⟨op, ty, -, piece⟩ := merges.exists_piece placed
  exact piece.replica_mem hk

/-- Replicas of other instructions do not belong to a chunk. -/
theorem replica_notMem (merges : f.Merges g c chunk replica) (hi : (f.blockOf i).isSome)
    (hj : (f.blockOf j).isSome) (other : j ≠ i) (hk : k < c.factor) : replica k j ∉ chunk i :=
  fun mem => other (merges.eq_of_mem_chunk hj hi (merges.replica_mem hj hk) mem)

/-- The blocks of the merged function are in shape. -/
theorem shape (merges : f.Merges g c chunk replica) {phis body : List InstId} {last : InstId}
    (shape : f.outline.Shape b phis body last) :
    g.outline.Shape b (phis.flatMap chunk) (body.flatMap chunk) last := by
  have code : f.code b = phis ++ (body ++ [last]) := shape.code
  have kind : ∀ i ∈ f.code b, ∀ {P : Operation → Prop}, f.outline.Does i P →
      ∃ op ty, P op ∧ g.Piece c chunk replica i op ty := by
    rintro i hi P ⟨op, ty, line, hP⟩
    exact ⟨op, ty, hP, merges.piece i op ty (merges.placed hi) line⟩
  have factor := merges.positive
  obtain ⟨op, ty, term, piece⟩ := kind last (by simp [code]) shape.last
  have alone := piece.chunk_of_terminator term
  refine ⟨?_, fun x hx => ?_, fun x hx => ?_, ?_⟩
  · show g.code b = _
    simp [merges.code, code, alone]
  · obtain ⟨i, hi, hx⟩ := List.mem_flatMap.mp hx
    obtain ⟨op, ty, phi, piece⟩ := kind i (by simp [code, hi]) (shape.phis i hi)
    exact (piece.does factor hx).mono fun op' same => by rw [same.1, phi]
  · obtain ⟨i, hi, hx⟩ := List.mem_flatMap.mp hx
    obtain ⟨op, ty, plain, piece⟩ := kind i (by simp [code, hi]) (shape.body i hi)
    exact (piece.does factor hx).mono fun op' same => by rw [same.1, same.2]; exact plain
  · exact (piece.does factor (by simp [alone])).mono fun op' same => by rw [same.2, term]

end Merges

/-! ### The memory of several threads -/

/-- What one thread writes the others do not access. -/
def AllApart (f : Func) (c : CoarseningParams) (one : Surroundings) (m : Memory) : Prop :=
  ∀ j < c.factor, ∀ k < c.factor, j ≠ k → ∀ w, f.WritesAt (c.thread one j) m w →
    ¬ f.AccessesAt (c.thread one k) m w

/-- What one thread writes with an instruction of some kind the others do not access. -/
def ApartVia (f : Func) (P : InstId → Prop) (c : CoarseningParams) (one : Surroundings)
    (m : Memory) : Prop :=
  ∀ j < c.factor, ∀ k < c.factor, j ≠ k → ∀ w, f.WritesVia P (c.thread one j) m w →
    ¬ f.AccessesAt (c.thread one k) m w

theorem AllApart.via {f : Func} {c : CoarseningParams} {one : Surroundings} {m : Memory}
    (apart : f.AllApart c one m) (P : InstId → Prop) : f.ApartVia P c one m :=
  fun j hj k hk other w written => apart j hj k hk other w written.writesAt

/-- A memory in which all threads have stored: it agrees with that of each thread except where the
others write on their own. -/
structure Stored (f : Func) (P : InstId → Prop) (c : CoarseningParams) (one : Surroundings)
    (m : Memory) (memory : Nat → Memory) (μ : Memory) : Prop where
  shape : μ.shape = m.shape
  words : ∀ k < c.factor, ∀ w, (∀ j < c.factor, j ≠ k → ¬ f.WritesVia P (c.thread one j) m w) →
    μ.word w = (memory k).word w

namespace Stored

variable {P : InstId → Prop} {one : Surroundings} {m μ : Memory} {memory : Nat → Memory}
  {s : ThreadState} {i : InstId} {rest : List InstId} {op : Operation} {a : Address} {n : Int64} {k : Nat}

theorem congr {memory' : Nat → Memory} (stored : f.Stored P c one m memory μ)
    (same : ∀ k < c.factor, memory k = memory' k) : f.Stored P c one m memory' μ :=
  ⟨stored.shape, fun k hk w alone => same k hk ▸ stored.words k hk w alone⟩

/-- A thread that accesses a word finds its own. -/
theorem read_eq (stored : f.Stored P c one m memory μ) (apart : f.ApartVia P c one m)
    (hk : k < c.factor)
    (accessed : ∀ w, a.cell? = some w → f.AccessesAt (c.thread one k) m w) :
    μ.read a = (memory k).read a := by
  rw [Memory.read_eq_word, Memory.read_eq_word]
  cases cell : a.cell? with
  | none => rfl
  | some w =>
    refine stored.words k hk w fun j hj other written => ?_
    exact apart j hj k hk other w written (accessed w cell)

/-- One thread writes on its own. -/
theorem write (stored : f.Stored P c one m memory μ) (apart : f.ApartVia P c one m)
    (hk : k < c.factor) (written : ∀ w, a.cell? = some w → f.WritesVia P (c.thread one k) m w)
    {ν : Memory} (h : (memory k).write a n = some ν) :
    ∃ μ', μ.write a n = some μ' ∧ f.Stored P c one m (Function.update memory k ν) μ' := by
  have same := stored.read_eq apart hk fun w cell => (written w cell).writesAt.accessesAt
  have also := Memory.write_isSome (by rw [same]; exact Memory.read_isSome_of_write h) n
  obtain ⟨μ', h'⟩ := Option.isSome_iff_exists.mp also
  obtain ⟨w, cell, -, -, words⟩ := Memory.write_eq_some h
  obtain ⟨w', cell', -, shape', words'⟩ := Memory.write_eq_some h'
  obtain rfl : w = w' := by simpa [cell] using cell'
  refine ⟨μ', h', shape'.trans stored.shape, fun j hj d alone => ?_⟩
  by_cases own : j = k
  · subst own
    rw [Function.update_self, words', words, stored.words j hj d alone]
  · rw [Function.update_of_ne own, words', if_neg ?_, stored.words j hj d alone]
    rintro rfl
    exact alone k hk (Ne.symm own) (written d cell)

/-- One thread acts on its own. -/
theorem perform (stored : f.Stored P c one m memory μ) (apart : f.ApartVia P c one m)
    (hk : k < c.factor) (visited : f.Visits (c.thread one k) (f.begin (c.thread one k) m) s)
    (head : s.rest = i :: rest) (own : P i) (hop : f.operation i = .ok op)
    (memory_eq : s.memory = memory k) {action : Action} (act : op.act (c.thread one k) f s.values i = .ok action)
    (noRead : op.callee? = none) {d : Datum} {ν : Memory}
    (performed : action.perform (c.thread one k).position s.memory = .ok (d, ν)) :
    ∃ μ', action.perform one.position μ = .ok (d, μ') ∧
      f.Stored P c one m (Function.update memory k ν) μ' := by
  have unchanged : ν = memory k → f.Stored P c one m (Function.update memory k ν) μ := by
    rintro rfl
    rw [Function.update_eq_self]
    exact stored
  cases action with
  | value d' =>
    obtain ⟨rfl, rfl⟩ : d' = d ∧ s.memory = ν := by simpa [Action.perform] using performed
    exact ⟨μ, rfl, unchanged memory_eq⟩
  | register r d' =>
    -- only calls read registers
    exact absurd act (Operation.act_ne_register noRead)
  | read a =>
    have same := stored.read_eq apart hk fun w => accessesAt_of_read visited head hop act
    simp only [Action.perform] at performed ⊢
    rw [same, ← memory_eq]
    cases found : s.memory.read a with
    | none => simp [found] at performed
    | some n =>
      obtain ⟨rfl, rfl⟩ : .number n = d ∧ s.memory = ν := by simpa [found] using performed
      exact ⟨μ, rfl, unchanged memory_eq⟩
  | write a n =>
    simp only [Action.perform] at performed ⊢
    cases first : s.memory.write a n with
    | none => simp [first] at performed
    | some ν' =>
      obtain ⟨rfl, rfl⟩ : .undefined = d ∧ ν' = ν := by simpa [first] using performed
      obtain ⟨μ', second, stored'⟩ := stored.write apart hk
        (fun w => writesVia_of_write visited head own hop act) (memory_eq ▸ first)
      exact ⟨μ', by rw [second]; rfl, stored'⟩

/-- All threads act alike, and so does the merged one. -/
theorem perform_all (stored : f.Stored P c one m memory μ) (apart : f.ApartVia P c one m)
    (factor : 0 < c.factor) {s : Nat → ThreadState}
    (visited : ∀ k < c.factor, f.Visits (c.thread one k) (f.begin (c.thread one k) m) (s k))
    (head : ∀ k < c.factor, (s k).rest = i :: rest) (hop : f.operation i = .ok op)
    (memory_eq : ∀ k < c.factor, (s k).memory = memory k) {action : Action}
    (act : ∀ k < c.factor, op.act (c.thread one k) f (s k).values i = .ok action)
    (identity : op.register? ≠ some (c.level.identity, c.dim))
    (extent : op.register? ≠ some (c.level.extent, c.dim)) {d : Nat → Datum} {ν : Nat → Memory}
    (performed : ∀ k < c.factor,
      action.perform (c.thread one k).position (s k).memory = .ok (d k, ν k)) :
    ∃ μ', action.perform one.position μ = .ok (d 0, μ') ∧ f.Stored P c one m ν μ' ∧
      ∀ k < c.factor, d k = d 0 := by
  -- an action that leaves the memories as they are
  have unchanged : ∀ d', action.perform one.position μ = .ok (d', μ) →
      (∀ k < c.factor, d' = d k ∧ memory k = ν k) →
      ∃ μ', action.perform one.position μ = .ok (d 0, μ') ∧ f.Stored P c one m ν μ' ∧
        ∀ k < c.factor, d k = d 0 := by
    intro d' result each
    refine ⟨μ, (each 0 factor).1 ▸ result, stored.congr fun k hk => (each k hk).2, fun k hk => ?_⟩
    rw [← (each k hk).1, (each 0 factor).1]
  have same : ∀ k < c.factor, ∀ a, (op.act (c.thread one k) f (s k).values i = .ok (.read a) ∨
      ∃ n, op.act (c.thread one k) f (s k).values i = .ok (.write a n)) →
      μ.read a = (memory k).read a := fun k hk a acts =>
    stored.read_eq apart hk fun w cell =>
      ⟨a, ⟨s k, i, rest, op, visited k hk, head k hk, hop, Operation.accessed_of_act acts⟩, cell⟩
  cases action with
  | value d' =>
    refine unchanged _ rfl fun k hk => ?_
    simpa [Action.perform, memory_eq k hk] using performed k hk
  | register r d' =>
    have read : op.register? = some (r, d') := Operation.register_of_act (act 0 factor)
    have alike : ∀ k, (c.thread one k).position.read r d' = one.position.read r d' := fun k =>
      CoarseningParams.thread_register (fun h => identity (h ▸ read)) fun h => extent (h ▸ read)
    refine unchanged _ rfl fun k hk => ?_
    simpa [Action.perform, alike, memory_eq k hk] using performed k hk
  | read a =>
    have found : ∀ k < c.factor, (memory k).read a = μ.read a :=
      fun k hk => (same k hk a (.inl (act k hk))).symm
    cases here : μ.read a with
    | none =>
      have := performed 0 factor
      simp [Action.perform, memory_eq 0 factor, found 0 factor, here] at this
    | some n =>
      refine unchanged (.number n) (by simp [Action.perform, here]) fun k hk => ?_
      simpa [Action.perform, memory_eq k hk, found k hk, here] using performed k hk
  | write a n =>
    have each : ∀ k < c.factor, .undefined = d k ∧ (memory k).write a n = some (ν k) := by
      intro k hk
      have := performed k hk
      rw [memory_eq k hk] at this
      cases written : (memory k).write a n with
      | none => simp [Action.perform, written] at this
      | some ν' => simpa [Action.perform, written] using this
    have readable := Memory.read_isSome_of_write (each 0 factor).2
    rw [← same 0 factor a (.inr ⟨n, act 0 factor⟩)] at readable
    obtain ⟨μ', write'⟩ := Option.isSome_iff_exists.mp (Memory.write_isSome readable n)
    obtain ⟨w', cell', -, shape', words'⟩ := Memory.write_eq_some write'
    refine ⟨μ', by simp [Action.perform, write', ← (each 0 factor).1],
      ⟨shape'.trans stored.shape, fun k hk v alone => ?_⟩, fun k hk => ?_⟩
    · obtain ⟨w, cell, -, -, words⟩ := Memory.write_eq_some (each k hk).2
      obtain rfl : w = w' := by simpa [cell] using cell'
      rw [words', words, stored.words k hk v alone]
    · rw [← (each k hk).1, (each 0 factor).1]

end Stored

/-! ### States -/

/-- The values of several threads and of a merged one: an instruction has for thread `k` the value
of its replica `k`. -/
def Valued (f : Func) (c : CoarseningParams) (replica : Nat → InstId → InstId)
    (values : Nat → Values) (v : Values) : Prop :=
  ∀ k < c.factor, ∀ i, (f.blockOf i).isSome → values k i = v (replica k i)

/-- A run of the merged function through the chunk of an instruction, whose replicas get values. -/
structure Through (g : Func) (c : CoarseningParams) (one : Surroundings)
    (chunk : InstId → List InstId) (replica : Nat → InstId → InstId) (i : InstId)
    (rest : List InstId) (d : Nat → Datum) (t t' : ThreadState) : Prop where
  runs : ∃ n, g.run one n (.next t) = .next t'
  block : t'.block = t.block
  rest : t'.rest = rest
  others : ∀ x, x ∉ chunk i → t'.values x = t.values x
  own : ∀ k < c.factor, t'.values (replica k i) = some (d k)

/-- The state within a chunk of replicas when the first `n` of them have been computed. -/
structure Partway (f g : Func) (P : InstId → Prop) (c : CoarseningParams) (one : Surroundings)
    (m : Memory) (chunk : InstId → List InstId) (replica : Nat → InstId → InstId) (i : InstId)
    (rest : List InstId) (s : Nat → ThreadState) (d : Nat → Datum) (μ : Nat → Memory)
    (t : ThreadState) (n : Nat) (t' : ThreadState) : Prop where
  runs : g.run one n (.next t) = .next t'
  block : t'.block = t.block
  rest : t'.rest = (chunk i).drop n ++ rest
  others : ∀ x, (∀ k < n, x ≠ replica k i) → t'.values x = t.values x
  own : ∀ k < n, t'.values (replica k i) = some (d k)
  stored : f.Stored P c one m (fun k => if k < n then μ k else (s k).memory) t'.memory

/-- The state of several threads and that of a merged one. -/
structure Alongside (f g : Func) (P : InstId → Prop) (c : CoarseningParams)
    (chunk : InstId → List InstId) (replica : Nat → InstId → InstId) (one : Surroundings)
    (m : Memory) (s : Nat → ThreadState) (t : ThreadState) : Prop where
  visited : ∀ k < c.factor, f.Visits (c.thread one k) (f.begin (c.thread one k) m) (s k)
  block : ∀ k < c.factor, (s k).block = t.block
  rest : ∃ before rest, f.code t.block = before ++ rest ∧ t.rest = rest.flatMap chunk ∧
    ∀ k < c.factor, (s k).rest = rest
  valued : f.Valued c replica (fun k => (s k).values) t.values
  stored : f.Stored P c one m (fun k => (s k).memory) t.memory

theorem Alongside.congr {P : InstId → Prop} {one : Surroundings} {m : Memory} {s s' : Nat → ThreadState}
    {t : ThreadState} (alongside : f.Alongside g P c chunk replica one m s t)
    (same : ∀ k < c.factor, s k = s' k) : f.Alongside g P c chunk replica one m s' t where
  visited k hk := same k hk ▸ alongside.visited k hk
  block k hk := same k hk ▸ alongside.block k hk
  rest := by
    obtain ⟨before, rest, code, head, each⟩ := alongside.rest
    exact ⟨before, rest, code, head, fun k hk => same k hk ▸ each k hk⟩
  valued k hk i hi := by
    dsimp only
    rw [← same k hk]
    exact alongside.valued k hk i hi
  stored := alongside.stored.congr fun k hk => congrArg _ (same k hk)

namespace Merges

variable {i : InstId} {op : Operation} {ty : Ty} {k : Nat} {one : Surroundings} {m : Memory}
  {rest : List InstId} {t t' : ThreadState} {values : Nat → Values} {v v' : Values}
  {s s' : Nat → ThreadState} {d : Nat → Datum} {μ : Nat → Memory} {P : InstId → Prop}

/-- Behind a chunk, the values agree again. -/
theorem valued_set (merges : f.Merges g c chunk replica) (valued : f.Valued c replica values v)
    (placed : (f.blockOf i).isSome) {d : Nat → Datum}
    (others : ∀ x, x ∉ chunk i → v' x = v x)
    (own : ∀ k < c.factor, v' (replica k i) = some (d k)) :
    f.Valued c replica (fun k => (values k).set i (d k)) v' := by
  intro k hk j hj
  by_cases here : j = i
  · subst here
    simp [Values.set, own k hk]
  · rw [others _ (merges.replica_notMem placed hj here hk), ← valued k hk j hj]
    simp [Values.set, here]

/-- The operands of replica `k` have the values that the operands have for thread `k`. -/
theorem act_eq (merges : f.Merges g c chunk replica) (placed : (f.blockOf i).isSome)
    (line : f.line i = some (op, ty)) (hk : k < c.factor) {u : Values}
    (valued : ∀ j, (f.blockOf j).isSome → u j = v (replica k j)) (x : InstId) :
    (op.act (c.thread one k) f u i).toOption =
      ((op.mapOperands (·.mapInst (replica k))).act one g v x).toOption := by
  refine Operation.act_map i x fun value hv => Operation.agree_mapInst rfl rfl merges.params.symm ?_
  intro j read
  have used : j ∈ op.usedInsts := List.mem_filterMap.mpr ⟨value, hv, by rw [read]; rfl⟩
  have placed' : (f.blockOf j).isSome := merges.formed.operands i op ty placed line j used
  obtain ⟨op', ty', line', piece⟩ := merges.exists_piece placed'
  exact ⟨valued j placed', by rw [line', piece.type hk]; rfl⟩

theorem replica_inj (nodup : ((List.range c.factor).map (replica · i)).Nodup) {j : Nat}
    (hj : j < c.factor) (hk : k < c.factor) (same : replica j i = replica k i) : j = k :=
  List.inj_on_of_nodup_map nodup (List.mem_range.mpr hj) (List.mem_range.mpr hk) same

section

variable {rest' : List InstId} {action : Nat → Action}
  (merges : f.Merges g c chunk replica) (apart : f.ApartVia P c one m)
  (placed : (f.blockOf i).isSome) (line : f.line i = some (op, ty))
  (plain : op.isTerminator = false)
  (visited : ∀ k < c.factor, f.Visits (c.thread one k) (f.begin (c.thread one k) m) (s k))
  (head : ∀ k < c.factor, (s k).rest = i :: rest') (head' : t.rest = chunk i ++ rest)
  (valued : f.Valued c replica (fun k => (s k).values) t.values)
  (stored : f.Stored P c one m (fun k => (s k).memory) t.memory)
  (act : ∀ k < c.factor, op.act (c.thread one k) f (s k).values i = .ok (action k))
  (performed : ∀ k < c.factor,
    (action k).perform (c.thread one k).position (s k).memory = .ok (d k, μ k))
include merges apart placed line plain visited head valued act performed

include head' stored in
/-- All threads compute the same, and so does the merged one. -/
theorem through_kept (code : chunk i = [i]) (same : ∀ k < c.factor, replica k i = i)
    (identity : op.register? ≠ some (c.level.identity, c.dim))
    (extent : op.register? ≠ some (c.level.extent, c.dim))
    (operands : ∀ j ∈ op.usedInsts, ∀ k < c.factor, replica k j = replica 0 j)
    (line' : g.line i = some (op.mapOperands (·.mapInst (replica 0)), ty)) :
    ∃ t', g.Through c one chunk replica i rest (fun k => (d k).fit ty) t t' ∧
      f.Stored P c one m μ t'.memory := by
  have factor := merges.positive
  have renamed : ∀ k < c.factor, op.mapOperands (·.mapInst (replica k)) =
      op.mapOperands (·.mapInst (replica 0)) :=
    fun k hk => Operation.mapInst_congr fun j hj => operands j hj k hk
  -- the merged thread takes the action of every thread
  have alike : ∀ k < c.factor,
      (op.mapOperands (·.mapInst (replica 0))).act one g t.values i = .ok (action k) := by
    intro k hk
    rw [← toOption_eq_some_iff, ← renamed k hk,
      ← merges.act_eq placed line hk (valued k hk) i, act k hk]
    rfl
  have actions : ∀ k < c.factor, action k = action 0 := by
    intro k hk
    have := (alike k hk).symm.trans (alike 0 factor)
    simpa using this
  obtain ⟨μ', performed', stored', each⟩ := stored.perform_all apart factor visited head
    (operation_eq_ok_iff.mpr ⟨ty, line⟩) (fun _ _ => rfl)
    (fun k hk => actions k hk ▸ act k hk) identity extent
    (fun k hk => actions k hk ▸ performed k hk)
  have step : g.step one t = .next (computed t i rest ty (d 0, μ')) :=
    step_of_act (by rw [head', code]; rfl) line' (by simpa using plain) (alike 0 factor)
      performed'
  refine ⟨_, ⟨⟨1, step⟩, rfl, rfl, fun x hx => ?_, fun k hk => ?_⟩, stored'⟩
  · have other : x ≠ i := by simpa [code] using hx
    simp [computed, Values.set, other]
  · simp [computed, Values.set, same k hk, each k hk]

/-- The next replica is computed. -/
theorem partway_succ (own : P i) (noRead : op.callee? = none)
    (code : chunk i = (List.range c.factor).map (replica · i))
    (line' : ∀ k < c.factor, g.line (replica k i) =
      some (op.mapOperands (·.mapInst (replica k)), ty)) {n : Nat} (hn : n < c.factor)
    (partway : f.Partway g P c one m chunk replica i rest s (fun k => (d k).fit ty) μ t n t') :
    ∃ t'', f.Partway g P c one m chunk replica i rest s (fun k => (d k).fit ty) μ t (n + 1) t'' := by
  have nodup := code ▸ merges.nodup_chunk placed
  have next : t'.rest = replica n i :: ((chunk i).drop (n + 1) ++ rest) := by
    rw [partway.rest, List.drop_eq_getElem_cons (by simpa [code] using hn)]
    simp [code]
  -- the operands of this replica are as they were before the chunk
  have operands : ∀ j, (f.blockOf j).isSome → (s n).values j = t'.values (replica n j) := by
    intro j hj
    rw [partway.others _ fun k hk same => ?_]
    · exact valued n hn j hj
    · by_cases here : j = i
      · subst here
        have := replica_inj nodup hn (by omega) same
        omega
      · have mem := merges.replica_mem placed (show k < c.factor by omega)
        exact merges.replica_notMem placed hj here hn (same ▸ mem)
  have act' : (op.mapOperands (·.mapInst (replica n))).act one g t'.values (replica n i) =
      .ok (action n) := by
    rw [← toOption_eq_some_iff, ← merges.act_eq placed line hn operands, act n hn]
    rfl
  obtain ⟨ν, performed', stored'⟩ := partway.stored.perform apart hn (visited n hn) (head n hn) own
    (operation_eq_ok_iff.mpr ⟨ty, line⟩) (by simp) (act n hn) noRead (performed n hn)
  have step := step_of_act next (line' n hn) (by simpa using plain) act' performed'
  refine ⟨computed t' (replica n i) ((chunk i).drop (n + 1) ++ rest) ty (d n, ν), ?_,
    partway.block, rfl, fun x hx => ?_, fun k hk => ?_, ?_⟩
  · rw [run_add, partway.runs]
    exact step
  · simp only [computed, Values.set, if_neg (hx n (by omega))]
    exact partway.others x fun k hk => hx k (by omega)
  · by_cases last : k = n
    · subst last
      simp [computed, Values.set]
    · have other : replica k i ≠ replica n i := fun same =>
        last (replica_inj nodup (by omega) hn same)
      simp only [computed, Values.set, if_neg other]
      exact partway.own k (by omega)
  · refine ⟨stored'.shape, fun k hk w alone => ?_⟩
    rw [show (computed t' (replica n i) _ ty (d n, ν)).memory = ν from rfl,
      stored'.words k hk w alone]
    by_cases last : k = n
    · subst last
      simp
    · rw [Function.update_of_ne last]
      by_cases before : k < n
      · simp [before, show k < n + 1 by omega]
      · simp [before, show ¬ k < n + 1 by omega]

include head' stored in
/-- The merged thread computes one value for each thread. -/
theorem through_repeated (own : P i) (noRead : op.callee? = none)
    (code : chunk i = (List.range c.factor).map (replica · i))
    (line' : ∀ k < c.factor, g.line (replica k i) =
      some (op.mapOperands (·.mapInst (replica k)), ty)) :
    ∃ t', g.Through c one chunk replica i rest (fun k => (d k).fit ty) t t' ∧
      f.Stored P c one m μ t'.memory := by
  have each : ∀ n ≤ c.factor, ∃ t',
      f.Partway g P c one m chunk replica i rest s (fun k => (d k).fit ty) μ t n t' := by
    intro n
    induction n with
    | zero =>
      exact fun _ => ⟨t, rfl, rfl, by simpa using head', by simp, by simp, by simpa using stored⟩
    | succ n ih =>
      intro hn
      obtain ⟨t', partway⟩ := ih (by omega)
      exact merges.partway_succ apart placed line plain visited head valued act performed own
        noRead code line' (by omega) partway
  obtain ⟨t', all⟩ := each c.factor (Nat.le_refl _)
  have length : (chunk i).length = c.factor := by simp [code]
  refine ⟨t', ⟨⟨_, all.runs⟩, all.block, by simpa [← length] using all.rest,
    fun x hx => all.others x ?_, all.own⟩, ?_⟩
  · rintro k hk rfl
    exact hx (code ▸ List.mem_map.mpr ⟨k, List.mem_range.mpr hk, rfl⟩)
  · refine ⟨all.stored.shape, fun k hk w alone => ?_⟩
    rw [all.stored.words k hk w alone, if_pos hk]

end

/-- A straight run through a chunk. -/
theorem through_of_computes {t' : ThreadState} (computes : g.Computes one (chunk i) t t')
    (head : t.rest = chunk i ++ rest)
    (own : ∀ k < c.factor, t'.values (replica k i) = some (d k)) :
    g.Through c one chunk replica i rest d t t' ∧ t'.memory = t.memory where
  left := ⟨⟨_, computes.runs⟩, computes.block,
    (List.append_cancel_left (head.symm.trans computes.rest)).symm, fun _ => computes.others, own⟩
  right := computes.memory

/-- The merged thread reads an extent and multiplies it. -/
theorem through_extent (one : Surroundings) {callee : String} {scaled : InstId} (wide : ty.isWide)
    (register : Register.ofAccessor? callee = some (c.level.extent, c.dim))
    (code : chunk i = [i, scaled]) (same : ∀ k < c.factor, replica k i = scaled)
    (line : g.line i = some (.call callee [], ty))
    (product : g.line scaled = some (.binary .mul (.inst i) (.ofNat c.factor), ty))
    (head : t.rest = chunk i ++ rest) :
    ∃ t', g.Through c one chunk replica i rest (fun k => .number (ty.fit (Int64.ofNat
      ((c.thread one k).position.read c.level.extent c.dim)))) t t' ∧ t'.memory = t.memory := by
  obtain ⟨t', computes, value⟩ := exists_extent one wide register line product
    (by rw [head, code]; rfl)
  refine ⟨t', through_of_computes (code ▸ computes) head fun k hk => ?_⟩
  rw [same k hk, CoarseningParams.thread_extent]
  exact value

/-- The merged thread reads its identity and computes those of the threads. -/
theorem through_identity {callee : String} {div mul rem : InstId}
    (merges : f.Merges g c chunk replica) (placed : (f.blockOf i).isSome) (wide : ty.isWide)
    (register : Register.ofAccessor? callee = some (c.level.identity, c.dim))
    (code : chunk i = i :: div :: mul :: rem :: (List.range c.factor).map (replica · i))
    (line : g.line i = some (.call callee [], ty))
    (quotient : g.line div = some (.binary .udiv (.inst i) (.ofNat c.stride), ty))
    (product : g.line mul = some (.binary .mul (.inst div)
      (.const (Int64.ofNat c.factor * Int64.ofNat c.stride)), ty))
    (remainder : g.line rem = some (.binary .urem (.inst i) (.ofNat c.stride), ty))
    (base : g.line (replica 0 i) = some (.binary .add (.inst mul) (.inst rem), ty))
    (small : ∀ k < c.factor, c.identityOf (one.position.read c.level.identity c.dim) k < 2 ^ 32)
    (head : t.rest = chunk i ++ rest)
    (sibling : ∀ k < c.factor, k ≠ 0 → g.line (replica k i) = some (.binary .add
      (.inst (replica 0 i)) (.const (Int64.ofNat k * Int64.ofNat c.stride)), ty)) :
    ∃ t', g.Through c one chunk replica i rest (fun k => .number (ty.fit (Int64.ofNat
      ((c.thread one k).position.read c.level.identity c.dim)))) t t' ∧ t'.memory = t.memory := by
  obtain ⟨smallP, smallS⟩ := CoarseningParams.small_of_identities merges.factor small
  obtain ⟨t', computes, values⟩ := exists_identities one (replica · i) wide merges.positive
    merges.stride smallS register line quotient product remainder base sibling
    (code ▸ merges.nodup_chunk placed) smallP (by rw [head, code])
  refine ⟨t', through_of_computes (code ▸ computes) head fun k hk => ?_⟩
  rw [CoarseningParams.thread_identity]
  exact values k hk

/-! ### Steps of all threads -/

/-- What becomes of the state when every thread computes the value of one instruction. -/
theorem alongside_of_through (merges : f.Merges g c chunk replica)
    (alongside : f.Alongside g P c chunk replica one m s t) (placed : (f.blockOf i).isSome)
    {before : List InstId} (code : f.code t.block = before ++ i :: rest)
    (step : ∀ k < c.factor, f.step (c.thread one k) (s k) =
      .next (computed (s k) i rest ty (d k, μ k)))
    (through : g.Through c one chunk replica i (rest.flatMap chunk) (fun k => (d k).fit ty) t t')
    (stored : f.Stored P c one m μ t'.memory) :
    f.Alongside g P c chunk replica one m (fun k => computed (s k) i rest ty (d k, μ k)) t' where
  visited k hk := (alongside.visited k hk).step (step k hk)
  block k hk := (alongside.block k hk).trans through.block.symm
  rest := ⟨before ++ [i], rest, by simp [through.block, code], through.rest, fun _ _ => rfl⟩
  valued := merges.valued_set alongside.valued placed through.others through.own
  stored := stored

/-- Every thread computes the value of one instruction. -/
theorem step_plain (merges : f.Merges g c chunk replica) (apart : f.ApartVia P c one m)
    (own : ∀ i, (f.blockOf i).isSome → chunk i ≠ [i] → P i)
    (small : ∀ k < c.factor, c.identityOf (one.position.read c.level.identity c.dim) k < 2 ^ 32)
    (alongside : f.Alongside g P c chunk replica one m s t) {before : List InstId}
    (code : f.code t.block = before ++ i :: rest) (head : ∀ k < c.factor, (s k).rest = i :: rest)
    (head' : t.rest = chunk i ++ rest.flatMap chunk) (line : f.line i = some (op, ty))
    (plain : op.isTerminator = false)
    (next : ∀ k < c.factor, f.step (c.thread one k) (s k) = .next (s' k)) :
    ∃ n t', g.run one n (.next t) = .next t' ∧ f.Alongside g P c chunk replica one m s' t' := by
  have placed : (f.blockOf i).isSome := merges.placed (b := t.block) (by simp [code])
  have each := fun k hk => exists_action (head k hk) line plain (next k hk)
  have aDatum : Nonempty Datum := ⟨.undefined⟩
  have anAction : Nonempty Action := ⟨.value .undefined⟩
  have aMemory : Nonempty Memory := ⟨m⟩
  choose! action d μ act performed after using each
  suffices ∃ t', g.Through c one chunk replica i (rest.flatMap chunk) (fun k => (d k).fit ty) t t' ∧
      f.Stored P c one m μ t'.memory by
    obtain ⟨t', through, stored⟩ := this
    obtain ⟨n, runs⟩ := through.runs
    refine ⟨n, t', runs, ?_⟩
    have alongside' := merges.alongside_of_through alongside placed code
      (fun k hk => (next k hk).trans (congrArg _ (after k hk))) through stored
    exact alongside'.congr fun k hk => (after k hk).symm
  -- a register is read, and the memories stay
  have read : ∀ {callee : String} {r : Register}, op = .call callee [] →
      Register.ofAccessor? callee = some (r, c.dim) → ∀ k < c.factor,
      d k = .number (Int64.ofNat ((c.thread one k).position.read r c.dim)) ∧
        μ k = (s k).memory := by
    intro callee r read register k hk
    subst read
    have chosen : .register r c.dim = action k := by
      simpa [Operation.act, register] using act k hk
    simpa [← chosen, Action.perform, eq_comm] using performed k hk
  cases merges.piece i op ty placed line with
  | kept alone same identity extent operands line' =>
    exact merges.through_kept apart placed line plain alongside.visited head head'
      alongside.valued alongside.stored act performed alone same identity extent operands line'
  | ended ret => simp [ret, Operation.isTerminator] at plain
  | repeated _ noRead chunk_eq line' =>
    have several : chunk i ≠ [i] := by
      intro alone
      have one : c.factor = 1 := by simpa using congrArg List.length (chunk_eq.symm.trans alone)
      have two := merges.factor
      omega
    exact merges.through_repeated apart placed line plain alongside.visited head head'
      alongside.valued alongside.stored act performed (own i placed several) noRead chunk_eq line'
  | extent wide call register chunk_eq same line' product =>
    subst call
    obtain ⟨t', through, memory⟩ := through_extent one wide register chunk_eq same line'
      product head'
    refine ⟨t', { through with own := fun k hk => ?_ }, ?_⟩
    · rw [through.own k hk, (read rfl register k hk).1]
      rfl
    · exact memory ▸ alongside.stored.congr fun k hk => (read rfl register k hk).2.symm
  | identity wide call register chunk_eq line' quotient product remainder base sibling =>
    subst call
    obtain ⟨t', through, memory⟩ := merges.through_identity placed wide register chunk_eq line'
      quotient product remainder base small head' sibling
    refine ⟨t', { through with own := fun k hk => ?_ }, ?_⟩
    · rw [through.own k hk, (read rfl register k hk).1]
      rfl
    · exact memory ▸ alongside.stored.congr fun k hk => (read rfl register k hk).2.symm

/-- The replicas of a phi have the values that the phi has for the threads. -/
theorem phiDatum_replica (merges : f.Merges g c chunk replica)
    (valued : f.Valued c replica values v) (placed : (f.blockOf i).isSome)
    (phi : f.outline.Does i fun op => op.isPhi = true) (hk : k < c.factor)
    (source : Option BlockId) :
    g.phiDatum? one v source (replica k i) =
      f.phiDatum? (c.thread one k) (values k) source i := by
  obtain ⟨op, ty, line, phi⟩ := phi
  exact phiDatum_mapInst rfl rfl line ((merges.piece i op ty placed line).line_of_phi phi hk) phi
    fun j used => valued k hk j (merges.formed.operands i op ty placed line j used)

/-- All threads enter a block, and so does the merged one. -/
theorem alongside_of_enter (merges : f.Merges g c chunk replica)
    (valued : f.Valued c replica values v) {memory : Nat → Memory} {μ : Memory}
    (stored : f.Stored P c one m memory μ) {source : Option BlockId} {b : BlockId}
    (inside : b.index < f.blocks.size)
    (enters : ∀ k < c.factor, f.enter (c.thread one k) (values k) (memory k) source b = .ok (s k))
    (visited : ∀ k < c.factor, f.Visits (c.thread one k) (f.begin (c.thread one k) m) (s k)) :
    ∃ t, g.enter one v μ source b = .ok t ∧ f.Alongside g P c chunk replica one m s t := by
  obtain ⟨phis, body, last, shape⟩ := merges.formed.formed b inside
  have code : f.code b = phis ++ (body ++ [last]) := shape.code
  have placed : ∀ i ∈ phis, (f.blockOf i).isSome := fun i hi =>
    merges.placed (b := b) (by simp [code, hi])
  have shape' := merges.shape shape
  obtain ⟨op, ty, line, term⟩ := shape.last
  have alone := (merges.piece last op ty (merges.placed (b := b) (by simp [code]))
    line).chunk_of_terminator term
  have each : ∀ k < c.factor, (∀ i ∈ phis,
      (f.phiDatum? (c.thread one k) (values k) source i).isSome) ∧
      s k = f.entered (c.thread one k) (values k) (memory k) source b phis (body ++ [last]) := by
    intro k hk
    have answer : (f.enter (c.thread one k) (values k) (memory k) source b).toOption = _ :=
      enter_of_shape shape
    rw [enters k hk] at answer
    by_cases all : ∀ i ∈ phis, (f.phiDatum? (c.thread one k) (values k) source i).isSome
    · rw [if_pos all] at answer
      exact ⟨all, by simpa using answer⟩
    · rw [if_neg all] at answer
      simp at answer
  have all : ∀ x ∈ phis.flatMap chunk, (g.phiDatum? one v source x).isSome := by
    intro x hx
    obtain ⟨i, hi, hx⟩ := List.mem_flatMap.mp hx
    obtain ⟨op, ty, line, phi⟩ := shape.phis i hi
    obtain ⟨k, hk, rfl⟩ := (merges.piece i op ty (placed i hi) line).exists_replica_of_phi phi
      merges.positive hx
    rw [merges.phiDatum_replica valued (placed i hi) (shape.phis i hi) hk]
    exact (each k hk).1 i hi
  refine ⟨g.entered one v μ source b (phis.flatMap chunk) (body.flatMap chunk ++ [last]), ?_, ?_⟩
  · rw [← toOption_eq_some_iff, enter_of_shape shape', if_pos all]
  · refine ⟨visited, fun k hk => ?_,
      ⟨phis, body ++ [last], code, by simp [entered, alone], fun k hk => ?_⟩,
      fun k hk i hi => ?_, stored.congr fun k hk => ?_⟩
    · rw [(each k hk).2]
      rfl
    · rw [(each k hk).2]
      rfl
    · dsimp only
      rw [(each k hk).2]
      by_cases phi : i ∈ phis
      · have mem : replica k i ∈ phis.flatMap chunk :=
          List.mem_flatMap.mpr ⟨i, phi, merges.replica_mem hi hk⟩
        simp only [entered, if_pos phi, if_pos mem]
        exact (merges.phiDatum_replica valued hi (shape.phis i phi) hk source).symm
      · have notMem : replica k i ∉ phis.flatMap chunk := by
          intro mem
          obtain ⟨j, hj, mem⟩ := List.mem_flatMap.mp mem
          exact merges.replica_notMem (placed j hj) hi (fun same => phi (same ▸ hj)) hk mem
        simp only [entered, if_neg phi, if_neg notMem]
        exact valued k hk i hi
    · rw [(each k hk).2]
      rfl

/-- Every thread jumps. -/
theorem step_jump (merges : f.Merges g c chunk replica)
    (alongside : f.Alongside g P c chunk replica one m s t) {before : List InstId}
    (code : f.code t.block = before ++ i :: rest) (head : ∀ k < c.factor, (s k).rest = i :: rest)
    (head' : t.rest = i :: rest.flatMap chunk) {target : BlockId}
    (line : f.line i = some (.jump target, ty)) (line' : g.line i = some (.jump target, ty))
    (next : ∀ k < c.factor, f.step (c.thread one k) (s k) = .next (s' k)) :
    ∃ t', g.step one t = .next t' ∧ f.Alongside g P c chunk replica one m s' t' := by
  have inside := merges.formed.targets i _ ty (merges.placed (b := t.block) (by simp [code])) line
    target (by simp [Operation.successors])
  have enters : ∀ k < c.factor, f.enter (c.thread one k) (s k).values (s k).memory
      (some t.block) target = .ok (s' k) := by
    intro k hk
    rw [← alongside.block k hk, ← ofExcept_eq_next, ← step_of_jump (head k hk) line]
    exact next k hk
  obtain ⟨t', enter', alongside'⟩ := merges.alongside_of_enter alongside.valued alongside.stored
    inside enters fun k hk => (alongside.visited k hk).step (next k hk)
  exact ⟨t', by rw [step_of_jump head' line', enter']; rfl, alongside'⟩

/-- Every thread branches, and all go the same way. -/
theorem step_branch (merges : f.Merges g c chunk replica)
    (alongside : f.Alongside g P c chunk replica one m s t) {before : List InstId}
    (code : f.code t.block = before ++ i :: rest) (head : ∀ k < c.factor, (s k).rest = i :: rest)
    (head' : t.rest = i :: rest.flatMap chunk) {cond : Value} {yes no : BlockId}
    (line : f.line i = some (.branch cond yes no, ty))
    (operands : ∀ j ∈ (Operation.branch cond yes no).usedInsts, ∀ k < c.factor,
      replica k j = replica 0 j)
    (line' : g.line i = some (.branch (cond.mapInst (replica 0)) yes no, ty))
    (next : ∀ k < c.factor, f.step (c.thread one k) (s k) = .next (s' k)) :
    ∃ t', g.step one t = .next t' ∧ f.Alongside g P c chunk replica one m s' t' := by
  have placed := merges.placed (b := t.block) (i := i) (by simp [code])
  have targets := merges.formed.targets i _ ty placed line
  have number : ∀ k < c.factor, (cond.number (c.thread one k) (s k).values).toOption =
      ((cond.mapInst (replica 0)).number one t.values).toOption := by
    intro k hk
    have datum : (cond.datum (c.thread one k) (s k).values).toOption =
        ((cond.mapInst (replica 0)).datum one t.values).toOption := by
      refine Value.datum_mapInst rfl rfl fun j read => ?_
      have used : j ∈ (Operation.branch cond yes no).usedInsts := by
        simp [Operation.usedInsts, Operation.operands, read, Value.inst?]
      rw [← operands j used k hk]
      exact alongside.valued k hk j (merges.formed.operands i _ ty placed line j used)
    simp only [Value.number, toOption_bind, datum]
  have enters : ∀ k < c.factor, ∃ n, (cond.mapInst (replica 0)).number one t.values = .ok n ∧
      f.enter (c.thread one k) (s k).values (s k).memory (some t.block)
        (if truth n then yes else no) = .ok (s' k) := by
    intro k hk
    have := next k hk
    rw [step_of_branch (head k hk) line, ofExcept_eq_next, alongside.block k hk] at this
    obtain ⟨n, hn, entered⟩ := bind_eq_ok_iff.mp this
    refine ⟨n, ?_, entered⟩
    rw [← toOption_eq_some_iff, ← number k hk, hn]
    rfl
  obtain ⟨n, hn, -⟩ := enters 0 merges.positive
  have enters' : ∀ k < c.factor, f.enter (c.thread one k) (s k).values (s k).memory (some t.block)
      (if truth n then yes else no) = .ok (s' k) := by
    intro k hk
    obtain ⟨n', hn', entered⟩ := enters k hk
    obtain rfl : n = n' := by simpa [hn] using hn'
    exact entered
  obtain ⟨t', enter', alongside'⟩ := merges.alongside_of_enter alongside.valued alongside.stored
    (targets _ (by by_cases way : truth n <;> simp [Operation.successors, way])) enters'
    fun k hk => (alongside.visited k hk).step (next k hk)
  refine ⟨t', ?_, alongside'⟩
  rw [step_of_branch head' line', hn]
  simp only [bind, Except.bind, enter']
  rfl

/-- The instruction that all threads and the merged one have come to. -/
theorem exists_head (merges : f.Merges g c chunk replica)
    (alongside : f.Alongside g P c chunk replica one m s t)
    (step : ∀ b, f.step (c.thread one 0) (s 0) ≠ .trap (.noTerminator b)) :
    ∃ before i rest op ty, f.code t.block = before ++ i :: rest ∧
      (∀ k < c.factor, (s k).rest = i :: rest) ∧ t.rest = chunk i ++ rest.flatMap chunk ∧
      f.line i = some (op, ty) ∧ g.Piece c chunk replica i op ty := by
  obtain ⟨before, rest, code, head', head⟩ := alongside.rest
  cases rest with
  | nil =>
    have := head 0 merges.positive
    exact absurd (by simp [Func.step, this]) (step (s 0).block)
  | cons i rest =>
    obtain ⟨op, ty, line, piece⟩ := merges.exists_piece
      (merges.placed (b := t.block) (i := i) (by simp [code]))
    exact ⟨before, i, rest, op, ty, code, head, by simpa using head', line, piece⟩

/-- One step of all threads, and what the merged thread does meanwhile. -/
theorem step (merges : f.Merges g c chunk replica) (apart : f.ApartVia P c one m)
    (own : ∀ i, (f.blockOf i).isSome → chunk i ≠ [i] → P i)
    (small : ∀ k < c.factor, c.identityOf (one.position.read c.level.identity c.dim) k < 2 ^ 32)
    (alongside : f.Alongside g P c chunk replica one m s t)
    (next : ∀ k < c.factor, f.step (c.thread one k) (s k) = .next (s' k)) :
    ∃ n t', g.run one n (.next t) = .next t' ∧ f.Alongside g P c chunk replica one m s' t' := by
  have zero := merges.positive
  have first := next 0 zero
  obtain ⟨before, i, rest, op, ty, code, head, head', line, piece⟩ :=
    merges.exists_head alongside (by simp [first])
  by_cases term : op.isTerminator = true
  · have alone := piece.chunk_of_terminator term
    have head'' : t.rest = i :: rest.flatMap chunk := by simp [head', alone]
    suffices ∃ t', g.step one t = .next t' ∧ f.Alongside g P c chunk replica one m s' t' by
      obtain ⟨t', step', alongside'⟩ := this
      exact ⟨1, t', step', alongside'⟩
    cases piece with
    | kept _ _ _ _ operands line' =>
      cases op with
      | jump target => exact merges.step_jump alongside code head head'' line line' next
      | branch cond yes no =>
        exact merges.step_branch alongside code head head'' line operands line' next
      | ret value =>
        rw [step_of_ret (head 0 zero) line] at first
        simp at first
      | unreachable =>
        rw [step_of_unreachable (head 0 zero) line] at first
        simp at first
      | _ => simp [Operation.isTerminator] at term
    | ended ret =>
      subst ret
      rw [step_of_ret (head 0 zero) line] at first
      simp at first
    | repeated plain => simp [plain] at term
    | extent _ read => simp [read, Operation.isTerminator] at term
    | identity _ read => simp [read, Operation.isTerminator] at term
  · exact merges.step_plain apart own small alongside code head head' line (by simpa using term) next

/-- If one thread returns, so do all and the merged one. -/
theorem finish (merges : f.Merges g c chunk replica)
    (alongside : f.Alongside g P c chunk replica one m s t) {μ : Memory}
    (ends : f.step (c.thread one 0) (s 0) = .finish μ) :
    g.step one t = .finish t.memory ∧
      ∀ k < c.factor, f.step (c.thread one k) (s k) = .finish (s k).memory := by
  obtain ⟨before, i, rest, op, ty, code, head, head', line, piece⟩ :=
    merges.exists_head alongside (by simp [ends])
  obtain ⟨i', rest', inst, value, same, hi, ret⟩ := step_eq_finish ends
  obtain ⟨rfl, rfl⟩ : i = i' ∧ rest = rest' := by simpa [head 0 merges.positive] using same
  obtain ⟨rfl, rfl⟩ : op = .ret value ∧ ty = inst.ty := by
    simpa [line, ret] using line_of_inst hi
  rw [piece.chunk_of_terminator rfl] at head'
  refine ⟨?_, fun k hk => step_of_ret (head k hk) line⟩
  cases piece with
  | kept _ _ _ _ _ line' => exact step_of_ret head' line'
  | ended _ _ _ line' => exact step_of_ret head' line'
  | repeated plain => simp [Operation.isTerminator] at plain
  | extent _ read => simp at read
  | identity _ read => simp at read

/-- If one thread goes on, so do all. -/
theorem exists_next (merges : f.Merges g c chunk replica)
    (alongside : f.Alongside g P c chunk replica one m s t) {s₀ : ThreadState}
    (goes : f.step (c.thread one 0) (s 0) = .next s₀) (hk : k < c.factor) {μ : Memory}
    (ends : f.Finishes (c.thread one k) (f.step (c.thread one k) (s k)) μ) :
    ∃ s', f.step (c.thread one k) (s k) = .next s' := by
  cases step : f.step (c.thread one k) (s k) with
  | next s' => exact ⟨s', rfl⟩
  | trap cause =>
    rw [step] at ends
    cases ends
  | finish μ' =>
    obtain ⟨-, rest, -, -, each⟩ := alongside.rest
    have := step_finish_congr (c.thread one 0)
      ((each k hk).trans (each 0 merges.positive).symm) step
    simp [goes] at this

/-- The merged thread runs to the end with the others. -/
theorem finishes (merges : f.Merges g c chunk replica) (apart : f.ApartVia P c one m)
    (own : ∀ i, (f.blockOf i).isSome → chunk i ≠ [i] → P i)
    (small : ∀ k < c.factor, c.identityOf (one.position.read c.level.identity c.dim) k < 2 ^ 32)
    (alongside : f.Alongside g P c chunk replica one m s t)
    (ends : ∀ k < c.factor, f.Finishes (c.thread one k) (.next (s k)) (μ k)) :
    ∃ μ', g.Finishes one (.next t) μ' ∧ f.Stored P c one m μ μ' := by
  -- the steps of the first thread are counted
  obtain ⟨fuel, run⟩ := finishes_iff_run.mp (ends 0 merges.positive)
  induction fuel generalizing s t with
  | zero => simp [Func.run] at run
  | succ fuel ih =>
    have later : ∀ k < c.factor, f.Finishes (c.thread one k)
        (f.step (c.thread one k) (s k)) (μ k) := by
      intro k hk
      cases ends k hk with
      | more rest => exact rest
    rw [Func.run] at run
    cases first : f.step (c.thread one 0) (s 0) with
    | trap cause => simp [first] at run
    | finish μ₀ =>
      obtain ⟨last, all⟩ := merges.finish alongside first
      refine ⟨t.memory, .more (last ▸ .done _), alongside.stored.congr fun k hk => ?_⟩
      have := later k hk
      rw [all k hk] at this
      exact (Finishes.done (s k).memory).unique this
    | next s₀ =>
      have each : ∀ k < c.factor, ∃ s', f.step (c.thread one k) (s k) = .next s' := fun k hk =>
        merges.exists_next alongside first hk (later k hk)
      have aState : Nonempty ThreadState := ⟨t⟩
      choose! s' next using each
      obtain ⟨n, t', runs, alongside'⟩ := merges.step apart own small alongside next
      obtain ⟨μ', ends', stored⟩ := ih alongside' (fun k hk => next k hk ▸ later k hk)
        (next 0 merges.positive ▸ run)
      obtain ⟨fuel', last⟩ := finishes_iff_run.mp ends'
      exact ⟨μ', finishes_iff_run.mpr ⟨n + fuel', by rw [run_add, runs, last]⟩, stored⟩

/-- If the threads end when each runs alone, and what one writes with a repeated instruction the
others do not access, then the merged thread ends on a memory in which all have stored. -/
theorem exists_runs (merges : f.Merges g c chunk replica) (apart : f.ApartVia P c one m)
    (own : ∀ i, (f.blockOf i).isSome → chunk i ≠ [i] → P i)
    (small : ∀ k < c.factor, c.identityOf (one.position.read c.level.identity c.dim) k < 2 ^ 32)
    (ends : ∀ k < c.factor, f.Runs (c.thread one k) m (μ k)) :
    ∃ μ', g.Runs one m μ' ∧ f.Stored P c one m μ μ' := by
  have start := fun k hk => (ends k hk).exists_enter
  have aState : Nonempty ThreadState := ⟨⟨f.entry, [], fun _ => none, m⟩⟩
  choose! s enters begins using start
  have inside : f.entry.index < f.blocks.size := by
    obtain ⟨block, phis, entered⟩ := enter_eq_ok (enters 0 merges.positive)
    exact lt_of_block entered.hblock
  have stored : f.Stored P c one m (fun _ => m) m := ⟨rfl, fun _ _ _ _ => rfl⟩
  obtain ⟨t, enter', alongside⟩ := merges.alongside_of_enter (v := fun _ => none)
    (fun _ _ _ _ => rfl) stored inside enters fun k hk => begins k hk ▸ .here _
  have ends' : ∀ k < c.factor, f.Finishes (c.thread one k) (.next (s k)) (μ k) := fun k hk =>
    begins k hk ▸ show f.Finishes _ (f.begin (c.thread one k) m) _ from ends k hk
  obtain ⟨μ', last, stored⟩ := merges.finishes apart own small alongside ends'
  refine ⟨μ', ?_, stored⟩
  unfold Func.Runs Func.begin
  rw [merges.entry_eq, enter']
  exact last

/-- If the threads leave a memory, one after the other, and what one writes the others do not
access, then the merged thread leaves this memory. -/
theorem keeps (merges : f.Merges g c chunk replica) (apart : f.AllApart c one m)
    (small : ∀ k < c.factor, c.identityOf (one.position.read c.level.identity c.dim) k < 2 ^ 32)
    {m' : Memory} (runs : f.RunsAll ((List.range c.factor).map (c.thread one)) m m') :
    g.Runs one m m' := by
  have alone : ∀ k < c.factor, ∃ μ, f.Runs (c.thread one k) m μ := fun k hk =>
    runs_of_runsAll (pairwise_apart apart) rfl (fun _ _ _ _ => rfl) runs _
      (List.mem_map_of_mem (List.mem_range.mpr hk))
  have aMemory : Nonempty Memory := ⟨m⟩
  choose! μ ends using alone
  obtain ⟨μ', runs', stored⟩ := merges.exists_runs (apart.via fun _ => True) (fun _ _ _ => trivial)
    small ends
  have all := runsAll_of_words merges.positive apart (fun k hk => ⟨μ k, ends k hk⟩) stored.shape
    fun k hk ν hν w free => by
      rw [stored.words k hk w fun j hj other written => free j hj other written.writesAt,
        (ends k hk).unique hν]
  exact runs.unique all ▸ runs'

end Merges

end Func

end KernelCoarsening
