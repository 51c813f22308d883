/-
The first logical thread, run by the scaled function.

Scaling the grid puts a chain of instructions behind every read of the identity and the extent of a
level and lets the other readers read the end of it.  A thread of the scaled function then does what
the first logical thread does that it stands for, step by step, and stops for the chains only:

* `Func.Shows` — what can be seen of a function in a state of the scaled one;
* `Func.Scales.answers` — a step of the function, and what the scaled function does for it;
* `Func.scaleGrid_shows_first_thread` — the scaled function in step with the first logical thread.
-/
import KernelCoarsening.Proofs.Coarsening.Chains
import KernelCoarsening.Proofs.Coarsening.CloneLists
import KernelCoarsening.Proofs.Coarsening.Lockstep
import KernelCoarsening.Proofs.Coarsening.Scaling
import KernelCoarsening.Proofs.Divergence.Straight
import KernelCoarsening.Proofs.Execution.InStep

namespace KernelCoarsening

/-- The reads that scaling puts a chain behind. -/
def GridReads.rewritten (grid : GridReads) (c : CoarseningParams) : List InstId :=
  grid.identities c.level c.dim ++ grid.extents c.level c.dim

namespace Func

variable {f g : Func}

/-! ### What is seen of a function -/

/-- A state of a function, seen in a state of the scaled one: the same block, the same memory, the
instructions of the function that are left, and the values of those that are not scaled. -/
structure Shows (f : Func) (reads : List InstId) (s t : ThreadState) : Prop where
  block : t.block = s.block
  rest : t.rest.filter (fun i => i.index < f.insts.size) = s.rest
  values : ∀ i, (f.blockOf i).isSome → i ∉ reads → t.values i = s.values i
  memory : t.memory = s.memory

/-- What becomes of an instruction: it stays as it is, or what it stands for in the logical launch
is computed behind it and read in its place. -/
inductive ScaledAs (c : CoarseningParams) (new : List (InstId × Operation × Ty)) (stands i : InstId)
    (op : Operation) (ty : Ty) : Prop where
  | kept (alone : new = []) (same : stands = i)
      (identity : op.register? ≠ some (c.level.identity, c.dim))
      (extent : op.register? ≠ some (c.level.extent, c.dim))
  | extent {callee : String} {args : List Value} {n : Nat} (wide : ty.isWide)
      (read : op = .call callee args)
      (register : Register.ofAccessor? callee = some (c.level.extent, c.dim))
      (lines : new = extentLines c.factor i ty n) (base : stands = ⟨n⟩)
  | identity {callee : String} {args : List Value} {n : Nat} (wide : ty.isWide)
      (read : op = .call callee args)
      (register : Register.ofAccessor? callee = some (c.level.identity, c.dim))
      (lines : new = identityLines c i ty n) (base : stands = ⟨n + 3⟩)

/-- A function in which the reads of the place in the launch have been scaled. -/
structure Scales (f g : Func) (c : CoarseningParams) (reads : List InstId)
    (news : InstId → List (InstId × Operation × Ty)) (rename : InstId → InstId) : Prop where
  formed : f.outline.Formed
  factor : 0 < c.factor
  stride : 0 < c.stride
  small : c.stride < 2 ^ 32
  expands : f.Expands g news rename
  idle : ∀ i, i ∉ reads → rename i = i
  scaled : ∀ i op ty, (f.blockOf i).isSome → f.line i = some (op, ty) →
    ScaledAs c (news i) (rename i) i op ty
  read : ∀ i, (f.blockOf i).isSome → news i ≠ [] → i ∈ reads

/-- The instructions that the scaled function executes for one. -/
def chunkAt (news : InstId → List (InstId × Operation × Ty)) (i : InstId) : List InstId :=
  i :: (news i).map (·.1)

/-- Both functions are at the same instruction, and what is read in place of an instruction has its
value. -/
structure Aligned (f : Func) (news : InstId → List (InstId × Operation × Ty))
    (rename : InstId → InstId) (s t : ThreadState) : Prop where
  block : t.block = s.block
  code : ∃ before, f.code s.block = before ++ s.rest
  rest : t.rest = s.rest.flatMap (chunkAt news)
  values : ∀ i, (f.blockOf i).isSome → t.values (rename i) = s.values i
  memory : t.memory = s.memory

theorem exists_enter_error (given : Surroundings) (values : Values) (m : Memory)
    (source : Option BlockId) {b : BlockId} (outside : ¬ b.index < f.blocks.size) :
    ∃ cause, f.enter given values m source b = .error cause := by
  cases hb : f.block b with
  | ok block => exact absurd (Array.getElem?_eq_some_iff.mp (block_eq_ok_iff.mp hb)).1 outside
  | error fault => exact ⟨.fault fault, by simp [enter, hb, Except.mapError, bind, Except.bind]⟩

namespace Scales

variable {c : CoarseningParams} {reads : List InstId}
  {news : InstId → List (InstId × Operation × Ty)} {rename : InstId → InstId} {i j x : InstId}
  {op : Operation} {ty : Ty} {b : BlockId} {one : Surroundings} {s t : ThreadState}
  (scales : f.Scales g c reads news rename)
include scales

theorem consistent : f.Consistent := consistent_iff.mpr scales.formed.consistent

theorem code (b : BlockId) : (g.code b).filter (fun _ => true) = (f.code b).flatMap (chunkAt news) := by
  rw [List.filter_true, scales.expands.code]
  rfl

theorem placed (hi : i ∈ f.code b) : (f.blockOf i).isSome :=
  Option.isSome_of_eq_some (scales.consistent.mem_code.mp hi)

theorem nodup_chunk (placed : (f.blockOf i).isSome) : (chunkAt news i).Nodup :=
  Func.nodup_chunk scales.consistent scales.expands.consistent scales.code placed

theorem eq_of_mem_chunk (hi : (f.blockOf i).isSome) (hj : (f.blockOf j).isSome)
    (hx : x ∈ chunkAt news i) (hx' : x ∈ chunkAt news j) : i = j :=
  Func.eq_of_mem_chunk scales.consistent scales.expands.consistent scales.code hi hj hx hx'

/-- The lines of a chunk. -/
theorem line_new {l : InstId × Operation × Ty} (hl : l ∈ news i) : g.line l.1 = some l.2 :=
  (scales.expands.new i l hl).2.1

/-- What is read in place of an instruction belongs to its chunk and has its type. -/
theorem rename_mem (placed : (f.blockOf i).isSome) (line : f.line i = some (op, ty)) :
    rename i ∈ chunkAt news i ∧ (g.line (rename i)).map (·.2) = some ty := by
  cases scales.scaled i op ty placed line with
  | kept alone same =>
    rw [same, scales.expands.line_of_placed placed line]
    exact ⟨by simp [chunkAt], rfl⟩
  | @extent _ _ n _ _ _ lines base =>
    have mem : (⟨n⟩, .binary .mul (.inst i) (.ofNat c.factor), ty) ∈ news i := by
      simp [lines, extentLines]
    rw [base, scales.line_new mem]
    exact ⟨List.mem_cons_of_mem _ (List.mem_map_of_mem mem), rfl⟩
  | @identity _ _ n _ _ _ lines base =>
    have mem : (⟨n + 3⟩, .binary .add (.inst ⟨n + 1⟩) (.inst ⟨n + 2⟩), ty) ∈ news i := by
      simp [lines, identityLines, baseLines]
    rw [base, scales.line_new mem]
    exact ⟨List.mem_cons_of_mem _ (List.mem_map_of_mem mem), rfl⟩

/-- What is not a read stands for itself. -/
theorem alone_of_kept (placed : (f.blockOf i).isSome) (line : f.line i = some (op, ty))
    (noCall : op.callee? = none) : chunkAt news i = [i] ∧ rename i = i := by
  cases scales.scaled i op ty placed line with
  | kept alone same => exact ⟨by simp [chunkAt, alone], same⟩
  | extent _ read => simp [read, Operation.callee?] at noCall
  | identity _ read => simp [read, Operation.callee?] at noCall

/-- The filter of the old instructions undoes the expansion. -/
theorem filter_chunks {rest : List InstId} (inside : ∀ i ∈ rest, (f.blockOf i).isSome) :
    (rest.flatMap (chunkAt news)).filter (fun i => i.index < f.insts.size) = rest := by
  induction rest with
  | nil => rfl
  | cons i rest ih =>
    rw [List.forall_mem_cons] at inside
    have old := lt_of_placed inside.1
    have fresh : ((news i).map (·.1)).filter (fun i => i.index < f.insts.size) = [] := by
      refine List.filter_eq_nil_iff.mpr fun x hx => ?_
      obtain ⟨l, hl, rfl⟩ := List.mem_map.mp hx
      have := (scales.expands.new i l hl).1
      simpa using this
    rw [List.flatMap_cons, List.filter_append, ih inside.2, chunkAt, List.filter_cons, fresh]
    simp [old]

/-- At the same instruction, everything can be seen. -/
theorem shows_of_aligned (aligned : Aligned f news rename s t) : f.Shows reads s t where
  block := aligned.block
  rest := by
    obtain ⟨before, code⟩ := aligned.code
    rw [aligned.rest]
    exact scales.filter_chunks fun i hi => scales.placed (b := s.block) (by simp [code, hi])
  values i placed unread := by
    have := aligned.values i placed
    rwa [scales.idle i unread] at this
  memory := aligned.memory

/-! ### Entering a block -/

/-- What is computed behind a read is arithmetic. -/
theorem binary_of_mem (placed : (f.blockOf i).isSome) {l : InstId × Operation × Ty}
    (hl : l ∈ news i) : ∃ o a b, l.2.1 = .binary o a b := by
  obtain ⟨op, ty, line⟩ := exists_line placed
  cases scales.scaled i op ty placed line with
  | kept alone => simp [alone] at hl
  | extent _ _ _ lines =>
    obtain rfl : l = _ := by simpa [lines, extentLines] using hl
    exact ⟨_, _, _, rfl⟩
  | identity _ _ _ lines =>
    simp only [lines, identityLines, baseLines, siblingLines, List.mem_append, List.mem_cons,
      List.not_mem_nil, or_false, List.mem_map] at hl
    rcases hl with (rfl | rfl | rfl | rfl) | ⟨m, -, rfl⟩ <;> exact ⟨_, _, _, rfl⟩

/-- What an instruction is does not change, and what stands behind it is neither phi nor
terminator. -/
theorem does_of_mem_chunk (placed : (f.blockOf i).isSome) (line : f.line i = some (op, ty))
    (hx : x ∈ chunkAt news i) : g.outline.Does x fun op' =>
      op'.isPhi = op.isPhi ∧ op'.isTerminator = op.isTerminator ∨
        op'.isPhi = false ∧ op'.isTerminator = false := by
  rcases List.mem_cons.mp hx with rfl | hx
  · exact ⟨_, ty, scales.expands.line_of_placed placed line, .inl (by simp)⟩
  · obtain ⟨l, hl, rfl⟩ := List.mem_map.mp hx
    obtain ⟨o, a, b, binary⟩ := scales.binary_of_mem placed hl
    exact ⟨l.2.1, l.2.2, scales.line_new hl, .inr (by simp [binary, Operation.isPhi,
      Operation.isTerminator])⟩

theorem shape {phis body : List InstId} {last : InstId}
    (shape : f.outline.Shape b phis body last) :
    g.outline.Shape b phis (body.flatMap (chunkAt news)) last := by
  have code : f.code b = phis ++ (body ++ [last]) := shape.code
  have alone : ∀ i ∈ f.code b, ∀ {P : Operation → Prop}, f.outline.Does i P →
      (∀ op, P op → op.callee? = none) → chunkAt news i = [i] := by
    rintro i hi P ⟨op, ty, line, hP⟩ noCall
    exact (scales.alone_of_kept (scales.placed hi) line (noCall op hP)).1
  have phis_eq : phis.flatMap (chunkAt news) = phis := by
    conv_rhs => rw [← List.flatMap_singleton' phis]
    refine List.flatMap_congr fun i hi => ?_
    exact alone i (by simp [code, hi]) (shape.phis i hi) fun op => Operation.callee?_of_isPhi
  have last_eq : chunkAt news last = [last] :=
    alone last (by simp [code]) shape.last fun op => Operation.callee?_of_isTerminator
  have same : ∀ i ∈ f.code b, ∀ {P : Operation → Prop},
      (∀ op op' : Operation, op'.isPhi = op.isPhi → op'.isTerminator = op.isTerminator →
        P op → P op') → f.outline.Does i P → g.outline.Does i P := by
    rintro i hi P keeps ⟨op, ty, line, hP⟩
    exact ⟨_, ty, scales.expands.line_of_placed (scales.placed hi) line,
      keeps op _ (by simp) (by simp) hP⟩
  refine ⟨?_, fun i hi => ?_, fun x hx => ?_, ?_⟩
  · show g.code b = _
    rw [← List.filter_true (g.code b), scales.code, code, List.flatMap_append, List.flatMap_append,
      phis_eq]
    simp [last_eq]
  · exact same i (by simp [code, hi]) (fun op op' phi _ h => by rw [phi, h]) (shape.phis i hi)
  · obtain ⟨i, hi, hx⟩ := List.mem_flatMap.mp hx
    obtain ⟨op, ty, line, plain⟩ := shape.body i hi
    refine (scales.does_of_mem_chunk (scales.placed (b := b) (by simp [code, hi])) line hx).mono ?_
    rintro op' (⟨phi, term⟩ | new)
    · rw [phi, term]
      exact plain
    · exact new
  · exact same last (by simp [code]) (fun op op' _ term h => by rw [term, h]) shape.last

/-- A phi has the same value in both functions. -/
theorem phiDatum_eq {values v : Values}
    (valued : ∀ i, (f.blockOf i).isSome → v (rename i) = values i) (placed : (f.blockOf i).isSome)
    (phi : f.outline.Does i fun op => op.isPhi = true) (source : Option BlockId) :
    g.phiDatum? one v source i = f.phiDatum? (c.thread one 0) values source i := by
  obtain ⟨op, ty, line, phi⟩ := phi
  exact phiDatum_mapInst rfl rfl line (scales.expands.line_of_placed placed line) phi fun j used =>
    (valued j (scales.formed.operands i op ty placed line j used)).symm

/-- Both functions enter a block, or neither does. -/
theorem enter_alike {values v : Values}
    (valued : ∀ i, (f.blockOf i).isSome → v (rename i) = values i) (m : Memory)
    (source : Option BlockId) (b : BlockId) :
    Transition.Alike (Aligned f news rename)
      (.ofExcept (f.enter (c.thread one 0) values m source b))
      (.ofExcept (g.enter one v m source b)) := by
  by_cases inside : b.index < f.blocks.size
  · obtain ⟨phis, body, last, shape⟩ := scales.formed.formed b inside
    have code : f.code b = phis ++ (body ++ [last]) := shape.code
    have placed : ∀ i ∈ f.code b, (f.blockOf i).isSome := fun i hi => scales.placed hi
    have last_eq : chunkAt news last = [last] := by
      obtain ⟨op, ty, line, term⟩ := shape.last
      exact (scales.alone_of_kept (placed last (by simp [code])) line
        (Operation.callee?_of_isTerminator term)).1
    have data : List.Forall₂ (fun i j => g.phiDatum? one v source j =
        f.phiDatum? (c.thread one 0) values source i) phis phis :=
      List.forall₂_same.mpr fun i hi =>
        scales.phiDatum_eq valued (placed i (by simp [code, hi])) (shape.phis i hi) source
    rcases enter_together m m shape (scales.shape shape) data with
      ⟨cause, cause', failed, failed'⟩ | ⟨entered, entered'⟩
    · rw [failed, failed']
      exact .trap cause cause'
    · rw [entered, entered']
      refine .next ⟨rfl, ⟨phis, code⟩, by simp [Func.entered, last_eq], fun i hi => ?_, rfl⟩
      by_cases phi : i ∈ phis
      · obtain ⟨op, ty, line, isPhi⟩ := shape.phis i phi
        obtain ⟨-, same⟩ := scales.alone_of_kept hi line (Operation.callee?_of_isPhi isPhi)
        simp only [Func.entered, same, if_pos phi]
        exact scales.phiDatum_eq valued hi (shape.phis i phi) source
      · have other : rename i ∉ phis := by
          intro mem
          obtain ⟨op, ty, line⟩ := exists_line hi
          obtain ⟨op', ty', line', isPhi⟩ := shape.phis _ mem
          have own := (scales.rename_mem hi line).1
          have same := scales.eq_of_mem_chunk hi (placed _ (by simp [code, mem])) own
            (List.mem_cons_self ..)
          exact phi (same ▸ mem)
        simp only [Func.entered, if_neg phi, if_neg other]
        exact valued i hi
  · have outside : ¬ b.index < g.blocks.size := by
      rwa [size_blocks_eq scales.consistent scales.expands.consistent scales.expands.layout]
    obtain ⟨cause, failed⟩ := exists_enter_error (c.thread one 0) values m source inside
    obtain ⟨cause', failed'⟩ := exists_enter_error one v m source outside
    rw [failed, failed']
    exact .trap cause cause'

/-! ### Steps -/

/-- Behind the chunk of an instruction that has been given its value, the functions are at the same
instruction again. -/
theorem aligned_next (aligned : Aligned f news rename s t) {rest : List InstId}
    (head : s.rest = i :: rest) (line : f.line i = some (op, ty)) {d : Datum} {u : ThreadState}
    (block : u.block = t.block) (left : u.rest = rest.flatMap (chunkAt news))
    (others : ∀ x ∉ chunkAt news i, u.values x = t.values x)
    (own : u.values (rename i) = some (d.fit ty)) :
    Aligned f news rename (computed s i rest ty (d, u.memory)) u where
  block := block.trans aligned.block
  code := by
    obtain ⟨before, code⟩ := aligned.code
    exact ⟨before ++ [i], by simp [computed, code, head]⟩
  rest := left
  values j hj := by
    by_cases here : j = i
    · subst here
      simp [own, computed, Values.set]
    · obtain ⟨before, code⟩ := aligned.code
      have hi : (f.blockOf i).isSome := scales.placed (b := s.block) (by simp [code, head])
      obtain ⟨op', ty', line'⟩ := exists_line hj
      have apart : rename j ∉ chunkAt news i := fun mem =>
        here (scales.eq_of_mem_chunk hj hi (scales.rename_mem hj line').1 mem)
      rw [others _ apart, aligned.values j hj]
      simp [computed, Values.set, here]
  memory := rfl

/-- Operands have the same values, so both functions do the same. -/
theorem execute_eq (aligned : Aligned f news rename s t) (placed : (f.blockOf i).isSome)
    (line : f.line i = some (op, ty)) (identity : op.register? ≠ some (c.level.identity, c.dim))
    (extent : op.register? ≠ some (c.level.extent, c.dim)) :
    (op.execute (c.thread one 0) f s.values s.memory i).toOption =
      ((op.mapOperands (·.mapInst rename)).execute one g t.values t.memory i).toOption := by
  have acts : (op.act (c.thread one 0) f s.values i).toOption =
      ((op.mapOperands (·.mapInst rename)).act one g t.values i).toOption := by
    refine Operation.act_map i i fun value hv => Operation.agree_mapInst rfl rfl
      scales.expands.params.symm fun j read => ?_
    have used : j ∈ op.usedInsts := List.mem_filterMap.mpr ⟨value, hv, by rw [read]; rfl⟩
    have placedJ : (f.blockOf j).isSome := scales.formed.operands i op ty placed line j used
    obtain ⟨op', ty', line'⟩ := exists_line placedJ
    refine ⟨(aligned.values j placedJ).symm, ?_⟩
    rw [(scales.rename_mem placedJ line').2, line']
    rfl
  rw [Operation.execute_eq, Operation.execute_eq, toOption_bind, toOption_bind, ← acts,
    aligned.memory]
  refine Option.bind_congr fun action taken => ?_
  cases action with
  | register r d =>
    -- no other register is read differently
    have read := Operation.register_of_act (toOption_eq_some_iff.mp taken)
    have same : (c.thread one 0).position.read r d = one.position.read r d :=
      CoarseningParams.thread_register (fun h => identity (h ▸ read)) fun h => extent (h ▸ read)
    simp [Action.perform, same]
  | _ => rfl

/-- What is not a read does the same in both functions. -/
theorem step_kept (aligned : Aligned f news rename s t) {rest : List InstId}
    (head : s.rest = i :: rest) (placed : (f.blockOf i).isSome) (line : f.line i = some (op, ty))
    (plain : op.isTerminator = false) (alone : news i = []) (same : rename i = i)
    (identity : op.register? ≠ some (c.level.identity, c.dim))
    (extent : op.register? ≠ some (c.level.extent, c.dim)) :
    Transition.Alike (Aligned f news rename) (f.step (c.thread one 0) s) (g.step one t) := by
  have chunk : chunkAt news i = [i] := by simp [chunkAt, alone]
  have head' : t.rest = i :: rest.flatMap (chunkAt news) := by
    rw [aligned.rest, head, List.flatMap_cons, chunk]
    rfl
  rw [step_of_plain head line plain,
    step_of_plain head' (scales.expands.line_of_placed placed line) (by simpa using plain)]
  refine Transition.alike_map (scales.execute_eq aligned placed line identity extent)
    fun ⟨d, m⟩ => ?_
  refine scales.aligned_next (u := computed t i _ ty (d, m)) aligned head line rfl rfl
    (fun x hx => ?_) ?_
  · have other : x ≠ i := by simpa [chunk] using hx
    simp [computed, Values.set, other]
  · simp [computed, Values.set, same]

/-- The scaled function executes the chunk of a read for the read. -/
theorem answers_of_computes (aligned : Aligned f news rename s t) {rest : List InstId}
    (head : s.rest = i :: rest) (placed : (f.blockOf i).isSome) (line : f.line i = some (op, ty))
    (read : i ∈ reads) {d : Datum} {u : ThreadState}
    (step : f.step (c.thread one 0) s = .next (computed s i rest ty (d, s.memory)))
    (computes : g.Computes one (chunkAt news i) t u)
    (own : u.values (rename i) = some (d.fit ty)) :
    Transition.Answers g one (Aligned f news rename) (f.Shows reads) (f.step (c.thread one 0) s)
      (g.step one t) := by
  have left : u.rest = rest.flatMap (chunkAt news) := by
    have := aligned.rest.symm.trans computes.rest
    rw [head, List.flatMap_cons] at this
    exact (List.append_cancel_left this).symm
  have memory : u.memory = s.memory := computes.memory.trans aligned.memory
  have next := scales.aligned_next aligned head line computes.block left
    (fun x => computes.others) own
  rw [memory] at next
  rw [step]
  refine ⟨(news i).length, fun j hj => ?_, ?_⟩
  · -- within the chunk, only values of new instructions and of the read have changed
    have split : chunkAt news i = (chunkAt news i).take (j + 1) ++ ((news i).map (·.1)).drop j :=
      (List.take_append_drop (j + 1) (chunkAt news i)).symm
    rw [split] at computes
    obtain ⟨v, first, second⟩ := Computes.append_iff.mp computes
    have runs := first.runs
    rw [List.length_take_of_le (by simp [chunkAt]; omega)] at runs
    rw [show g.run one j (g.step one t) = .next v from runs]
    refine .next ⟨first.block.trans aligned.block, ?_, fun x hx unread => ?_,
      first.memory.trans aligned.memory⟩
    · obtain ⟨before, code⟩ := aligned.code
      have inside : ∀ k ∈ rest, (f.blockOf k).isSome := fun k hk =>
        scales.placed (b := s.block) (by simp [code, head, hk])
      have fresh : (((news i).map (·.1)).drop j).filter (fun i => i.index < f.insts.size) = [] := by
        refine List.filter_eq_nil_iff.mpr fun x hx => ?_
        obtain ⟨l, hl, rfl⟩ := List.mem_map.mp (List.mem_of_mem_drop hx)
        have := (scales.expands.new i l hl).1
        simpa using this
      rw [second.rest, left, List.filter_append, fresh, scales.filter_chunks inside]
      rfl
    · have other : x ≠ i := fun same => unread (same ▸ read)
      have apart : x ∉ (chunkAt news i).take (j + 1) := fun mem =>
        other (scales.eq_of_mem_chunk hx placed (List.mem_cons_self ..) (List.mem_of_mem_take mem))
      have before := aligned.values x hx
      rw [scales.idle x unread] at before
      rw [first.others apart, before]
      simp [computed, Values.set, other]
  · have runs := computes.runs
    rw [chunkAt, List.length_cons, List.length_map] at runs
    rw [show g.run one (news i).length (g.step one t) = .next u from runs]
    exact .next next

/-- A read of the extent: the first logical thread reads the logical extent, and the scaled function
computes it. -/
theorem answers_extent (aligned : Aligned f news rename s t) {rest : List InstId}
    (head : s.rest = i :: rest) (placed : (f.blockOf i).isSome) {callee : String}
    {args : List Value} {n : Nat} (line : f.line i = some (.call callee args, ty))
    (wide : ty.isWide) (register : Register.ofAccessor? callee = some (c.level.extent, c.dim))
    (lines : news i = extentLines c.factor i ty n) (base : rename i = ⟨n⟩) :
    Transition.Answers g one (Aligned f news rename) (f.Shows reads) (f.step (c.thread one 0) s)
      (g.step one t) := by
  have chunk : chunkAt news i = [i, ⟨n⟩] := by simp [chunkAt, lines, extentLines]
  have product : g.line ⟨n⟩ = some (.binary .mul (.inst i) (.ofNat c.factor), ty) :=
    scales.line_new (i := i) (l := (⟨n⟩, _)) (by simp [lines, extentLines])
  have head' : t.rest = i :: ⟨n⟩ :: rest.flatMap (chunkAt news) := by
    rw [aligned.rest, head, List.flatMap_cons, chunk]
    rfl
  obtain ⟨u, computes, value⟩ := exists_extent one wide register
    (scales.expands.line_of_placed placed line) product head'
  refine scales.answers_of_computes aligned head placed line
    (scales.read i placed (by simp [lines, extentLines])) (step_register head line register)
    (chunk ▸ computes) ?_
  rw [base, value, CoarseningParams.thread_extent]
  rfl

/-- A read of the identity: the first logical thread reads the first logical identity, and the
scaled function computes all of them. -/
theorem answers_identity (smallP : one.position.read c.level.identity c.dim < 2 ^ 32)
    (aligned : Aligned f news rename s t) {rest : List InstId}
    (head : s.rest = i :: rest) (placed : (f.blockOf i).isSome) {callee : String}
    {args : List Value} {n : Nat} (line : f.line i = some (.call callee args, ty))
    (wide : ty.isWide) (register : Register.ofAccessor? callee = some (c.level.identity, c.dim))
    (lines : news i = identityLines c i ty n) (base : rename i = ⟨n + 3⟩) :
    Transition.Answers g one (Aligned f news rename) (f.Shows reads) (f.step (c.thread one 0) s)
      (g.step one t) := by
  have new : ∀ l ∈ identityLines c i ty n, g.line l.1 = some l.2 := fun l hl =>
    scales.line_new (lines ▸ hl)
  simp only [identityLines, baseLines, List.forall_mem_append, List.forall_mem_cons] at new
  obtain ⟨⟨quotient, product, remainder, sum, -⟩, siblings⟩ := new
  have chunk : chunkAt news i =
      i :: ⟨n⟩ :: ⟨n + 1⟩ :: ⟨n + 2⟩ :: (List.range c.factor).map fun k => ⟨n + 3 + k⟩ := by
    obtain ⟨others, count⟩ : ∃ others, c.factor = others + 1 :=
      ⟨c.factor - 1, by have := scales.factor; omega⟩
    rw [chunkAt, lines, count, List.range_succ_eq_map]
    simp +arith [identityLines, baseLines, siblingLines, count, Function.comp_def]
  have sibling : ∀ k < c.factor, k ≠ 0 → g.line ⟨n + 3 + k⟩ = some (.binary .add
      (.inst ⟨n + 3⟩) (.const (Int64.ofNat k * Int64.ofNat c.stride)), ty) := by
    intro k hk zero
    obtain ⟨m, rfl⟩ : ∃ m, k = m + 1 := ⟨k - 1, by omega⟩
    have mem : m ∈ List.range (c.factor - 1) := List.mem_range.mpr (by omega)
    have := siblings _ (List.mem_map_of_mem mem)
    rwa [show n + 4 + m = n + 3 + (m + 1) by omega, Nat.add_comm 1 m] at this
  obtain ⟨u, computes, values⟩ := exists_identities one (fun k => ⟨n + 3 + k⟩) wide scales.factor
    scales.stride scales.small register (scales.expands.line_of_placed placed line) quotient product
    remainder sum sibling (chunk ▸ scales.nodup_chunk placed) smallP
    (by rw [aligned.rest, head, List.flatMap_cons, chunk])
  refine scales.answers_of_computes aligned head placed line
    (scales.read i placed (by simp [lines, identityLines, baseLines]))
    (step_register head line register) (chunk ▸ computes) ?_
  rw [base, values 0 scales.factor, CoarseningParams.thread_identity]
  rfl

/-- A terminator leads both functions to the same block, or ends both runs. -/
theorem step_terminator (aligned : Aligned f news rename s t) {rest : List InstId}
    (head : s.rest = i :: rest) (placed : (f.blockOf i).isSome) (line : f.line i = some (op, ty))
    (term : op.isTerminator = true) :
    Transition.Alike (Aligned f news rename) (f.step (c.thread one 0) s) (g.step one t) := by
  obtain ⟨chunk, -⟩ := scales.alone_of_kept placed line (Operation.callee?_of_isTerminator term)
  have head' : t.rest = i :: rest.flatMap (chunkAt news) := by
    rw [aligned.rest, head, List.flatMap_cons, chunk]
    rfl
  have line' := scales.expands.line_of_placed placed line
  cases op with
  | jump b =>
    rw [step_of_jump head line, step_of_jump head' line', aligned.block, aligned.memory]
    exact scales.enter_alike aligned.values s.memory (some s.block) b
  | branch v b b' =>
    rw [step_of_branch head line, step_of_branch head' line', aligned.block, aligned.memory]
    have same : (v.number (c.thread one 0) s.values).toOption =
        ((v.mapInst rename).number one t.values).toOption := by
      have datum : (v.datum (c.thread one 0) s.values).toOption =
          ((v.mapInst rename).datum one t.values).toOption := by
        refine Value.datum_mapInst rfl rfl fun j read => ?_
        have used : j ∈ (Operation.branch v b b').usedInsts :=
          List.mem_filterMap.mpr ⟨v, by simp [Operation.operands], by rw [read]; rfl⟩
        exact (aligned.values j (scales.formed.operands i _ ty placed line j used)).symm
      simp only [Value.number, toOption_bind, datum]
    cases condition : v.number (c.thread one 0) s.values with
    | ok n =>
      have condition' := toOption_eq_some_iff.mp (same.symm.trans (by rw [condition]; rfl))
      rw [condition']
      exact scales.enter_alike aligned.values s.memory (some s.block) (if truth n then b else b')
    | error cause =>
      cases condition' : (v.mapInst rename).number one t.values with
      | ok n => simp [condition, condition'] at same
      | error cause' => exact .trap cause cause'
  | ret v =>
    rw [step_of_ret head line, step_of_ret head' line', aligned.memory]
    exact .finish s.memory
  | unreachable =>
    rw [step_of_unreachable head line, step_of_unreachable head' line']
    exact .trap .unreachable .unreachable
  | _ => simp [Operation.isTerminator] at term

/-- The scaled function answers a step of the first logical thread. -/
theorem answers (smallP : one.position.read c.level.identity c.dim < 2 ^ 32)
    (aligned : Aligned f news rename s t) :
    Transition.Answers g one (Aligned f news rename) (f.Shows reads) (f.step (c.thread one 0) s)
      (g.step one t) := by
  cases head : s.rest with
  | nil =>
    have head' : t.rest = [] := by rw [aligned.rest, head]; rfl
    refine .of_alike ?_
    simp only [step, head, head']
    exact .trap _ _
  | cons i rest =>
    obtain ⟨before, code⟩ := aligned.code
    have placed : (f.blockOf i).isSome := scales.placed (b := s.block) (by simp [code, head])
    obtain ⟨op, ty, line⟩ := exists_line placed
    by_cases term : op.isTerminator
    · exact .of_alike (scales.step_terminator aligned head placed line term)
    cases scales.scaled i op ty placed line with
    | kept alone same identity extent =>
      exact .of_alike (scales.step_kept aligned head placed line (by simpa using term) alone same
        identity extent)
    | extent wide read register lines base =>
      exact scales.answers_extent aligned head placed (read ▸ line) wide register lines base
    | identity wide read register lines base =>
      exact scales.answers_identity smallP aligned head placed (read ▸ line) wide register lines base

end Scales

/-! ### The scaled grid -/

section

variable {c : CoarseningParams} {selector : DimensionSelector} {grid : GridReads}

/-- The scaled function exists, and what becomes of each instruction is known. -/
theorem exists_scales (consistent : f.Consistent) (flawless : f.firstFlaw? = .ok none)
    (reads : f.gridReads selector = .ok grid) (included : selector.includes c.dim)
    (wide : ∀ i ∈ grid.rewritten c, ∀ op ty, f.line i = some (op, ty) → ty.isWide)
    (valid : c.error? = none) (small : c.stride < 2 ^ 32) :
    ∃ g map news rename, f.scaleGrid grid c = .ok (.ok (g, map)) ∧
      f.Scales g c (grid.rewritten c) news rename := by
  obtain ⟨g, map, news, rename, answer, scaled⟩ := exists_scaleGrid consistent grid c valid
    (nodup_reads consistent reads) (fun i hi => (placed_reads consistent reads hi).1)
    fun i hi => (placed_reads consistent reads hi).2
  obtain ⟨factor, stride⟩ := CoarseningParams.error?_eq_none_iff.mp valid
  have call : ∀ {i r op ty}, i ∈ grid.along r c.dim → f.line i = some (op, ty) →
      ∃ callee args, op = .call callee args ∧ Register.ofAccessor? callee = some (r, c.dim) := by
    intro i r op ty read line
    obtain ⟨-, op', ty', line', register⟩ := (mem_along consistent reads included).mp read
    obtain ⟨rfl, -⟩ : op = op' ∧ ty = ty' := by
      simpa [show f.line i = _ from line'] using line.symm
    exact Operation.exists_call_of_register register
  refine ⟨g, map, news, rename, answer, formed_of_flawless consistent flawless, by omega,
    stride, small, scaled.expands, fun i other => ?_, fun i op ty placed line => ?_,
    fun i placed some => ?_⟩
  · simp only [GridReads.rewritten, List.mem_append, not_or] at other
    exact (scaled.idle i (by simpa using other.2) (by simpa using other.1)).2
  · by_cases identity : i ∈ grid.identities c.level c.dim
    · obtain ⟨callee, args, read, register⟩ := call identity line
      obtain ⟨n, lines, base, -⟩ := scaled.identity i (List.mem_reverse.mpr identity) op ty line
      exact .identity (wide i (List.mem_append_left _ identity) op ty line) read register lines base
    by_cases extent : i ∈ grid.extents c.level c.dim
    · obtain ⟨callee, args, read, register⟩ := call extent line
      obtain ⟨n, lines, base⟩ := scaled.extent i (List.mem_reverse.mpr extent) op ty line
      exact .extent (wide i (List.mem_append_right _ extent) op ty line) read register lines base
    · obtain ⟨alone, same⟩ := scaled.idle i (by simpa using extent) (by simpa using identity)
      have listed : ∀ r, op.register? = some (r, c.dim) → i ∈ grid.along r c.dim := fun r read =>
        (mem_along consistent reads included).mpr ⟨placed, op, ty, line, read⟩
      exact .kept alone same (fun read => identity (listed _ read)) fun read =>
        extent (listed _ read)
  · by_contra other
    simp only [GridReads.rewritten, List.mem_append, not_or] at other
    exact some (scaled.idle i (by simpa using other.2) (by simpa using other.1)).1

/-- The scaled function does what the first logical thread does that a thread stands for: it goes
through the same blocks and the same instructions, these have the same values unless they read the
place in the launch, the memories are the same after each of them, and the run ends in the same
way. -/
theorem scaleGrid_shows_first_thread (consistent : f.Consistent)
    (flawless : f.firstFlaw? = .ok none) (reads : f.gridReads selector = .ok grid)
    (included : selector.includes c.dim)
    (wide : ∀ i ∈ grid.rewritten c, ∀ op ty, f.line i = some (op, ty) → ty.isWide)
    (valid : c.error? = none) (small : c.stride < 2 ^ 32) :
    ∃ g map, f.scaleGrid grid c = .ok (.ok (g, map)) ∧ ∀ one m,
      c.identityOf (one.position.read c.level.identity c.dim) 0 < 2 ^ 32 →
        Transition.InStep (f.Shows (grid.rewritten c))
          (f.run (c.thread one 0) · (f.begin (c.thread one 0) m)) (g.run one · (g.begin one m)) := by
  obtain ⟨g, map, news, rename, answer, scales⟩ :=
    exists_scales consistent flawless reads included wide valid small
  refine ⟨g, map, answer, fun one m smallId => ?_⟩
  have smallP : one.position.read c.level.identity c.dim < 2 ^ 32 :=
    Nat.lt_of_le_of_lt (CoarseningParams.le_identityOf scales.factor) smallId
  refine inStep_of_answers (fun s t => scales.shows_of_aligned)
    (fun s t => scales.answers smallP) ?_
  have entry : g.entry = f.entry := by simp [Func.entry, scales.expands.layout]
  unfold Func.begin
  rw [entry]
  have start : ∀ i, (f.blockOf i).isSome →
      (fun _ => none : Values) (rename i) = (fun _ => none : Values) i := fun _ _ => rfl
  exact scales.enter_alike start m none f.entry

end

end Func

/-! ### A sum, seen by one thread -/

/-- The second of two threads, which is told to go around twice. -/
def tallySecond : Surroundings where
  position := ⟨⟨1, 0, 0⟩, ⟨0, 0, 0⟩, ⟨2, 1, 1⟩, ⟨1, 1, 1⟩⟩
  args := [.address ⟨0, 0⟩, .number 2]
  globals := []

/-- Adds the logical extent of four twice to the logical identity two, in step with the logical
thread. -/
theorem tally_shows_first_thread : ∃ g map,
    tally.scaleGrid tallyFound.grid ⟨.thread, .x, 2, 1⟩ = .ok (.ok (g, map)) ∧
      Transition.InStep (tally.Shows [⟨0⟩, ⟨1⟩])
        (tally.run (CoarseningParams.thread ⟨.thread, .x, 2, 1⟩ tallySecond 0) ·
          (tally.begin (CoarseningParams.thread ⟨.thread, .x, 2, 1⟩ tallySecond 0) ⟨[[0, 0, 0, 0]]⟩))
        (g.run tallySecond · (g.begin tallySecond ⟨[[0, 0, 0, 0]]⟩)) ∧
      g.Runs tallySecond ⟨[[0, 0, 0, 0]]⟩ ⟨[[0, 0, 10, 0]]⟩ := by
  have reads : tally.gridReads (.only .x) = .ok tallyFound.grid := by rfl
  have wide : ∀ i ∈ tallyFound.grid.rewritten ⟨.thread, .x, 2, 1⟩, ∀ op ty,
      tally.line i = some (op, ty) → ty.isWide := by
    intro i hi op ty line
    obtain rfl | rfl : i = ⟨0⟩ ∨ i = ⟨1⟩ := by
      have listed : i ∈ [⟨0⟩, ⟨1⟩] := hi
      simpa using listed
    · exact .inl (Prod.mk.inj (Option.some.inj line)).2.symm
    · exact .inl (Prod.mk.inj (Option.some.inj line)).2.symm
  obtain ⟨g, map, answer, inStep⟩ := Func.scaleGrid_shows_first_thread (f := tally)
    (c := ⟨.thread, .x, 2, 1⟩) (Func.consistent_assemble ..) (by cbv) reads (by decide) wide
    (by decide) (by decide)
  have logical : tally.Runs (CoarseningParams.thread ⟨.thread, .x, 2, 1⟩ tallySecond 0)
      ⟨[[0, 0, 0, 0]]⟩ ⟨[[0, 0, 10, 0]]⟩ := Func.finishes_iff_run.mpr ⟨24, by rfl⟩
  have steps := inStep tallySecond ⟨[[0, 0, 0, 0]]⟩ (by decide)
  exact ⟨g, map, answer, steps, (Func.finishes_iff_of_inStep steps).mp logical⟩

/-- Reads that have been looked for along another dimension only are not scaled: the thread goes on
seeing its physical place, and adds the physical extent to it. -/
theorem tally_other_dimension :
    tally.Consistent ∧ tally.firstFlaw? = .ok none ∧ tally.CallsRead .x ∧
      tally.gridReads (.only .y) = .ok ⟨[], []⟩ ∧
      tally.scaleGrid ⟨[], []⟩ ⟨.thread, .x, 2, 1⟩ = .ok (.ok (tally, .empty)) ∧
      ∀ reads, ¬ Transition.InStep (tally.Shows reads)
        (tally.run (CoarseningParams.thread ⟨.thread, .x, 2, 1⟩ tallySecond 0) ·
          (tally.begin (CoarseningParams.thread ⟨.thread, .x, 2, 1⟩ tallySecond 0) ⟨[[0, 0, 0, 0]]⟩))
        (tally.run tallySecond · (tally.begin tallySecond ⟨[[0, 0, 0, 0]]⟩)) := by
  refine ⟨Func.consistent_assemble .., by cbv, (by decide), by rfl, by rfl,
    fun reads inStep => ?_⟩
  have logical : tally.Runs (CoarseningParams.thread ⟨.thread, .x, 2, 1⟩ tallySecond 0)
      ⟨[[0, 0, 0, 0]]⟩ ⟨[[0, 0, 10, 0]]⟩ := Func.finishes_iff_run.mpr ⟨24, by rfl⟩
  have physical : tally.Runs tallySecond ⟨[[0, 0, 0, 0]]⟩ ⟨[[0, 5, 0, 0]]⟩ :=
    Func.finishes_iff_run.mpr ⟨24, by rfl⟩
  have same := ((Func.finishes_iff_of_inStep inStep).mp logical).unique physical
  exact absurd same (by decide)

end KernelCoarsening
