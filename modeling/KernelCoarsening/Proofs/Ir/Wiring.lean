/-
Edits have answers.

An edit fails only if it follows a handle outside its arena.  In a consistent function the
handles that blocks and instructions hold lead somewhere, but for those in operations: a branch
may lead to a block that does not exist.

* `Func.Wired`, `Func.Holds` — what instructions lead to exists, and so do the copies of blocks;
* `Func.Wired.append`, `Func.Wired.splitBlock`, … — edits keep it so;
* `Func.Consistent.answers_append`, `Func.Consistent.answers_splitBlock`, … — an edit has an
  answer if its handles exist.
-/
import KernelCoarsening.Proofs.Flow.Loops
import KernelCoarsening.Proofs.Ir.Editing

namespace KernelCoarsening

namespace Func

variable {f g : Func} {b c : BlockId} {i j : InstId} {n m : Nat}

/-- What instructions lead to exists, whether they are placed or not, and there are at least so
many blocks. -/
structure Wired (f : Func) (n : Nat) : Prop where
  room : n ≤ f.blocks.size
  targets : ∀ i op ty, f.line i = some (op, ty) → ∀ c ∈ op.successors, c.index < f.blocks.size

/-! ### Targets -/

theorem Wired.mono (h : f.Wired n) (le : m ≤ n) : f.Wired m := ⟨Nat.le_trans le h.room, h.targets⟩

theorem Wired.modifyInst (h : f.Wired n) {k : Inst → Inst}
    (leads : ∀ inst, ∀ c ∈ (k inst).op.successors, c ∈ inst.op.successors ∨ c.index < n) :
    Yields (f.modifyInst i k) (Wired · n) := by
  intro g answer
  obtain ⟨inst, hi, -⟩ := bind_eq_ok_iff.mp answer
  obtain ⟨g', answer', same⟩ := outline_modifyInst k hi
  obtain rfl : g' = g := by simpa [answer'] using answer
  have size : g'.blocks.size = f.blocks.size := congrArg Outline.blocks same
  have lines : g'.line = Function.update f.line i (some ((k inst).op, (k inst).ty)) :=
    congrArg Outline.line same
  refine ⟨size ▸ h.room, fun j op ty line c hc => ?_⟩
  rw [size]
  by_cases here : j = i
  · obtain ⟨rfl, -⟩ : (k inst).op = op ∧ (k inst).ty = ty := by simpa [lines, here] using line
    rcases leads inst c hc with old | new
    · exact h.targets i _ _ (line_of_inst hi) c old
    · exact Nat.lt_of_lt_of_le new h.room
  · exact h.targets j op ty (by simpa [lines, here] using line) c hc

theorem Wired.modifyOperation (h : f.Wired n) {k : Operation → Operation}
    (leads : ∀ op, ∀ c ∈ (k op).successors, c ∈ op.successors ∨ c.index < n) :
    Yields (f.modifyOperation i k) (Wired · n) :=
  h.modifyInst fun inst => leads inst.op

theorem Wired.modifyBlock (h : f.Wired n) {k : Block → Block} :
    Yields (f.modifyBlock b k) (Wired · n) := by
  refine .ask fun block _ => .pure ⟨?_, fun i op ty line c hc => ?_⟩
  · simpa using h.room
  · simpa using h.targets i op ty line c hc

theorem Wired.newBlock (h : f.Wired n) (name : String) (layout : List BlockId) :
    Wired { (f.newBlock name).1 with layout } (f.blocks.size + 1) where
  room := by simp [Func.newBlock]
  targets i op ty line c hc := by
    have := h.targets i op ty line c hc
    simp only [Func.newBlock, Array.size_push]
    omega

theorem Wired.newInst (h : f.Wired n) {op : Operation}
    (lands : ∀ c ∈ op.successors, c.index < f.blocks.size) (ty : Ty) (name : String) :
    (f.newInst op ty name).1.Wired n where
  room := h.room
  targets j op' ty' line c hc := by
    have lines : (f.newInst op ty name).1.line =
        Function.update f.line ⟨f.insts.size⟩ (some (op, ty)) :=
      congrArg Outline.line (outline_newInst op ty name)
    by_cases here : j = ⟨f.insts.size⟩
    · obtain ⟨rfl, -⟩ : op = op' ∧ ty = ty' := by simpa [lines, here] using line
      exact lands c hc
    · exact h.targets j op' ty' (by simpa [lines, here] using line) c hc

theorem Wired.place (h : f.Wired n) {place : Nat} : Yields (f.place b place i) (Wired · n) :=
  h.modifyBlock.bind fun _ h₁ => h₁.modifyInst fun _ _ hc => .inl hc

theorem Wired.append (h : f.Wired n) {op : Operation} {ty : Ty} {name : String}
    (lands : ∀ c ∈ op.successors, c.index < f.blocks.size) :
    Yields (f.append b op ty name) fun r => r.1.Wired n :=
  .ask fun _ _ => (h.newInst lands ty name).place.bind fun _ hg => .pure hg

theorem Wired.attachAfter (h : f.Wired n) {anchor : InstId} :
    Yields (f.attachAfter anchor i) (Wired · n) := by
  refine .ask fun place _ => ?_
  match place with
  | none => exact .pure h
  | some (b, place) =>
    refine .ask fun op _ => ?_
    split
    · refine .ask fun op' _ => ?_
      split
      · exact h.place
      · exact .ask fun _ _ => h.place
    · exact h.place

theorem Wired.insertAfter (h : f.Wired n) {anchor : InstId} {op : Operation} {ty : Ty}
    {name : String} (lands : ∀ c ∈ op.successors, c.index < f.blocks.size) :
    Yields (f.insertAfter anchor op ty name) fun r => r.1.Wired n :=
  (h.newInst lands ty name).attachAfter.bind fun _ hg => .pure hg

theorem Wired.insertBefore (h : f.Wired n) {anchor : InstId} {op : Operation} {ty : Ty}
    {name : String} (lands : ∀ c ∈ op.successors, c.index < f.blocks.size) :
    Yields (f.insertBefore anchor op ty name) fun r => r.1.Wired n := by
  refine .ask fun place _ => ?_
  match place with
  | none => exact .pure (h.newInst lands ty name)
  | some (b, place) => exact (h.newInst lands ty name).place.bind fun _ hg => .pure hg

theorem Wired.copyInst (h : f.Wired n) {name : String} :
    Yields (f.copyInst i name) fun r => r.1.Wired n :=
  .ask fun inst hi => .pure (h.newInst (h.targets i _ _ (line_of_inst hi)) inst.ty name)

theorem Wired.erase (h : f.Wired n) : Yields (f.erase i) (Wired · n) := by
  refine .ask fun inst _ => ?_
  split
  · exact .pure h
  · exact Yields.bind (h.modifyInst fun _ _ hc => .inl hc) fun _ h₁ => h₁.modifyBlock

theorem Wired.replaceUsesExcept (h : f.Wired n) {old : InstId} {new : Value} {keep : List InstId} :
    Yields (f.replaceUsesExcept old new keep) fun r => r.1.Wired n := by
  refine .ask fun users _ => ?_
  refine .foldlM (r := fun r : Func × Nat => r.1.Wired n) h fun r hr user _ => ?_
  obtain ⟨g, count⟩ := r
  dsimp only
  split
  · exact .pure hr
  · refine .ask fun op _ => (hr.modifyOperation fun op c hc => .inl ?_).bind fun _ hg => .pure hg
    simpa [Operation.substitute] using hc

/-- A redirected operation leads where it led, or to the new block. -/
theorem Operation.mem_successors_redirect {old new : BlockId} {op : Operation}
    (hc : c ∈ (op.mapSuccessors (Operation.redirect old new)).successors) :
    c ∈ op.successors ∨ c = new := by
  obtain ⟨d, hd, rfl⟩ := List.mem_map.mp (by simpa using hc)
  unfold Operation.redirect
  split
  · exact .inr rfl
  · exact .inl hd

theorem Wired.replaceSuccessor (h : f.Wired n) {old new : BlockId} (lands : new.index < n) :
    Yields (f.replaceSuccessor b old new) (Wired · n) := by
  refine .ask fun term _ => ?_
  cases term with
  | none => exact .pure h
  | some term =>
    refine h.modifyOperation fun op c hc => ?_
    rcases Operation.mem_successors_redirect hc with old | rfl
    · exact .inl old
    · exact .inr lands

/-- A block is led to a block that exists. -/
theorem Wired.redirect (h : f.Wired 0) {old new : BlockId} (lands : new.index < f.blocks.size) :
    Yields (f.replaceSuccessor b old new) (Wired · 0) := by
  have all : f.Wired f.blocks.size := ⟨Nat.le_refl _, h.targets⟩
  exact (all.replaceSuccessor lands).mono fun _ hg => hg.mono (Nat.zero_le _)

theorem Wired.renameIncoming (h : f.Wired n) {old new : BlockId} :
    Yields (f.renameIncoming b old new) (Wired · n) :=
  .ask fun _ _ => .foldlM h fun _ h _ _ => h.modifyOperation fun op c hc => .inl (by simpa using hc)

theorem Wired.splitBlock (h : f.Wired n) {cut : Nat} {name : String} :
    Yields (f.splitBlock b cut name) fun r => r.1.Wired n := by
  refine .ask fun block _ => ?_
  split
  · intro r answer
    simp [throw, throwThe, MonadExceptOf.throw, bind, Except.bind] at answer
  · -- from here on there is a slot for the new block
    have h₀ := h.newBlock name (f.addBlockAfter b name).1.layout
    refine h₀.modifyBlock.bind fun _ h₁ => ?_
    refine Yields.bind (p := (Wired · (f.blocks.size + 1)))
      (.foldlM h₁ fun _ h _ _ => h.modifyInst fun _ _ hc => .inl hc) fun _ h₂ => ?_
    refine h₂.modifyBlock.bind fun _ h₃ => .ask fun succs _ => ?_
    refine Yields.bind (p := (Wired · (f.blocks.size + 1)))
      (.foldlM h₃ fun _ h _ _ => h.renameIncoming) fun f₄ h₄ => ?_
    have lands : ∀ c ∈ (Operation.jump ⟨f.blocks.size⟩).successors, c.index < f₄.blocks.size := by
      intro c hc
      obtain rfl : c = ⟨f.blocks.size⟩ := by simpa [Operation.successors] using hc
      exact h₄.room
    refine (h₄.append lands).bind fun _ h₅ => .pure (h₅.mono ?_)
    exact Nat.le_succ_of_le h.room

/-- What is appended has a slot. -/
theorem slot_append {op : Operation} {ty : Ty} {name : String} :
    Yields (f.append b op ty name) fun r => r.2.index < r.1.insts.size := by
  refine .ask fun _ _ => grows_place.bind fun _ grown => .pure ?_
  exact Nat.lt_of_lt_of_le (by simp) grown.insts

/-- The copies that a copy of blocks is made of exist in a function. -/
structure Holds (f : Func) (copy : BlockCopy) : Prop where
  mapped : ∀ b c, copy.blockMap.get? b = some c → c.index < f.blocks.size
  copies : ∀ c ∈ copy.blocks, c.index < f.blocks.size
  insts : ∀ i j, (i, j) ∈ copy.instMap → j.index < f.insts.size

theorem Holds.grow {copy : BlockCopy} (h : f.Holds copy) (grown : f.Grows g) : g.Holds copy where
  mapped b c hc := Nat.lt_of_lt_of_le (h.mapped b c hc) grown.blocks
  copies c hc := Nat.lt_of_lt_of_le (h.copies c hc) grown.blocks
  insts i j hj := Nat.lt_of_lt_of_le (h.insts i j hj) grown.insts

/-- What holds while blocks are copied: the copies made so far exist. -/
structure Copying (n : Nat) (state : Func × BlockCopy) : Prop where
  wired : state.1.Wired n
  holds : state.1.Holds state.2

theorem Copying.copyInto {state : Func × BlockCopy} (h : Copying n state) {target : BlockId}
    {suffix : String} : Yields (copyInto target suffix state i) (Copying n) := by
  refine .ask fun inst hi => .ask fun r answer => .pure ⟨?_, ?_⟩
  · exact h.wired.append (h.wired.targets i _ _ (line_of_inst hi)) r answer
  · have old := h.holds.grow (grows_append r answer)
    refine ⟨old.mapped, old.copies, fun j k hk => ?_⟩
    rcases Assoc.mem_insert hk with same | hk
    · obtain ⟨-, rfl⟩ := Prod.mk.inj same
      exact slot_append r answer
    · exact old.insts j k hk

theorem Copying.copyBlock {state : Func × BlockCopy} (h : Copying n state) {suffix : String} :
    Yields (copyBlock suffix state b) (Copying n) := by
  refine .ask fun block _ => .foldlM ?_ fun r hr i _ => hr.copyInto
  have wired := h.wired.newBlock (suffixed block.name suffix)
    (state.1.layout ++ [⟨state.1.blocks.size⟩])
  have grown : state.1.Grows (state.1.addBlock (suffixed block.name suffix)).1 := grows_addBlock
  have old := h.holds.grow grown
  have new : state.1.blocks.size <
      (state.1.addBlock (suffixed block.name suffix)).1.blocks.size := by
    simp [Func.addBlock, Func.newBlock]
  refine ⟨wired.mono (Nat.le_succ_of_le h.wired.room), fun c d hd => ?_, fun c hc => ?_, old.insts⟩
  · rw [Assoc.get?_insert] at hd
    split at hd
    · obtain rfl : _ = d := by simpa using hd
      exact new
    · exact old.mapped c d hd
  · rcases List.mem_append.mp hc with hc | hc
    · exact old.copies c hc
    · obtain rfl := List.mem_singleton.mp hc
      exact new

theorem Copying.foldlM_copyBlock (h : f.Wired n) {blocks : List BlockId} {suffix : String} :
    Yields (blocks.foldlM (Func.copyBlock suffix) (f, ⟨[], [], []⟩)) (Copying n) := by
  refine .foldlM ⟨h, ?_, ?_, ?_⟩ fun r hr b _ => hr.copyBlock
  · simp [Assoc.get?]
  · simp
  · simp

/-- A copied operation leads where the original led, or to a copy. -/
theorem BlockCopy.mem_successors_mapOperation {copy : BlockCopy} {op : Operation}
    (hc : c ∈ (copy.mapOperation op).successors) :
    c ∈ op.successors ∨ ∃ b, copy.blockMap.get? b = some c := by
  obtain ⟨b, hb, rfl⟩ : ∃ b ∈ op.successors, copy.mapBlock b = c := by
    simpa [BlockCopy.mapOperation] using hc
  unfold BlockCopy.mapBlock
  cases found : copy.blockMap.get? b with
  | none => exact .inl hb
  | some d => exact .inr ⟨b, found⟩

theorem Wired.copyBlocks (h : f.Wired n) {blocks : List BlockId} {suffix : String} :
    Yields (f.copyBlocks blocks suffix) fun r => r.1.Wired n := by
  refine (Copying.foldlM_copyBlock h).bind fun r hr => ?_
  refine Yields.bind (p := (Wired · r.1.blocks.size)) (.foldlM ⟨Nat.le_refl _, hr.wired.targets⟩
    fun g hg b _ => .ask fun _ _ => .foldlM hg fun _ h _ _ => h.modifyOperation ?_)
    fun g hg => .pure (hg.mono hr.wired.room)
  intro op c hc
  rcases BlockCopy.mem_successors_mapOperation hc with old | ⟨d, new⟩
  · exact .inl old
  · exact .inr (hr.holds.mapped d c new)

/-! ### Answers -/

section Answers

variable {op : Operation} {ty : Ty} {name : String} {anchor : InstId} {old new : BlockId}

theorem answers_modifyInst {k : Inst → Inst} (slot : i.index < f.insts.size) :
    Answers (f.modifyInst i k) := by
  obtain ⟨inst, answer⟩ := exists_inst slot
  exact .bind ⟨inst, answer⟩ fun _ _ => .pure

theorem answers_modifyBlock {k : Block → Block} (slot : b.index < f.blocks.size) :
    Answers (f.modifyBlock b k) := by
  obtain ⟨block, answer, -⟩ := exists_block slot
  exact .bind ⟨block, answer⟩ fun _ _ => .pure

/-- Operations change for the instructions of a list. -/
theorem answers_foldlM_modifyOperation {k : Operation → Operation} {xs : List InstId}
    (slots : ∀ i ∈ xs, i.index < f.insts.size) :
    Answers (xs.foldlM (fun f i => f.modifyOperation i k) f) :=
  .foldlM (Grows.refl f) (fun _ hg _ _ => hg.then grows_modifyOperation) fun _ hg i hi =>
    answers_modifyInst (Nat.lt_of_lt_of_le (slots i hi) hg.insts)

theorem answers_place (hb : b.index < f.blocks.size) (hi : i.index < f.insts.size) :
    Answers (f.place b n i) := by
  obtain ⟨g, answer, -⟩ := outline_place n hb hi
  exact ⟨g, answer⟩

theorem answers_append (slot : b.index < f.blocks.size) : Answers (f.append b op ty name) := by
  obtain ⟨g, answer, -⟩ := outline_append op ty name slot
  exact ⟨_, answer⟩

theorem answers_copyInst (slot : i.index < f.insts.size) : Answers (f.copyInst i name) := by
  obtain ⟨inst, answer⟩ := exists_inst slot
  exact .bind ⟨inst, answer⟩ fun _ _ => .pure

theorem answers_operation (slot : i.index < f.insts.size) : Answers (f.operation i) := by
  obtain ⟨inst, answer⟩ := exists_inst slot
  exact .map ⟨inst, answer⟩

theorem Consistent.answers_position (h : f.Consistent) : Answers (f.position i) := by
  unfold Func.position
  cases home : f.blockOf i with
  | none => exact .pure
  | some b =>
    obtain ⟨block, answer, -⟩ := exists_block (slot_of_mem_code (h.mem_code.mpr home))
    exact .bind ⟨block, answer⟩ fun _ _ => .pure

/-- An instruction that has a place is placed. -/
theorem blockOf_of_position (place : f.position i = .ok (some (b, n))) : f.blockOf i = some b := by
  unfold Func.position at place
  split at place
  · simp at place
  · rename_i home placed
    obtain ⟨block, -, same⟩ := bind_eq_ok_iff.mp place
    obtain ⟨-, -, rfl, -⟩ : ∃ m, block.insts.findIdx? (· == i) = some m ∧ home = b ∧ m = n := by
      simpa [pure, Except.pure] using same
    exact placed

theorem Consistent.answers_attachAfter (h : f.Consistent) (slot : i.index < f.insts.size) :
    Answers (f.attachAfter anchor i) := by
  refine .bind h.answers_position fun place found => ?_
  match place with
  | none => exact .pure
  | some (b, n) =>
    have home := blockOf_of_position found
    have inside : b.index < f.blocks.size := slot_of_mem_code (h.mem_code.mpr home)
    refine .bind (answers_operation (lt_of_blockOf home)) fun op _ => ?_
    split
    · refine .bind (answers_operation slot) fun op' _ => ?_
      split
      · exact answers_place inside slot
      · exact .bind (.bind ⟨_, h.phis_eq inside⟩ fun _ _ => .pure) fun _ _ =>
          answers_place inside slot
    · exact answers_place inside slot

theorem Consistent.answers_insertAfter (h : f.Consistent) :
    Answers (f.insertAfter anchor op ty name) := by
  refine .bind ((h.newInst op ty name).answers_attachAfter ?_) fun _ _ => .pure
  simp [Func.newInst]

theorem Consistent.answers_insertBefore (h : f.Consistent) :
    Answers (f.insertBefore anchor op ty name) := by
  have new := h.newInst op ty name
  refine .bind new.answers_position fun place found => ?_
  match place with
  | none => exact .pure
  | some (b, n) =>
    refine .bind (answers_place ?_ ?_) fun _ _ => .pure
    · exact slot_of_mem_code (new.mem_code.mpr (blockOf_of_position found))
    · simp

theorem Consistent.answers_erase (h : f.Consistent) (slot : i.index < f.insts.size) :
    Answers (f.erase i) := by
  obtain ⟨inst, hi⟩ := exists_inst slot
  cases home : f.blockOf i with
  | none =>
    have free : inst.block = none := by simpa [blockOf, inst_eq_ok_iff.mp hi] using home
    exact ⟨f, by simp [Func.erase, hi, free, bind, Except.bind, pure, Except.pure]⟩
  | some b =>
    obtain ⟨g, answer, -⟩ := h.outline_erase home
    exact ⟨g, answer⟩

theorem Consistent.answers_replaceUsesExcept (h : f.Consistent) {old : InstId} {new : Value}
    {keep : List InstId} : Answers (f.replaceUsesExcept old new keep) := by
  obtain ⟨g, count, answer, -⟩ := h.outline_replaceUsesExcept old new keep
  exact ⟨_, answer⟩

/-- A block can be asked for its terminator. -/
theorem Consistent.exists_terminator (h : f.Consistent) (slot : b.index < f.blocks.size) :
    ∃ term, f.terminator b = .ok term ∧ ∀ i ∈ term, i ∈ f.code b := by
  obtain ⟨block, hb, insts⟩ := exists_block slot
  cases last : block.insts.getLast? with
  | none =>
    exact ⟨none, by simp [terminator, hb, last, bind, Except.bind, pure, Except.pure], by simp⟩
  | some i =>
    have mem : i ∈ f.code b := insts ▸ List.mem_of_getLast? last
    obtain ⟨inst, hi⟩ := exists_inst (h.lt_of_mem_code mem)
    refine ⟨if inst.op.isTerminator then some i else none, ?_, fun j hj => ?_⟩
    · simp [terminator, operation, hb, last, hi, bind, Except.bind, pure, Except.pure]
    · obtain ⟨-, rfl⟩ : inst.op.isTerminator = true ∧ i = j := by simpa using hj
      exact mem

/-- A block can be asked for its successors, which exist. -/
theorem Consistent.exists_successors (h : f.Consistent) (wired : f.Wired n)
    (slot : b.index < f.blocks.size) :
    ∃ succs, f.successors b = .ok succs ∧ ∀ c ∈ succs, c.index < f.blocks.size := by
  obtain ⟨term, answer, mem⟩ := h.exists_terminator slot
  cases term with
  | none => exact ⟨[], by simp [successors, answer, bind, Except.bind, pure, Except.pure], by simp⟩
  | some i =>
    obtain ⟨inst, hi⟩ := exists_inst (h.lt_of_mem_code (mem i rfl))
    refine ⟨inst.op.successors, ?_, wired.targets i _ _ (line_of_inst hi)⟩
    simp [successors, operation, answer, hi, bind, Except.bind, pure, Except.pure]

theorem Consistent.answers_replaceSuccessor (h : f.Consistent) (slot : b.index < f.blocks.size) :
    Answers (f.replaceSuccessor b old new) := by
  obtain ⟨term, answer, mem⟩ := h.exists_terminator slot
  refine .bind ⟨term, answer⟩ fun term' answer' => ?_
  obtain rfl : term = term' := by simpa [answer] using answer'
  cases term with
  | none => exact .pure
  | some term => exact answers_modifyInst (h.lt_of_mem_code (mem term rfl))

theorem Consistent.answers_renameIncoming (h : f.Consistent) (slot : b.index < f.blocks.size) :
    Answers (f.renameIncoming b old new) := by
  obtain ⟨g, answer, -⟩ := h.outline_renameIncoming slot old new
  exact ⟨g, answer⟩

theorem Consistent.answers_connect (h : f.Consistent) (wired : f.Wired n) {tail : BlockId}
    (hb : b.index < f.blocks.size) (htail : tail.index < f.blocks.size) :
    Answers (f.connect b tail) := by
  obtain ⟨succs, answer, inside⟩ := h.exists_successors wired htail
  obtain ⟨f₁, renamed, same⟩ := h.outline_renameIncoming_foldlM succs inside b tail
  have size : f₁.blocks.size = f.blocks.size := congrArg Outline.blocks same
  obtain ⟨⟨g, jump⟩, appended⟩ : Answers (f₁.append b (.jump tail) .void "") :=
    answers_append (size ▸ hb)
  refine ⟨(g, tail), ?_⟩
  simp only [Func.connect, answer, renamed, appended, bind, Except.bind, pure, Except.pure]

/-- A block can be cut anywhere, if what its instructions lead to exists. -/
theorem Consistent.answers_splitBlock (h : f.Consistent) (wired : f.Wired n)
    (slot : b.index < f.blocks.size) {cut : Nat} (within : cut ≤ (f.code b).length) :
    Answers (f.splitBlock b cut name) := by
  obtain ⟨before, after, front, back, layout, code, rfl⟩ := h.exists_cut slot within
  obtain ⟨f₁, same, answer⟩ := h.splitBlock_eq layout code name
  have size : f₁.blocks.size = f.blocks.size + 1 := congrArg Outline.blocks same
  have line : f₁.line = f.line := congrArg Outline.line same
  have wired₁ : f₁.Wired 0 := by
    refine ⟨Nat.zero_le _, fun i op ty hi c hc => ?_⟩
    have := wired.targets i op ty (line ▸ hi) c hc
    omega
  rw [answer]
  exact (h.of_cutOutline layout code same).answers_connect wired₁ (by omega) (by simp [size])

/-! ### Copies -/

theorem answers_copyInto {state : Func × BlockCopy} {target : BlockId} {suffix : String}
    (hi : i.index < state.1.insts.size) (ht : target.index < state.1.blocks.size) :
    Answers (copyInto target suffix state i) := by
  obtain ⟨inst, answer⟩ := exists_inst hi
  exact .bind ⟨inst, answer⟩ fun _ _ => (answers_append ht).bind fun _ _ => .pure

theorem Consistent.answers_copyBlock {state : Func × BlockCopy} (h : state.1.Consistent)
    {suffix : String} (slot : b.index < state.1.blocks.size) :
    Answers (Func.copyBlock suffix state b) := by
  obtain ⟨block, hb, insts⟩ := exists_block slot
  refine .bind ⟨block, hb⟩ fun block' hb' => ?_
  obtain rfl : block = block' := by simpa [hb] using hb'
  -- what is copied into the new block was there before it
  refine .foldlM (r := fun r => (state.1.addBlock (suffixed block.name suffix)).1.Grows r.1)
    (.refl _) (fun r hr i _ => hr.thenWith grows_copyInto) fun r hr i hi => answers_copyInto ?_ ?_
  · exact Nat.lt_of_lt_of_le (h.lt_of_mem_code (insts ▸ hi)) hr.insts
  · refine Nat.lt_of_lt_of_le ?_ hr.blocks
    simp [Func.addBlock, Func.newBlock]

theorem Consistent.answers_rewireBlock (h : f.Consistent) {copy : BlockCopy}
    (slot : b.index < f.blocks.size) : Answers (Func.rewireBlock copy f b) := by
  obtain ⟨block, hb, insts⟩ := exists_block slot
  refine .bind ⟨block, hb⟩ fun block' hb' => answers_foldlM_modifyOperation fun i hi => ?_
  obtain rfl : block = block' := by simpa [hb] using hb'
  exact h.lt_of_mem_code (insts ▸ hi)

theorem Consistent.answers_copyBlocks (h : f.Consistent) (wired : f.Wired n)
    {blocks : List BlockId} {suffix : String} (slots : ∀ b ∈ blocks, b.index < f.blocks.size) :
    Answers (f.copyBlocks blocks suffix) := by
  refine .bind ?_ fun r copied => .bind ?_ fun _ _ => .pure
  · refine .foldlM (r := fun r : Func × BlockCopy => r.1.Consistent ∧ f.Grows r.1)
      ⟨h, .refl f⟩ (fun r hr b _ r' answer => ⟨hr.1.copyBlock r' answer,
        hr.2.trans (grows_copyBlock r' answer)⟩) fun r hr b hb => ?_
    exact hr.1.answers_copyBlock (Nat.lt_of_lt_of_le (slots b hb) hr.2.blocks)
  · have consistent : r.1.Consistent :=
      Yields.foldlM (r := fun r : Func × BlockCopy => r.1.Consistent) h
        (fun r hr b _ => hr.copyBlock) r copied
    have copies := (Copying.foldlM_copyBlock wired r copied).holds.copies
    refine .foldlM (r := fun g => g.Consistent ∧ r.1.Grows g) ⟨consistent, .refl _⟩
      (fun g hg b _ g' answer => ⟨hg.1.rewireBlock g' answer,
        hg.2.trans (grows_rewireBlock g' answer)⟩) fun g hg b hb => ?_
    exact hg.1.answers_rewireBlock (Nat.lt_of_lt_of_le (copies b hb) hg.2.blocks)

end Answers

end Func

end KernelCoarsening
