/-
Edits keep a function consistent.

Blocks list instructions, and instructions name blocks.  Every edit changes both sides or neither:

* `Func.Consistent.append`, `Func.Consistent.attachAfter`, `Func.Consistent.splitBlock`, … — what
  an edit leaves of a consistent function is consistent.
-/
import KernelCoarsening.Proofs.Coarsening.Cutting
import KernelCoarsening.Proofs.Ir.Growth

namespace KernelCoarsening

namespace Func

variable {f g : Func} {b c : BlockId} {i j : InstId}

/-! ### Slots -/

/-- Consistency is about the layout and the two views of where instructions are placed. -/
theorem Consistent.congr (h : f.Consistent) (layout : g.layout = f.layout)
    (blocks : g.blocks.size = f.blocks.size) (code : g.code = f.code)
    (home : g.blockOf = f.blockOf) : g.Consistent := by
  obtain ⟨nodup, listed, once, placed⟩ := consistent_iff.mp h
  refine consistent_iff.mpr ⟨?_, ?_, ?_, ?_⟩
  · rwa [outline, layout]
  · rwa [outline, layout, blocks]
  · rwa [outline, code]
  · rwa [outline, code, home]

/-- Changing an instruction where it stands. -/
theorem Consistent.modifyInst (h : f.Consistent) {k : Inst → Inst}
    (stays : ∀ inst, (k inst).block = inst.block) : Yields (f.modifyInst i k) Consistent := by
  intro g answer
  obtain ⟨inst, hi, -⟩ := bind_eq_ok_iff.mp answer
  have home : f.blockOf i = inst.block := by simp [blockOf, inst_eq_ok_iff.mp hi]
  obtain ⟨g', answer', same⟩ := outline_modifyInst k hi
  obtain rfl : g' = g := by simpa [answer'] using answer
  rw [stays, ← home, Function.update_eq_self] at same
  exact h.congr (congrArg Outline.layout same) (congrArg Outline.blocks same)
    (congrArg Outline.code same) (congrArg Outline.home same)

theorem Consistent.modifyOperation (h : f.Consistent) {k : Operation → Operation} :
    Yields (f.modifyOperation i k) Consistent :=
  h.modifyInst fun _ => rfl

/-- Changing a block but not its instructions. -/
theorem Consistent.modifyBlock (h : f.Consistent) {k : Block → Block}
    (stays : ∀ block, (k block).insts = block.insts) : Yields (f.modifyBlock b k) Consistent := by
  intro g answer
  obtain ⟨block, hb, -⟩ := bind_eq_ok_iff.mp answer
  obtain ⟨g', answer', same⟩ := outline_modifyBlock k hb
  obtain rfl : g' = g := by simpa [answer'] using answer
  rw [stays, ← code_of_block hb, Function.update_eq_self] at same
  exact h.congr (congrArg Outline.layout same) (congrArg Outline.blocks same)
    (congrArg Outline.code same) (congrArg Outline.home same)

/-! ### New blocks -/

/-- A new block has a place in the layout. -/
theorem Consistent.newBlock (h : f.Consistent) {layout : List BlockId} (name : String)
    (perm : layout.Perm (⟨f.blocks.size⟩ :: f.layout)) :
    Consistent { (f.newBlock name).1 with layout } := by
  have new := outline_newBlock (f := f) name
  have fresh : (⟨f.blocks.size⟩ : BlockId) ∉ f.layout := by simp [h.mem_layout]
  refine consistent_iff.mpr ⟨?_, fun b => ?_, fun b => ?_, fun b i => ?_⟩
  · exact perm.nodup_iff.mpr (List.nodup_cons.mpr ⟨fresh, h.layout_nodup⟩)
  · show b ∈ layout ↔ b.index < (f.newBlock name).1.blocks.size
    have here : b = ⟨f.blocks.size⟩ ↔ b.index = f.blocks.size := BlockId.index_inj.symm
    rw [perm.mem_iff, List.mem_cons, h.mem_layout, here,
      show (f.newBlock name).1.blocks.size = f.blocks.size + 1 from congrArg Outline.blocks new]
    omega
  · exact (congrFun (congrArg Outline.code new) b).symm ▸ h.code_nodup b
  · show i ∈ (f.newBlock name).1.code b ↔ f.blockOf i = some b
    rw [show (f.newBlock name).1.code = f.code from congrArg Outline.code new]
    exact h.mem_code

theorem Consistent.addBlock (h : f.Consistent) (name : String) : (f.addBlock name).1.Consistent :=
  h.newBlock name (List.perm_append_singleton _ _)

theorem Consistent.addBlockAfter (h : f.Consistent) (anchor : BlockId) (name : String) :
    (f.addBlockAfter anchor name).1.Consistent := by
  refine h.newBlock name (List.perm_insertIdx _ _ ?_)
  show (f.layout.findIdx? (· == anchor)).elim f.layout.length (· + 1) ≤ f.layout.length
  cases place : f.layout.findIdx? (· == anchor) with
  | none => exact Nat.le_refl _
  | some n => exact (List.findIdx?_eq_some_iff_getElem.mp place).1

theorem Consistent.addBlockBefore (h : f.Consistent) (anchor : BlockId) (name : String) :
    (f.addBlockBefore anchor name).1.Consistent := by
  refine h.newBlock name (List.perm_insertIdx _ _ ?_)
  show (f.layout.findIdx? (· == anchor)).getD f.layout.length ≤ f.layout.length
  cases place : f.layout.findIdx? (· == anchor) with
  | none => exact Nat.le_refl _
  | some n => exact Nat.le_of_lt (List.findIdx?_eq_some_iff_getElem.mp place).1

/-! ### Placement -/

/-- An instruction that is placed nowhere finds a place in a block. -/
theorem Consistent.place (h : f.Consistent) (free : f.blockOf i = none) {n : Nat}
    (within : n ≤ (f.code b).length) : Yields (f.place b n i) Consistent := by
  intro g answer
  obtain ⟨f₁, listed, named⟩ := bind_eq_ok_iff.mp answer
  obtain ⟨block, hb, same⟩ := bind_eq_ok_iff.mp listed
  obtain ⟨inst, hi, -⟩ := bind_eq_ok_iff.mp named
  -- the instruction has a slot, since it could be given its block
  have slot : i.index < f.insts.size := by
    obtain rfl : _ = f₁ := by simpa [pure, Except.pure] using same
    exact (Array.getElem?_eq_some_iff.mp (inst_eq_ok_iff.mp hi)).1
  obtain ⟨g', answer', same⟩ := outline_place (f := f) n (lt_of_block hb) slot
  obtain rfl : g' = g := by simpa [answer'] using answer
  exact h.of_placed free (List.perm_insertIdx _ _ within) same

/-- A new instruction is placed nowhere. -/
theorem blockOf_newInst (op : Operation) (ty : Ty) (name : String) :
    (f.newInst op ty name).1.blockOf (f.newInst op ty name).2 = none := by
  have home : (f.newInst op ty name).1.blockOf = f.blockOf :=
    congrArg Outline.home (outline_newInst op ty name)
  rw [home]
  exact blockOf_size

theorem Consistent.append (h : f.Consistent) {op : Operation} {ty : Ty} {name : String} :
    Yields (f.append b op ty name) fun r => r.1.Consistent := by
  refine .ask fun block hb => ?_
  have code : (f.newInst op ty name).1.code b = block.insts := code_of_block hb
  exact ((h.newInst op ty name).place (blockOf_newInst op ty name)
    (Nat.le_of_eq (by rw [code]))).bind fun _ hg => .pure hg

/-- Phis stand at the beginning of a block. -/
theorem Consistent.firstNonPhi_le (h : f.Consistent) {n : Nat} (first : f.firstNonPhi b = .ok n) :
    n ≤ (f.code b).length := by
  obtain ⟨phis, hphis, same⟩ := bind_eq_ok_iff.mp first
  obtain ⟨block, hb, -⟩ := bind_eq_ok_iff.mp hphis
  obtain rfl : f.outline.phis b = phis := by simpa [h.phis_eq (lt_of_block hb)] using hphis
  obtain rfl : (f.outline.phis b).length = n := by simpa [pure, Except.pure] using same
  exact (List.takeWhile_sublist _).length_le

/-- The place of an instruction lies in its block. -/
theorem position_lt {n : Nat} (place : f.position i = .ok (some (b, n))) :
    n < (f.code b).length := by
  unfold position at place
  split at place
  · simp at place
  · obtain ⟨block, hb, same⟩ := bind_eq_ok_iff.mp place
    rename_i home _
    obtain ⟨m, found, rfl, rfl⟩ :
        ∃ m, block.insts.findIdx? (· == i) = some m ∧ home = b ∧ m = n := by
      simpa [pure, Except.pure] using same
    rw [code_of_block hb]
    exact (List.findIdx?_eq_some_iff_getElem.mp found).1

theorem Consistent.attachAfter (h : f.Consistent) {anchor : InstId} (free : f.blockOf i = none) :
    Yields (f.attachAfter anchor i) Consistent := by
  refine .ask fun place found => ?_
  match place with
  | none => exact .pure h
  | some (b, n) =>
    have within := position_lt found
    refine .ask fun op _ => ?_
    split
    · refine .ask fun op' _ => ?_
      split
      · exact h.place free within
      · exact .ask fun m first => h.place free (h.firstNonPhi_le first)
    · exact h.place free within

theorem Consistent.insertAfter (h : f.Consistent) {anchor : InstId} {op : Operation} {ty : Ty}
    {name : String} : Yields (f.insertAfter anchor op ty name) fun r => r.1.Consistent :=
  ((h.newInst op ty name).attachAfter (blockOf_newInst op ty name)).bind fun _ hg => .pure hg

theorem Consistent.insertBefore (h : f.Consistent) {anchor : InstId} {op : Operation} {ty : Ty}
    {name : String} : Yields (f.insertBefore anchor op ty name) fun r => r.1.Consistent := by
  refine .ask fun place found => ?_
  match place with
  | none => exact .pure (h.newInst op ty name)
  | some (b, n) =>
    exact ((h.newInst op ty name).place (blockOf_newInst op ty name)
      (Nat.le_of_lt (position_lt found))).bind fun _ hg => .pure hg

theorem Consistent.copyInst (h : f.Consistent) {name : String} :
    Yields (f.copyInst i name) fun r => r.1.Consistent :=
  .ask fun _ _ => .pure (h.newInst _ _ _)

theorem Consistent.erase (h : f.Consistent) : Yields (f.erase i) Consistent := by
  intro g answer
  obtain ⟨inst, hi, rest⟩ := bind_eq_ok_iff.mp answer
  cases home : inst.block with
  | none =>
    obtain rfl : f = g := by simpa [home, pure, Except.pure] using rest
    exact h
  | some b =>
    have home : f.blockOf i = some b := blockOf_eq_some_iff.mpr ⟨inst, inst_eq_ok_iff.mp hi, home⟩
    obtain ⟨g', answer', same⟩ := h.outline_erase home
    obtain rfl : g' = g := by simpa [answer'] using answer
    exact h.of_withoutInst home same

/-! ### Rewiring -/

theorem Consistent.replaceUsesExcept (h : f.Consistent) {old : InstId} {new : Value}
    {keep : List InstId} :
    Yields (f.replaceUsesExcept old new keep) fun r => r.1.Consistent := by
  obtain ⟨g, count, answer, same⟩ := h.outline_replaceUsesExcept old new keep
  exact .of_answer answer (h.of_alter same)

theorem Consistent.replaceUses (h : f.Consistent) {old : InstId} {new : Value} :
    Yields (f.replaceUses old new) fun r => r.1.Consistent := h.replaceUsesExcept

theorem Consistent.replaceSuccessor (h : f.Consistent) {old new : BlockId} :
    Yields (f.replaceSuccessor b old new) Consistent := by
  refine .ask fun term _ => ?_
  cases term with
  | none => exact .pure h
  | some term => exact h.modifyOperation

theorem Consistent.renameIncoming (h : f.Consistent) {old new : BlockId} :
    Yields (f.renameIncoming b old new) Consistent :=
  .ask fun _ _ => .foldlM h fun _ h _ _ => h.modifyOperation

/-- The layout around a block, and the instructions of the block around a cut. -/
theorem Consistent.exists_cut (h : f.Consistent) (slot : b.index < f.blocks.size) {cut : Nat}
    (within : cut ≤ (f.code b).length) : ∃ before after front back,
      f.layout = before ++ b :: after ∧ f.code b = front ++ back ∧ front.length = cut := by
  obtain ⟨before, after, layout⟩ := List.append_of_mem ((h.mem_layout b).mpr slot)
  exact ⟨before, after, (f.code b).take cut, (f.code b).drop cut, layout,
    (List.take_append_drop cut _).symm, by simpa using within⟩

theorem Consistent.connect (h : f.Consistent) {tail : BlockId} :
    Yields (f.connect b tail) fun r => r.1.Consistent := by
  refine .ask fun succs _ => ?_
  refine Yields.bind (p := Consistent) (.foldlM h fun _ h _ _ => h.renameIncoming) fun _ h₁ => ?_
  exact h₁.append.bind fun _ h₂ => .pure h₂

theorem Consistent.splitBlock (h : f.Consistent) (slot : b.index < f.blocks.size) {cut : Nat}
    {name : String} : Yields (f.splitBlock b cut name) fun r => r.1.Consistent := by
  intro r answer
  obtain ⟨block, hb, rest⟩ := bind_eq_ok_iff.mp answer
  have code : f.code b = block.insts := by
    rw [← code_of_block hb]
    exact (congrFun (congrArg Outline.code (outline_newBlock (f := f) name)) b).symm
  by_cases within : cut ≤ block.insts.length
  · have within : cut ≤ (f.code b).length := by rwa [code]
    obtain ⟨before, after, front, back, layout, code, rfl⟩ := h.exists_cut slot within
    obtain ⟨f₁, same, answer'⟩ := h.splitBlock_eq layout code name
    rw [answer'] at answer
    exact (h.of_cutOutline layout code same).connect r answer
  · simp [Nat.lt_of_not_le within, throw, throwThe, MonadExceptOf.throw, bind, Except.bind] at rest

/-! ### Copies -/

theorem Consistent.copyBlock {state : Func × BlockCopy} (h : state.1.Consistent) {suffix : String} :
    Yields (copyBlock suffix state b) fun r => r.1.Consistent := by
  refine .ask fun block _ => ?_
  refine .foldlM (r := fun r : Func × BlockCopy => r.1.Consistent) (h.addBlock _)
    fun r hr i _ => ?_
  exact .ask fun _ _ => hr.append.bind fun _ hg => .pure hg

theorem Consistent.rewireBlock (h : f.Consistent) {copy : BlockCopy} :
    Yields (rewireBlock copy f b) Consistent :=
  .ask fun _ _ => .foldlM h fun _ h _ _ => h.modifyOperation

theorem Consistent.copyBlocks (h : f.Consistent) {blocks : List BlockId} {suffix : String} :
    Yields (f.copyBlocks blocks suffix) fun r => r.1.Consistent := by
  refine Yields.bind (p := fun r : Func × BlockCopy => r.1.Consistent)
    (.foldlM h fun r hr b _ => hr.copyBlock) fun r hr => ?_
  exact Yields.bind (p := Consistent) (.foldlM hr fun _ h _ _ => h.rewireBlock) fun _ hg => .pure hg

end Func

end KernelCoarsening
