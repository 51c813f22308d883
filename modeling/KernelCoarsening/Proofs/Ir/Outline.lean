/-
Outlines of functions.

What a function does and where its instructions are placed does not depend on names.  The
outline of a function leaves them out and makes functions of the arenas, so that an edit can be
described by one equation:

* `Outline.Consistent` — the layout and the two views of where instructions are placed agree;
* `Func.consistent_iff` — this is consistency of the function;
* `Func.outline_place`, `Func.outline_append`, … — what the edits do to the outline.
-/
import KernelCoarsening.Ir.Copy
import KernelCoarsening.Proofs.Data.Answers
import Mathlib.Data.List.Nodup
import Mathlib.Logic.Function.Basic

namespace KernelCoarsening

theorem insertIdx_append {α : Type} (before after : List α) (x : α) :
    (before ++ after).insertIdx before.length x = before ++ x :: after := by
  induction before with
  | nil => simp
  | cons y before ih => simp [ih]

theorem insertIdx_append_succ {α : Type} (before after : List α) (x y : α) :
    (before ++ x :: after).insertIdx (before.length + 1) y = before ++ x :: y :: after := by
  have := insertIdx_append (before ++ [x]) after y
  simpa using this

theorem findIdx?_append_cons {α : Type} [DecidableEq α] {before after : List α} {x : α}
    (nodup : (before ++ x :: after).Nodup) :
    (before ++ x :: after).findIdx? (· == x) = some before.length := by
  have other := (List.nodup_append.mp nodup).2.2
  have none : before.findIdx? (· == x) = none := List.findIdx?_eq_none_iff.mpr fun y hy =>
    beq_eq_false_iff_ne.mpr (other y hy x (by simp))
  rw [List.findIdx?_append, none]
  simp [List.findIdx?_cons]

/-- A function without names: its parameters, its layout, the sizes of its arenas and what is in
their slots. -/
@[ext]
structure Outline where
  params : List Param
  layout : List BlockId
  blocks : Nat
  insts : Nat
  /-- The instructions of a block. -/
  code : BlockId → List InstId
  /-- What an instruction does, and the type of its result. -/
  line : InstId → Option (Operation × Ty)
  /-- The block that an instruction is placed in. -/
  home : InstId → Option BlockId

namespace Func

/-- The instructions of a block; a handle that names no block has none. -/
def code (f : Func) (b : BlockId) : List InstId := ((f.blocks[b.index]?).map (·.insts)).getD []

/-- What an instruction does, and the type of its result. -/
def line (f : Func) (i : InstId) : Option (Operation × Ty) :=
  (f.insts[i.index]?).map fun inst => (inst.op, inst.ty)

/-- The outline of a function. -/
def outline (f : Func) : Outline where
  params := f.params
  layout := f.layout
  blocks := f.blocks.size
  insts := f.insts.size
  code := f.code
  line := f.line
  home := f.blockOf

variable {f : Func} {b c : BlockId} {i j : InstId}

/-! ### Questions about slots -/

theorem code_of_block {block : Block} (h : f.block b = .ok block) : f.code b = block.insts := by
  simp [code, block_eq_ok_iff.mp h]

theorem exists_block (inside : b.index < f.blocks.size) :
    ∃ block, f.block b = .ok block ∧ block.insts = f.code b := by
  refine ⟨f.blocks[b.index], block_eq_ok_iff.mpr (Array.getElem?_eq_getElem inside), ?_⟩
  simp [code, inside]

theorem lt_of_block {block : Block} (h : f.block b = .ok block) : b.index < f.blocks.size :=
  (Array.getElem?_eq_some_iff.mp (block_eq_ok_iff.mp h)).1

theorem line_of_inst {inst : Inst} (h : f.inst i = .ok inst) :
    f.line i = some (inst.op, inst.ty) := by
  simp [line, inst_eq_ok_iff.mp h]

theorem inst_of_line {op : Operation} {ty : Ty} (h : f.line i = some (op, ty)) :
    ∃ inst, f.inst i = .ok inst ∧ inst.op = op ∧ inst.ty = ty := by
  obtain ⟨inst, hi, same⟩ := Option.map_eq_some_iff.mp h
  refine ⟨inst, inst_eq_ok_iff.mpr hi, ?_⟩
  simpa using same

theorem operation_eq_ok_iff {op : Operation} :
    f.operation i = .ok op ↔ ∃ ty, f.line i = some (op, ty) := by
  constructor
  · intro h
    obtain ⟨inst, hi, rfl⟩ := map_eq_ok_iff.mp h
    exact ⟨inst.ty, line_of_inst hi⟩
  · rintro ⟨ty, h⟩
    obtain ⟨inst, hi, rfl, -⟩ := inst_of_line h
    exact map_eq_ok_iff.mpr ⟨inst, hi, rfl⟩

theorem line_isSome_iff : (f.line i).isSome ↔ i.index < f.insts.size := by
  simp [line]

theorem exists_inst (inside : i.index < f.insts.size) :
    ∃ inst, f.inst i = .ok inst :=
  ⟨f.insts[i.index], inst_eq_ok_iff.mpr (Array.getElem?_eq_getElem inside)⟩

theorem lt_of_blockOf (h : f.blockOf i = some b) : i.index < f.insts.size := by
  unfold blockOf at h
  obtain ⟨inst, hi, -⟩ := Option.bind_eq_some_iff.mp h
  exact (Array.getElem?_eq_some_iff.mp hi).1

/-- A placed instruction has a slot, and so it has a line. -/
theorem lt_of_placed (placed : (f.blockOf i).isSome) : i.index < f.insts.size := by
  obtain ⟨b, hb⟩ := Option.isSome_iff_exists.mp placed
  exact lt_of_blockOf hb

theorem exists_line (placed : (f.blockOf i).isSome) : ∃ op ty, f.line i = some (op, ty) := by
  obtain ⟨⟨op, ty⟩, line⟩ := Option.isSome_iff_exists.mp (line_isSome_iff.mpr (lt_of_placed placed))
  exact ⟨op, ty, line⟩

end Func

/-! ### Consistency -/

/-- The layout lists every block once, and the instructions of a block are those that are placed
in it, each once. -/
structure Outline.Consistent (o : Outline) : Prop where
  layout_nodup : o.layout.Nodup
  mem_layout : ∀ b : BlockId, b ∈ o.layout ↔ b.index < o.blocks
  code_nodup : ∀ b, (o.code b).Nodup
  mem_code : ∀ b i, i ∈ o.code b ↔ o.home i = some b

namespace Func

variable {f g : Func} {b c : BlockId} {i j : InstId}

theorem blockOf_eq_some_iff :
    f.blockOf i = some b ↔ ∃ inst, f.insts[i.index]? = some inst ∧ inst.block = some b := by
  simp [blockOf, Option.bind_eq_some_iff]

theorem slot_of_mem_code (h : i ∈ f.code b) : b.index < f.blocks.size := by
  by_contra outside
  simp [code, Array.getElem?_eq_none (Nat.le_of_not_lt outside)] at h

theorem consistent_iff : f.Consistent ↔ f.outline.Consistent := by
  constructor
  · intro h
    refine ⟨h.layout_nodup, h.mem_layout, fun b => ?_, fun b i => ?_⟩
    · by_cases inside : b.index < f.blocks.size
      · obtain ⟨block, hb, same⟩ := exists_block inside
        exact show (f.code b).Nodup from same ▸ h.insts_nodup b.index block (block_eq_ok_iff.mp hb)
      · simp [outline, code, Array.getElem?_eq_none (Nat.le_of_not_lt inside)]
    · show i ∈ f.code b ↔ f.blockOf i = some b
      rw [blockOf_eq_some_iff]
      by_cases inside : b.index < f.blocks.size
      · obtain ⟨block, hb, same⟩ := exists_block inside
        exact same ▸ h.mem_insts b block (block_eq_ok_iff.mp hb) i
      · refine iff_of_false (fun mem => inside (slot_of_mem_code mem)) ?_
        rintro ⟨inst, hi, place⟩
        exact inside (h.block_exists i inst b hi place)
  · intro h
    refine ⟨h.layout_nodup, h.mem_layout, fun n block hn => ?_, fun b block hb i => ?_,
      fun i inst b hi place => ?_⟩
    · exact code_of_block (b := ⟨n⟩) (block_eq_ok_iff.mpr hn) ▸ h.code_nodup ⟨n⟩
    · rw [← blockOf_eq_some_iff, ← code_of_block (block_eq_ok_iff.mpr hb)]
      exact h.mem_code b i
    · exact slot_of_mem_code ((h.mem_code b i).mpr (blockOf_eq_some_iff.mpr ⟨inst, hi, place⟩))

theorem Consistent.mem_code (h : f.Consistent) : i ∈ f.code b ↔ f.blockOf i = some b :=
  (consistent_iff.mp h).mem_code b i

theorem Consistent.code_nodup (h : f.Consistent) (b : BlockId) : (f.code b).Nodup :=
  (consistent_iff.mp h).code_nodup b

theorem Consistent.lt_of_mem_code (h : f.Consistent) (mem : i ∈ f.code b) :
    i.index < f.insts.size :=
  lt_of_blockOf (h.mem_code.mp mem)

theorem isDeclaration_of_mem_layout (listed : b ∈ f.layout) : f.isDeclaration = false := by
  simp [isDeclaration, List.ne_nil_of_mem listed]

theorem Consistent.isDeclaration_of_slot (h : f.Consistent) (slot : b.index < f.blocks.size) :
    f.isDeclaration = false :=
  isDeclaration_of_mem_layout ((h.mem_layout b).mpr slot)

theorem Consistent.isDeclaration_of_blockOf (h : f.Consistent) (placed : f.blockOf i = some b) :
    f.isDeclaration = false :=
  h.isDeclaration_of_slot (slot_of_mem_code (h.mem_code.mpr placed))

/-- Placed instructions are listed once. -/
theorem nodup_flatMap_code (consistent : f.Consistent) {order : List BlockId}
    (nodup : order.Nodup) : (order.flatMap f.code).Nodup := by
  refine List.nodup_flatMap.mpr ⟨fun b _ => consistent.code_nodup b, ?_⟩
  refine nodup.imp fun {b c} other => ?_
  intro i hb hc
  have := consistent.mem_code.mp hb
  exact other (by simpa [this] using consistent.mem_code.mp hc)

theorem instructions_eq {all : List InstId} (h : f.instructions = .ok all) :
    all = f.layout.flatMap f.code := by
  obtain ⟨blocks, listed, answer⟩ := bind_eq_ok_iff.mp h
  obtain rfl := Except.ok.inj answer
  exact flatMap_of_mapM_eq_ok listed fun b block hb => (code_of_block hb).symm

/-- The placed instructions. -/
theorem Consistent.instructions (h : f.Consistent) :
    ∃ all, f.instructions = .ok all ∧ ∀ i, i ∈ all ↔ (f.blockOf i).isSome := by
  have slots : ∀ b ∈ f.layout, b.index < f.blocks.size := fun b hb => (h.mem_layout b).mp hb
  have answer : f.layout.mapM f.block = .ok (f.layout.map fun b =>
      (f.blocks[b.index]?).getD ⟨"", []⟩) := by
    exact mapM_eq_ok_map fun b hb => block_eq_ok_iff.mpr (by simp [slots b hb])
  refine ⟨_, by simp only [Func.instructions, answer]; rfl, fun i => ?_⟩
  simp only [List.mem_flatMap, List.mem_map]
  constructor
  · rintro ⟨_, ⟨b, hb, rfl⟩, mem⟩
    have : i ∈ f.code b := by simpa [code, slots b hb] using mem
    simp [h.mem_code.mp this]
  · intro placed
    obtain ⟨b, hb⟩ := Option.isSome_iff_exists.mp placed
    have mem := h.mem_code.mpr hb
    have inside := slot_of_mem_code mem
    refine ⟨_, ⟨b, (h.mem_layout b).mpr inside, rfl⟩, ?_⟩
    simpa [code, inside] using mem

/-! ### Slots -/

theorem outline_modifyBlock (k : Block → Block) {block : Block} (h : f.block b = .ok block) :
    ∃ g, f.modifyBlock b k = .ok g ∧
      g.outline = { f.outline with code := Function.update f.code b (k block).insts } := by
  have inside := lt_of_block h
  refine ⟨_, by rw [modifyBlock, h]; rfl, ?_⟩
  ext1
  any_goals rfl
  · simp [outline]
  · funext c
    by_cases same : c = b
    · subst same
      simp [outline, code, Function.update, inside]
    · have other : b.index ≠ c.index := fun eq => same (by cases b; cases c; simp_all)
      simp [outline, code, Function.update, same, Array.getElem?_setIfInBounds_ne other]

theorem outline_modifyInst (k : Inst → Inst) {inst : Inst} (h : f.inst i = .ok inst) :
    ∃ g, f.modifyInst i k = .ok g ∧
      g.outline = { f.outline with
        line := Function.update f.line i (some ((k inst).op, (k inst).ty))
        home := Function.update f.blockOf i (k inst).block } := by
  have inside := (Array.getElem?_eq_some_iff.mp (inst_eq_ok_iff.mp h)).1
  refine ⟨_, by rw [modifyInst, h]; rfl, ?_⟩
  have apart : ∀ j : InstId, j ≠ i → i.index ≠ j.index := fun j other eq =>
    other (by cases i; cases j; simp_all)
  ext1
  any_goals rfl
  · simp [outline]
  · funext j
    by_cases same : j = i
    · subst same
      simp [outline, line, Function.update, inside]
    · simp [outline, line, Function.update, same, Array.getElem?_setIfInBounds_ne (apart j same)]
  · funext j
    by_cases same : j = i
    · subst same
      simp [outline, blockOf, Function.update, inside]
    · simp [outline, blockOf, Function.update, same,
        Array.getElem?_setIfInBounds_ne (apart j same)]

/-- Changing what an instruction does changes its line. -/
theorem outline_modifyOperation (k : Operation → Operation) {op : Operation} {ty : Ty}
    (h : f.line i = some (op, ty)) :
    ∃ g, f.modifyOperation i k = .ok g ∧
      g.outline = { f.outline with line := Function.update f.line i (some (k op, ty)) } := by
  obtain ⟨inst, hi, rfl, rfl⟩ := inst_of_line h
  obtain ⟨g, answer, same⟩ := outline_modifyInst (fun inst => { inst with op := k inst.op }) hi
  refine ⟨g, answer, same.trans ?_⟩
  have kept : f.blockOf i = inst.block := by simp [blockOf, inst_eq_ok_iff.mp hi]
  simp [outline, ← kept]

@[simp] theorem outline_newBlock (name : String) :
    (f.newBlock name).1.outline = { f.outline with blocks := f.blocks.size + 1 } := by
  ext1
  any_goals rfl
  · simp [outline, newBlock]
  · funext c
    simp only [outline, newBlock, code, Array.getElem?_push]
    split
    · rename_i new
      simp [new]
    · rfl

@[simp] theorem outline_newInst (op : Operation) (ty : Ty) (name : String) :
    (f.newInst op ty name).1.outline = { f.outline with
      insts := f.insts.size + 1
      line := Function.update f.line ⟨f.insts.size⟩ (some (op, ty)) } := by
  have apart : ∀ j : InstId, j ≠ ⟨f.insts.size⟩ → j.index ≠ f.insts.size := fun j other eq =>
    other (by cases j; simp_all)
  ext1
  any_goals rfl
  · simp [outline, newInst]
  · funext j
    by_cases same : j = ⟨f.insts.size⟩
    · simp [same, outline, newInst, line]
    · simp [same, outline, newInst, line, Array.getElem?_push, apart j same]
  · funext j
    by_cases same : j = ⟨f.insts.size⟩
    · simp [same, outline, newInst, blockOf]
    · simp [outline, newInst, blockOf, Array.getElem?_push, apart j same]

/-! ### Placement -/

theorem outline_place (n : Nat) (hb : b.index < f.blocks.size) (hi : i.index < f.insts.size) :
    ∃ g, f.place b n i = .ok g ∧ g.outline = { f.outline with
      code := Function.update f.code b ((f.code b).insertIdx n i)
      home := Function.update f.blockOf i (some b) } := by
  obtain ⟨block, hblock, insts⟩ := exists_block hb
  obtain ⟨f₁, h₁, same₁⟩ := outline_modifyBlock
    (fun block => { block with insts := block.insts.insertIdx n i }) hblock
  have size : f₁.insts.size = f.insts.size := congrArg Outline.insts same₁
  obtain ⟨inst, hinst⟩ := exists_inst (f := f₁) (size ▸ hi)
  obtain ⟨g, h₂, same₂⟩ := outline_modifyInst (fun inst => { inst with block := some b }) hinst
  refine ⟨g, by rw [place, h₁]; exact h₂, same₂.trans ?_⟩
  have line : f₁.line = f.line := congrArg Outline.line same₁
  have home : f₁.blockOf = f.blockOf := congrArg Outline.home same₁
  have kept : some (inst.op, inst.ty) = f.line i := by rw [← line, line_of_inst hinst]
  rw [same₁, line, home, kept, Function.update_eq_self, insts]
  rfl

/-- A new instruction that is placed in a block. -/
def insertedAt (f : Func) (b : BlockId) (code : List InstId) (op : Operation) (ty : Ty) : Outline :=
  { f.outline with
    insts := f.insts.size + 1
    code := Function.update f.code b code
    line := Function.update f.line ⟨f.insts.size⟩ (some (op, ty))
    home := Function.update f.blockOf ⟨f.insts.size⟩ (some b) }

/-- Placing an instruction that was placed nowhere keeps a function consistent. -/
theorem Consistent.of_placed (h : f.Consistent) (free : f.blockOf i = none) {code : List InstId}
    (perm : code.Perm (i :: f.code b)) (same : g.outline = { f.outline with
      code := Function.update f.code b code
      home := Function.update f.blockOf i (some b) }) : g.Consistent := by
  have fresh : ∀ c, i ∉ f.code c := fun c hi => by simp [h.mem_code.mp hi] at free
  rw [consistent_iff, same]
  refine ⟨h.layout_nodup, h.mem_layout, fun c => ?_, fun c j => ?_⟩
  · show (Function.update f.code b code c).Nodup
    by_cases here : c = b
    · subst here
      rw [Function.update_self, perm.nodup_iff]
      exact List.nodup_cons.mpr ⟨fresh c, h.code_nodup c⟩
    · rw [Function.update_of_ne here]
      exact h.code_nodup c
  · show j ∈ Function.update f.code b code c ↔ Function.update f.blockOf i (some b) j = some c
    by_cases here : c = b
    · subst here
      rw [Function.update_self, perm.mem_iff, List.mem_cons, h.mem_code]
      by_cases new : j = i
      · simp [new]
      · simp [new]
    · rw [Function.update_of_ne here]
      by_cases new : j = i
      · subst new
        simp [fresh c, Ne.symm here]
      · rw [Function.update_of_ne new, h.mem_code]

theorem Consistent.newInst (h : f.Consistent) (op : Operation) (ty : Ty) (name : String) :
    (f.newInst op ty name).1.Consistent :=
  consistent_iff.mpr (by rw [outline_newInst]; exact ⟨h.layout_nodup, h.mem_layout,
    fun b => h.code_nodup b, fun _ _ => h.mem_code⟩)

theorem blockOf_size : f.blockOf ⟨f.insts.size⟩ = none := by
  simp [blockOf]

theorem Consistent.of_insertedAt (h : f.Consistent) {code : List InstId} {op : Operation} {ty : Ty}
    (perm : code.Perm (⟨f.insts.size⟩ :: f.code b))
    (same : g.outline = f.insertedAt b code op ty) : g.Consistent := by
  have new := outline_newInst (f := f) op ty ""
  have code' : (f.newInst op ty "").1.code = f.code := congrArg Outline.code new
  have home : (f.newInst op ty "").1.blockOf = f.blockOf := congrArg Outline.home new
  refine (h.newInst op ty "").of_placed (by rw [home, blockOf_size]) (code' ▸ perm) (same.trans ?_)
  rw [new, code', home]
  rfl

/-- Placing a new instruction. -/
theorem outline_newInst_place (n : Nat) (op : Operation) (ty : Ty) (name : String)
    (hb : b.index < f.blocks.size) :
    ∃ g, (f.newInst op ty name).1.place b n ⟨f.insts.size⟩ = .ok g ∧
      g.outline = f.insertedAt b ((f.code b).insertIdx n ⟨f.insts.size⟩) op ty := by
  have new := outline_newInst (f := f) op ty name
  have size : (f.newInst op ty name).1.insts.size = f.insts.size + 1 := congrArg Outline.insts new
  obtain ⟨g, answer, same⟩ := outline_place (f := (f.newInst op ty name).1) (b := b)
    (i := ⟨f.insts.size⟩) n hb (by simp [size])
  refine ⟨g, answer, same.trans ?_⟩
  have code : (f.newInst op ty name).1.code = f.code := congrArg Outline.code new
  have home : (f.newInst op ty name).1.blockOf = f.blockOf := congrArg Outline.home new
  rw [new, code, home]
  rfl

theorem outline_append (op : Operation) (ty : Ty) (name : String) (hb : b.index < f.blocks.size) :
    ∃ g, f.append b op ty name = .ok (g, ⟨f.insts.size⟩) ∧
      g.outline = f.insertedAt b (f.code b ++ [⟨f.insts.size⟩]) op ty := by
  obtain ⟨block, hblock, insts⟩ := exists_block hb
  obtain ⟨g, answer, same⟩ := outline_newInst_place (f := f) (f.code b).length op ty name hb
  refine ⟨g, ?_, by rw [same, List.insertIdx_length_self]⟩
  have hblock' : (f.newInst op ty name).1.block b = .ok block := hblock
  simp only [append, newInst] at hblock' answer ⊢
  rw [hblock']
  simp only [bind, Except.bind, insts, answer]
  rfl

/-- The place of an instruction among those of its block. -/
theorem Consistent.position (h : f.Consistent) {before after : List InstId}
    (code : f.code b = before ++ i :: after) : f.position i = .ok (some (b, before.length)) := by
  have home : f.blockOf i = some b := h.mem_code.mp (by simp [code])
  obtain ⟨block, hblock, insts⟩ := exists_block (slot_of_mem_code (h.mem_code.mpr home))
  have first : block.insts.findIdx? (· == i) = some before.length := by
    rw [insts, code]
    exact findIdx?_append_cons (code ▸ h.code_nodup b)
  simp [Func.position, home, hblock, first, bind, Except.bind, pure, Except.pure]

/-- An instruction that is not placed yet goes right behind another one, if that one is no phi
or both are. -/
theorem Consistent.outline_attachAfter (h : f.Consistent) {anchor : InstId}
    {before after : List InstId} (code : f.code b = before ++ anchor :: after)
    {op op' : Operation} {ty ty' : Ty} (hanchor : f.line anchor = some (op, ty))
    (hi : f.line i = some (op', ty')) (phis : op.isPhi = true → op'.isPhi = true) :
    ∃ g, f.attachAfter anchor i = .ok g ∧ g.outline = { f.outline with
      code := Function.update f.code b (before ++ anchor :: i :: after)
      home := Function.update f.blockOf i (some b) } := by
  have inside : b.index < f.blocks.size :=
    slot_of_mem_code (i := anchor) (by simp [code])
  obtain ⟨g, answer, same⟩ := outline_place (f := f) (before.length + 1) inside
    (line_isSome_iff.mp (Option.isSome_of_eq_some hi))
  refine ⟨g, ?_, ?_⟩
  · have hop : f.operation anchor = .ok op := operation_eq_ok_iff.mpr ⟨ty, hanchor⟩
    have hop' : f.operation i = .ok op' := operation_eq_ok_iff.mpr ⟨ty', hi⟩
    unfold attachAfter
    rw [h.position code]
    by_cases phi : op.isPhi = true
    · simp [bind, Except.bind, hop, hop', phi, phis phi, answer]
    · simp [bind, Except.bind, hop, phi, answer]
  · rw [same, code, insertIdx_append_succ]

/-- A new instruction goes right before another one. -/
theorem Consistent.outline_insertBefore (h : f.Consistent) {anchor : InstId}
    {before after : List InstId} (code : f.code b = before ++ anchor :: after) (op : Operation)
    (ty : Ty) (name : String) :
    ∃ g, f.insertBefore anchor op ty name = .ok (g, ⟨f.insts.size⟩) ∧
      g.outline = f.insertedAt b (before ++ ⟨f.insts.size⟩ :: anchor :: after) op ty := by
  have inside : b.index < f.blocks.size :=
    slot_of_mem_code (i := anchor) (by simp [code])
  obtain ⟨g, answer, same⟩ := outline_newInst_place (f := f) before.length op ty name inside
  refine ⟨g, ?_, by rw [same, code, insertIdx_append]⟩
  have position := (h.newInst op ty name).position
    (show (f.newInst op ty name).1.code b = before ++ anchor :: after from code)
  unfold insertBefore
  dsimp only
  rw [position]
  show (do return (← (f.newInst op ty name).1.place b before.length ⟨f.insts.size⟩, _)) = _
  rw [answer]
  rfl

/-- An instruction that has left its block. -/
def withoutInst (f : Func) (b : BlockId) (i : InstId) : Outline :=
  { f.outline with
    code := Function.update f.code b ((f.code b).filter (· != i))
    home := Function.update f.blockOf i none }

theorem Consistent.of_withoutInst (h : f.Consistent) (home : f.blockOf i = some b)
    (same : g.outline = f.withoutInst b i) : g.Consistent := by
  rw [consistent_iff, same]
  refine ⟨h.layout_nodup, h.mem_layout, fun c => ?_, fun c j => ?_⟩
  · show (Function.update f.code b ((f.code b).filter (· != i)) c).Nodup
    by_cases here : c = b
    · rw [here, Function.update_self]
      exact (h.code_nodup b).filter _
    · rw [Function.update_of_ne here]
      exact h.code_nodup c
  · show j ∈ Function.update f.code b ((f.code b).filter (· != i)) c ↔
      Function.update f.blockOf i none j = some c
    by_cases gone : j = i
    · subst gone
      have out : j ∈ Function.update f.code b ((f.code b).filter (· != j)) c → False := by
        by_cases here : c = b
        · simp [here]
        · rw [Function.update_of_ne here, h.mem_code, home]
          simp [Ne.symm here]
      simpa using out
    · rw [Function.update_of_ne gone]
      by_cases here : c = b
      · simp [here, gone, h.mem_code]
      · rw [Function.update_of_ne here, h.mem_code]

theorem Consistent.outline_erase (h : f.Consistent) (home : f.blockOf i = some b) :
    ∃ g, f.erase i = .ok g ∧ g.outline = f.withoutInst b i := by
  obtain ⟨inst, hinst⟩ := exists_inst (lt_of_blockOf home)
  have placed : inst.block = some b := by
    obtain ⟨inst', hi', place⟩ := blockOf_eq_some_iff.mp home
    obtain rfl : inst = inst' := by simpa [inst_eq_ok_iff.mp hinst] using hi'
    exact place
  obtain ⟨f₁, h₁, same₁⟩ := outline_modifyInst (fun inst => { inst with block := none }) hinst
  have size : f₁.blocks.size = f.blocks.size := congrArg Outline.blocks same₁
  have code : f₁.code = f.code := congrArg Outline.code same₁
  obtain ⟨block, hblock, insts⟩ := exists_block (f := f₁)
    (size ▸ slot_of_mem_code (h.mem_code.mpr home))
  obtain ⟨g, h₂, same₂⟩ := outline_modifyBlock
    (fun block => { block with insts := block.insts.filter (· != i) }) hblock
  refine ⟨g, ?_, same₂.trans ?_⟩
  · simp [erase, hinst, placed, h₁, h₂, bind, Except.bind]
  · rw [same₁, code, insts, code, ← line_of_inst hinst, Function.update_eq_self]
    rfl

end Func

/-! ### Rewiring -/

namespace Outline

/-- The outline in which some instructions do something else. -/
def alter (o : Outline) (p : InstId → Prop) [DecidablePred p] (k : Operation → Operation) :
    Outline :=
  { o with line := fun i => if p i then (o.line i).map fun line => (k line.1, line.2) else o.line i }

variable {o : Outline} {p q : InstId → Prop} [DecidablePred p] [DecidablePred q]
  {k : Operation → Operation}

theorem alter_congr (same : ∀ i, p i ↔ q i) : o.alter p k = o.alter q k := by
  simp [alter, same]

theorem alter_of_not (none : ∀ i, ¬ p i) : o.alter p k = o := by
  simp [alter, none]

theorem alter_alter (idem : ∀ op, k (k op) = k op) :
    (o.alter p k).alter q k = o.alter (fun i => p i ∨ q i) k := by
  simp only [alter, Outline.mk.injEq, true_and, and_true]
  funext i
  by_cases hp : p i <;> by_cases hq : q i <;> simp [hp, hq, Function.comp_def, idem]

theorem line_alter (i : InstId) : (o.alter p k).line i =
    if p i then (o.line i).map fun line => (k line.1, line.2) else o.line i := rfl

end Outline

theorem Operation.substitute_substitute (old new : Value) (op : Operation) :
    (op.substitute old new).substitute old new = op.substitute old new := by
  have idem : ∀ v, (if (if v = old then new else v) = old then new else if v = old then new else v) =
      if v = old then new else v := by
    intro v
    by_cases same : v = old
    · simp [same]
    · simp [same]
  cases op with
  | ret v => cases v <;> simp [substitute, mapOperands, idem]
  | _ => simp [substitute, mapOperands, idem, Function.comp_def]

theorem Operation.redirect_redirect (old new b : BlockId) :
    redirect old new (redirect old new b) = redirect old new b := by
  unfold redirect
  by_cases same : b = old
  · simp [same]
  · simp [same]

theorem Operation.mapIncoming_redirect (old new : BlockId) (op : Operation) :
    (op.mapIncoming (redirect old new)).mapIncoming (redirect old new) =
      op.mapIncoming (redirect old new) := by
  cases op <;> simp [mapIncoming, Function.comp_def, redirect_redirect]

theorem Operation.mapSuccessors_redirect (old new : BlockId) (op : Operation) :
    (op.mapSuccessors (redirect old new)).mapSuccessors (redirect old new) =
      op.mapSuccessors (redirect old new) := by
  cases op <;> simp [mapSuccessors, redirect_redirect]

namespace Func

variable {f g : Func} {b c : BlockId} {i j : InstId}

/-- What instructions do does not matter for consistency. -/
theorem Consistent.of_alter (h : f.Consistent) {p : InstId → Prop} [DecidablePred p]
    {k : Operation → Operation} (same : g.outline = f.outline.alter p k) : g.Consistent := by
  obtain ⟨nodup, layout, code, home⟩ := consistent_iff.mp h
  exact consistent_iff.mpr (same ▸ ⟨nodup, layout, code, home⟩)

theorem alter_modifyOperation (k : Operation → Operation) (hi : i.index < f.insts.size) :
    ∃ g, f.modifyOperation i k = .ok g ∧ g.outline = f.outline.alter (· = i) k := by
  obtain ⟨⟨op, ty⟩, line⟩ := Option.isSome_iff_exists.mp (line_isSome_iff.mpr hi)
  obtain ⟨g, answer, same⟩ := outline_modifyOperation k line
  refine ⟨g, answer, same.trans ?_⟩
  simp only [Outline.alter, outline, Outline.mk.injEq, true_and, and_true]
  funext j
  by_cases here : j = i
  · simp [here, line]
  · simp [here]

/-- Changing what the instructions of a list do. -/
theorem alter_foldlM {k : Operation → Operation} (idem : ∀ op, k (k op) = k op)
    (xs : List InstId) (inside : ∀ i ∈ xs, i.index < f.insts.size) :
    ∃ g, xs.foldlM (fun f i => f.modifyOperation i k) f = .ok g ∧
      g.outline = f.outline.alter (· ∈ xs) k := by
  induction xs generalizing f with
  | nil => exact ⟨f, rfl, (Outline.alter_of_not (by simp)).symm⟩
  | cons x xs ih =>
    obtain ⟨f₁, h₁, same₁⟩ := alter_modifyOperation k (inside x (by simp))
    have size : f₁.insts.size = f.insts.size := congrArg Outline.insts same₁
    obtain ⟨g, h₂, same₂⟩ := ih (f := f₁) fun i hi => size ▸ inside i (List.mem_cons_of_mem _ hi)
    refine ⟨g, by rw [List.foldlM_cons, h₁]; exact h₂, ?_⟩
    rw [same₂, same₁, Outline.alter_alter idem]
    exact Outline.alter_congr fun i => by simp

theorem Consistent.outline_replaceUsesExcept (h : f.Consistent) (old : InstId) (new : Value)
    (keep : List InstId) :
    ∃ g count, f.replaceUsesExcept old new keep = .ok (g, count) ∧
      g.outline = f.outline.alter (fun i => (f.blockOf i).isSome ∧ i ∉ keep)
        (·.substitute (.inst old) new) := by
  obtain ⟨all, answer, placed⟩ := h.instructions
  -- the instructions of the list that have been looked at are those that were changed
  have run : ∀ (xs : List InstId) (f : Func) (count : Nat), (∀ i ∈ xs, i.index < f.insts.size) →
      ∃ g count', xs.foldlM (fun (r : Func × Nat) user => (do
        if keep.contains user then
          return (r.1, r.2)
        else
          let op ← r.1.operation user
          return (← r.1.modifyOperation user (·.substitute (.inst old) new),
            r.2 + op.uses (.inst old)) : Except Fault (Func × Nat))) (f, count) = .ok (g, count') ∧
        g.outline = f.outline.alter (fun i => i ∈ xs ∧ i ∉ keep)
          (·.substitute (.inst old) new) := by
    intro xs
    induction xs with
    | nil => exact fun f count _ => ⟨f, count, rfl, (Outline.alter_of_not (by simp)).symm⟩
    | cons x xs ih =>
      intro f count inside
      by_cases kept : x ∈ keep
      · obtain ⟨g, count', h₂, same₂⟩ := ih f count fun i hi => inside i (List.mem_cons_of_mem _ hi)
        refine ⟨g, count', by rw [List.foldlM_cons]; simpa [kept] using h₂, same₂.trans ?_⟩
        refine Outline.alter_congr fun i => ?_
        have : i = x → i ∈ keep := by rintro rfl; exact kept
        simp only [List.mem_cons]
        tauto
      · obtain ⟨⟨op, ty⟩, line⟩ := Option.isSome_iff_exists.mp
          (line_isSome_iff.mpr (inside x (by simp)))
        have hop : f.operation x = .ok op := operation_eq_ok_iff.mpr ⟨ty, line⟩
        obtain ⟨f₁, h₁, same₁⟩ := alter_modifyOperation (f := f)
          (·.substitute (.inst old) new) (inside x (by simp))
        have size : f₁.insts.size = f.insts.size := congrArg Outline.insts same₁
        obtain ⟨g, count', h₂, same₂⟩ := ih f₁ (count + op.uses (.inst old))
          fun i hi => size ▸ inside i (List.mem_cons_of_mem _ hi)
        refine ⟨g, count', ?_, ?_⟩
        · rw [List.foldlM_cons]
          simpa [kept, hop, h₁, bind, Except.bind, pure, Except.pure] using h₂
        · rw [same₂, same₁, Outline.alter_alter (Operation.substitute_substitute _ _)]
          refine Outline.alter_congr fun i => ?_
          have : i = x → i ∉ keep := by rintro rfl; exact kept
          simp only [List.mem_cons]
          tauto
  obtain ⟨g, count, ran, same⟩ := run all f 0 fun i hi =>
    (Option.isSome_iff_exists.mp ((placed i).mp hi)).elim fun b hb => lt_of_blockOf hb
  refine ⟨g, count, ?_, same.trans (Outline.alter_congr fun i => by rw [placed i])⟩
  rw [replaceUsesExcept, answer]
  exact ran

end Func

end KernelCoarsening
