/-
What can be read of a function.

A function holds handles: the layout names blocks, blocks name instructions, and these name what
they read, where they lead and, if they are phis, where their values come from.  A listing asks for
all of them:

* `Func.answers_operationText_iff` — an operation can be written down exactly if the instructions
  and blocks that it names are there;
* `Func.answers_listing_iff` — the same of functions;
* `Func.held_of_flawless`, `Func.readable_of_flawless` — where no flaw is found, all handles name
  something but those of phis, so that an analysis never asks for what is not there, and a listing
  does so exactly if a phi names a block that is not there;
* `not_listed_joined` — no flaw is found in a function with such a phi.
-/
import KernelCoarsening.Flow.Loops
import KernelCoarsening.Grid.Reads
import KernelCoarsening.Ir.Listing
import KernelCoarsening.Proofs.Flow.Matching
import KernelCoarsening.Proofs.Ir.Assembly

namespace KernelCoarsening

/-- The blocks that an operation names: where it leads, or where the values of a phi come from. -/
def Operation.named : Operation → List BlockId
  | .phi incoming => incoming.map (·.2)
  | op => op.successors

namespace Func

variable {f : Func} {globals : List Global} {b : BlockId} {i : InstId} {v : Value} {op : Operation}

/-! ### Handles -/

@[simp] theorem answers_block_iff : Answers (f.block b) ↔ b.index < f.blocks.size := by
  simp [Answers, block_eq_ok_iff, Array.getElem?_eq_some_iff]

@[simp] theorem answers_inst_iff : Answers (f.inst i) ↔ i.index < f.insts.size := by
  simp [Answers, inst_eq_ok_iff, Array.getElem?_eq_some_iff]

@[simp] theorem answers_label_iff : Answers (f.label b) ↔ b.index < f.blocks.size := by
  simp [label]

/-! ### Listings -/

/-- An operand is no instruction, or an instruction that is there. -/
def Present (f : Func) (v : Value) : Prop := ∀ i, v.inst? = some i → i.index < f.insts.size

theorem forall_usedInsts_iff :
    (∀ i ∈ op.usedInsts, i.index < f.insts.size) ↔ ∀ v ∈ op.operands, f.Present v := by
  simp only [Operation.usedInsts, List.mem_filterMap, Present]
  constructor
  · exact fun h v hv i hi => h i ⟨v, hv, hi⟩
  · rintro h i ⟨v, hv, hi⟩
    exact h v hv i hi

@[simp] theorem answers_valueText_iff : Answers (f.valueText globals v) ↔ f.Present v := by
  cases v <;> simp [valueText, Value.inst?, Present]

@[simp] theorem answers_typedText_iff : Answers (f.typedText globals v) ↔ f.Present v := by
  cases v <;> simp [typedText, answers_bind_iff, valueType, Value.inst?, Present, ← answers_iff]

/-- An operation can be written down exactly if the instructions and blocks that it names are
there. -/
theorem answers_operationText_iff {ty : Ty} : Answers (f.operationText globals ty op) ↔
    (∀ i ∈ op.usedInsts, i.index < f.insts.size) ∧ ∀ b ∈ op.named, b.index < f.blocks.size := by
  rw [forall_usedInsts_iff]
  cases op with
  | ret v => cases v <;> simp [operationText, Operation.operands, Operation.named,
      Operation.successors]
  | phi incoming =>
    simp only [operationText, Operation.operands, Operation.named, bind_pure_comp, answers_map_iff,
      answers_mapM_iff, answers_bind_iff, answers_valueText_iff, answers_label_iff,
      exists_and_right, ← answers_iff, List.forall_mem_map]
    exact forall₂_and
  | store p v =>
    simp [operationText, answers_bind_iff, ← answers_iff, Operation.operands, Operation.named,
      Operation.successors, and_comm]
  | _ =>
    simp [operationText, answers_bind_iff, ← answers_iff, Operation.operands, Operation.named,
      Operation.successors]

/-- What an instruction does is known, and so is what it names. -/
def Known (f : Func) (i : InstId) : Prop := f.outline.Does i fun op =>
  (∀ j ∈ op.usedInsts, j.index < f.insts.size) ∧ ∀ b ∈ op.named, b.index < f.blocks.size

theorem answers_instText_iff : Answers (f.instText globals i) ↔ f.Known i := by
  simp only [instText, answers_bind_iff, bind_pure_comp, answers_map_iff, answers_operationText_iff]
  constructor
  · rintro ⟨inst, hi, known⟩
    exact ⟨inst.op, inst.ty, line_of_inst hi, known⟩
  · rintro ⟨op, ty, line, known⟩
    obtain ⟨inst, hi, rfl, rfl⟩ := inst_of_line line
    exact ⟨inst, hi, known⟩

theorem answers_blockText_iff : Answers (f.blockText globals b) ↔
    b.index < f.blocks.size ∧ ∀ i ∈ f.code b, f.Known i := by
  simp only [blockText, answers_bind_iff, bind_pure_comp, answers_map_iff, answers_label_iff,
    exists_and_right, ← answers_iff, answers_mapM_iff, answers_instText_iff]
  constructor
  · rintro ⟨block, hb, known, inside⟩
    exact ⟨inside, code_of_block hb ▸ known⟩
  · rintro ⟨inside, known⟩
    obtain ⟨block, hb, insts⟩ := exists_block inside
    exact ⟨block, hb, insts ▸ known, inside⟩

/-- A function can be listed exactly if all that its layout, its blocks and its instructions name
is there. -/
theorem answers_listing_iff : Answers (f.listing globals) ↔
    ∀ b ∈ f.layout, b.index < f.blocks.size ∧ ∀ i ∈ f.code b, f.Known i := by
  unfold listing
  split
  · rename_i bare
    have none : f.layout = [] := by simpa [isDeclaration] using bare
    simp [none]
  · simp only [bind_pure_comp, answers_map_iff, answers_mapM_iff, answers_blockText_iff]

/-! ### Functions without flaws -/

/-- Where no flaw is found, there are all blocks of the layout and all of their instructions, and
what these read and where they lead is there. -/
theorem held_of_flawless (flawless : f.firstFlaw? = .ok none) (listed : b ∈ f.layout) :
    b.index < f.blocks.size ∧ ∀ i ∈ f.code b, f.outline.Does i fun op =>
      (∀ j ∈ op.usedInsts, j.index < f.insts.size) ∧ ∀ t ∈ op.successors, t.index < f.blocks.size := by
  obtain ⟨g, hg, looked⟩ := bind_eq_ok_iff.mp flawless
  obtain ⟨reachable, -, looked⟩ := bind_eq_ok_iff.mp looked
  obtain ⟨block, hb, -⟩ := bind_eq_ok_iff.mp (firstM?_eq_none looked listed)
  have inside := lt_of_block hb
  refine ⟨inside, fun i mem => ?_⟩
  obtain ⟨phis, body, last, shape⟩ := shape_of_flawless flawless listed inside
  obtain ⟨-, -, -, -, -, -, reads⟩ := split_of_instFlaw? (wellFormed_block flawless listed hb).2
  obtain ⟨op, ty, line, live⟩ := reads i (code_of_block hb ▸ mem)
  exact ⟨op, ty, line, fun j hj => lt_of_placed (live j hj),
    fun t ht => target_lt_of_shape hg shape mem line ht⟩

/-- Where no flaw is found, the only handles that may name nothing are those of phis. -/
theorem known_of_flawless (flawless : f.firstFlaw? = .ok none) (listed : b ∈ f.layout)
    (mem : i ∈ f.code b) : f.Known i ↔
      ∀ names, f.namesOf i = some names → ∀ c ∈ names, c.index < f.blocks.size := by
  obtain ⟨op, ty, line, reads, leads⟩ := (held_of_flawless flawless listed).2 i mem
  have line : f.line i = some (op, ty) := line
  have known : f.Known i ↔ ∀ c ∈ op.named, c.index < f.blocks.size := by
    constructor
    · rintro ⟨op', ty', line', -, named⟩
      obtain ⟨rfl, -⟩ : op = op' ∧ ty = ty' := by simpa using line.symm.trans line'
      exact named
    · exact fun named => ⟨op, ty, line, reads, named⟩
  rw [known, namesOf, line]
  cases op with
  | phi incoming => simp [Operation.named, Operation.names?]
  | _ => simpa [Operation.named, Operation.names?] using leads

/-- Where no flaw is found, nothing that is not there is asked for: not for what the instructions
do and who reads them, not for the control flow and not for the reads of registers.  A listing is
there exactly if the phis name blocks that are there. -/
theorem readable_of_flawless (flawless : f.firstFlaw? = .ok none) :
    Answers f.operations ∧ (∀ i, Answers (f.users i)) ∧ Answers f.flow ∧
      (∀ selector, Answers (f.gridReads selector)) ∧
      ∀ globals, Answers (f.listing globals) ↔
        ∀ b ∈ f.layout, ∀ names, f.Names b names → ∀ c ∈ names, c.index < f.blocks.size := by
  have held := fun b listed => f.held_of_flawless (b := b) flawless listed
  have blocks : Answers (f.layout.mapM f.block) :=
    answers_mapM_iff.mpr fun b listed => answers_block_iff.mpr (held b listed).1
  have operations : Answers f.operations := by
    refine Answers.bind (blocks.bind fun _ _ => .pure) fun all listed => answers_mapM_iff.mpr ?_
    intro i mem
    rw [instructions_eq listed] at mem
    obtain ⟨b, hb, mem⟩ := List.mem_flatMap.mp mem
    obtain ⟨op, ty, line, -⟩ := (held b hb).2 i mem
    exact Answers.bind ⟨op, operation_eq_ok_iff.mpr ⟨ty, line⟩⟩ fun _ _ => .pure
  have flow : Answers f.flow := by
    obtain ⟨g, hg, -⟩ := bind_eq_ok_iff.mp flawless
    exact Answers.bind ⟨g, hg⟩ fun _ _ => .pure
  refine ⟨operations, fun i => operations.bind fun _ _ => .pure, flow,
    fun selector => operations.map, fun globals => ?_⟩
  rw [answers_listing_iff]
  refine forall₂_congr fun b listed => ?_
  rw [and_iff_right (held b listed).1, forall₂_congr fun i mem =>
    known_of_flawless (i := i) flawless listed mem]
  constructor
  · rintro known names ⟨i, mem, named⟩
    exact known i mem names named
  · exact fun known i mem names named => known names ⟨i, mem, named⟩

end Func

/-- A function in which a phi names blocks. -/
def joined (incoming : List (Value × BlockId)) : Func :=
  .assemble "joined" [] [
    ("entry", [⟨.jump ⟨1⟩, .void, ""⟩]),
    ("exit", [⟨.phi incoming, .i32, "x"⟩, ⟨.ret (some (.inst ⟨1⟩)), .void, ""⟩])]

/-- A phi that names the block that leads to it can be listed. -/
theorem listed_joined : (joined [(.const 0, ⟨0⟩)]).firstFlaw? = .ok none ∧
    Answers (joined [(.const 0, ⟨0⟩)]).flow ∧ Answers ((joined [(.const 0, ⟨0⟩)]).listing []) := by
  have flawless : (joined [(.const 0, ⟨0⟩)]).firstFlaw? = .ok none := by cbv
  obtain ⟨-, -, flow, -, listing⟩ := Func.readable_of_flawless flawless
  refine ⟨flawless, flow, (listing []).mpr ?_⟩
  rintro b hb names ⟨i, hi, named⟩
  have all : ∀ b ∈ (joined [(.const 0, ⟨0⟩)]).layout, ∀ i ∈ (joined [(.const 0, ⟨0⟩)]).code b,
      ∀ names ∈ (joined [(.const 0, ⟨0⟩)]).namesOf i, ∀ c ∈ names,
        c.index < (joined [(.const 0, ⟨0⟩)]).blocks.size := by decide
  exact all b hb i hi names named

/-- No flaw is found where a phi names a block that is not there, but there is no listing. -/
theorem not_listed_joined :
    (joined [(.const 0, ⟨0⟩), (.const 1, ⟨7⟩)]).firstFlaw? = .ok none ∧
      (joined [(.const 0, ⟨0⟩), (.const 1, ⟨7⟩)]).listing [] = .error (.noBlock ⟨7⟩) :=
  ⟨by cbv, by cbv⟩

end KernelCoarsening
