/-
Functions: arenas of blocks and instructions, and questions about them.

A function keeps its blocks and instructions in two arenas.  The layout lists
the blocks in the order they are written; the first is the entry.  A block lists
its instructions, and an instruction names the block it is placed in, or none
once it has been erased or before it is placed.  Slots are never removed, so a
handle keeps its meaning through every edit.

Nothing in the type ties these four pieces of data together: a file may hold any
of them.  `Func.Consistent` says when they agree.  A question that follows a
handle outside its arena has no answer and ends in a `Fault`.

* `Func.block_eq_ok_iff`, `Func.inst_eq_ok_iff` — following a handle succeeds
  exactly when its slot exists.
-/
import KernelCoarsening.Ir.Operation

namespace KernelCoarsening

/-- Why a question about a function has no answer. -/
inductive Fault where
  /-- A handle names no block of the function. -/
  | noBlock (b : BlockId)
  /-- A handle names no instruction of the function. -/
  | noInst (i : InstId)
  /-- A block is to be cut behind its last instruction. -/
  | cutPastEnd (b : BlockId) (place : Nat)
  /-- The addresses that an access is computed from lead back to themselves. -/
  | addressCycle (i : InstId)
  /-- The quotient of two words, which comes with their remainder, has no word. -/
  | noQuotient (a b : Int64)
  deriving DecidableEq

/-- A parameter of a function. -/
structure Param where
  name : String
  ty : Ty
  deriving DecidableEq

/-- How a function is called; kernels have a convention of their own. -/
inductive CallingConvention where
  | c
  | kernel
  | device
  deriving DecidableEq

/-- A block: its name, which may be empty, and its instructions in order.  A well-formed
block starts with its phis and ends with its only terminator. -/
structure Block where
  name : String
  insts : List InstId
  deriving DecidableEq

/-- An instruction: what it does, the type and name of its result, and where it is placed. -/
structure Inst where
  op : Operation
  ty : Ty
  name : String
  block : Option BlockId
  deriving DecidableEq

/-- A function; one without layout is a declaration. -/
structure Func where
  name : String
  params : List Param
  returnTy : Ty
  convention : CallingConvention
  blocks : Array Block
  layout : List BlockId
  insts : Array Inst
  deriving DecidableEq

/-- The handle as text, which stands for the name of a nameless block. -/
def BlockId.text (b : BlockId) : String := "bb" ++ toString b.index

namespace Func

/-- The function without blocks and instructions. -/
def empty (name : String) (params : List Param) (returnTy : Ty) : Func :=
  { name, params, returnTy, convention := .c, blocks := #[], layout := [], insts := #[] }

/-- The arenas and the layout agree: the layout lists every block once, and a block lists
an instruction, at most once, exactly when the instruction names the block. -/
structure Consistent (f : Func) : Prop where
  layout_nodup : f.layout.Nodup
  mem_layout : ∀ b : BlockId, b ∈ f.layout ↔ b.index < f.blocks.size
  insts_nodup : ∀ (n : Nat) (block : Block), f.blocks[n]? = some block → block.insts.Nodup
  mem_insts : ∀ (b : BlockId) (block : Block), f.blocks[b.index]? = some block →
    ∀ i : InstId, i ∈ block.insts ↔ ∃ inst, f.insts[i.index]? = some inst ∧ inst.block = some b
  block_exists : ∀ (i : InstId) (inst : Inst) (b : BlockId), f.insts[i.index]? = some inst →
    inst.block = some b → b.index < f.blocks.size

/-! ### Slots -/

/-- The first block of the layout.  A declaration has no entry and answers the first handle. -/
def entry (f : Func) : BlockId := f.layout.head?.getD ⟨0⟩

/-- A function without layout has no body. -/
def isDeclaration (f : Func) : Bool := f.layout.isEmpty

/-- The handles of all block slots, in order. -/
def blockIds (f : Func) : List BlockId := (List.range f.blocks.size).map BlockId.mk

/-- The block that a handle names. -/
def block (f : Func) (b : BlockId) : Except Fault Block :=
  match f.blocks[b.index]? with
  | some block => .ok block
  | none => .error (.noBlock b)

/-- The instruction that a handle names, placed or not. -/
def inst (f : Func) (i : InstId) : Except Fault Inst :=
  match f.insts[i.index]? with
  | some inst => .ok inst
  | none => .error (.noInst i)

/-- What the instruction that a handle names does. -/
def operation (f : Func) (i : InstId) : Except Fault Operation := (·.op) <$> f.inst i

theorem block_eq_ok_iff {f : Func} {b : BlockId} {block : Block} :
    f.block b = .ok block ↔ f.blocks[b.index]? = some block := by
  unfold Func.block
  split <;> simp_all

theorem inst_eq_ok_iff {f : Func} {i : InstId} {inst : Inst} :
    f.inst i = .ok inst ↔ f.insts[i.index]? = some inst := by
  unfold Func.inst
  split <;> simp_all

/-- The name of a block, or its handle if it has none. -/
def label (f : Func) (b : BlockId) : Except Fault String := do
  let block ← f.block b
  return if block.name.isEmpty then b.text else block.name

/-! ### Placement -/

/-- The block an instruction is placed in. -/
def blockOf (f : Func) (i : InstId) : Option BlockId := f.insts[i.index]?.bind (·.block)

/-- A handle is live if it names an instruction that is placed in a block. -/
def isLive (f : Func) (i : InstId) : Bool := (f.blockOf i).isSome

/-- Block and place of an instruction. -/
def position (f : Func) (i : InstId) : Except Fault (Option (BlockId × Nat)) :=
  match f.blockOf i with
  | none => .ok none
  | some b => do
    let block ← f.block b
    return (block.insts.findIdx? (· == i)).map fun n => (b, n)

/-- All placed instructions, in the order of the layout. -/
def instructions (f : Func) : Except Fault (List InstId) := do
  let blocks ← f.layout.mapM f.block
  return blocks.flatMap (·.insts)

/-! ### Blocks -/

/-- The terminator of a block, if its last instruction is one. -/
def terminator (f : Func) (b : BlockId) : Except Fault (Option InstId) := do
  match (← f.block b).insts.getLast? with
  | none => return none
  | some last => return if (← f.operation last).isTerminator then some last else none

/-- The blocks that the terminator of a block leads to. -/
def successors (f : Func) (b : BlockId) : Except Fault (List BlockId) := do
  match ← f.terminator b with
  | none => return []
  | some term => return (← f.operation term).successors

/-- The phis that a list of instructions starts with. -/
def leadingPhis (f : Func) : List InstId → Except Fault (List InstId)
  | [] => .ok []
  | i :: rest => do
    if (← f.operation i).isPhi then
      return i :: (← f.leadingPhis rest)
    else
      return []

/-- The phis that a block starts with. -/
def phis (f : Func) (b : BlockId) : Except Fault (List InstId) := do
  f.leadingPhis (← f.block b).insts

/-- The place of the first instruction of a block that is no phi. -/
def firstNonPhi (f : Func) (b : BlockId) : Except Fault Nat := do
  return (← f.phis b).length

/-! ### Values and uses -/

/-- The type of an operand.  A parameter that does not exist has type `void`. -/
def valueType (f : Func) : Value → Except Fault Ty
  | .inst i => (·.ty) <$> f.inst i
  | .arg n => .ok ((f.params[n]?.map (·.ty)).getD .void)
  | .const _ | .undef => .ok .i32
  | .global _ => .ok (.ptr .generic)

/-- The placed instructions together with what they do, in the order of the layout. -/
def operations (f : Func) : Except Fault (List (InstId × Operation)) := do
  (← f.instructions).mapM fun i => return (i, ← f.operation i)

/-- The placed instructions that read the result of an instruction, in the order of the
layout, each once. -/
def users (f : Func) (i : InstId) : Except Fault (List InstId) := do
  return (← f.operations).filterMap fun (user, op) =>
    if op.usedInsts.contains i then some user else none

end Func

end KernelCoarsening
