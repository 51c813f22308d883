/-
Copies of groups of blocks.

`Func.copyBlocks` adds a copy of every block of a list.  References between
copied instructions and blocks lead to the copies; all other references stay as
they are.  Connecting the copy with the rest of the function is left to the
caller.
-/
import KernelCoarsening.Data.Assoc
import KernelCoarsening.Ir.Edit

namespace KernelCoarsening

/-- Which copy was made of which block and instruction. -/
structure BlockCopy where
  /-- The copied blocks, in the order of the list that was copied. -/
  blocks : List BlockId
  blockMap : Assoc BlockId BlockId
  instMap : Assoc InstId InstId

namespace BlockCopy

/-- The copy of a block, or the block itself if it was not copied. -/
def mapBlock (copy : BlockCopy) (b : BlockId) : BlockId := (copy.blockMap.get? b).getD b

/-- The operand that reads the copy of what an operand reads, if there is one. -/
def mapValue (copy : BlockCopy) : Value → Value
  | .inst i => .inst ((copy.instMap.get? i).getD i)
  | v => v

/-- The operation that refers to the copies of what an operation refers to. -/
def mapOperation (copy : BlockCopy) (op : Operation) : Operation :=
  ((op.mapOperands copy.mapValue).mapSuccessors copy.mapBlock).mapIncoming copy.mapBlock

end BlockCopy

/-- The name of a copy: a name gets the suffix, and what has no name gets none. -/
def suffixed (name suffix : String) : String := if name.isEmpty then "" else name ++ suffix

namespace Func

/-- Adds a copy of one instruction at the end of a block. -/
def copyInto (target : BlockId) (suffix : String) (state : Func × BlockCopy) (i : InstId) :
    Except Fault (Func × BlockCopy) := do
  let (f, copy) := state
  let inst ← f.inst i
  let (f, new) ← f.append target inst.op inst.ty (suffixed inst.name suffix)
  return (f, { copy with instMap := copy.instMap.insert i new })

/-- Adds a copy of one block at the end of the layout, its references unchanged. -/
def copyBlock (suffix : String) (state : Func × BlockCopy) (b : BlockId) :
    Except Fault (Func × BlockCopy) := do
  let (f, copy) := state
  let block ← f.block b
  let (f, target) := f.addBlock (suffixed block.name suffix)
  let copy := { copy with
    blocks := copy.blocks ++ [target], blockMap := copy.blockMap.insert b target }
  block.insts.foldlM (copyInto target suffix) (f, copy)

/-- Lets the instructions of a block refer to the copies. -/
def rewireBlock (copy : BlockCopy) (f : Func) (b : BlockId) : Except Fault Func := do
  (← f.block b).insts.foldlM (fun f i => f.modifyOperation i copy.mapOperation) f

/-- Adds a copy of the blocks of a list at the end of the layout. -/
def copyBlocks (f : Func) (blocks : List BlockId) (suffix : String) :
    Except Fault (Func × BlockCopy) := do
  let (f, copy) ← blocks.foldlM (copyBlock suffix) (f, ⟨[], [], []⟩)
  return (← copy.blocks.foldlM (rewireBlock copy) f, copy)

end Func

end KernelCoarsening
