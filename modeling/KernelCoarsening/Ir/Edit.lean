/-
Edits of a function: new blocks and instructions, placement, and rewiring of
operands and control flow.

An edit that follows a handle outside its arena ends in a `Fault`; no other edit
fails.  New slots are taken before any handle is followed, so an edit may name
the slot it is about to create.
-/
import KernelCoarsening.Ir.Func

namespace KernelCoarsening

namespace Func

/-! ### Slots -/

/-- Changes the block that a handle names. -/
def modifyBlock (f : Func) (b : BlockId) (g : Block → Block) : Except Fault Func := do
  let block ← f.block b
  return { f with blocks := f.blocks.setIfInBounds b.index (g block) }

/-- Changes the instruction that a handle names. -/
def modifyInst (f : Func) (i : InstId) (g : Inst → Inst) : Except Fault Func := do
  let inst ← f.inst i
  return { f with insts := f.insts.setIfInBounds i.index (g inst) }

/-- Changes what an instruction does. -/
def modifyOperation (f : Func) (i : InstId) (g : Operation → Operation) : Except Fault Func :=
  f.modifyInst i fun inst => { inst with op := g inst.op }

/-- Gives an instruction another name. -/
def setName (f : Func) (i : InstId) (name : String) : Except Fault Func :=
  f.modifyInst i fun inst => { inst with name }

/-- Gives a block another name. -/
def setBlockName (f : Func) (b : BlockId) (name : String) : Except Fault Func :=
  f.modifyBlock b fun block => { block with name }

/-! ### New blocks -/

/-- Adds an empty block that is in no layout yet. -/
def newBlock (f : Func) (name : String) : Func × BlockId :=
  ({ f with blocks := f.blocks.push { name, insts := [] } }, ⟨f.blocks.size⟩)

/-- Adds an empty block at the end of the layout. -/
def addBlock (f : Func) (name : String) : Func × BlockId :=
  let (f, b) := f.newBlock name
  ({ f with layout := f.layout ++ [b] }, b)

/-- Adds an empty block right behind another, or at the end if the layout lacks that one. -/
def addBlockAfter (f : Func) (anchor : BlockId) (name : String) : Func × BlockId :=
  let (f, b) := f.newBlock name
  let place := (f.layout.findIdx? (· == anchor)).elim f.layout.length (· + 1)
  ({ f with layout := f.layout.insertIdx place b }, b)

/-- Adds an empty block right before another, or at the end if the layout lacks that one. -/
def addBlockBefore (f : Func) (anchor : BlockId) (name : String) : Func × BlockId :=
  let (f, b) := f.newBlock name
  let place := (f.layout.findIdx? (· == anchor)).getD f.layout.length
  ({ f with layout := f.layout.insertIdx place b }, b)

/-! ### New instructions -/

/-- Adds an instruction that is placed nowhere yet. -/
def newInst (f : Func) (op : Operation) (ty : Ty) (name : String) : Func × InstId :=
  ({ f with insts := f.insts.push { op, ty, name, block := none } }, ⟨f.insts.size⟩)

/-- Places an instruction in a block, before the instruction now at that place. -/
def place (f : Func) (b : BlockId) (n : Nat) (i : InstId) : Except Fault Func := do
  let f ← f.modifyBlock b fun block => { block with insts := block.insts.insertIdx n i }
  f.modifyInst i fun inst => { inst with block := some b }

/-- Adds an instruction at the end of a block. -/
def append (f : Func) (b : BlockId) (op : Operation) (ty : Ty) (name : String) :
    Except Fault (Func × InstId) := do
  let (f, i) := f.newInst op ty name
  let block ← f.block b
  return (← f.place b block.insts.length i, i)

/-- Places an instruction right behind another.  Behind a phi it goes behind all phis of
the block, unless it is a phi itself.  Nothing happens if the other is not placed. -/
def attachAfter (f : Func) (anchor i : InstId) : Except Fault Func := do
  match ← f.position anchor with
  | none => return f
  | some (b, n) =>
    if (← f.operation anchor).isPhi then
      if (← f.operation i).isPhi then
        f.place b (n + 1) i
      else
        f.place b (← f.firstNonPhi b) i
    else
      f.place b (n + 1) i

/-- Adds an instruction right behind another, as `attachAfter` places it. -/
def insertAfter (f : Func) (anchor : InstId) (op : Operation) (ty : Ty) (name : String) :
    Except Fault (Func × InstId) := do
  let (f, i) := f.newInst op ty name
  return (← f.attachAfter anchor i, i)

/-- Adds an instruction right before another; it stays unplaced if the other is. -/
def insertBefore (f : Func) (anchor : InstId) (op : Operation) (ty : Ty) (name : String) :
    Except Fault (Func × InstId) := do
  let (f, i) := f.newInst op ty name
  match ← f.position anchor with
  | none => return (f, i)
  | some (b, n) => return (← f.place b n i, i)

/-- Adds a copy of an instruction, with the same operands, that is placed nowhere yet. -/
def copyInst (f : Func) (i : InstId) (name : String) : Except Fault (Func × InstId) := do
  let inst ← f.inst i
  return f.newInst inst.op inst.ty name

/-- Takes an instruction out of its block.  Its slot stays. -/
def erase (f : Func) (i : InstId) : Except Fault Func := do
  match (← f.inst i).block with
  | none => return f
  | some b =>
    let f ← f.modifyInst i fun inst => { inst with block := none }
    f.modifyBlock b fun block => { block with insts := block.insts.filter (· != i) }

/-! ### Rewiring -/

/-- Lets every operand that reads `old`, outside the instructions `keep`, read `new`
instead, and counts the operands changed. -/
def replaceUsesExcept (f : Func) (old : InstId) (new : Value) (keep : List InstId) :
    Except Fault (Func × Nat) := do
  (← f.instructions).foldlM (fun (f, count) user => do
    if keep.contains user then
      return (f, count)
    else
      let op ← f.operation user
      return (← f.modifyOperation user (·.substitute (.inst old) new),
        count + op.uses (.inst old))) (f, 0)

/-- Lets every operand that reads `old` read `new` instead, and counts the operands changed. -/
def replaceUses (f : Func) (old : InstId) (new : Value) : Except Fault (Func × Nat) :=
  f.replaceUsesExcept old new []

/-- Lets the terminator of a block lead to `new` wherever it led to `old`. -/
def replaceSuccessor (f : Func) (b old new : BlockId) : Except Fault Func := do
  match ← f.terminator b with
  | none => return f
  | some term => f.modifyOperation term (·.mapSuccessors (Operation.redirect old new))

/-- Lets the phis of a block name `new` wherever they named `old`. -/
def renameIncoming (f : Func) (b old new : BlockId) : Except Fault Func := do
  (← f.phis b).foldlM
    (fun f phi => f.modifyOperation phi (·.mapIncoming (Operation.redirect old new))) f

/-- Cuts a block before the instruction at a place.  The instructions from there on move to
a new block right behind it, to which the block now jumps; phis of the successors name the
new block. -/
def splitBlock (f : Func) (b : BlockId) (cut : Nat) (name : String) :
    Except Fault (Func × BlockId) := do
  let (f, tail) := f.addBlockAfter b name
  let block ← f.block b
  if block.insts.length < cut then
    throw (.cutPastEnd b cut)
  let moved := block.insts.drop cut
  let f ← f.modifyBlock b fun block => { block with insts := block.insts.take cut }
  let f ← moved.foldlM (fun f i => f.modifyInst i fun inst => { inst with block := some tail }) f
  let f ← f.modifyBlock tail fun block => { block with insts := moved }
  let f ← (← f.successors tail).foldlM (fun f succ => f.renameIncoming succ b tail) f
  let (f, _) ← f.append b (.jump tail) .void ""
  return (f, tail)

end Func

end KernelCoarsening
