/-
Operands and operations of kernel code.

Instructions, blocks and globals are named by handles, positions in the arenas
of a function or a program.  An `Operation` is what one instruction does; the
branches at the end of a block are operations too, so that a branch can be a
member of a set of instructions.

Operands (`operands`) and control-flow references (`successors`, and the blocks
a phi names) are kept apart: `mapOperands` changes the former only,
`mapSuccessors` and `mapIncoming` the latter only.

* `operands_mapOperands`, `successors_mapSuccessors` — what the two maps do to
  the lists they are named for;
* `successors_mapOperands`, `operands_mapSuccessors`, `operands_mapIncoming` —
  and that they leave the other list alone.
-/
import KernelCoarsening.Ir.Operator
import KernelCoarsening.Ir.Type

namespace KernelCoarsening

/-- A block of one function: its position among the function's blocks. -/
structure BlockId where
  index : Nat
  deriving DecidableEq

/-- An instruction of one function: its position among the function's instructions.
Positions are handed out in order and never used again. -/
structure InstId where
  index : Nat
  deriving DecidableEq

/-- A global variable: its position among the globals of a program. -/
structure GlobalId where
  index : Nat
  deriving DecidableEq

/-- An operand. -/
inductive Value where
  /-- The result of an instruction of the same function. -/
  | inst (id : InstId)
  /-- The parameter at a position. -/
  | arg (position : Nat)
  /-- An integer constant; the reader's type gives it its width. -/
  | const (c : Int64)
  /-- The address of a global. -/
  | global (id : GlobalId)
  | undef
  deriving DecidableEq

namespace Value

/-- The instruction whose result the operand is. -/
def inst? : Value → Option InstId
  | inst i => some i
  | _ => none

/-- The constant that the operand is. -/
def const? : Value → Option Int64
  | const c => some c
  | _ => none

end Value

/-- What an instruction does. -/
inductive Operation where
  | binary (op : BinaryOp) (lhs rhs : Value)
  | compare (rel : Comparison) (lhs rhs : Value)
  | convert (op : Conversion) (value : Value)
  | select (cond onTrue onFalse : Value)
  /-- The value that belongs to the block control came from. -/
  | phi (incoming : List (Value × BlockId))
  /-- The address of the element `index` places after `base`. -/
  | element (base index : Value)
  | load (ptr : Value)
  | store (ptr value : Value)
  | call (callee : String) (args : List Value)
  | jump (target : BlockId)
  | branch (cond : Value) (onTrue onFalse : BlockId)
  | ret (value : Option Value)
  | unreachable
  deriving DecidableEq

namespace Operation

/-- All operands, in order.  The blocks a phi names are no operands. -/
def operands : Operation → List Value
  | binary _ l r | compare _ l r => [l, r]
  | convert _ v => [v]
  | select c t e => [c, t, e]
  | phi incoming => incoming.map (·.1)
  | element b i => [b, i]
  | load p => [p]
  | store p v => [p, v]
  | call _ args => args
  | branch c _ _ => [c]
  | ret v => v.toList
  | jump _ | unreachable => []

/-- The instructions whose results are operands, once per operand. -/
def usedInsts (op : Operation) : List InstId := op.operands.filterMap Value.inst?

/-- Applies a function to every operand. -/
def mapOperands (g : Value → Value) : Operation → Operation
  | binary op l r => binary op (g l) (g r)
  | compare rel l r => compare rel (g l) (g r)
  | convert op v => convert op (g v)
  | select c t e => select (g c) (g t) (g e)
  | phi incoming => phi (incoming.map fun (v, b) => (g v, b))
  | element b i => element (g b) (g i)
  | load p => load (g p)
  | store p v => store (g p) (g v)
  | call f args => call f (args.map g)
  | jump t => jump t
  | branch c t e => branch (g c) t e
  | ret v => ret (v.map g)
  | unreachable => unreachable

/-- Replaces every operand equal to `old` by `new`. -/
def substitute (old new : Value) (op : Operation) : Operation :=
  op.mapOperands fun v => if v = old then new else v

/-- The number of operands that `substitute` replaces. -/
def uses (old : Value) (op : Operation) : Nat := op.operands.count old

/-- The blocks control may continue in. -/
def successors : Operation → List BlockId
  | jump t => [t]
  | branch _ t e => [t, e]
  | _ => []

/-- Applies a function to every successor. -/
def mapSuccessors (g : BlockId → BlockId) : Operation → Operation
  | jump t => jump (g t)
  | branch c t e => branch c (g t) (g e)
  | op => op

/-- Applies a function to every block that a phi names. -/
def mapIncoming (g : BlockId → BlockId) : Operation → Operation
  | phi incoming => phi (incoming.map fun (v, b) => (v, g b))
  | op => op

/-- The renaming that sends one block to another and keeps the rest. -/
def redirect (old new : BlockId) (b : BlockId) : BlockId := if b = old then new else b

/-- The operations that end a block. -/
def isTerminator : Operation → Bool
  | jump _ | branch .. | ret _ | unreachable => true
  | _ => false

def isPhi : Operation → Bool
  | phi _ => true
  | _ => false

/-- A branch that depends on a condition. -/
def isBranch : Operation → Bool
  | branch .. => true
  | _ => false

/-- The name of the function that a call calls. -/
def callee? : Operation → Option String
  | call f _ => some f
  | _ => none

/-- The pointer that a memory access or an address computation starts from. -/
def address? : Operation → Option Value
  | load p | store p _ => some p
  | element b _ => some b
  | _ => none

/-! ### The maps and the lists they change -/

@[simp] theorem operands_mapOperands (g : Value → Value) (op : Operation) :
    (op.mapOperands g).operands = op.operands.map g := by
  cases op with
  | ret v => cases v <;> rfl
  | _ => simp [mapOperands, operands]

@[simp] theorem successors_mapSuccessors (g : BlockId → BlockId) (op : Operation) :
    (op.mapSuccessors g).successors = op.successors.map g := by
  cases op <;> simp [mapSuccessors, successors]

@[simp] theorem successors_mapOperands (g : Value → Value) (op : Operation) :
    (op.mapOperands g).successors = op.successors := by
  cases op <;> simp [mapOperands, successors]

@[simp] theorem operands_mapSuccessors (g : BlockId → BlockId) (op : Operation) :
    (op.mapSuccessors g).operands = op.operands := by
  cases op <;> simp [mapSuccessors, operands]

@[simp] theorem operands_mapIncoming (g : BlockId → BlockId) (op : Operation) :
    (op.mapIncoming g).operands = op.operands := by
  cases op <;> simp [mapIncoming, operands]

end Operation

end KernelCoarsening
