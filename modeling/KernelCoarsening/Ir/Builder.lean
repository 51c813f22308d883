/-
Step by step construction of a function body.

A builder appends instructions to its current block and derives the types of
their results.  The first instruction without a current block opens a block of
its own, named `entry`.
-/
import KernelCoarsening.Ir.Edit

namespace KernelCoarsening

/-- A function under construction and the block that instructions go to. -/
structure Builder where
  func : Func
  current : Option BlockId

namespace Builder

/-- Starts a function without result. -/
def start (name : String) (params : List Param) (convention : CallingConvention) : Builder :=
  { func := { Func.empty name params .void with convention }, current := none }

/-- Adds a block at the end of the layout and stays in the current one. -/
def block (s : Builder) (name : String) : Builder × BlockId :=
  let (func, b) := s.func.addBlock name
  ({ s with func }, b)

/-- Makes a block the current one. -/
def switchTo (s : Builder) (b : BlockId) : Builder := { s with current := some b }

/-- Appends an instruction to the current block. -/
def emit (s : Builder) (op : Operation) (ty : Ty) (name : String) :
    Except Fault (Builder × InstId) := do
  let (func, b) := match s.current with
    | some b => (s.func, b)
    | none => s.func.addBlock "entry"
  let (func, i) ← func.append b op ty name
  return ({ func, current := some b }, i)

/-- The type of the first operand, unless that is a constant or undefined: then the type of
the second. -/
def operandType (s : Builder) (first second : Value) : Except Fault Ty :=
  match first with
  | .inst _ | .arg _ | .global _ => s.func.valueType first
  | .const _ | .undef => s.func.valueType second

def call (s : Builder) (callee : String) (args : List Value) (ty : Ty) (name : String) :
    Except Fault (Builder × InstId) :=
  s.emit (.call callee args) ty name

/-- The result has the type of the operands. -/
def binary (s : Builder) (op : BinaryOp) (lhs rhs : Value) (name : String) :
    Except Fault (Builder × InstId) := do
  s.emit (.binary op lhs rhs) (← s.operandType lhs rhs) name

def compare (s : Builder) (rel : Comparison) (lhs rhs : Value) (name : String) :
    Except Fault (Builder × InstId) :=
  s.emit (.compare rel lhs rhs) .i1 name

def convert (s : Builder) (op : Conversion) (value : Value) (ty : Ty) (name : String) :
    Except Fault (Builder × InstId) :=
  s.emit (.convert op value) ty name

/-- The result has the type of the alternatives. -/
def select (s : Builder) (cond onTrue onFalse : Value) (name : String) :
    Except Fault (Builder × InstId) := do
  s.emit (.select cond onTrue onFalse) (← s.operandType onTrue onFalse) name

/-- The result has the type of the base address. -/
def element (s : Builder) (base index : Value) (name : String) :
    Except Fault (Builder × InstId) := do
  s.emit (.element base index) (← s.func.valueType base) name

def load (s : Builder) (ty : Ty) (ptr : Value) (name : String) :
    Except Fault (Builder × InstId) :=
  s.emit (.load ptr) ty name

def store (s : Builder) (ptr value : Value) : Except Fault (Builder × InstId) :=
  s.emit (.store ptr value) .void ""

def phi (s : Builder) (ty : Ty) (incoming : List (Value × BlockId)) (name : String) :
    Except Fault (Builder × InstId) :=
  s.emit (.phi incoming) ty name

/-- Adds an incoming value to a phi; any other operand is left alone. -/
def addIncoming (s : Builder) (phi value : Value) (b : BlockId) : Except Fault Builder :=
  match phi with
  | .inst i => do
    let func ← s.func.modifyOperation i fun
      | .phi incoming => .phi (incoming ++ [(value, b)])
      | op => op
    return { s with func }
  | _ => .ok s

def jump (s : Builder) (target : BlockId) : Except Fault (Builder × InstId) :=
  s.emit (.jump target) .void ""

def branch (s : Builder) (cond : Value) (onTrue onFalse : BlockId) :
    Except Fault (Builder × InstId) :=
  s.emit (.branch cond onTrue onFalse) .void ""

def ret (s : Builder) (value : Option Value) : Except Fault (Builder × InstId) :=
  s.emit (.ret value) .void ""

end Builder

end KernelCoarsening
