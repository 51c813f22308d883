/-
What operators compute.

A word has 64 bits.  A result is cut to the width of its type and extended with its
sign, so that a value of a narrow type is the word of the same number.  Unsigned
operators read only as many bits of an operand as its type has.

* `Ty.fit_fit` — a word that has been cut stays as it is.
-/
import KernelCoarsening.Ir.Func

namespace KernelCoarsening

/-- Why a thread cannot go on. -/
inductive Trap where
  /-- An instruction is read before it has a value. -/
  | undefinedRead (i : InstId)
  | missingArgument (position : Nat)
  | unknownGlobal (g : GlobalId)
  /-- A number is needed where an address or nothing is. -/
  | notANumber
  /-- An address is needed where a number or nothing is. -/
  | notAnAddress
  /-- An address leads to no element of memory. -/
  | outOfBounds
  | divisionByZero
  | floatingPoint
  /-- A function is called that reads no register. -/
  | unknownFunction (callee : String)
  /-- A phi has no value for the block that control came from. -/
  | noIncoming (phi : InstId)
  /-- An operation is met where it must not stand. -/
  | misplaced (i : InstId)
  | unreachable
  /-- A block ends without a terminator. -/
  | noTerminator (b : BlockId)
  /-- The function refers to what does not exist. -/
  | fault (cause : Fault)
  deriving DecidableEq

namespace Ty

/-- A word cut to the width of a type and extended with its sign; truth values have none. -/
def fit (ty : Ty) (n : Int64) : Int64 :=
  match ty with
  | i1 => n &&& 1
  | i32 => n.toInt32.toInt64
  | _ => n

/-- A word read without sign, as wide as a type. -/
def unsigned (ty : Ty) (n : Int64) : UInt64 :=
  match ty with
  | i1 => (n &&& 1).toUInt64
  | i32 => n.toInt32.toUInt32.toUInt64
  | _ => n.toUInt64

theorem fit_fit (ty : Ty) (n : Int64) : ty.fit (ty.fit n) = ty.fit n := by
  cases ty <;> simp [fit, Int64.and_assoc]

end Ty

/-- The result of a two-operand operator on two words, given also as unsigned words of the
width of their types. -/
def BinaryOp.apply (op : BinaryOp) (a b : Int64) (ua ub : UInt64) : Except Trap Int64 :=
  match op with
  | add => .ok (a + b)
  | sub => .ok (a - b)
  | mul => .ok (a * b)
  | sdiv => if b = 0 then .error .divisionByZero else .ok (a / b)
  | srem => if b = 0 then .error .divisionByZero else .ok (a % b)
  | udiv => if b = 0 ∨ ub = 0 then .error .divisionByZero else .ok (ua / ub).toInt64
  | urem => if b = 0 ∨ ub = 0 then .error .divisionByZero else .ok (ua % ub).toInt64
  | and => .ok (a &&& b)
  | or => .ok (a ||| b)
  | xor => .ok (a ^^^ b)
  | shl => .ok (a <<< b)
  | lshr => .ok (ua >>> b.toUInt64).toInt64
  | ashr => .ok (a >>> b)
  | fadd | fsub | fmul | fdiv => .error .floatingPoint

/-- A comparison holds of two words, given also as unsigned words of the width of their
types. -/
def Comparison.holds (rel : Comparison) (a b : Int64) (ua ub : UInt64) : Bool :=
  match rel with
  | eq => a = b
  | ne => a ≠ b
  | ult => ua < ub
  | ule => ua ≤ ub
  | ugt => ub < ua
  | uge => ub ≤ ua
  | slt => a < b
  | sle => a ≤ b
  | sgt => b < a
  | sge => b ≤ a

end KernelCoarsening
