/-
The operators of kernel code: two-operand arithmetic, comparisons and
conversions.

* `Comparison.inverse_inverse` — negating a comparison twice gives it back.
-/

namespace KernelCoarsening

/-- Two-operand arithmetic and bitwise operators. -/
inductive BinaryOp where
  | add
  | sub
  | mul
  | udiv
  | sdiv
  | urem
  | srem
  | and
  | or
  | xor
  | shl
  | lshr
  | ashr
  | fadd
  | fsub
  | fmul
  | fdiv
  deriving DecidableEq

namespace BinaryOp

/-- How a listing writes the operator. -/
def mnemonic : BinaryOp → String
  | add => "add"
  | sub => "sub"
  | mul => "mul"
  | udiv => "udiv"
  | sdiv => "sdiv"
  | urem => "urem"
  | srem => "srem"
  | and => "and"
  | or => "or"
  | xor => "xor"
  | shl => "shl"
  | lshr => "lshr"
  | ashr => "ashr"
  | fadd => "fadd"
  | fsub => "fsub"
  | fmul => "fmul"
  | fdiv => "fdiv"

/-- Quotients, of integers or of floating-point numbers. -/
def isDivision : BinaryOp → Bool
  | udiv | sdiv | fdiv => true
  | _ => false

/-- Remainders of integers. -/
def isRemainder : BinaryOp → Bool
  | urem | srem => true
  | _ => false

end BinaryOp

/-- Comparisons of integers; `u…` reads its operands unsigned, `s…` signed. -/
inductive Comparison where
  | eq
  | ne
  | ult
  | ule
  | ugt
  | uge
  | slt
  | sle
  | sgt
  | sge
  deriving DecidableEq

namespace Comparison

/-- How a listing writes the comparison. -/
def mnemonic : Comparison → String
  | eq => "eq"
  | ne => "ne"
  | ult => "ult"
  | ule => "ule"
  | ugt => "ugt"
  | uge => "uge"
  | slt => "slt"
  | sle => "sle"
  | sgt => "sgt"
  | sge => "sge"

/-- The comparison that holds exactly when this one does not. -/
def inverse : Comparison → Comparison
  | eq => ne
  | ne => eq
  | ult => uge
  | ule => ugt
  | ugt => ule
  | uge => ult
  | slt => sge
  | sle => sgt
  | sgt => sle
  | sge => slt

@[simp] theorem inverse_inverse (p : Comparison) : p.inverse.inverse = p := by
  cases p <;> rfl

/-- The four order comparisons of unsigned numbers. -/
def isUnsigned : Comparison → Bool
  | ult | ule | ugt | uge => true
  | _ => false

end Comparison

/-- Conversions of one value to another type. -/
inductive Conversion where
  | zext
  | sext
  | trunc
  | siToFp
  | fpToSi
  | addrSpaceCast
  deriving DecidableEq

/-- How a listing writes the conversion. -/
def Conversion.mnemonic : Conversion → String
  | zext => "zext"
  | sext => "sext"
  | trunc => "trunc"
  | siToFp => "sitofp"
  | fpToSi => "fptosi"
  | addrSpaceCast => "addrspacecast"

end KernelCoarsening
