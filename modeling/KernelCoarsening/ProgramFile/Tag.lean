/-
The tags of the program file: how the alternatives without content are spelled.

Each family has a list of all its members and a spelling; a tag is read by
looking for the member that is spelled so.

* `BinaryOp.ofTag?_tag` and its companions — every member is read back from its
  tag.
-/
import KernelCoarsening.Ir.Func

namespace KernelCoarsening

namespace AddressSpace

def all : List AddressSpace := [generic, global, shared, constant, threadLocal]

def tag : AddressSpace → String
  | generic => "Generic"
  | global => "Global"
  | shared => "Shared"
  | constant => "Constant"
  | threadLocal => "Local"

/-- The memory that is spelled so. -/
def ofTag? (s : String) : Option AddressSpace := all.find? (·.tag == s)

@[simp] theorem ofTag?_tag (s : AddressSpace) : ofTag? s.tag = some s := by
  cases s <;> decide

end AddressSpace

namespace BinaryOp

def all : List BinaryOp :=
  [add, sub, mul, udiv, sdiv, urem, srem, and, or, xor, shl, lshr, ashr, fadd, fsub, fmul, fdiv]

def tag : BinaryOp → String
  | add => "Add"
  | sub => "Sub"
  | mul => "Mul"
  | udiv => "UDiv"
  | sdiv => "SDiv"
  | urem => "URem"
  | srem => "SRem"
  | and => "And"
  | or => "Or"
  | xor => "Xor"
  | shl => "Shl"
  | lshr => "LShr"
  | ashr => "AShr"
  | fadd => "FAdd"
  | fsub => "FSub"
  | fmul => "FMul"
  | fdiv => "FDiv"

/-- The operator that is spelled so. -/
def ofTag? (s : String) : Option BinaryOp := all.find? (·.tag == s)

@[simp] theorem ofTag?_tag (op : BinaryOp) : ofTag? op.tag = some op := by
  cases op <;> decide

end BinaryOp

namespace Comparison

def all : List Comparison := [eq, ne, ult, ule, ugt, uge, slt, sle, sgt, sge]

def tag : Comparison → String
  | eq => "Eq"
  | ne => "Ne"
  | ult => "Ult"
  | ule => "Ule"
  | ugt => "Ugt"
  | uge => "Uge"
  | slt => "Slt"
  | sle => "Sle"
  | sgt => "Sgt"
  | sge => "Sge"

/-- The comparison that is spelled so. -/
def ofTag? (s : String) : Option Comparison := all.find? (·.tag == s)

@[simp] theorem ofTag?_tag (p : Comparison) : ofTag? p.tag = some p := by
  cases p <;> decide

end Comparison

namespace Conversion

def all : List Conversion := [zext, sext, trunc, siToFp, fpToSi, addrSpaceCast]

def tag : Conversion → String
  | zext => "ZExt"
  | sext => "SExt"
  | trunc => "Trunc"
  | siToFp => "SiToFp"
  | fpToSi => "FpToSi"
  | addrSpaceCast => "AddrSpaceCast"

/-- The conversion that is spelled so. -/
def ofTag? (s : String) : Option Conversion := all.find? (·.tag == s)

@[simp] theorem ofTag?_tag (op : Conversion) : ofTag? op.tag = some op := by
  cases op <;> decide

end Conversion

namespace CallingConvention

def all : List CallingConvention := [c, kernel, device]

def tag : CallingConvention → String
  | c => "C"
  | kernel => "PtxKernel"
  | device => "PtxDevice"

/-- The convention that is spelled so. -/
def ofTag? (s : String) : Option CallingConvention := all.find? (·.tag == s)

@[simp] theorem ofTag?_tag (cc : CallingConvention) : ofTag? cc.tag = some cc := by
  cases cc <;> decide

end CallingConvention

end KernelCoarsening
