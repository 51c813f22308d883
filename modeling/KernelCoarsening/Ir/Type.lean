/-
Value types of kernel code.

A value is a truth value, an integer, a floating-point number or a pointer; a
pointer type records which memory it points into.  `AddressSpace.number` and
`AddressSpace.ofNumber?` lead from a memory to the number that stands for it in
listings, and back.

* `AddressSpace.ofNumber?_number` — the number of a memory reads back as it.
-/

namespace KernelCoarsening

/-- The memories a pointer may refer to. -/
inductive AddressSpace where
  | generic
  | global
  | shared
  | constant
  | threadLocal
  deriving DecidableEq

namespace AddressSpace

/-- The number a listing uses for the memory. -/
def number : AddressSpace → Nat
  | generic => 0
  | global => 1
  | shared => 3
  | constant => 4
  | threadLocal => 5

/-- The memory a number stands for; `2` and everything above `5` are unused. -/
def ofNumber? : Nat → Option AddressSpace
  | 0 => some generic
  | 1 => some global
  | 3 => some shared
  | 4 => some constant
  | 5 => some threadLocal
  | _ => none

@[simp] theorem ofNumber?_number (s : AddressSpace) : ofNumber? s.number = some s := by
  cases s <;> rfl

end AddressSpace

/-- First-class types, together with `void` for operations without a result. -/
inductive Ty where
  | void
  | i1
  | i32
  | i64
  | f32
  | f64
  | ptr (space : AddressSpace)
  deriving DecidableEq

namespace Ty

/-- Every type but `void` is the type of a value. -/
def isValue (t : Ty) : Bool := t != void

/-- The two floating-point types. -/
def isFloat : Ty → Bool
  | f32 | f64 => true
  | _ => false

/-- How a listing writes the type. -/
def text : Ty → String
  | void => "void"
  | i1 => "i1"
  | i32 => "i32"
  | i64 => "i64"
  | f32 => "float"
  | f64 => "double"
  | ptr .generic => "ptr"
  | ptr space => "ptr addrspace(" ++ toString space.number ++ ")"

end Ty

end KernelCoarsening
