/-
Machine words.

Handles, lengths and launch extents are numbers of 32 bits, costs numbers of 64
bits, both without sign; constants are numbers of 64 bits with sign.

* `int64Of?_eq_some_iff` — a number has a 64-bit form exactly if that form stands for
  it.
-/

namespace KernelCoarsening

/-- The first number that 32 bits cannot hold. -/
def limit32 : Nat := 0x100000000

/-- The first number that 64 bits cannot hold. -/
def limit64 : Nat := 0x10000000000000000

/-- The 64-bit number with sign that stands for a number, if there is one. -/
def int64Of? (n : Int) : Option Int64 :=
  if (Int64.ofInt n).toInt = n then some (Int64.ofInt n) else none

theorem int64Of?_eq_some_iff {n : Int} {c : Int64} : int64Of? n = some c ↔ c.toInt = n := by
  unfold int64Of?
  constructor
  · intro h
    split at h
    · cases h
      assumption
    · cases h
  · rintro rfl
    simp

@[simp] theorem int64Of?_toInt (c : Int64) : int64Of? c.toInt = some c :=
  int64Of?_eq_some_iff.mpr rfl

end KernelCoarsening
