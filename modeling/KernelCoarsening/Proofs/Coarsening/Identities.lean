/-
The place of a logical thread, computed in words.

A merged thread computes the places of the threads that it stands for from its own.  Words of the
width of a type are enough for this, as long as the places stay below 2^32:

* `CoarseningParams.thread_identity`, `CoarseningParams.thread_extent`,
  `CoarseningParams.thread_register` — what a logical thread reads;
* `CoarseningParams.fit_identity`, `CoarseningParams.fit_sibling` — the words that are computed are
  these.
-/
import KernelCoarsening.Proofs.Coarsening.Meaning
import KernelCoarsening.Proofs.Launch.Coverage

namespace KernelCoarsening

/-- The logical thread number `k` that a thread stands for. -/
def CoarseningParams.thread (c : CoarseningParams) (one : Surroundings) (k : Nat) : Surroundings :=
  { one with position := c.logical one.position k }

namespace CoarseningParams

variable {c : CoarseningParams} {one : Surroundings} {k : Nat}

theorem identity_ne_extent (l : Level) : l.identity ≠ l.extent := by cases l <;> decide

theorem thread_identity : (c.thread one k).position.read c.level.identity c.dim =
    c.identityOf (one.position.read c.level.identity c.dim) k := by
  simp [thread, logical, identityOf, (identity_ne_extent c.level).symm]

theorem thread_extent : (c.thread one k).position.read c.level.extent c.dim =
    c.factor * one.position.read c.level.extent c.dim := by
  simp [thread, logical]

/-- All other registers hold the same for all threads. -/
theorem thread_register {r : Register} {d : Dimension}
    (identity : (r, d) ≠ (c.level.identity, c.dim)) (extent : (r, d) ≠ (c.level.extent, c.dim)) :
    (c.thread one k).position.read r d = one.position.read r d := by
  have identity' : ¬(c.level.identity = r ∧ c.dim = d) := by
    rintro ⟨rfl, rfl⟩
    exact identity rfl
  have extent' : ¬(c.level.extent = r ∧ c.dim = d) := by
    rintro ⟨rfl, rfl⟩
    exact extent rfl
  simp [thread, logical, identity', extent']

end CoarseningParams

/-! ### Words of the width of a type -/

namespace Ty

variable {ty : Ty}

theorem fit_add (wide : ty.isWide) (a b : Int64) : ty.fit (ty.fit a + ty.fit b) = ty.fit (a + b) := by
  rcases wide with rfl | rfl
  · simp [fit]
  · rfl

theorem fit_mul (wide : ty.isWide) (a b : Int64) : ty.fit (ty.fit a * ty.fit b) = ty.fit (a * b) := by
  rcases wide with rfl | rfl
  · simp [fit]
  · rfl

theorem fit_add_left (wide : ty.isWide) (a b : Int64) : ty.fit (ty.fit a + b) = ty.fit (a + b) := by
  rw [← fit_add wide, fit_fit, fit_add wide]

theorem fit_mul_left (wide : ty.isWide) (a b : Int64) : ty.fit (ty.fit a * b) = ty.fit (a * b) := by
  rw [← fit_mul wide, fit_fit, fit_mul wide]

/-- A number below 2^32 is read back as it is. -/
theorem unsigned_fit (wide : ty.isWide) {n : Nat} (small : n < 2 ^ 32) :
    ty.unsigned (ty.fit (Int64.ofNat n)) = UInt64.ofNat n := by
  rcases wide with rfl | rfl
  · have narrow : (Int64.ofNat n).toInt32 = Int32.ofNat n := by simp
    simp only [unsigned, fit, Int32.toInt32_toInt64, narrow]
    rw [← UInt64.toNat_inj]
    simp
    omega
  · simp [unsigned, fit]

/-- So is one that has not been cut. -/
theorem unsigned_ofNat {n : Nat} (small : n < 2 ^ 32) :
    Ty.i32.unsigned (Int64.ofNat n) = UInt64.ofNat n := by
  have narrow : (Int64.ofNat n).toInt32 = Int32.ofNat n := by simp
  simp only [unsigned, narrow]
  rw [← UInt64.toNat_inj]
  simp
  omega

end Ty

section word

variable {n s : Nat}

theorem toNat_ofNat_of_small (small : n < 2 ^ 32) : (UInt64.ofNat n).toNat = n := by
  rw [UInt64.toNat_ofNat', Nat.mod_eq_of_lt (by omega)]

/-- Division of small numbers as unsigned words. -/
theorem apply_udiv (hn : n < 2 ^ 32) (hs : s < 2 ^ 32) (positive : 0 < s) (a : Int64) :
    BinaryOp.udiv.apply a (Int64.ofNat s) (UInt64.ofNat n) (UInt64.ofNat s) =
        .ok (Int64.ofNat (n / s)) ∧
      BinaryOp.urem.apply a (Int64.ofNat s) (UInt64.ofNat n) (UInt64.ofNat s) =
        .ok (Int64.ofNat (n % s)) := by
  have nonzero : UInt64.ofNat s ≠ 0 := by
    intro h
    have := congrArg UInt64.toNat h
    rw [toNat_ofNat_of_small hs] at this
    exact absurd this (by simp; omega)
  have nonzero' : Int64.ofNat s ≠ 0 := by
    intro h
    refine nonzero ?_
    rw [← Ty.unsigned_ofNat hs, h]
    rfl
  have quotient : UInt64.ofNat n / UInt64.ofNat s = UInt64.ofNat (n / s) := by
    rw [← UInt64.toNat_inj, UInt64.toNat_div, toNat_ofNat_of_small hn, toNat_ofNat_of_small hs,
      toNat_ofNat_of_small (Nat.lt_of_le_of_lt (Nat.div_le_self n s) hn)]
  have remainder : UInt64.ofNat n % UInt64.ofNat s = UInt64.ofNat (n % s) := by
    rw [← UInt64.toNat_inj, UInt64.toNat_mod, toNat_ofNat_of_small hn, toNat_ofNat_of_small hs,
      toNat_ofNat_of_small (Nat.lt_of_le_of_lt (Nat.mod_le n s) hn)]
  simp only [BinaryOp.apply, nonzero, nonzero', or_self, if_false, quotient, remainder]
  exact ⟨rfl, rfl⟩

end word

namespace CoarseningParams

variable {c : CoarseningParams} {p k : Nat} {ty : Ty}

theorem error?_eq_none_iff : c.error? = none ↔ 2 ≤ c.factor ∧ 1 ≤ c.stride := by
  unfold error?
  split
  · simp
    omega
  · split
    · simp
      omega
    · simp
      omega

/-- The first logical identity is not below the physical one. -/
theorem le_identityOf (factor : 0 < c.factor) : p ≤ c.identityOf p 0 := by
  have scaled : p / c.stride * c.stride ≤ p / c.stride * (c.factor * c.stride) :=
    Nat.mul_le_mul_left _ (Nat.le_mul_of_pos_left _ factor)
  have parts := Nat.div_add_mod' p c.stride
  unfold identityOf
  omega

/-- If the logical identities are small, so are the physical one and the stride. -/
theorem small_of_identities (factor : 2 ≤ c.factor)
    (small : ∀ k < c.factor, c.identityOf p k < 2 ^ 32) : p < 2 ^ 32 ∧ c.stride < 2 ^ 32 := by
  have first := small 0 (by omega)
  have second := small 1 (by omega)
  constructor
  · exact Nat.lt_of_le_of_lt (le_identityOf (by omega)) first
  · unfold identityOf at second
    omega

/-- The first logical identity, as it is computed from the physical one. -/
theorem fit_identity (wide : ty.isWide) : ty.fit (ty.fit (ty.fit (Int64.ofNat (p / c.stride)) *
      (Int64.ofNat c.factor * Int64.ofNat c.stride)) + ty.fit (Int64.ofNat (p % c.stride))) =
    ty.fit (Int64.ofNat (c.identityOf p 0)) := by
  rw [Ty.fit_mul_left wide, Ty.fit_add wide]
  simp [identityOf, Int64.ofNat_add, Int64.ofNat_mul]

/-- The other logical identities, as they are computed from the first. -/
theorem fit_sibling (wide : ty.isWide) : ty.fit (ty.fit (Int64.ofNat (c.identityOf p 0)) +
    Int64.ofNat k * Int64.ofNat c.stride) = ty.fit (Int64.ofNat (c.identityOf p k)) := by
  rw [Ty.fit_add_left wide]
  simp [identityOf, Int64.ofNat_add, Int64.ofNat_mul]

end CoarseningParams

end KernelCoarsening
