/-
Rounds that are counted with unsigned tests.

The values of a counter are words: they wrap around, and an unsigned test reads them without sign.
Rounds are counted for such a test if the first value and the bound are not negative.  That is enough
for a counter that goes up.  One that goes down may step past zero, where it reads as a large number
and passes the test again:

* `wordAt` — the value that is tested in a round;
* `passes_iff_relates` — it passes an unsigned test as the unbounded integer does, if that is not
  negative and not beyond all words;
* `relates_of_lt_count` — never too many rounds are counted, not even where the computation of their
  number wraps around;
* `count_unsigned_exact_iff` — the number of rounds is exact if and only if the unbounded integer that
  ends the count fails the test and is not negative;
* `count_unsigned_inexact` — a count for a test that never fails.
-/
import KernelCoarsening.Execution.Arithmetic
import KernelCoarsening.Proofs.Flow.CheckedCount

namespace KernelCoarsening

/-- The word that is tested in a round: every round adds the step, and wraps around. -/
def wordAt (first step : Int64) : Nat → Int64
  | 0 => first
  | k + 1 => wordAt first step k + step

/-- A comparison holds of two words of 64 bits. -/
def Comparison.Passes (rel : Comparison) (a b : Int64) : Prop :=
  rel.holds a b a.toUInt64 b.toUInt64 = true

section

variable {a b first step bound : Int64} {rel : Comparison} {k n : Nat}

/-- A word without sign is the residue of the number that it stands for. -/
theorem toNat_toUInt64 (a : Int64) : (a.toUInt64.toNat : Int) = a.toInt % 2 ^ 64 := by
  rw [← Int64.toInt_toBitVec, BitVec.toInt_eq_toNat_bmod, ← Int64.toBitVec_toUInt64,
    UInt64.toNat_toBitVec]
  have lt := a.toUInt64.toNat_lt
  have residue : (a.toUInt64.toNat : Int).bmod (2 ^ 64) % (2 ^ 64 : Nat) =
      a.toUInt64.toNat % (2 ^ 64 : Nat) := Int.bmod_emod
  push_cast at residue ⊢
  omega

theorem toInt_wordAt (k : Nat) :
    (wordAt first step k).toInt = (first.toInt + k * step.toInt).bmod (2 ^ 64) := by
  induction k with
  | zero => simp [wordAt]
  | succ k ih =>
    rw [wordAt, Int64.toInt_add, ih, Int.bmod_add_bmod, Nat.cast_succ, add_mul, one_mul, add_assoc]

/-- The value of a round without sign. -/
theorem toNat_wordAt (k : Nat) : ((wordAt first step k).toUInt64.toNat : Int) =
    (first.toInt + k * step.toInt) % 2 ^ 64 := by
  rw [toNat_toUInt64, toInt_wordAt]
  exact_mod_cast Int.bmod_emod (x := first.toInt + k * step.toInt) (m := 2 ^ 64)

/-- An unsigned test of words is a test of the numbers that they stand for without sign. -/
theorem passes_iff_toNat (unsigned : rel.isUnsigned = true) (a b : Int64) :
    rel.Passes a b ↔ rel.Relates a.toUInt64.toNat b.toUInt64.toNat := by
  unfold Comparison.Passes
  cases rel with
  | ult | ugt => simp [Comparison.holds, Comparison.Relates, UInt64.lt_iff_toNat_lt]
  | ule | uge => simp [Comparison.holds, Comparison.Relates, UInt64.le_iff_toNat_le]
  | _ => cases unsigned

/-- The value of a round passes an unsigned test as the unbounded integer does, where that is a
number without sign. -/
theorem passes_iff_relates (unsigned : rel.isUnsigned = true) (hbound : 0 ≤ bound.toInt)
    (nonneg : 0 ≤ first.toInt + k * step.toInt) (small : first.toInt + k * step.toInt < 2 ^ 64) :
    rel.Passes (wordAt first step k) bound ↔
      rel.Relates (first.toInt + k * step.toInt) bound.toInt := by
  have := bound.toInt_lt
  rw [passes_iff_toNat unsigned, toNat_wordAt, toNat_toUInt64, Int.emod_eq_of_lt nonneg small,
    Int.emod_eq_of_lt hbound (by omega)]

/-! ### Counts that wrap around -/

/-- A quotient by a positive word does not leave 64 bits. -/
theorem toInt_div_of_pos (pos : 0 < b.toInt) : (a / b).toInt = a.toInt.tdiv b.toInt := by
  refine toInt_div_of_isWord ?_
  rcases Int.le_total 0 a.toInt with up | down
  · exact (isWord_toInt a).tdiv up pos.le
  · have le := Int.tdiv_le_self b.toInt (a := -a.toInt) (by omega)
    have nonneg := Int.tdiv_nonneg (a := -a.toInt) (by omega) pos.le
    have := a.le_toInt
    rw [Int.neg_tdiv] at le nonneg
    unfold IsWord
    omega

/-- Wrapping around makes a number no larger, unless it lies below all words. -/
theorem bmod_le_self {m : Int} (h : -2 ^ 63 ≤ m) : m.bmod (2 ^ 64) ≤ m := by
  rw [Int.bmod_def]
  split <;> omega

/-- A rounded quotient counts only multiples that lie below the distance, wrapped around or not. -/
theorem mul_lt_of_lt_ceil (ha : 0 < a.toInt) (hb : 0 < b.toInt)
    (lt : (k : Int) < ((a + b - 1) / b).toInt) : k * b.toInt < a.toInt := by
  rw [toInt_div_of_pos hb] at lt
  have top : (a + b - 1).toInt ≤ a.toInt + b.toInt - 1 := by
    rw [Int64.toInt_sub, Int64.toInt_add, Int.bmod_sub_bmod, Int64.toInt_one]
    exact bmod_le_self (by omega)
  have nonneg : 0 ≤ (a + b - 1).toInt := by
    by_contra neg
    have := Int.tdiv_nonneg (a := -(a + b - 1).toInt) (by omega) hb.le
    rw [Int.neg_tdiv] at this
    omega
  rw [Int.tdiv_eq_ediv_of_nonneg nonneg, ← Int.add_one_le_iff, Int.le_ediv_iff_mul_le hb, add_mul,
    one_mul] at lt
  omega

theorem mul_le_of_lt_floor (ha : 0 ≤ a.toInt) (hb : 0 < b.toInt)
    (lt : (k : Int) < (a / b + 1).toInt) : k * b.toInt ≤ a.toInt := by
  have nonneg := Int.tdiv_nonneg ha hb.le
  rw [Int64.toInt_add, toInt_div_of_pos hb, Int64.toInt_one] at lt
  have := bmod_le_self (m := a.toInt.tdiv b.toInt + 1) (by omega)
  rw [Int.tdiv_eq_ediv_of_nonneg ha] at this lt
  exact (Int.le_ediv_iff_mul_le hb).mp (by omega)

/-- The least word is its own opposite. -/
theorem toInt_neg_of_least (least : step.toInt = -2 ^ 63) : (-step).toInt = -2 ^ 63 := by
  rw [Int64.toInt_neg, least]
  decide

theorem toInt_neg_of_not_least (more : step.toInt ≠ -2 ^ 63) : (-step).toInt = -step.toInt := by
  have := step.le_toInt
  have := step.toInt_lt
  exact toInt_neg_of_isWord (by unfold IsWord; omega)

theorem ceil_least_le (ha : 0 < a.toInt) (least : b.toInt = -2 ^ 63) :
    ((a + b - 1) / b).toInt ≤ 1 := by
  have := a.toInt_lt
  have top : (a + b - 1).toInt = -(2 ^ 63 + 1 - a.toInt) := by
    rw [Int64.toInt_sub, Int64.toInt_add, Int.bmod_sub_bmod, Int64.toInt_one, least,
      IsWord.bmod_eq (by unfold IsWord; omega)]
    omega
  have quotient : (a + b - 1).toInt.tdiv b.toInt = (2 ^ 63 + 1 - a.toInt) / 2 ^ 63 := by
    rw [top, least, Int.neg_tdiv_neg, Int.tdiv_eq_ediv_of_nonneg (by omega)]
  rw [Int64.toInt_div, quotient]
  exact (bmod_le_self (by omega)).trans (by omega)

theorem floor_least_le (ha : 0 ≤ a.toInt) (least : b.toInt = -2 ^ 63) : (a / b + 1).toInt ≤ 1 := by
  have := a.toInt_lt
  have quotient : a.toInt.tdiv b.toInt = -(a.toInt / 2 ^ 63) := by
    rw [least, Int.tdiv_neg, Int.tdiv_eq_ediv_of_nonneg ha]
  rw [Int64.toInt_add, Int64.toInt_div, quotient, Int.bmod_add_bmod, Int64.toInt_one]
  exact (bmod_le_self (by omega)).trans (by omega)

/-- A count of steps down counts only multiples that lie below the distance, too.  If the step is
the least word, at most one is counted. -/
theorem mul_neg_lt_of_lt_ceil (ha : 0 < a.toInt) (down : step.toInt < 0)
    (lt : (k : Int) < ((a + -step - 1) / -step).toInt) : k * -step.toInt < a.toInt := by
  by_cases least : step.toInt = -2 ^ 63
  · have := ceil_least_le ha (toInt_neg_of_least least)
    obtain rfl : k = 0 := by omega
    simpa using ha
  · have up := toInt_neg_of_not_least least
    exact up ▸ mul_lt_of_lt_ceil ha (by omega) lt

theorem mul_neg_le_of_lt_floor (ha : 0 ≤ a.toInt) (down : step.toInt < 0)
    (lt : (k : Int) < (a / -step + 1).toInt) : k * -step.toInt ≤ a.toInt := by
  by_cases least : step.toInt = -2 ^ 63
  · have := floor_least_le ha (toInt_neg_of_least least)
    obtain rfl : k = 0 := by omega
    simpa using ha
  · have up := toInt_neg_of_not_least least
    exact up ▸ mul_le_of_lt_floor ha (by omega) lt

/-- A place below a count lies below a count that is not set to nothing. -/
theorem lt_toInt_of_lt_count {p : Prop} [Decidable p] {count : Int64}
    (lt : k < (if p then 0 else count).toInt.toNat) : ¬ p ∧ (k : Int) < count.toInt := by
  split at lt
  · simp at lt
  · exact ⟨‹¬ p›, by omega⟩

/-- Where rounds are counted for an unsigned test, neither the first value nor the bound is
negative. -/
theorem nonneg_of_countRounds (unsigned : rel.isUnsigned = true)
    (h : countRounds first step rel bound = .ok (some n)) : 0 ≤ first.toInt ∧ 0 ≤ bound.toInt := by
  have known := known_of_countRounds h
  simp only [unsigned, Bool.true_and, Bool.or_eq_true, decide_eq_true_eq, not_or,
    Int64.lt_iff_toInt_lt, Int64.toInt_zero] at known
  omega

/-- The values before the number that is counted for an unsigned test pass it, also where the
computation has wrapped around. -/
theorem relates_of_lt_count (unsigned : rel.isUnsigned = true)
    (h : countRounds first step rel bound = .ok (some n)) (lt : k < n) :
    rel.Relates (first.toInt + k * step.toInt) bound.toInt := by
  obtain ⟨start, hbound⟩ := nonneg_of_countRounds unsigned h
  obtain ⟨-, span, count, apart, steps, rfl⟩ := exists_stepsOver h
  have := first.toInt_lt
  have back : (-span).toInt = -span.toInt := toInt_neg_of_not_least (by omega)
  cases rel with
  | ult =>
    obtain ⟨moves, rfl⟩ := of_ok_ite steps
    obtain ⟨near, lt⟩ := lt_toInt_of_lt_count lt
    rw [Int64.le_iff_toInt_le, Int64.toInt_zero] at near
    have := mul_lt_of_lt_ceil (by omega) (toInt_pos_of_lt moves) lt
    simp only [Comparison.Relates]
    omega
  | ule =>
    obtain ⟨moves, rfl⟩ := of_ok_ite steps
    obtain ⟨near, lt⟩ := lt_toInt_of_lt_count lt
    rw [Int64.lt_iff_toInt_lt, Int64.toInt_zero] at near
    have := mul_le_of_lt_floor (by omega) (toInt_pos_of_lt moves) lt
    simp only [Comparison.Relates]
    omega
  | ugt =>
    obtain ⟨moves, rfl⟩ := of_ok_ite steps
    obtain ⟨near, lt⟩ := lt_toInt_of_lt_count lt
    rw [ge_iff_le, Int64.le_iff_toInt_le, Int64.toInt_zero] at near
    have := mul_neg_lt_of_lt_ceil (by omega) (toInt_neg_of_lt moves) lt
    simp only [Comparison.Relates]
    rw [mul_neg, back] at this
    omega
  | uge =>
    obtain ⟨moves, rfl⟩ := of_ok_ite steps
    obtain ⟨near, lt⟩ := lt_toInt_of_lt_count lt
    rw [gt_iff_lt, Int64.lt_iff_toInt_lt, Int64.toInt_zero] at near
    have := mul_neg_le_of_lt_floor (by omega) (toInt_neg_of_lt moves) lt
    simp only [Comparison.Relates]
    rw [mul_neg, back] at this
    omega
  | _ => cases unsigned

/-! ### Rounds of words -/

/-- Before a place where the values of a counter are not negative, they are not either. -/
theorem nonneg_of_le (start : 0 ≤ first.toInt) (last : 0 ≤ first.toInt + n * step.toInt)
    (le : k ≤ n) : 0 ≤ first.toInt + k * step.toInt := by
  rcases le_or_gt 0 step.toInt with up | down
  · have := mul_nonneg (Int.natCast_nonneg k) up
    omega
  · have : (n : Int) * step.toInt ≤ k * step.toInt :=
      mul_le_mul_of_nonpos_right (Int.ofNat_le.mpr le) down.le
    omega

/-- The values up to a number of rounds that pass an unsigned test are no larger than a number without
sign: one that is added to has passed the test, and lies below the bound. -/
theorem small_of_passed (unsigned : rel.isUnsigned = true) (out : rel.LeadsOut step)
    (passed : ∀ k < n, rel.Relates (first.toInt + k * step.toInt) bound.toInt) (le : k ≤ n) :
    first.toInt + k * step.toInt < 2 ^ 64 := by
  have := first.toInt_lt
  have := step.toInt_lt
  have := bound.toInt_lt
  cases k with
  | zero => simp; omega
  | succ k =>
    have passed := passed k (by omega)
    rw [Nat.cast_succ, add_mul, one_mul]
    cases rel with
    | ult | ule =>
      simp only [Comparison.Relates] at passed
      omega
    | ugt | uge =>
      have down := toInt_neg_of_lt out
      have := mul_nonpos_of_nonneg_of_nonpos (Int.natCast_nonneg k) down.le
      omega
    | _ => cases unsigned

/-- A value that has stepped past zero passes the test that counts down again. -/
theorem passes_of_negative (unsigned : rel.isUnsigned = true) (out : rel.LeadsOut step)
    (start : 0 ≤ first.toInt) (hbound : 0 ≤ bound.toInt)
    (passed : ∀ k < n, rel.Relates (first.toInt + k * step.toInt) bound.toInt)
    (past : first.toInt + n * step.toInt < 0) : rel.Passes (wordAt first step n) bound := by
  have := bound.toInt_lt
  have := step.le_toInt
  obtain ⟨k, rfl⟩ : ∃ k, n = k + 1 := Nat.exists_eq_succ_of_ne_zero (by rintro rfl; simp at past; omega)
  have passed := passed k (by omega)
  rw [passes_iff_toNat unsigned, toNat_wordAt, toNat_toUInt64]
  rw [Nat.cast_succ, add_mul, one_mul] at past ⊢
  cases rel with
  | ult | ule =>
    have up := toInt_pos_of_lt out
    have := mul_nonneg (Int.natCast_nonneg k) up.le
    omega
  | ugt | uge =>
    simp only [Comparison.Relates] at passed ⊢
    omega
  | _ => cases unsigned

/-- The number of rounds that is counted for an unsigned test is exact for words that wrap around if
and only if the unbounded integer that ends the count is not negative and fails the test.  It does
fail the test if no operation has left 64 bits when the number was computed. -/
theorem count_unsigned_exact_iff (unsigned : rel.isUnsigned = true)
    (h : countRounds first step rel bound = .ok (some n)) :
    (FailsFirstAt (fun k => rel.Passes (wordAt first step k) bound) n ↔
        0 ≤ first.toInt + n * step.toInt ∧
          ¬ rel.Relates (first.toInt + n * step.toInt) bound.toInt) ∧
      (checkedRounds? first step rel bound = some (some n) →
        ¬ rel.Relates (first.toInt + n * step.toInt) bound.toInt) := by
  obtain ⟨start, hbound⟩ := nonneg_of_countRounds unsigned h
  have out : rel.LeadsOut step := by
    by_contra stays
    simp [countRounds_of_not_leadsOut stays] at h
  have passed : ∀ k < n, rel.Relates (first.toInt + k * step.toInt) bound.toInt :=
    fun _ => relates_of_lt_count unsigned h
  have same (last : 0 ≤ first.toInt + n * step.toInt) {k : Nat} (le : k ≤ n) :=
    passes_iff_relates unsigned hbound (nonneg_of_le start last le)
      (small_of_passed unsigned out passed le)
  refine ⟨⟨fun exact => ?_, ?_⟩, fun checked => (relates_of_checked checked).2.2.2⟩
  · have last : 0 ≤ first.toInt + n * step.toInt := by
      by_contra past
      exact exact.2 (passes_of_negative unsigned out start hbound passed (by omega))
    exact ⟨last, (same last le_rfl).not.mp exact.2⟩
  · rintro ⟨last, fails⟩
    exact ⟨fun k lt => (same last lt.le).mpr (passed k lt), (same last le_rfl).not.mpr fails⟩

/-- From 6 in steps of -2, the words 6 and 4 lie above 2 without sign, and 2 does not. -/
theorem count_unsignedDown : countRounds 6 (-2) .ugt 2 = .ok (some 2) ∧
    FailsFirstAt (fun k => Comparison.ugt.Passes (wordAt 6 (-2) k) 2) 2 := by
  have count : countRounds 6 (-2) .ugt 2 = .ok (some 2) := by decide
  exact ⟨count, (count_unsigned_exact_iff rfl count).1.mpr (by decide)⟩

/-- Four rounds are counted from 3 down to 0.  The next word is the largest of all, and no word fails
the test. -/
theorem count_unsigned_inexact : checkedRounds? 3 (-1) .uge 0 = some (some 4) ∧
    countRounds 3 (-1) .uge 0 = .ok (some 4) ∧ (wordAt 3 (-1) 4).toUInt64 = 18446744073709551615 ∧
    ∀ n, ¬ FailsFirstAt (fun k => Comparison.uge.Passes (wordAt 3 (-1) k) 0) n := by
  refine ⟨by decide, by decide, by decide, fun n fails => fails.2 ?_⟩
  exact (passes_iff_toNat rfl _ _).mpr (Int.natCast_nonneg _)

end

end KernelCoarsening
