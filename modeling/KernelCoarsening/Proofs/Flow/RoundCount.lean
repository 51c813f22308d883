/-
How many rounds a constant test allows.

The values that are tested in the rounds of a counted loop are `first, first + step, …`.  Over
unbounded integers, the number that is computed for a test is the place of the first value that
fails it:

* `Comparison.Relates` — what a comparison says about two integers;
* `CountFits` — the number is computed without leaving 64 bits;
* `remainder_eq_ok_iff`, `exists_stepsOver` — what a number of rounds comes from;
* `relates_of_countRounds` — the values before that place pass the test, the value there fails it.
-/
import KernelCoarsening.Flow.TripCount
import KernelCoarsening.Proofs.Data.Answers
import Mathlib

namespace KernelCoarsening

/-- What a comparison says about two integers.  A comparison without sign says the same as the one
with sign of numbers that are not negative. -/
def Comparison.Relates : Comparison → Int → Int → Prop
  | eq, a, b => a = b
  | ne, a, b => a ≠ b
  | slt, a, b | ult, a, b => a < b
  | sle, a, b | ule, a, b => a ≤ b
  | sgt, a, b | ugt, a, b => b < a
  | sge, a, b | uge, a, b => b ≤ a

instance (rel : Comparison) (a b : Int) : Decidable (rel.Relates a b) := by
  cases rel <;> unfold Comparison.Relates <;> infer_instance

@[simp] theorem Comparison.relates_inverse (rel : Comparison) (a b : Int) :
    rel.inverse.Relates a b ↔ ¬ rel.Relates a b := by
  cases rel <;> simp [inverse, Relates]

/-- A number that a 64-bit word with sign stands for. -/
def IsWord (n : Int) : Prop := -2 ^ 63 ≤ n ∧ n < 2 ^ 63

instance (n : Int) : Decidable (IsWord n) := inferInstanceAs (Decidable (_ ∧ _))

theorem isWord_toInt (c : Int64) : IsWord c.toInt := ⟨c.le_toInt, c.toInt_lt⟩

theorem IsWord.bmod_eq {n : Int} (h : IsWord n) : n.bmod (2 ^ 64) = n := by
  unfold IsWord at h
  exact Int.bmod_eq_of_le (by norm_num; omega) (by norm_num; omega)

theorem int64Of?_of_isWord {n : Int} (h : IsWord n) : int64Of? n = some (Int64.ofInt n) := by
  rw [int64Of?_eq_some_iff, Int64.toInt_ofInt]
  exact h.bmod_eq

/-- No sum, difference or quotient leaves 64 bits when rounds are counted. -/
def CountFits (first step : Int64) (rel : Comparison) (bound : Int64) : Prop :=
  let span := bound.toInt - first.toInt
  match rel with
  | .slt | .ult => 0 < span → IsWord (span + step.toInt)
  | .sle | .ule => 0 ≤ span → IsWord (span.tdiv step.toInt + 1)
  | .sgt | .ugt => span < 0 →
    IsWord (-span) ∧ IsWord (-step.toInt) ∧ IsWord (-span + -step.toInt)
  | .sge | .uge => span ≤ 0 →
    IsWord (-span) ∧ IsWord (-step.toInt) ∧ IsWord ((-span).tdiv (-step.toInt) + 1)
  | .ne => IsWord (span.tdiv step.toInt)
  | .eq => True

/-! ### Counting up to a distance -/

section

variable {d span : Int}

/-- The multiples of a step that lie below a distance. -/
theorem mul_lt_iff_lt_ceil (pos : 0 < d) (k : Nat) :
    k * d < span ↔ k < ((span + d - 1) / d).toNat := by
  rw [Int.lt_toNat, ← Int.add_one_le_iff (b := (span + d - 1) / d), Int.le_ediv_iff_mul_le pos,
    add_mul, one_mul]
  omega

/-- The multiples of a step that do not lie beyond a distance. -/
theorem mul_le_iff_lt_floor (pos : 0 < d) (k : Nat) :
    k * d ≤ span ↔ k < (span / d + 1).toNat := by
  rw [Int.lt_toNat, Int.lt_add_one_iff, Int.le_ediv_iff_mul_le pos]

end

/-- The values before a place pass a test, and the value at that place fails it. -/
def FailsFirstAt (holds : Nat → Prop) (n : Nat) : Prop := (∀ k < n, holds k) ∧ ¬ holds n

theorem FailsFirstAt.of_iff {holds : Nat → Prop} {n : Nat} (h : ∀ k, holds k ↔ k < n) :
    FailsFirstAt holds n :=
  ⟨fun k => (h k).mpr, fun now => absurd ((h n).mp now) (Nat.lt_irrefl n)⟩

/-! ### Words -/

section

variable {a b : Int64}

theorem toInt_add_of_isWord (h : IsWord (a.toInt + b.toInt)) : (a + b).toInt = a.toInt + b.toInt := by
  rw [Int64.toInt_add, h.bmod_eq]

theorem toInt_sub_of_isWord (h : IsWord (a.toInt - b.toInt)) : (a - b).toInt = a.toInt - b.toInt := by
  rw [Int64.toInt_sub, h.bmod_eq]

theorem toInt_neg_of_isWord (h : IsWord (-a.toInt)) : (-a).toInt = -a.toInt := by
  rw [Int64.toInt_neg, h.bmod_eq]

theorem toInt_div_of_isWord (h : IsWord (a.toInt.tdiv b.toInt)) :
    (a / b).toInt = a.toInt.tdiv b.toInt := by
  rw [Int64.toInt_div, h.bmod_eq]

/-- A quotient of numbers that are not negative has a word if its dividend has. -/
theorem IsWord.tdiv {m n : Int} (word : IsWord m) (hm : 0 ≤ m) (hn : 0 ≤ n) :
    IsWord (m.tdiv n) := by
  have nonneg := Int.tdiv_nonneg hm hn
  have le : m.tdiv n ≤ m := Int.tdiv_le_self n hm
  unfold IsWord at *
  omega

/-- Rounding a quotient of positive words up, in words. -/
theorem toInt_ceil (ha : 0 < a.toInt) (hb : 0 < b.toInt) (fits : IsWord (a.toInt + b.toInt)) :
    ((a + b - 1) / b).toInt = (a.toInt + b.toInt - 1) / b.toInt := by
  have sum := toInt_add_of_isWord fits
  have less : IsWord ((a + b).toInt - (1 : Int64).toInt) := by
    rw [sum, Int64.toInt_one]
    unfold IsWord at *
    omega
  have top := toInt_sub_of_isWord less
  rw [sum, Int64.toInt_one] at top
  have word : IsWord ((a + b - 1).toInt.tdiv b.toInt) :=
    (isWord_toInt _).tdiv (by omega) (by omega)
  rw [toInt_div_of_isWord word, top, Int.tdiv_eq_ediv_of_nonneg (by omega)]

/-- Rounding a quotient of words down and adding one, in words. -/
theorem toInt_floor (ha : 0 ≤ a.toInt) (hb : 0 < b.toInt)
    (fits : IsWord (a.toInt.tdiv b.toInt + 1)) : (a / b + 1).toInt = a.toInt / b.toInt + 1 := by
  have quotient := toInt_div_of_isWord ((isWord_toInt a).tdiv ha hb.le)
  rw [toInt_add_of_isWord (by rwa [quotient]), quotient, Int.tdiv_eq_ediv_of_nonneg ha]
  rfl

end

/-! ### Counting rounds -/

/-- A count that is set to nothing where the number it is computed for is not positive. -/
theorem toNat_of_far {p : Prop} [Decidable p] {count : Int64} {m : Int} (far : p → m.toNat = 0)
    (near : ¬ p → count.toInt = m) : (if p then 0 else count).toInt.toNat = m.toNat := by
  split
  · rw [far ‹p›]
    rfl
  · rw [near ‹¬ p›]

section

variable {first step span bound : Int64} (apart : span.toInt = bound.toInt - first.toInt)

include apart

theorem failsFirstAt_lt (pos : 0 < step.toInt)
    (fits : 0 < span.toInt → IsWord (span.toInt + step.toInt)) :
    FailsFirstAt (fun k => first.toInt + k * step.toInt < bound.toInt)
      (if span ≤ 0 then 0 else (span + step - 1) / step).toInt.toNat := by
  have count : (if span ≤ 0 then 0 else (span + step - 1) / step).toInt.toNat =
      ((span.toInt + step.toInt - 1) / step.toInt).toNat := by
    refine toNat_of_far (fun far => ?_) fun near => ?_
    · rw [Int64.le_iff_toInt_le, Int64.toInt_zero] at far
      have none := (mul_lt_iff_lt_ceil pos 0).not.mp
        (show ¬ (0 : Nat) * step.toInt < span.toInt by simpa using far)
      omega
    · rw [Int64.le_iff_toInt_le, Int64.toInt_zero] at near
      exact toInt_ceil (by omega) pos (fits (by omega))
  refine .of_iff fun k => ?_
  rw [count, ← mul_lt_iff_lt_ceil pos]
  omega

theorem failsFirstAt_le (pos : 0 < step.toInt)
    (fits : 0 ≤ span.toInt → IsWord (span.toInt.tdiv step.toInt + 1)) :
    FailsFirstAt (fun k => first.toInt + k * step.toInt ≤ bound.toInt)
      (if span < 0 then 0 else span / step + 1).toInt.toNat := by
  have count : (if span < 0 then 0 else span / step + 1).toInt.toNat =
      (span.toInt / step.toInt + 1).toNat := by
    refine toNat_of_far (fun far => ?_) fun near => ?_
    · rw [Int64.lt_iff_toInt_lt, Int64.toInt_zero] at far
      have none := (mul_le_iff_lt_floor pos 0).not.mp
        (show ¬ (0 : Nat) * step.toInt ≤ span.toInt by simpa using far)
      omega
    · rw [Int64.lt_iff_toInt_lt, Int64.toInt_zero] at near
      exact toInt_floor (by omega) pos (fits (by omega))
  refine .of_iff fun k => ?_
  rw [count, ← mul_le_iff_lt_floor pos]
  omega

theorem failsFirstAt_gt (neg : step.toInt < 0) (fits : span.toInt < 0 →
      IsWord (-span.toInt) ∧ IsWord (-step.toInt) ∧ IsWord (-span.toInt + -step.toInt)) :
    FailsFirstAt (fun k => bound.toInt < first.toInt + k * step.toInt)
      (if span ≥ 0 then 0 else (-span + -step - 1) / -step).toInt.toNat := by
  have pos : 0 < -step.toInt := by omega
  have count : (if span ≥ 0 then 0 else (-span + -step - 1) / -step).toInt.toNat =
      ((-span.toInt + -step.toInt - 1) / -step.toInt).toNat := by
    refine toNat_of_far (fun far => ?_) fun near => ?_
    · rw [ge_iff_le, Int64.le_iff_toInt_le, Int64.toInt_zero] at far
      have none := (mul_lt_iff_lt_ceil pos 0).not.mp
        (show ¬ (0 : Nat) * -step.toInt < -span.toInt by simpa using far)
      omega
    · rw [ge_iff_le, Int64.le_iff_toInt_le, Int64.toInt_zero] at near
      obtain ⟨wordSpan, wordStep, fits⟩ := fits (by omega)
      have hspan := toInt_neg_of_isWord wordSpan
      have hstep := toInt_neg_of_isWord wordStep
      rw [toInt_ceil (by omega) (by omega) (by rwa [hspan, hstep]), hspan, hstep]
  refine .of_iff fun k => ?_
  rw [count, ← mul_lt_iff_lt_ceil pos, mul_neg]
  omega

theorem failsFirstAt_ge (neg : step.toInt < 0) (fits : span.toInt ≤ 0 →
      IsWord (-span.toInt) ∧ IsWord (-step.toInt) ∧
        IsWord ((-span.toInt).tdiv (-step.toInt) + 1)) :
    FailsFirstAt (fun k => bound.toInt ≤ first.toInt + k * step.toInt)
      (if span > 0 then 0 else -span / -step + 1).toInt.toNat := by
  have pos : 0 < -step.toInt := by omega
  have count : (if span > 0 then 0 else -span / -step + 1).toInt.toNat =
      (-span.toInt / -step.toInt + 1).toNat := by
    refine toNat_of_far (fun far => ?_) fun near => ?_
    · rw [gt_iff_lt, Int64.lt_iff_toInt_lt, Int64.toInt_zero] at far
      have none := (mul_le_iff_lt_floor pos 0).not.mp
        (show ¬ (0 : Nat) * -step.toInt ≤ -span.toInt by simpa using far)
      omega
    · rw [gt_iff_lt, Int64.lt_iff_toInt_lt, Int64.toInt_zero] at near
      obtain ⟨wordSpan, wordStep, fits⟩ := fits (by omega)
      have hspan := toInt_neg_of_isWord wordSpan
      have hstep := toInt_neg_of_isWord wordStep
      rw [toInt_floor (by omega) (by omega) (by rwa [hspan, hstep]), hspan, hstep]
  refine .of_iff fun k => ?_
  rw [count, ← mul_le_iff_lt_floor pos, mul_neg]
  omega

/-- Values that meet the bound differ from it before and not there. -/
theorem failsFirstAt_ne (moves : step ≠ 0) (meets : span % step = 0) (ahead : 0 ≤ span / step)
    (fits : IsWord (span.toInt.tdiv step.toInt)) :
    FailsFirstAt (fun k => first.toInt + k * step.toInt ≠ bound.toInt)
      (span / step).toInt.toNat := by
  have moves : step.toInt ≠ 0 := fun zero => moves (Int64.toInt_inj.mp (by simpa using zero))
  have meets : span.toInt.tmod step.toInt = 0 := by
    rw [← Int64.toInt_mod, meets, Int64.toInt_zero]
  have ahead : 0 ≤ (span / step).toInt := by
    simpa using Int64.le_iff_toInt_le.mp ahead
  have whole : step.toInt * (span / step).toInt = span.toInt := by
    rw [toInt_div_of_isWord fits]
    exact Int.mul_tdiv_cancel_of_tmod_eq_zero meets
  have there : first.toInt + (span / step).toInt.toNat * step.toInt = bound.toInt := by
    rw [Int.toNat_of_nonneg ahead, mul_comm]
    omega
  refine ⟨fun k before same => ?_, fun differs => differs there⟩
  -- two multiples of the step are the same only if they are the same multiple
  have equal : (k : Int) * step.toInt = (span / step).toInt.toNat * step.toInt := by omega
  have := Int.eq_of_mul_eq_mul_right moves equal
  omega

end

/-- A remainder is known exactly if the quotient has a word. -/
theorem remainder_eq_ok_iff {a b c : Int64} :
    remainder a b = .ok c ↔ IsWord (a.toInt.tdiv b.toInt) ∧ a % b = c := by
  unfold remainder
  cases quotient : int64Of? (a.toInt.tdiv b.toInt) with
  | some q => simp [← int64Of?_eq_some_iff.mp quotient, isWord_toInt]
  | none =>
    have word : ¬ IsWord (a.toInt.tdiv b.toInt) := fun word => by
      cases (int64Of?_of_isWord word).symm.trans quotient
    simp [word]

/-- The quotient of two words has a word, but for that of the least number by -1. -/
theorem isWord_tdiv_iff {a b : Int64} :
    IsWord (a.toInt.tdiv b.toInt) ↔ ¬ (b = -1 ∧ a.toInt = -2 ^ 63) := by
  have low := a.le_toInt
  have high := a.toInt_lt
  by_cases opposite : b = -1
  · subst opposite
    rw [show (-1 : Int64).toInt = -1 from rfl, Int.tdiv_neg, Int.tdiv_one]
    simp only [IsWord, true_and]
    omega
  · refine ⟨fun _ same => opposite same.1, fun _ => ?_⟩
    have other : b.toInt ≠ -1 := fun same => opposite (Int64.toInt_inj.mp same)
    have size : (a.toInt.tdiv b.toInt).natAbs = a.toInt.natAbs / b.toInt.natAbs :=
      Int.natAbs_tdiv ..
    by_cases one : b.toInt = 1
    · rw [one, Int.tdiv_one]
      exact isWord_toInt a
    · have half : a.toInt.natAbs / b.toInt.natAbs ≤ a.toInt.natAbs / 2 ∨ b.toInt = 0 := by
        by_cases zero : b.toInt = 0
        · exact .inr zero
        · exact .inl (Nat.div_le_div_left (by omega) (by omega))
      obtain half | zero := half
      · unfold IsWord
        omega
      · rw [zero, Int.tdiv_zero]
        decide

/-- Rounds are counted, or their number is unknown, but for a test for a difference, steps of -1 and
a distance that is the least of all words. -/
theorem answers_countRounds_iff {first step bound : Int64} {rel : Comparison} :
    Answers (countRounds first step rel bound) ↔
      ¬ (rel = .ne ∧ step = -1 ∧ bound.toInt - first.toInt = -2 ^ 63) := by
  unfold countRounds
  split
  next unknown =>
    refine iff_of_true .pure ?_
    rintro ⟨rfl, -⟩
    cases unknown
  next =>
    split
    next far =>
      refine iff_of_true .pure ?_
      rintro ⟨-, -, least⟩
      rw [least] at far
      cases far
    next span hspan =>
      have apart := int64Of?_eq_some_iff.mp hspan
      rw [answers_bind_iff, ← apart]
      cases rel with
      | ne =>
        by_cases moves : step = 0
        · subst moves
          simp [stepsOver?]
        · simp only [stepsOver?, if_neg moves, bind_eq_ok_iff, remainder_eq_ok_iff, isWord_tdiv_iff]
          simp [pure, Except.pure]
      | _ => simp [stepsOver?]

/-- A number of rounds comes from a number of steps that is not negative, over a distance that has
a word. -/
theorem exists_stepsOver {first step bound : Int64} {rel : Comparison} {n : Nat}
    (h : countRounds first step rel bound = .ok (some n)) :
    ¬ (rel.isUnsigned && (first < 0 || bound < 0)) = true ∧ ∃ span count : Int64,
      span.toInt = bound.toInt - first.toInt ∧ stepsOver? span step rel = .ok (some count) ∧
        count.toInt.toNat = n := by
  unfold countRounds at h
  split at h
  next => cases h
  next known =>
    refine ⟨known, ?_⟩
    split at h
    next => cases h
    next span hspan =>
      obtain ⟨found, answer, h⟩ := bind_eq_ok_iff.mp h
      obtain ⟨count, rfl, rounds⟩ := Option.bind_eq_some_iff.mp (Except.ok.inj h)
      split at rounds
      · cases rounds
      · exact ⟨span, count, int64Of?_eq_some_iff.mp hspan, answer, Option.some.inj rounds⟩

/-- A number of steps that is taken for an ordered test. -/
theorem of_ok_ite {p : Prop} [Decidable p] {count c : Int64}
    (h : (.ok (if p then some count else none) : Except Fault (Option Int64)) = .ok (some c)) :
    p ∧ count = c := by
  simpa using h

/-- A number of steps to a value that is met. -/
theorem stepsOver?_ne_eq_some {span step count : Int64}
    (h : stepsOver? span step .ne = .ok (some count)) :
    step ≠ 0 ∧ span % step = 0 ∧ 0 ≤ span / step ∧ span / step = count := by
  unfold stepsOver? at h
  dsimp only at h
  split at h
  next => cases h
  next moves =>
    obtain ⟨rest, answer, h⟩ := bind_eq_ok_iff.mp h
    obtain ⟨-, rfl⟩ := remainder_eq_ok_iff.mp answer
    obtain ⟨⟨meets, ahead⟩, same⟩ := of_ok_ite h
    exact ⟨moves, meets, ahead, same⟩

/-- The number that is computed for a test is the place of the first value that fails it. -/
theorem relates_of_countRounds {first step bound : Int64} {rel : Comparison} {n : Nat}
    (fits : CountFits first step rel bound) (h : countRounds first step rel bound = .ok (some n)) :
    FailsFirstAt (fun k => rel.Relates (first.toInt + k * step.toInt) bound.toInt) n := by
  obtain ⟨-, span, count, hspan, steps, rfl⟩ := exists_stepsOver h
  unfold CountFits at fits
  simp only [← hspan] at fits
  cases rel with
  | slt | ult =>
    obtain ⟨moves, rfl⟩ := of_ok_ite steps
    exact failsFirstAt_lt hspan (Int64.lt_iff_toInt_lt.mp moves) fits
  | sle | ule =>
    obtain ⟨moves, rfl⟩ := of_ok_ite steps
    exact failsFirstAt_le hspan (Int64.lt_iff_toInt_lt.mp moves) fits
  | sgt | ugt =>
    obtain ⟨moves, rfl⟩ := of_ok_ite steps
    exact failsFirstAt_gt hspan (Int64.lt_iff_toInt_lt.mp moves) fits
  | sge | uge =>
    obtain ⟨moves, rfl⟩ := of_ok_ite steps
    exact failsFirstAt_ge hspan (Int64.lt_iff_toInt_lt.mp moves) fits
  | ne =>
    obtain ⟨moves, meets, ahead, rfl⟩ := stepsOver?_ne_eq_some steps
    exact failsFirstAt_ne hspan moves meets ahead fits
  | eq => cases steps

end KernelCoarsening
