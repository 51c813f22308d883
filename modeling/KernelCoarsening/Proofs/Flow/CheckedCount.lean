/-
Rounds that are counted without leaving 64 bits.

A build that checks its arithmetic stops where a sum, a difference, a negation or a quotient has no
word.  Where it does not stop, the number of rounds that it comes to is the one that is computed, and
over unbounded integers it is exact:

* `checkedRounds?` — the computation of `countRounds` with every operation checked;
* `countRounds_of_checked` — where it does not stop, it comes to the number that is computed;
* `count_exact_iff` — a test of signed numbers is answered with a number of rounds exactly if that is
  the place of the first value that fails it, the step leads there and the distance has a word.
-/
import KernelCoarsening.Proofs.Flow.RoundCount

namespace KernelCoarsening

/-! ### Checked operations -/

namespace Checked

/-- The sum of two words, if it has a word. -/
def add? (a b : Int64) : Option Int64 := int64Of? (a.toInt + b.toInt)

/-- The difference of two words, if it has a word. -/
def sub? (a b : Int64) : Option Int64 := int64Of? (a.toInt - b.toInt)

/-- The opposite of a word, if it has a word. -/
def neg? (a : Int64) : Option Int64 := int64Of? (-a.toInt)

/-- The quotient of two words, if it has a word. -/
def div? (a b : Int64) : Option Int64 := int64Of? (a.toInt.tdiv b.toInt)

/-- The remainder of two words.  It is computed with the quotient, which has to have a word. -/
def rem? (a b : Int64) : Option Int64 := (div? a b).map fun _ => a % b

/-- The quotient of two words, rounded up as it is for positive ones. -/
def ceil? (a b : Int64) : Option Int64 := do div? (← sub? (← add? a b) 1) b

/-- One more than the quotient of two words. -/
def floor? (a b : Int64) : Option Int64 := do add? (← div? a b) 1

variable {a b c : Int64}

/-- A number that a word stands for is in its range. -/
theorem isWord_of_eq {n : Int} (h : c.toInt = n) : IsWord n := h ▸ isWord_toInt c

theorem add?_eq_some (h : add? a b = some c) : a + b = c ∧ IsWord (a.toInt + b.toInt) := by
  have exact := int64Of?_eq_some_iff.mp h
  have word := isWord_of_eq exact
  exact ⟨Int64.toInt_inj.mp ((toInt_add_of_isWord word).trans exact.symm), word⟩

theorem sub?_eq_some (h : sub? a b = some c) : a - b = c := by
  have exact := int64Of?_eq_some_iff.mp h
  exact Int64.toInt_inj.mp ((toInt_sub_of_isWord (isWord_of_eq exact)).trans exact.symm)

theorem neg?_eq_some (h : neg? a = some c) : -a = c ∧ IsWord (-a.toInt) := by
  have exact := int64Of?_eq_some_iff.mp h
  have word := isWord_of_eq exact
  exact ⟨Int64.toInt_inj.mp ((toInt_neg_of_isWord word).trans exact.symm), word⟩

theorem div?_eq_some (h : div? a b = some c) : a / b = c ∧ IsWord (a.toInt.tdiv b.toInt) := by
  have exact := int64Of?_eq_some_iff.mp h
  have word := isWord_of_eq exact
  exact ⟨Int64.toInt_inj.mp ((toInt_div_of_isWord word).trans exact.symm), word⟩

theorem rem?_eq_some (h : rem? a b = some c) : a % b = c ∧ IsWord (a.toInt.tdiv b.toInt) := by
  obtain ⟨q, quotient, same⟩ := Option.map_eq_some_iff.mp h
  exact ⟨same, (div?_eq_some quotient).2⟩

theorem ceil?_eq_some (h : ceil? a b = some c) :
    (a + b - 1) / b = c ∧ IsWord (a.toInt + b.toInt) := by
  simp only [ceil?, Option.bind_eq_bind, Option.bind_eq_some_iff] at h
  obtain ⟨sum, hsum, top, htop, quotient⟩ := h
  obtain ⟨rfl, word⟩ := add?_eq_some hsum
  obtain rfl := sub?_eq_some htop
  exact ⟨(div?_eq_some quotient).1, word⟩

theorem floor?_eq_some (h : floor? a b = some c) :
    a / b + 1 = c ∧ IsWord (a.toInt.tdiv b.toInt + 1) := by
  simp only [floor?, Option.bind_eq_bind, Option.bind_eq_some_iff] at h
  obtain ⟨quotient, hquotient, sum⟩ := h
  obtain ⟨rfl, word⟩ := div?_eq_some hquotient
  obtain ⟨total, word'⟩ := add?_eq_some sum
  rw [toInt_div_of_isWord word] at word'
  exact ⟨total, word'⟩

theorem toInt_ceil? (h : ceil? a b = some c) :
    c.toInt = (a.toInt + b.toInt - 1).tdiv b.toInt := by
  simp only [ceil?, Option.bind_eq_bind, Option.bind_eq_some_iff] at h
  obtain ⟨sum, hsum, top, htop, quotient⟩ := h
  have hsum := int64Of?_eq_some_iff.mp hsum
  have htop := int64Of?_eq_some_iff.mp htop
  rw [hsum, Int64.toInt_one] at htop
  rw [int64Of?_eq_some_iff.mp quotient, htop]

theorem toInt_floor? (h : floor? a b = some c) :
    c.toInt = a.toInt.tdiv b.toInt + 1 := by
  simp only [floor?, Option.bind_eq_bind, Option.bind_eq_some_iff] at h
  obtain ⟨quotient, hquotient, sum⟩ := h
  rw [int64Of?_eq_some_iff.mp sum, int64Of?_eq_some_iff.mp hquotient, Int64.toInt_one]

theorem ceil?_neg_eq_some (h : (do ceil? (← neg? a) (← neg? b)) = some c) :
    (-a + -b - 1) / -b = c ∧
      IsWord (-a.toInt) ∧ IsWord (-b.toInt) ∧ IsWord (-a.toInt + -b.toInt) := by
  simp only [Option.bind_eq_bind, Option.bind_eq_some_iff] at h
  obtain ⟨a', ha, b', hb, h⟩ := h
  obtain ⟨rfl, wordA⟩ := neg?_eq_some ha
  obtain ⟨rfl, wordB⟩ := neg?_eq_some hb
  obtain ⟨same, word⟩ := ceil?_eq_some h
  rw [toInt_neg_of_isWord wordA, toInt_neg_of_isWord wordB] at word
  exact ⟨same, wordA, wordB, word⟩

theorem floor?_neg_eq_some (h : (do floor? (← neg? a) (← neg? b)) = some c) :
    -a / -b + 1 = c ∧
      IsWord (-a.toInt) ∧ IsWord (-b.toInt) ∧ IsWord ((-a.toInt).tdiv (-b.toInt) + 1) := by
  simp only [Option.bind_eq_bind, Option.bind_eq_some_iff] at h
  obtain ⟨a', ha, b', hb, h⟩ := h
  obtain ⟨rfl, wordA⟩ := neg?_eq_some ha
  obtain ⟨rfl, wordB⟩ := neg?_eq_some hb
  obtain ⟨same, word⟩ := floor?_eq_some h
  rw [toInt_neg_of_isWord wordA, toInt_neg_of_isWord wordB] at word
  exact ⟨same, wordA, wordB, word⟩

end Checked

/-! ### The checked count -/

/-- A step leads from values that pass a test to values that fail it. -/
def Comparison.LeadsOut (step : Int64) : Comparison → Prop
  | slt | sle | ult | ule => 0 < step
  | sgt | sge | ugt | uge => step < 0
  | ne => step ≠ 0
  | eq => False

instance (step : Int64) (rel : Comparison) : Decidable (rel.LeadsOut step) := by
  cases rel <;> unfold Comparison.LeadsOut <;> infer_instance

open Checked in
/-- The word that `countRounds` computes from the distance to the bound for a step that leads out,
if it computes one, with every operation checked. -/
def checkedCount? (span step : Int64) : Comparison → Option (Option Int64)
  | .slt | .ult => some <$> if span ≤ 0 then some 0 else ceil? span step
  | .sle | .ule => some <$> if span < 0 then some 0 else floor? span step
  | .sgt | .ugt => some <$> if span ≥ 0 then some 0 else do ceil? (← neg? span) (← neg? step)
  | .sge | .uge => some <$> if span > 0 then some 0 else do floor? (← neg? span) (← neg? step)
  | .ne => do
    let rest ← rem? span step
    if rest = 0 then
      let count ← div? span step
      return if count ≥ 0 then some count else none
    else
      return none
  | .eq => return none

/-- The number of rounds that `countRounds` computes, with every operation on words checked: there
is no answer if one of them leaves 64 bits. -/
def checkedRounds? (first step : Int64) (rel : Comparison) (bound : Int64) : Option (Option Nat) :=
  if rel.isUnsigned && (first < 0 || bound < 0) then some none
  else match int64Of? (bound.toInt - first.toInt) with
    | none => some none
    | some span =>
      if rel.LeadsOut step then do
        let found ← checkedCount? span step rel
        return found.bind fun count => if count < 0 then none else some count.toInt.toNat
      else
        return none

section

variable {first step bound span : Int64} {rel : Comparison} {found : Option Int64} {n : Nat}

open Checked

/-- A count is zero where no value passes the test, and what a checked operation gives else. -/
theorem found_cases {p : Prop} [Decidable p] {checked : Option Int64}
    (h : some <$> (if p then some 0 else checked) = some found) :
    ∃ c, found = some c ∧ (p ∧ c = 0 ∨ ¬ p ∧ checked = some c) := by
  obtain ⟨c, hc, rfl⟩ := Option.map_eq_some_iff.mp h
  refine ⟨c, rfl, ?_⟩
  split at hc
  · rename_i far
    exact .inl ⟨far, (Option.some.inj hc).symm⟩
  · rename_i near
    exact .inr ⟨near, hc⟩

/-- A checked count is the unchecked one, and fits if its operation does. -/
theorem found_of_ite {p fits : Prop} [Decidable p] {checked : Option Int64} {count : Int64}
    (exact : ∀ c, checked = some c → count = c ∧ fits)
    (h : some <$> (if p then some 0 else checked) = some found) :
    some (if p then 0 else count) = found ∧ (¬ p → fits) := by
  obtain ⟨c, rfl, ⟨far, rfl⟩ | ⟨near, hc⟩⟩ := found_cases h
  · exact ⟨by rw [if_pos far], fun near => absurd far near⟩
  · obtain ⟨rfl, fits⟩ := exact c hc
    exact ⟨by rw [if_neg near], fun _ => fits⟩

/-- The number of steps that a checked computation comes to is the one that is computed, and no
operation leaves 64 bits. -/
theorem stepsOver?_of_checkedCount (out : rel.LeadsOut step)
    (apart : span.toInt = bound.toInt - first.toInt)
    (h : checkedCount? span step rel = some found) :
    stepsOver? span step rel = .ok found ∧ CountFits first step rel bound := by
  unfold CountFits
  simp only [← apart]
  cases rel with
  | slt | ult =>
    rw [stepsOver?, if_pos (show step > 0 from out)]
    obtain ⟨rfl, fits⟩ := found_of_ite (fun _ => ceil?_eq_some) h
    refine ⟨rfl, fun near => fits ?_⟩
    rw [Int64.le_iff_toInt_le, Int64.toInt_zero]
    omega
  | sle | ule =>
    rw [stepsOver?, if_pos (show step > 0 from out)]
    obtain ⟨rfl, fits⟩ := found_of_ite (fun _ => floor?_eq_some) h
    refine ⟨rfl, fun near => fits ?_⟩
    rw [Int64.lt_iff_toInt_lt, Int64.toInt_zero]
    omega
  | sgt | ugt =>
    rw [stepsOver?, if_pos (show step < 0 from out)]
    obtain ⟨rfl, fits⟩ := found_of_ite (fun _ => ceil?_neg_eq_some) h
    refine ⟨rfl, fun near => fits ?_⟩
    rw [ge_iff_le, Int64.le_iff_toInt_le, Int64.toInt_zero]
    omega
  | sge | uge =>
    rw [stepsOver?, if_pos (show step < 0 from out)]
    obtain ⟨rfl, fits⟩ := found_of_ite (fun _ => floor?_neg_eq_some) h
    refine ⟨rfl, fun near => fits ?_⟩
    rw [gt_iff_lt, Int64.lt_iff_toInt_lt, Int64.toInt_zero]
    omega
  | ne =>
    simp only [checkedCount?, Option.bind_eq_bind, Option.bind_eq_some_iff] at h
    obtain ⟨rest, hrest, h⟩ := h
    obtain ⟨rfl, fits⟩ := rem?_eq_some hrest
    refine ⟨?_, fits⟩
    rw [stepsOver?, if_neg out, remainder_eq_ok_iff.mpr ⟨fits, rfl⟩]
    refine congrArg Except.ok ?_
    split at h
    · rename_i meets
      simp only [Option.bind_eq_some_iff] at h
      obtain ⟨count, hcount, h⟩ := h
      obtain ⟨rfl, -⟩ := div?_eq_some hcount
      obtain rfl := Option.some.inj h
      by_cases ahead : span / step ≥ 0
      · rw [if_pos ⟨meets, ahead⟩, if_pos ahead]
      · rw [if_neg fun all => ahead all.2, if_neg ahead]
    · rename_i meets
      obtain rfl := Option.some.inj h
      rw [if_neg fun all => meets all.1]
  | eq => exact out.elim

/-- Where no operation stops the computation, it gives what is computed, and none leaves 64 bits. -/
theorem countRounds_of_checkedCount (known : ¬ (rel.isUnsigned && (first < 0 || bound < 0)) = true)
    (hspan : int64Of? (bound.toInt - first.toInt) = some span) (out : rel.LeadsOut step)
    (h : checkedCount? span step rel = some found) :
    countRounds first step rel bound =
        .ok (found.bind fun count => if count < 0 then none else some count.toInt.toNat) ∧
      CountFits first step rel bound := by
  obtain ⟨steps, fits⟩ := stepsOver?_of_checkedCount out (int64Of?_eq_some_iff.mp hspan) h
  refine ⟨?_, fits⟩
  rw [countRounds, if_neg known, hspan]
  simp only [steps, bind, Except.bind, pure, Except.pure]

/-- Nothing is computed for an unsigned test of a negative number. -/
theorem countRounds_of_unknown (unknown : (rel.isUnsigned && (first < 0 || bound < 0)) = true) :
    countRounds first step rel bound = .ok none := by
  rw [countRounds, if_pos unknown]

/-- Nothing is computed for a distance that has no word. -/
theorem countRounds_of_far (known : ¬ (rel.isUnsigned && (first < 0 || bound < 0)) = true)
    (far : int64Of? (bound.toInt - first.toInt) = none) :
    countRounds first step rel bound = .ok none := by
  rw [countRounds, if_neg known, far]

theorem known_of_countRounds (h : countRounds first step rel bound = .ok (some n)) :
    ¬ (rel.isUnsigned && (first < 0 || bound < 0)) = true :=
  (exists_stepsOver h).1

/-- No step is taken that does not lead out. -/
theorem stepsOver?_of_not_leadsOut (stays : ¬ rel.LeadsOut step) :
    stepsOver? span step rel = .ok none := by
  cases rel with
  | ne => exact if_pos (not_not.mp stays)
  | eq => rfl
  | _ => exact congrArg Except.ok (if_neg stays)

/-- Nothing is computed for a step that does not lead out. -/
theorem countRounds_of_not_leadsOut (stays : ¬ rel.LeadsOut step) :
    countRounds first step rel bound = .ok none := by
  by_cases known : (rel.isUnsigned && (first < 0 || bound < 0)) = true
  · exact countRounds_of_unknown known
  · cases far : int64Of? (bound.toInt - first.toInt) with
    | none => exact countRounds_of_far known far
    | some span =>
      rw [countRounds, if_neg known, far]
      simp only [stepsOver?_of_not_leadsOut stays, bind, Except.bind, pure, Except.pure,
        Option.bind_none]

/-- What the checked computation has come to, where it does not stop: an unsigned test of a negative
number, a distance without a word, a step that does not lead out, or a count. -/
theorem checkedRounds?_cases {r : Option Nat} (h : checkedRounds? first step rel bound = some r) :
    (rel.isUnsigned && (first < 0 || bound < 0)) = true ∧ r = none ∨
    ¬ (rel.isUnsigned && (first < 0 || bound < 0)) = true ∧
      (int64Of? (bound.toInt - first.toInt) = none ∧ r = none ∨
      ¬ rel.LeadsOut step ∧ r = none ∨
      ∃ span found, int64Of? (bound.toInt - first.toInt) = some span ∧ rel.LeadsOut step ∧
        checkedCount? span step rel = some found ∧
        r = found.bind fun count => if count < 0 then none else some count.toInt.toNat) := by
  unfold checkedRounds? at h
  split at h
  · rename_i unknown
    exact .inl ⟨unknown, (Option.some.inj h).symm⟩
  · rename_i known
    refine .inr ⟨known, ?_⟩
    split at h
    · rename_i far
      exact .inl ⟨far, (Option.some.inj h).symm⟩
    · rename_i span hspan
      split at h
      · rename_i out
        obtain ⟨found, hfound, same⟩ := Option.bind_eq_some_iff.mp h
        exact .inr (.inr ⟨span, found, hspan, out, hfound, (Option.some.inj same).symm⟩)
      · rename_i out
        exact .inr (.inl ⟨out, (Option.some.inj h).symm⟩)

/-- Where no operation stops the checked computation, it comes to the number that is computed. -/
theorem countRounds_of_checked {r : Option Nat} (h : checkedRounds? first step rel bound = some r) :
    countRounds first step rel bound = .ok r := by
  rcases checkedRounds?_cases h with
    ⟨unknown, rfl⟩ | ⟨known, ⟨far, rfl⟩ | ⟨out, rfl⟩ | ⟨span, found, hspan, out, hfound, rfl⟩⟩
  · exact countRounds_of_unknown unknown
  · exact countRounds_of_far known far
  · exact countRounds_of_not_leadsOut out
  · exact (countRounds_of_checkedCount known hspan out hfound).1

/-- A number of rounds that is computed without a stop is the place of the first value that fails
the test. -/
theorem relates_of_checked (h : checkedRounds? first step rel bound = some (some n)) :
    IsWord (bound.toInt - first.toInt) ∧ rel.LeadsOut step ∧
      FailsFirstAt (fun k => rel.Relates (first.toInt + k * step.toInt) bound.toInt) n := by
  have count := countRounds_of_checked h
  rcases checkedRounds?_cases h with
    ⟨-, none⟩ | ⟨known, ⟨-, none⟩ | ⟨-, none⟩ | ⟨span, found, hspan, out, hfound, -⟩⟩
  · cases none
  · cases none
  · cases none
  · exact ⟨isWord_of_eq (int64Of?_eq_some_iff.mp hspan), out,
      relates_of_countRounds (countRounds_of_checkedCount known hspan out hfound).2 count⟩

/-! ### Where a number is computed -/

theorem toInt_pos_of_lt (h : 0 < step) : 0 < step.toInt := by
  simpa using Int64.lt_iff_toInt_lt.mp h

theorem toInt_neg_of_lt (h : step < 0) : step.toInt < 0 := by
  simpa using Int64.lt_iff_toInt_lt.mp h

/-- The count of an ordered test is not negative: it is zero, or comes from a quotient of numbers
that are not negative. -/
theorem count_nonneg (ordered : rel ≠ .ne) (out : rel.LeadsOut step)
    (h : checkedCount? span step rel = some found) : ∃ count, found = some count ∧ 0 ≤ count.toInt := by
  cases rel with
  | slt | ult =>
    obtain ⟨c, rfl, ⟨-, rfl⟩ | ⟨near, hc⟩⟩ := found_cases h
    · exact ⟨0, rfl, Int.le_refl 0⟩
    · have pos := toInt_pos_of_lt out
      rw [Int64.le_iff_toInt_le, Int64.toInt_zero] at near
      exact ⟨c, rfl, toInt_ceil? hc ▸ Int.tdiv_nonneg (by omega) (by omega)⟩
  | sle | ule =>
    obtain ⟨c, rfl, ⟨-, rfl⟩ | ⟨near, hc⟩⟩ := found_cases h
    · exact ⟨0, rfl, Int.le_refl 0⟩
    · have pos := toInt_pos_of_lt out
      rw [Int64.lt_iff_toInt_lt, Int64.toInt_zero] at near
      have quotient := Int.tdiv_nonneg (a := span.toInt) (b := step.toInt) (by omega) (by omega)
      exact ⟨c, rfl, by rw [toInt_floor? hc]; omega⟩
  | sgt | ugt =>
    obtain ⟨c, rfl, ⟨-, rfl⟩ | ⟨near, hc⟩⟩ := found_cases h
    · exact ⟨0, rfl, Int.le_refl 0⟩
    · have neg := toInt_neg_of_lt out
      rw [ge_iff_le, Int64.le_iff_toInt_le, Int64.toInt_zero] at near
      simp only [Option.bind_eq_bind, Option.bind_eq_some_iff] at hc
      obtain ⟨far, hfar, stride, hstride, hc⟩ := hc
      have hfar := int64Of?_eq_some_iff.mp hfar
      have hstride := int64Of?_eq_some_iff.mp hstride
      exact ⟨c, rfl, toInt_ceil? hc ▸ Int.tdiv_nonneg (by omega) (by omega)⟩
  | sge | uge =>
    obtain ⟨c, rfl, ⟨-, rfl⟩ | ⟨near, hc⟩⟩ := found_cases h
    · exact ⟨0, rfl, Int.le_refl 0⟩
    · have neg := toInt_neg_of_lt out
      rw [gt_iff_lt, Int64.lt_iff_toInt_lt, Int64.toInt_zero] at near
      simp only [Option.bind_eq_bind, Option.bind_eq_some_iff] at hc
      obtain ⟨far, hfar, stride, hstride, hc⟩ := hc
      have hfar := int64Of?_eq_some_iff.mp hfar
      have hstride := int64Of?_eq_some_iff.mp hstride
      have quotient := Int.tdiv_nonneg (a := far.toInt) (b := stride.toInt) (by omega) (by omega)
      exact ⟨c, rfl, by rw [toInt_floor? hc]; omega⟩
  | ne => exact absurd rfl ordered
  | eq => exact out.elim

/-- The values that meet the bound are counted. -/
theorem count_of_meets (apart : span.toInt = n * step.toInt) (out : step ≠ 0)
    (h : checkedCount? span step .ne = some found) : ∃ count, found = some count ∧ 0 ≤ count.toInt := by
  have moves : step.toInt ≠ 0 := fun zero => out (Int64.toInt_inj.mp (by simpa using zero))
  simp only [checkedCount?, Option.bind_eq_bind, Option.bind_eq_some_iff] at h
  obtain ⟨rest, hrest, h⟩ := h
  obtain ⟨rfl, -⟩ := rem?_eq_some hrest
  have meets : span % step = 0 := by
    rw [← Int64.toInt_inj, Int64.toInt_mod, apart, Int64.toInt_zero]
    exact Int.mul_tmod_left _ _
  rw [if_pos meets, Option.bind_eq_some_iff] at h
  obtain ⟨count, hcount, h⟩ := h
  have whole : count.toInt = n := by
    rw [int64Of?_eq_some_iff.mp hcount, apart, Int.mul_tdiv_cancel _ moves]
  have ahead : count ≥ 0 := by
    rw [ge_iff_le, Int64.le_iff_toInt_le, whole, Int64.toInt_zero]
    omega
  rw [if_pos ahead] at h
  exact ⟨count, (Option.some.inj h).symm, by omega⟩

/-- The first value that fails a test has one place. -/
theorem FailsFirstAt.unique {holds : Nat → Prop} {m n : Nat} (hm : FailsFirstAt holds m)
    (hn : FailsFirstAt holds n) : m = n := by
  rcases Nat.lt_trichotomy m n with lt | same | gt
  · exact absurd (hn.1 m lt) hm.2
  · exact same
  · exact absurd (hm.1 n gt) hn.2

/-- A number is computed if the step leads out, the distance has a word and some value fails the
test. -/
theorem exists_checked {r : Option Nat} (signed : rel.isUnsigned = false)
    (h : checkedRounds? first step rel bound = some r)
    (word : IsWord (bound.toInt - first.toInt)) (out : rel.LeadsOut step)
    (fails : FailsFirstAt (fun k => rel.Relates (first.toInt + k * step.toInt) bound.toInt) n) :
    ∃ m, r = some m := by
  rcases checkedRounds?_cases h with
    ⟨unknown, -⟩ | ⟨-, ⟨far, -⟩ | ⟨stays, -⟩ | ⟨span, found, hspan, -, hfound, rfl⟩⟩
  · simp [signed] at unknown
  · simp [int64Of?_of_isWord word] at far
  · exact absurd out stays
  · obtain ⟨count, rfl, nonneg⟩ : ∃ count, found = some count ∧ 0 ≤ count.toInt := by
      by_cases ordered : rel = .ne
      · subst ordered
        have meets : first.toInt + n * step.toInt = bound.toInt := not_not.mp fails.2
        have apart := int64Of?_eq_some_iff.mp hspan
        exact count_of_meets (n := n) (by omega) out hfound
      · exact count_nonneg ordered out hfound
    refine ⟨count.toInt.toNat, ?_⟩
    rw [Option.bind_some, if_neg]
    rw [Int64.lt_iff_toInt_lt, Int64.toInt_zero]
    omega

/-- Iteration counts for signed and inequality tests are exact.  Where no operation leaves 64 bits,
the number that is computed is `n` exactly if the values before the `n`-th pass the test over
unbounded integers and the `n`-th fails it, the step leads out and the distance to the bound has a
word. -/
theorem count_exact_iff {r : Option Nat} (signed : rel.isUnsigned = false)
    (h : checkedRounds? first step rel bound = some r) :
    countRounds first step rel bound = .ok r ∧ ∀ n, r = some n ↔
      IsWord (bound.toInt - first.toInt) ∧ rel.LeadsOut step ∧
        FailsFirstAt (fun k => rel.Relates (first.toInt + k * step.toInt) bound.toInt) n := by
  refine ⟨countRounds_of_checked h, fun n => ⟨?_, ?_⟩⟩
  · rintro rfl
    exact relates_of_checked h
  · rintro ⟨word, out, fails⟩
    obtain ⟨m, rfl⟩ := exists_checked signed h word out fails
    rw [(relates_of_checked h).2.2.unique fails]

/-- From 8 in steps of -3, the values 8, 5 and 2 lie above -1, and -1 does not. -/
theorem count_downToMinusOne :
    checkedRounds? 8 (-3) .sgt (-1) = some (some 3) ∧ countRounds 8 (-3) .sgt (-1) = .ok (some 3) ∧
      FailsFirstAt (fun k : Nat => (-1 : Int) < 8 + k * (-3)) 3 := by
  have checked : checkedRounds? 8 (-3) .sgt (-1) = some (some 3) := by decide
  obtain ⟨count, exact⟩ := count_exact_iff rfl checked
  exact ⟨checked, count, ((exact 3).mp rfl).2.2⟩

end

end KernelCoarsening
