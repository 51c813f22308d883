/-
How much of a finite whole a search has still to see.

Searches here keep a list of what they have seen.  `unseen` counts what is left
and is the quantity that makes them end:

* `unseen_cons_lt` — seeing something new makes less remain;
* `nodup_eraseDups` — a list that keeps only what is new has no repetitions.
-/

namespace KernelCoarsening

variable {α : Type} [DecidableEq α]

/-- The number of places of the whole whose member has not been seen. -/
def unseen (whole : List α) (seen : List α) : Nat := whole.countP (· ∉ seen)

theorem unseen_cons_le (whole seen : List α) (a : α) :
    unseen whole (a :: seen) ≤ unseen whole seen := by
  unfold unseen
  refine List.countP_mono_left fun x _ h => ?_
  simp_all

theorem unseen_cons_lt {whole seen : List α} {a : α} (mem : a ∈ whole) (new : a ∉ seen) :
    unseen whole (a :: seen) < unseen whole seen := by
  induction whole with
  | nil => simp at mem
  | cons x rest ih =>
    have tail := unseen_cons_le rest seen a
    unfold unseen at tail ih ⊢
    rw [List.countP_cons, List.countP_cons]
    by_cases hx : x = a
    · subst hx
      rw [if_neg (by simp), if_pos (by simpa using new)]
      omega
    · have less := ih (by simpa [Ne.symm hx] using mem)
      have same : (decide (x ∉ a :: seen) = true) = (decide (x ∉ seen) = true) := by simp [hx]
      simp only [same]
      omega

/-- A list without what was there before has no repetitions. -/
theorem nodup_eraseDups (xs : List α) : xs.eraseDups.Nodup := by
  cases xs with
  | nil => simp
  | cons x xs =>
    rw [List.eraseDups_cons]
    exact List.nodup_cons.mpr ⟨by simp [List.mem_eraseDups], nodup_eraseDups _⟩
termination_by xs.length
decreasing_by
  exact Nat.lt_succ_of_le (List.length_filter_le _ _)

end KernelCoarsening
