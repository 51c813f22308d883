/-
The work that coarsening adds grows with the factor and with the divergent work.

The estimate is a saturating sum of saturating products.  As in the other sums of an estimate, it makes
no difference where on the way a term gets to the limit, so the estimate grows with the work that it
stands for:

* `CostTable.exactDuplication` — the work without a limit;
* `CostTable.duplicationCost_eq` — the estimate is that work, up to the limit;
* `CostTable.duplicationCost_mono` — more copies of more divergent work never cost less.
-/
import KernelCoarsening.Proofs.Cost.Estimate

namespace KernelCoarsening

namespace CostTable

variable {t : CostTable} {grid : GridReads} {level : Level} {dim : Dimension}
  {divergent divergent' factor factor' stride : Nat}

/-- What it costs to compute the first identity of a merged thread or block from one read: a quotient
and a remainder by the stride, a product and a sum. -/
def identityCost (t : CostTable) (stride : Nat) : Nat :=
  t.divCost (some (Int64.ofNat stride)) + t.other + t.modCost (some (Int64.ofNat stride)) + t.other

/-- The work that coarsening adds, without a limit. -/
def exactDuplication (t : CostTable) (grid : GridReads) (divergent : Nat) (level : Level)
    (dim : Dimension) (factor stride : Nat) : Nat :=
  let extents := (grid.extents level dim).length
  let identities := (grid.identities level dim).length
  extents * t.other + identities * t.identityCost stride +
    identities * (factor - 1) * t.other + divergent * (factor - 1)

/-- The estimate is the exact work, up to the limit. -/
theorem duplicationCost_eq (fits : t.identityCost stride < limit64) :
    t.duplicationCost grid divergent level dim factor stride =
      min (t.exactDuplication grid divergent level dim factor stride) Cost.limit := by
  have whole : (t.divCost (some (Int64.ofNat stride)) + t.other +
      t.modCost (some (Int64.ofNat stride)) + t.other) % limit64 = t.identityCost stride :=
    Nat.mod_eq_of_lt fits
  have siblings : Cost.mul (Cost.mul (grid.identities level dim).length (factor - 1)) t.other =
      min ((grid.identities level dim).length * (factor - 1) * t.other) Cost.limit := by
    rw [Nat.mul_comm _ t.other]
    exact Cost.min_mul _ _
  rw [duplicationCost, whole, siblings]
  simp only [Cost.mul, Cost.add_min, exactDuplication]

/-- With the factor and the divergent work every term grows. -/
theorem exactDuplication_mono (more : factor ≤ factor') (work : divergent ≤ divergent') :
    t.exactDuplication grid divergent level dim factor stride ≤
      t.exactDuplication grid divergent' level dim factor' stride := by
  have copies : factor - 1 ≤ factor' - 1 := by omega
  have siblings : (grid.identities level dim).length * (factor - 1) * t.other ≤
      (grid.identities level dim).length * (factor' - 1) * t.other :=
    Nat.mul_le_mul_right _ (Nat.mul_le_mul_left _ copies)
  have replicas : divergent * (factor - 1) ≤ divergent' * (factor' - 1) :=
    Nat.mul_le_mul work copies
  simp only [exactDuplication]
  omega

/-- The estimate of the work that coarsening adds is the exact work up to the limit, whichever of its
terms and products get there.  So it never shrinks when the factor grows or when there is more
divergent work. -/
theorem duplicationCost_mono (t : CostTable) (grid : GridReads) (level : Level) (dim : Dimension)
    (stride : Nat) (fits : t.identityCost stride < limit64) :
    (∀ divergent factor, t.duplicationCost grid divergent level dim factor stride =
      min (t.exactDuplication grid divergent level dim factor stride) Cost.limit) ∧
    (∀ divergent, Monotone fun factor =>
      t.duplicationCost grid divergent level dim factor stride) ∧
    ∀ factor, Monotone fun divergent =>
      t.duplicationCost grid divergent level dim factor stride := by
  have grows : ∀ {divergent divergent' factor factor' : Nat}, factor ≤ factor' →
      divergent ≤ divergent' → t.duplicationCost grid divergent level dim factor stride ≤
        t.duplicationCost grid divergent' level dim factor' stride := by
    intro divergent divergent' factor factor' more work
    rw [duplicationCost_eq fits, duplicationCost_eq fits]
    have exact : t.exactDuplication grid divergent level dim factor stride ≤
        t.exactDuplication grid divergent' level dim factor' stride :=
      exactDuplication_mono more work
    omega
  refine ⟨fun divergent factor => duplicationCost_eq fits, fun divergent factor factor' more => ?_,
    fun factor divergent divergent' work => ?_⟩
  · exact grows more (Nat.le_refl divergent)
  · exact grows (Nat.le_refl factor) work

/-- A table in which a plain instruction costs an eighth of what a cost can be. -/
def heavyTable : CostTable := { standard with other := 2 ^ 61 }

/-- Two reads of the identity of a thread. -/
def twoReads : GridReads := ⟨[(⟨0⟩, .threadId, .x), (⟨1⟩, .threadId, .x)], []⟩

/-- With a second copy the work stays below the limit, and with a third it is there, although none
of its terms is. -/
theorem duplicationCost_heavy : heavyTable.identityCost 1 < limit64 ∧
    heavyTable.duplicationCost twoReads (2 ^ 61) .thread .x 2 1 =
      2 ^ 63 + 2 ^ 62 + 2 ^ 61 + 4 ∧
    heavyTable.duplicationCost twoReads (2 ^ 61) .thread .x 3 1 = Cost.limit ∧
    heavyTable.duplicationCost twoReads (2 ^ 61) .thread .x 2 1 ≤
      heavyTable.duplicationCost twoReads (2 ^ 61) .thread .x 3 1 := by
  have fits : heavyTable.identityCost 1 < limit64 := by decide
  obtain ⟨closed, factors, -⟩ := duplicationCost_mono heavyTable twoReads .thread .x 1 fits
  refine ⟨fits, ?_, ?_, factors _ (by omega)⟩
  · rw [closed]
    decide
  · rw [closed]
    decide

end CostTable

end KernelCoarsening
