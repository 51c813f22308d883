/-
Which threads and blocks a divided launch stands for.

A physical identity stands for several logical ones.  A divided launch does the work of the
launch that was asked for if the identities that it stands for are those of that launch, each
once:

* `CoarseningParams.identity_lt`, `CoarseningParams.exists_identity`,
  `CoarseningParams.identity_inj` — if the stride divides the number of physical identities, the
  logical ones stay below the extent, leave no gap and never meet;
* `CoarseningParams.le_identity_last` — otherwise the last one lies beyond the extent;
* `KernelRegistry.covers_iff` — a launch that is resolved covers the one that was asked for
  exactly if the stride divides its extent;
* `not_covers_threadsOfSix` — this is not what is checked when a launch is resolved.
-/
import KernelCoarsening.Proofs.Launch.Registry

namespace KernelCoarsening

namespace CoarseningParams

/-- The logical identity number `k` that a physical identity stands for. -/
def identityOf (v : CoarseningParams) (p k : Nat) : Nat :=
  p / v.stride * (v.factor * v.stride) + p % v.stride + k * v.stride

variable {v : CoarseningParams} {n p q j k : Nat}

/-- A number with a whole part and a rest below the unit. -/
theorem div_mod_of_lt {unit rest : Nat} (whole : Nat) (small : rest < unit) :
    (unit * whole + rest) / unit = whole ∧ (unit * whole + rest) % unit = rest := by
  have positive : 0 < unit := Nat.zero_lt_of_lt small
  constructor
  · rw [Nat.mul_add_div positive, Nat.div_eq_of_lt small, Nat.add_zero]
  · rw [Nat.mul_add_mod, Nat.mod_eq_of_lt small]

/-- Replica and place in the group together stay below one span. -/
theorem replica_place_lt (stride : 0 < v.stride) (hk : k < v.factor) :
    k * v.stride + p % v.stride < v.factor * v.stride := by
  have place : p % v.stride < v.stride := Nat.mod_lt p stride
  have replica : (k + 1) * v.stride ≤ v.factor * v.stride := Nat.mul_le_mul_right _ hk
  rw [Nat.succ_mul] at replica
  omega

/-- The group of a logical identity, and its replica and place in the group. -/
theorem identity_parts (stride : 0 < v.stride) (hk : k < v.factor) :
    v.identityOf p k / (v.factor * v.stride) = p / v.stride ∧
      v.identityOf p k % (v.factor * v.stride) = k * v.stride + p % v.stride := by
  have shape : v.identityOf p k =
      v.factor * v.stride * (p / v.stride) + (k * v.stride + p % v.stride) := by
    unfold identityOf
    ring
  rw [shape]
  exact div_mod_of_lt _ (replica_place_lt stride hk)

/-- Among `n` groups of physical identities the logical ones stay below the extent. -/
theorem identity_lt (stride : 0 < v.stride) (hp : p < n * v.stride) (hk : k < v.factor) :
    v.identityOf p k < v.factor * (n * v.stride) := by
  have group : p / v.stride < n := Nat.div_lt_of_lt_mul (by rwa [Nat.mul_comm])
  have span : 0 < v.factor * v.stride := Nat.mul_pos (Nat.zero_lt_of_lt hk) stride
  rw [Nat.mul_left_comm, ← Nat.div_lt_iff_lt_mul span, (identity_parts stride hk).1]
  exact group

/-- Every identity below the extent is one of the logical ones. -/
theorem exists_identity (stride : 0 < v.stride) {a : Nat} (ha : a < v.factor * (n * v.stride)) :
    ∃ p < n * v.stride, ∃ k < v.factor, v.identityOf p k = a := by
  obtain ⟨span, hspan⟩ : ∃ span, span = v.factor * v.stride := ⟨_, rfl⟩
  rw [Nat.mul_left_comm, ← hspan, Nat.mul_comm] at ha
  have positive : 0 < span := Nat.pos_of_mul_pos_right (Nat.zero_lt_of_lt ha)
  -- the group, the replica and the place in the group, from the most significant part on
  have group : a / span < n := Nat.div_lt_of_lt_mul ha
  have replica : a % span / v.stride < v.factor :=
    Nat.div_lt_of_lt_mul (by rw [Nat.mul_comm, ← hspan]; exact Nat.mod_lt a positive)
  have place : a % span % v.stride < v.stride := Nat.mod_lt _ stride
  obtain ⟨quotient, remainder⟩ := div_mod_of_lt (a / span) place
  refine ⟨v.stride * (a / span) + a % span % v.stride, ?_, a % span / v.stride, replica, ?_⟩
  · rw [← Nat.div_lt_iff_lt_mul stride, quotient]
    exact group
  · unfold identityOf
    rw [quotient, remainder, ← hspan]
    have inner := Nat.div_add_mod' (a % span) v.stride
    have outer := Nat.div_add_mod' a span
    omega

/-- Two logical identities are the same only if they are the same replica of one physical
identity. -/
theorem identity_inj (stride : 0 < v.stride) (hj : j < v.factor) (hk : k < v.factor)
    (same : v.identityOf p j = v.identityOf q k) : p = q ∧ j = k := by
  obtain ⟨group, rest⟩ := identity_parts (p := p) stride hj
  obtain ⟨group', rest'⟩ := identity_parts (p := q) stride hk
  rw [same] at group rest
  have groups : p / v.stride = q / v.stride := group.symm.trans group'
  have rests : j * v.stride + p % v.stride = k * v.stride + q % v.stride := rest.symm.trans rest'
  have place : p % v.stride = q % v.stride := by
    have := congrArg (· % v.stride) rests
    simpa [Nat.mul_add_mod'] using this
  have replica : j = k := by
    have : j * v.stride = k * v.stride := by omega
    exact Nat.eq_of_mul_eq_mul_right stride this
  refine ⟨?_, replica⟩
  rw [← Nat.div_add_mod p v.stride, ← Nat.div_add_mod q v.stride, groups, place]

/-- If the stride does not divide the number of physical identities, the last logical identity of
the last one lies beyond the extent. -/
theorem le_identity_last (factor : 2 ≤ v.factor) (stride : 0 < v.stride)
    (odd : ¬ v.stride ∣ n) : v.factor * n ≤ v.identityOf (n - 1) (v.factor - 1) := by
  have rest : 0 < n % v.stride := Nat.pos_of_ne_zero fun zero => odd (Nat.dvd_of_mod_eq_zero zero)
  have small : n % v.stride < v.stride := Nat.mod_lt n stride
  have whole := Nat.div_add_mod n v.stride
  -- the last physical identity is in the last group, which is not full
  have last : n - 1 = v.stride * (n / v.stride) + (n % v.stride - 1) := by omega
  obtain ⟨quotient, remainder⟩ := div_mod_of_lt (n / v.stride)
    (show n % v.stride - 1 < v.stride by omega)
  rw [← last] at quotient remainder
  obtain ⟨others, hothers⟩ : ∃ others, v.factor = others + 1 := ⟨v.factor - 1, by omega⟩
  have extent : v.factor * n = n / v.stride * (v.factor * v.stride) +
      (others * (n % v.stride) + n % v.stride) := by
    calc v.factor * n = v.factor * (v.stride * (n / v.stride) + n % v.stride) := by rw [whole]
      _ = n / v.stride * (v.factor * v.stride) + (others * (n % v.stride) + n % v.stride) := by
        rw [hothers]
        ring
  -- every other replica of the last group leaves a gap
  have missing : others * (n % v.stride) + others ≤ others * v.stride := by
    rw [← Nat.mul_succ]
    exact Nat.mul_le_mul_left _ small
  unfold identityOf
  rw [quotient, remainder, extent, show v.factor - 1 = others by omega]
  omega

end CoarseningParams

namespace KernelRegistry

/-- The identities that a divided launch stands for are those of another launch, each once. -/
def Covers (v : CoarseningParams) (l l' : Launch) : Prop :=
  ((List.range ((l'.extentOf v.level).get v.dim)).flatMap fun p =>
    (List.range v.factor).map (v.identityOf p)).Perm
      (List.range ((l.extentOf v.level).get v.dim))

/-- A launch that is resolved has the extent of the one that was asked for, divided. -/
theorem extent_of_resolve {r : KernelRegistry} {c : DispatchConfig} {l l' : Launch}
    (h : r.resolve c l = .ok l') : (l.extentOf c.params.level).get c.params.dim =
      c.params.factor * (l'.extentOf c.params.level).get c.params.dim := by
  obtain ⟨-, divides, symbol, -, rfl⟩ := resolve_eq_ok_iff.mp h
  have even := Nat.mul_div_cancel' (Nat.dvd_of_mod_eq_zero divides.even)
  obtain ⟨kernel, level, dim, factor, stride⟩ := c
  cases level <;> simpa [Launch.extentOf, Launch.withExtent] using even.symm

/-- A launch that is resolved covers the one that was asked for exactly if the stride divides its
extent. -/
theorem covers_iff {r : KernelRegistry} {c : DispatchConfig} {l l' : Launch}
    (factor : 2 ≤ c.params.factor) (stride : 0 < c.params.stride)
    (h : r.resolve c l = .ok l') : Covers c.params l l' ↔
      c.params.stride ∣ (l'.extentOf c.params.level).get c.params.dim := by
  have extent := extent_of_resolve h
  have some : (l'.extentOf c.params.level).get c.params.dim ≠ 0 := by
    intro zero
    obtain ⟨-, divides, -⟩ := resolve_eq_ok_iff.mp h
    rw [zero, Nat.mul_zero] at extent
    exact divides.some (by rw [extent, Nat.zero_div])
  unfold Covers
  rw [extent]
  generalize (l'.extentOf c.params.level).get c.params.dim = n at some
  constructor
  · intro covers
    by_contra odd
    -- the last identity would have to lie below the extent
    have listed : c.params.identityOf (n - 1) (c.params.factor - 1) ∈
        (List.range n).flatMap fun p => (List.range c.params.factor).map (c.params.identityOf p) :=
      List.mem_flatMap.mpr ⟨n - 1, List.mem_range.mpr (by omega),
        List.mem_map_of_mem (List.mem_range.mpr (by omega))⟩
    have below := List.mem_range.mp (covers.mem_iff.mp listed)
    exact absurd (CoarseningParams.le_identity_last factor stride odd) (Nat.not_le.mpr below)
  · rintro ⟨groups, rfl⟩
    rw [Nat.mul_comm c.params.stride] at *
    have once : ((List.range (groups * c.params.stride)).flatMap fun p =>
        (List.range c.params.factor).map (c.params.identityOf p)).Nodup := by
      rw [List.nodup_flatMap]
      constructor
      · intro p _
        refine List.Nodup.map_on (fun j hj k hk same => ?_) List.nodup_range
        exact (CoarseningParams.identity_inj stride (List.mem_range.mp hj) (List.mem_range.mp hk)
          same).2
      · refine List.nodup_range.imp fun {p q} other a hp hq => other ?_
        obtain ⟨j, hj, rfl⟩ := List.mem_map.mp hp
        obtain ⟨k, hk, same⟩ := List.mem_map.mp hq
        exact (CoarseningParams.identity_inj stride (List.mem_range.mp hk) (List.mem_range.mp hj)
          same).1.symm
    rw [List.perm_ext_iff_of_nodup once List.nodup_range]
    intro a
    simp only [List.mem_flatMap, List.mem_map, List.mem_range]
    constructor
    · rintro ⟨p, hp, k, hk, rfl⟩
      exact CoarseningParams.identity_lt stride hp hk
    · intro below
      obtain ⟨p, hp, k, hk, same⟩ := CoarseningParams.exists_identity stride below
      exact ⟨p, hp, k, hk, same⟩

end KernelRegistry

/-- A registry that knows a variant which merges threads at distance two. -/
def pairsRegistry : KernelRegistry := ⟨[("f_0_1_2_2", "f_0_1_2_2")]⟩

/-- Six threads of a block become three, although a stride of two does not divide three.  The last
of the three stands for the threads 4 and 6, and no thread stands for the thread 5. -/
theorem not_covers_threadsOfSix :
    pairsRegistry.resolve ⟨"f", ⟨.thread, .x, 2, 2⟩⟩ ⟨"f", ⟨1, 1, 1⟩, ⟨6, 1, 1⟩⟩ =
        .ok ⟨"f_0_1_2_2", ⟨1, 1, 1⟩, ⟨3, 1, 1⟩⟩ ∧
      ¬ KernelRegistry.Covers ⟨.thread, .x, 2, 2⟩ ⟨"f", ⟨1, 1, 1⟩, ⟨6, 1, 1⟩⟩
        ⟨"f_0_1_2_2", ⟨1, 1, 1⟩, ⟨3, 1, 1⟩⟩ := by
  have resolved : pairsRegistry.resolve ⟨"f", ⟨.thread, .x, 2, 2⟩⟩ ⟨"f", ⟨1, 1, 1⟩, ⟨6, 1, 1⟩⟩ =
      .ok ⟨"f_0_1_2_2", ⟨1, 1, 1⟩, ⟨3, 1, 1⟩⟩ := by cbv
  refine ⟨resolved, ?_⟩
  have exactly := KernelRegistry.covers_iff (by decide) (by decide) resolved
  exact fun covers => absurd (exactly.mp covers) (by decide)

end KernelCoarsening
