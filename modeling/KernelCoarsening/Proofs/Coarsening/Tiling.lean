/-
The identities that a scaled read stands for, as numbers.

Scaling replaces the read of an identity by a chain of instructions.  Read as a computation with
numbers of any size, the chain divides a range of logical identities among the physical ones:

* `Func.numberAt` — the number that an instruction stands for if a read is given;
* `Func.numberAt_identities` — what is computed from a read are the logical identities;
* `CoarseningParams.tiles_iff`, `Func.scaleIdentity_tiles_iff` — they cover the logical range, each
  place once, exactly if the stride divides the number of physical identities;
* `Func.chains_not_tiling` — they do not if the span of a group is no word.
-/
import KernelCoarsening.Proofs.Coarsening.Commands
import KernelCoarsening.Proofs.Coarsening.Scaling
import KernelCoarsening.Proofs.Launch.Coverage

namespace KernelCoarsening

/-- The operators of address arithmetic, on numbers of any size; the divisions are those of
numbers without sign. -/
def BinaryOp.number? (op : BinaryOp) (a b : Int) : Option Int :=
  match op with
  | add => some (a + b)
  | sub => some (a - b)
  | mul => some (a * b)
  | udiv => if 0 ≤ a ∧ 0 < b then some (a / b) else none
  | urem => if 0 ≤ a ∧ 0 < b then some (a % b) else none
  | _ => none

namespace Func

/-- The number that an operand stands for, if the instruction `read` stands for `p`: chains of
operators are followed back for `fuel` links. -/
def numberWithin (f : Func) (read : InstId) (p : Nat) : Nat → Value → Option Int
  | _, .const c => some c.toInt
  | fuel + 1, .inst i =>
    if i = read then some p
    else match f.line i with
      | some (.binary op l r, _) => do
        let a ← f.numberWithin read p fuel l
        let b ← f.numberWithin read p fuel r
        op.number? a b
      | _ => none
  | _, _ => none

/-- The number that an instruction stands for, if `read` stands for `p`.  A chain without a cycle is
no longer than the function has instructions. -/
def numberAt (f : Func) (read : InstId) (p : Nat) (i : InstId) : Option Int :=
  f.numberWithin read p f.insts.size (.inst i)

/-- Over the physical identities below `n`, the numbers that some instructions stand for are those
below `m`, each once. -/
def Tiles (f : Func) (read : InstId) (ids : List InstId) (n m : Nat) : Prop :=
  ((List.range n).flatMap fun p => ids.map (f.numberAt read p)).Perm
    ((List.range m).map fun a : Nat => some (a : Int))

variable {f g : Func} {i j : InstId} {ty : Ty} {p fuel : Nat}

theorem numberWithin_const {k : Int64} : f.numberWithin i p fuel (.const k) = some k.toInt := by
  cases fuel <;> rfl

theorem numberWithin_ofNat {k : Nat} (small : k < 2 ^ 63) :
    f.numberWithin i p fuel (.ofNat k) = some (k : Int) := by
  rw [Value.ofNat, numberWithin_const, Int64.toInt_ofNat_of_lt small]

theorem numberWithin_read : f.numberWithin i p (fuel + 1) (.inst i) = some (p : Int) := by
  simp [numberWithin]

theorem numberWithin_binary {op : BinaryOp} {l r : Value} (other : j ≠ i)
    (line : f.line j = some (.binary op l r, ty)) {a b : Int}
    (left : f.numberWithin i p fuel l = some a) (right : f.numberWithin i p fuel r = some b) :
    f.numberWithin i p (fuel + 1) (.inst j) = op.number? a b := by
  simp [numberWithin, other, line, left, right]

end Func

namespace CoarseningParams

variable {c : CoarseningParams} {n : Nat}

/-- The logical identities of some physical ones cover the logical range, each place once, exactly
if the stride divides their number. -/
theorem tiles_iff (factor : 2 ≤ c.factor) (stride : 0 < c.stride) :
    ((List.range n).flatMap fun p => (List.range c.factor).map (c.identityOf p)).Perm
      (List.range (c.factor * n)) ↔ c.stride ∣ n := by
  constructor
  · intro tiles
    by_contra odd
    have some : n ≠ 0 := fun zero => odd (zero ▸ Nat.dvd_zero _)
    have listed : c.identityOf (n - 1) (c.factor - 1) ∈
        (List.range n).flatMap fun p => (List.range c.factor).map (c.identityOf p) :=
      List.mem_flatMap.mpr ⟨n - 1, List.mem_range.mpr (by omega),
        List.mem_map_of_mem (List.mem_range.mpr (by omega))⟩
    have below := List.mem_range.mp (tiles.mem_iff.mp listed)
    exact absurd (le_identity_last factor stride odd) (Nat.not_le.mpr below)
  · rintro ⟨groups, rfl⟩
    rw [Nat.mul_comm c.stride]
    -- no place is missing, and there are no more identities than places
    have all : List.range (c.factor * (groups * c.stride)) ⊆
        (List.range (groups * c.stride)).flatMap fun p =>
          (List.range c.factor).map (c.identityOf p) := by
      intro a below
      obtain ⟨p, hp, k, hk, same⟩ := exists_identity stride (List.mem_range.mp below)
      exact List.mem_flatMap.mpr ⟨p, List.mem_range.mpr hp,
        List.mem_map.mpr ⟨k, List.mem_range.mpr hk, same⟩⟩
    refine ((List.subperm_of_subset List.nodup_range all).perm_of_length_le ?_).symm
    simp [Nat.mul_comm]

end CoarseningParams

namespace Func

variable {f g : Func} {i j : InstId} {op : Operation} {ty : Ty} {p fuel n : Nat}
  {c : CoarseningParams}

/-- The first logical identity, computed from a read with numbers: the number of the group, times
the constant for its span, and the place in the group. -/
theorem numberWithin_span (stride : 0 < c.stride) (small : c.stride < 2 ^ 63) (old : i.index < n)
    (lines : ∀ l ∈ baseLines c i ty n, g.line l.1 = some l.2) :
    g.numberWithin i p (fuel + 4) (.inst ⟨n + 3⟩) =
      some ((p / c.stride : Nat) * (Int64.ofNat c.factor * Int64.ofNat c.stride).toInt +
        (p % c.stride : Nat)) := by
  have other : ∀ k, (⟨n + k⟩ : InstId) ≠ i := by
    rintro k rfl
    simp at old
  simp only [baseLines, List.mem_cons, List.not_mem_nil, or_false, forall_eq_or_imp,
    forall_eq] at lines
  obtain ⟨divLine, mulLine, remLine, addLine⟩ := lines
  have quotient : g.numberWithin i p (fuel + 2) (.inst ⟨n⟩) =
      some ((p / c.stride : Nat) : Int) := by
    rw [numberWithin_binary (by simpa using other 0) divLine numberWithin_read
      (numberWithin_ofNat small)]
    simp [BinaryOp.number?, stride]
  have group : g.numberWithin i p (fuel + 3) (.inst ⟨n + 1⟩) =
      some ((p / c.stride : Nat) * (Int64.ofNat c.factor * Int64.ofNat c.stride).toInt) := by
    rw [numberWithin_binary (other 1) mulLine quotient numberWithin_const]
    rfl
  have rest : g.numberWithin i p (fuel + 3) (.inst ⟨n + 2⟩) =
      some ((p % c.stride : Nat) : Int) := by
    rw [numberWithin_binary (other 2) remLine numberWithin_read (numberWithin_ofNat small)]
    simp [BinaryOp.number?, stride]
  rw [numberWithin_binary (other 3) addLine group rest]
  rfl

/-- If the span of a group is a word, this is the first logical identity. -/
theorem numberWithin_base (stride : 0 < c.stride) (small : c.stride < 2 ^ 63)
    (span : c.factor * c.stride < 2 ^ 63) (old : i.index < n)
    (lines : ∀ l ∈ baseLines c i ty n, g.line l.1 = some l.2) :
    g.numberWithin i p (fuel + 4) (.inst ⟨n + 3⟩) = some (c.identityOf p 0 : Int) := by
  rw [numberWithin_span stride small old lines, ← Int64.ofNat_mul, Int64.toInt_ofNat_of_lt span]
  simp [CoarseningParams.identityOf]

/-- What is computed from a read, with numbers: the first logical identity and its siblings. -/
theorem numberAt_identities (factor : 2 ≤ c.factor) (stride : 0 < c.stride)
    (span : c.factor * c.stride < 2 ^ 63) (old : i.index < n) (size : n + 3 < g.insts.size)
    (lines : ∀ l ∈ identityLines c i ty n, g.line l.1 = some l.2) (p : Nat) :
    (⟨n + 3⟩ :: siblingsAt c n).map (g.numberAt i p) =
      (List.range c.factor).map fun k => some (c.identityOf p k : Int) := by
  -- the longest chain has five links, and the read takes the first slot at the earliest
  obtain ⟨fuel, enough⟩ : ∃ fuel, g.insts.size = fuel + 5 := ⟨g.insts.size - 5, by omega⟩
  have small : ∀ k ≤ c.factor, k * c.stride < 2 ^ 63 := fun k hk =>
    Nat.lt_of_le_of_lt (Nat.mul_le_mul_right _ hk) span
  have base : ∀ fuel, g.numberWithin i p (fuel + 4) (.inst ⟨n + 3⟩) =
      some (c.identityOf p 0 : Int) := fun fuel =>
    numberWithin_base stride (by simpa using small 1 (by omega)) span old
      fun l hl => lines l (List.mem_append_left _ hl)
  have sibling : ∀ m < c.factor - 1, g.numberWithin i p (fuel + 5) (.inst ⟨n + 4 + m⟩) =
      some (c.identityOf p (m + 1) : Int) := by
    intro m hm
    have other : (⟨n + 4 + m⟩ : InstId) ≠ i := by
      rintro rfl
      simp only at old
      omega
    have line := lines _ (List.mem_append_right _ (List.mem_map_of_mem (List.mem_range.mpr hm)))
    rw [← Int64.ofNat_mul, Nat.add_comm 1 m] at line
    rw [numberWithin_binary other line (base fuel) (numberWithin_ofNat (small (m + 1) (by omega)))]
    simp [BinaryOp.number?, CoarseningParams.identityOf]
  have count : c.factor = (c.factor - 1) + 1 := by omega
  rw [count, List.range_succ_eq_map]
  simp only [siblingsAt, numberAt, enough, base (fuel + 1), List.map_cons, List.map_map]
  congr 1
  refine List.map_congr_left fun m hm => ?_
  simpa [numberAt, enough] using sibling m (List.mem_range.mp hm)

/-- The first logical identity and its siblings, computed with numbers for some physical
identities, cover the logical range, each place once, exactly if the stride divides the number of
physical identities.  The span of a group has to be a word, since it is a constant of the chain. -/
theorem scaleIdentity_tiles_iff (hf : f.Consistent) (placed : (f.blockOf i).isSome)
    (plain : f.outline.Does i fun op => op.isPhi = false) (factor : 2 ≤ c.factor)
    (stride : 0 < c.stride) (span : c.factor * c.stride < 2 ^ 63) :
    ∃ g base siblings, scaleIdentity c.factor c.stride f i = .ok (g, base, siblings) ∧
      siblings.length = c.factor - 1 ∧
      ∀ n, g.Tiles i (base :: siblings) n (c.factor * n) ↔ c.stride ∣ n := by
  obtain ⟨op, ty, line, plain⟩ := plain
  obtain ⟨g, answer, expands⟩ := exists_scaleIdentity hf placed line plain c
  have lines : ∀ l ∈ identityLines c i ty f.insts.size, g.line l.1 = some l.2 := fun l hl =>
    (expands.new i l (by simpa [only] using hl)).2.1
  have last := (expands.isSome_blockOf hf (x := ⟨f.insts.size + 3⟩)).mpr
    ⟨i, placed, by simp [only, identityLines, baseLines]⟩
  refine ⟨g, _, _, answer, by simp [siblingsAt], fun n => ?_⟩
  have numbers : ((List.range n).flatMap fun p =>
        (⟨f.insts.size + 3⟩ :: siblingsAt c f.insts.size).map (g.numberAt i p)) =
      ((List.range n).flatMap fun p => (List.range c.factor).map (c.identityOf p)).map
        fun a : Nat => some (a : Int) := by
    simp only [List.map_flatMap, List.map_map]
    refine List.flatMap_congr fun p _ => ?_
    rw [numberAt_identities factor stride span (lt_of_placed placed) (lt_of_placed last) lines p]
    rfl
  have distinct : Function.Injective fun a : Nat => some (a : Int) := fun a b same => by
    simpa using same
  rw [Tiles, numbers, List.map_perm_map_iff distinct]
  exact CoarseningParams.tiles_iff factor stride

/-- At a factor of two and a stride of two, four threads stand for eight, but three do not stand for
six. -/
theorem pick_scaleIdentity_tiles : ∃ g base siblings,
    pick.scaleIdentity 2 2 ⟨0⟩ = .ok (g, base, siblings) ∧ siblings.length = 1 ∧
      g.Tiles ⟨0⟩ (base :: siblings) 4 8 ∧ ¬ g.Tiles ⟨0⟩ (base :: siblings) 3 6 := by
  obtain ⟨g, base, siblings, answer, count, tiles⟩ := scaleIdentity_tiles_iff (f := pick) (i := ⟨0⟩)
    (c := ⟨.thread, .x, 2, 2⟩) (consistent_assemble ..) (by decide) ⟨_, _, rfl, rfl⟩ (by decide)
    (by decide) (by decide)
  refine ⟨g, base, siblings, answer, count, (tiles 4).mpr (by decide), fun covered => ?_⟩
  exact absurd ((tiles 3).mp covered) (by decide)

/-- What covers a range of places stands for no number below zero. -/
theorem nonneg_of_tiles {ids : List InstId} {n m : Nat} (covered : f.Tiles i ids n m)
    (below : p < n) (mem : j ∈ ids) {a : Int} (number : f.numberAt i p j = some a) : 0 ≤ a := by
  have listed : f.numberAt i p j ∈ (List.range n).flatMap fun p => ids.map (f.numberAt i p) :=
    List.mem_flatMap.mpr ⟨p, List.mem_range.mpr below, List.mem_map_of_mem mem⟩
  obtain ⟨place, -, same⟩ := List.mem_map.mp (covered.mem_iff.mp listed)
  rw [number, Option.some.injEq] at same
  exact same ▸ Int.natCast_nonneg place

/-- If the constant for the span of a group is negative, more physical identities than there are in
one group do not cover a range. -/
theorem exists_scaleIdentity_not_tiles (hf : f.Consistent) (placed : (f.blockOf i).isSome)
    (plain : f.outline.Does i fun op => op.isPhi = false) (stride : 0 < c.stride)
    (small : c.stride < 2 ^ 63) (wraps : (Int64.ofNat c.factor * Int64.ofNat c.stride).toInt < 0) :
    ∃ g base siblings, scaleIdentity c.factor c.stride f i = .ok (g, base, siblings) ∧
      ∀ n m, c.stride < n → ¬ g.Tiles i (base :: siblings) n m := by
  obtain ⟨op, ty, line, plain⟩ := plain
  obtain ⟨g, answer, expands⟩ := exists_scaleIdentity hf placed line plain c
  have lines : ∀ l ∈ baseLines c i ty f.insts.size, g.line l.1 = some l.2 := fun l hl =>
    (expands.new i l (by simp [only, identityLines, hl])).2.1
  have last := lt_of_placed ((expands.isSome_blockOf hf (x := ⟨f.insts.size + 3⟩)).mpr
    ⟨i, placed, by simp [only, identityLines, baseLines]⟩)
  refine ⟨g, _, _, answer, fun n m more covered => ?_⟩
  -- the first identity of the second group
  obtain ⟨fuel, enough⟩ : ∃ fuel, g.insts.size = fuel + 4 :=
    ⟨g.insts.size - 4, by simp only at last; omega⟩
  have number : g.numberAt i c.stride ⟨f.insts.size + 3⟩ =
      some (Int64.ofNat c.factor * Int64.ofNat c.stride).toInt := by
    rw [numberAt, enough, numberWithin_span stride small (lt_of_placed placed) lines]
    simp [stride]
  have := nonneg_of_tiles covered more List.mem_cons_self number
  omega

/-- A kernel that lists the read of its identity twice. -/
def twice : Func where
  name := "twice"
  params := []
  returnTy := .void
  convention := .kernel
  blocks := #[⟨"entry", [⟨0⟩, ⟨0⟩, ⟨1⟩]⟩]
  layout := [⟨0⟩]
  insts := #[⟨.call "llvm.nvvm.read.ptx.sreg.tid.x" [], .i32, "t", some ⟨0⟩⟩,
    ⟨.ret none, .void, "", some ⟨0⟩⟩]

/-- What scaling makes of it: the first chain (2 to 6) reads what the second (7 to 11) computes. -/
def twiceScaled : Func where
  name := "twice"
  params := []
  returnTy := .void
  convention := .kernel
  blocks := #[⟨"entry", [⟨0⟩, ⟨7⟩, ⟨8⟩, ⟨9⟩, ⟨10⟩, ⟨11⟩, ⟨2⟩, ⟨3⟩, ⟨4⟩, ⟨5⟩, ⟨6⟩, ⟨0⟩, ⟨1⟩]⟩]
  layout := [⟨0⟩]
  insts := #[
    ⟨.call "llvm.nvvm.read.ptx.sreg.tid.x" [], .i32, "t", some ⟨0⟩⟩,
    ⟨.ret none, .void, "", some ⟨0⟩⟩,
    ⟨.binary .udiv (.inst ⟨10⟩) (.const 1), .i32, "t.div", some ⟨0⟩⟩,
    ⟨.binary .mul (.inst ⟨2⟩) (.const 2), .i32, "t.mul", some ⟨0⟩⟩,
    ⟨.binary .urem (.inst ⟨10⟩) (.const 1), .i32, "t.rem", some ⟨0⟩⟩,
    ⟨.binary .add (.inst ⟨3⟩) (.inst ⟨4⟩), .i32, "t.base", some ⟨0⟩⟩,
    ⟨.binary .add (.inst ⟨5⟩) (.const 1), .i32, "t.cf2", some ⟨0⟩⟩,
    ⟨.binary .udiv (.inst ⟨0⟩) (.const 1), .i32, "t.div", some ⟨0⟩⟩,
    ⟨.binary .mul (.inst ⟨7⟩) (.const 2), .i32, "t.mul", some ⟨0⟩⟩,
    ⟨.binary .urem (.inst ⟨0⟩) (.const 1), .i32, "t.rem", some ⟨0⟩⟩,
    ⟨.binary .add (.inst ⟨8⟩) (.inst ⟨9⟩), .i32, "t.base", some ⟨0⟩⟩,
    ⟨.binary .add (.inst ⟨10⟩) (.const 1), .i32, "t.cf2", some ⟨0⟩⟩]

/-- At a factor of 2147483649 and a stride of 4294967295, the constant for the span of a group is
negative, so that two groups do not cover the logical range.  A read that is listed twice is scaled
twice, and what was computed from it first reads the identity that was computed second: at a factor
of two and a stride of one, two threads do not stand for four. -/
theorem chains_not_tiling :
    (∃ g base siblings, pick.scaleIdentity 2147483649 4294967295 ⟨0⟩ = .ok (g, base, siblings) ∧
      4294967295 ∣ 8589934590 ∧
      ¬ g.Tiles ⟨0⟩ (base :: siblings) 8589934590 (2147483649 * 8589934590)) ∧
    ∃ grid map, twice.gridReads (.only .x) = .ok grid ∧
      twice.scaleGrid grid ⟨.thread, .x, 2, 1⟩ = .ok (.ok (twiceScaled, map)) ∧
      map.get? ⟨5⟩ = some [⟨6⟩] ∧ 1 ∣ 2 ∧ ¬ twiceScaled.Tiles ⟨0⟩ [⟨5⟩, ⟨6⟩] 2 (2 * 2) := by
  constructor
  · obtain ⟨g, base, siblings, answer, apart⟩ := exists_scaleIdentity_not_tiles (f := pick)
      (i := ⟨0⟩) (c := ⟨.thread, .x, 2147483649, 4294967295⟩) (consistent_assemble ..) (by decide)
      ⟨_, _, rfl, rfl⟩ (by decide) (by decide) (by decide)
    exact ⟨g, base, siblings, answer, by decide, apart _ _ (by decide)⟩
  · exact ⟨_, _, rfl, rfl, rfl, by decide, by unfold Tiles; decide⟩

end Func

end KernelCoarsening
