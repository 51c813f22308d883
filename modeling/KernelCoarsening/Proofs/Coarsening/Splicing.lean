/-
Copies of a region, one behind the other.

Copies of a region are made first and then put into place, each behind the one before.  All that is
done meanwhile inside the blocks leaves control where it goes, so that nothing counts but the edges
that are redirected:

* `Replication.exists_copyRegion`, `Replication.Multiplies` — the copies that are made, apart from
  each other;
* `Replication.PutBehind`, `Replication.InRow` — a copy is put into place, and so are all of them;
* `Replication.InRow.leads` — where the blocks lead when all copies are in place;
* `Replication.replicateRegion_chains` — control goes through the region and through all of its
  copies, one after the other;
* `Replication.not_reaches_heldJump` — but not if the region ends with a placeholder.
-/
import KernelCoarsening.Proofs.Coarsening.Commands
import KernelCoarsening.Proofs.Coarsening.Preservation
import KernelCoarsening.Proofs.Coarsening.RegionOperands
import KernelCoarsening.Proofs.Coarsening.SingleEntry
import KernelCoarsening.Proofs.Divergence.Enclosure
import KernelCoarsening.Proofs.Flow.Rerouting
import KernelCoarsening.Proofs.Flow.Stages
import KernelCoarsening.Proofs.Ir.Steering
import Mathlib.Logic.Relation

namespace KernelCoarsening

namespace Func

variable {f g : Func} {i : InstId} {wanted : InstId → Prop}

/-- An instruction reads the result of another one. -/
def Uses (f : Func) (i j : InstId) : Prop := ∃ values, f.reads i = some values ∧ .inst j ∈ values

theorem uses_iff {j : InstId} :
    f.Uses i j ↔ ∃ op ty, f.line i = some (op, ty) ∧ j ∈ op.usedInsts := by
  simp [Uses, Func.reads, Operation.mem_usedInsts]

theorem Uses.congr {j : InstId} (h : g.Uses i j) (same : g.reads i = f.reads i) : f.Uses i j := by
  rwa [Uses, ← same]

/-- An instruction reads only what may be read. -/
def Wants (f : Func) (wanted : InstId → Prop) (i : InstId) : Prop := ∀ j, f.Uses i j → wanted j

theorem Wants.congr (h : f.Wants wanted i) (same : g.reads i = f.reads i) : g.Wants wanted i :=
  fun j uses => h j (uses.congr same)

/-- A block that is not copied is referred to as before. -/
theorem Twin.mapBlock_of_not_mem {blocks : List BlockId} {copy : BlockCopy}
    (twin : f.Twin g blocks copy) {b : BlockId} (out : b ∉ blocks) : copy.mapBlock b = b := by
  have none : copy.blockMap.get? b = none := by simpa using mt (twin.blockMap b).mp out
  simp [BlockCopy.mapBlock, none]

/-- A copy of an instruction reads copies in the place of what has been copied. -/
theorem Twin.reads {blocks : List BlockId} {copy : BlockCopy} (twin : f.Twin g blocks copy)
    (hi : i ∈ blocks.flatMap f.code) :
    g.reads (copy.mapInst i) = (f.reads i).map (List.map copy.mapValue) := by
  rw [Func.reads, Func.reads, twin.line i hi]
  cases f.line i <;> simp [BlockCopy.mapOperation]

theorem Twin.uses {blocks : List BlockId} {copy : BlockCopy} (twin : f.Twin g blocks copy)
    (hi : i ∈ blocks.flatMap f.code) {j : InstId} (uses : g.Uses (copy.mapInst i) j) :
    ∃ o, f.Uses i o ∧ j = copy.mapInst o := by
  obtain ⟨values, read, mem⟩ := uses
  rw [twin.reads hi, Option.map_eq_some_iff] at read
  obtain ⟨values, read, rfl⟩ := read
  obtain ⟨v, hv, same⟩ := List.mem_map.mp mem
  cases v with
  | inst o => exact ⟨o, ⟨values, read, hv⟩, (Value.inst.inj same).symm⟩
  | _ => simp [BlockCopy.mapValue] at same

/-- The copy of what is not copied is that itself. -/
theorem Twin.mapInst_of_not_mem {blocks : List BlockId} {copy : BlockCopy}
    (twin : f.Twin g blocks copy) {o : InstId} (out : o ∉ blocks.flatMap f.code) :
    copy.mapInst o = o := by
  have none : copy.instMap.get? o = none := by simpa using mt (twin.instMap o).mp out
  simp [BlockCopy.mapInst, none]

/-- It reads what may be read, if the instruction does and copies may be read. -/
theorem Twin.wants {blocks : List BlockId} {copy : BlockCopy} (twin : f.Twin g blocks copy)
    (hi : i ∈ blocks.flatMap f.code) (wants : f.Wants wanted i)
    (new : ∀ j : InstId, f.insts.size ≤ j.index → wanted j) : g.Wants wanted (copy.mapInst i) := by
  intro j uses
  obtain ⟨o, read, rfl⟩ := twin.uses hi uses
  by_cases copied : o ∈ blocks.flatMap f.code
  · exact new _ (twin.new o copied)
  · rw [twin.mapInst_of_not_mem copied]
    exact wants o read

end Func

namespace Replication

open Func

variable {s t : Replication} {i : InstId} {n : Nat} {may : BlockId → Prop} {wanted : InstId → Prop}
  {before : Option (Bool × Bool) → Option (Bool × Bool) → Prop}

/-! ### Operands -/

/-- What is divergent and may be read exists, it stands only where instructions may be added, and its
rank may be repeated. -/
def Grounded (wanted : InstId → Prop) (may : BlockId → Prop)
    (before : Option (Bool × Bool) → Option (Bool × Bool) → Prop) (s : Replication) : Prop :=
  ∀ i ∈ s.divergence.set, wanted i → i.index < s.func.insts.size ∧
    before (s.func.rankOf i) (s.func.rankOf i) ∧ ∀ b, s.func.blockOf i = some b → may b

/-- A repetition has gone on, and blocks have kept their form. -/
structure Tends (may : BlockId → Prop) (before : Option (Bool × Bool) → Option (Bool × Bool) → Prop)
    (s t : Replication) : Prop where
  divergence : t.divergence = s.divergence
  func : s.func.Steers may before t.func

theorem Tends.trans {u : Replication} (first : s.Tends may before t)
    (second : t.Tends may before u) : s.Tends may before u :=
  ⟨second.divergence.trans first.divergence, first.func.trans second.func⟩

/-- More blocks may change. -/
theorem Tends.mono {more : BlockId → Prop} (tends : s.Tends may before t)
    (sub : ∀ b, may b → more b) : s.Tends more before t :=
  ⟨tends.divergence, tends.func.mono sub⟩

theorem Grounded.tend {changed : BlockId → Prop} (grounded : s.Grounded wanted may before)
    (tends : s.Tends changed before t) : t.Grounded wanted may before := by
  intro i hi wants
  obtain ⟨slot, repeats, allowed⟩ := grounded i (tends.divergence ▸ hi) wants
  refine ⟨slot.trans_le tends.func.insts, ?_, fun b there =>
    allowed b (tends.func.home i b slot there)⟩
  rw [rankOf, tends.func.formOf i slot]
  exact repeats

/-- Copies of an instruction are chained behind one of its form. -/
theorem steers_chainCopies {f : Func} (hf : f.Consistent) {behind : InstId} {name suffix : String}
    {count : Nat} (slot : i.index < f.insts.size) (alike : f.formOf behind = f.formOf i)
    (repeats : before (f.rankOf i) (f.rankOf i))
    (allowed : ∀ b, f.blockOf behind = some b → may b) :
    Gives (chainCopies i name suffix f behind n count) fun r => f.Steers may before r.1 := by
  induction count generalizing f behind n with
  | zero => exact .pure (.refl hf)
  | succ count ih =>
    obtain ⟨f₁, new, g, copied, attached, steers, made⟩ := steers_copyBehind may before hf slot
      alike repeats allowed (suffixed name (suffix ++ replicaSuffix n))
    have form : g.formOf i = f.formOf i := steers.formOf i slot
    have form' : g.formOf new = g.formOf i := by
      rw [form, formOf, formOf, made.line, Function.update_self]
    have home : g.blockOf new = f.blockOf behind := by rw [made.home, Function.update_self]
    refine .ask ⟨_, copied⟩ fun r answer => ?_
    obtain rfl : (f₁, new) = r := Except.ok.inj (copied.symm.trans answer)
    refine .ask ⟨_, attached⟩ fun g' answer => ?_
    obtain rfl : g = g' := Except.ok.inj (attached.symm.trans answer)
    refine (ih steers.consistent (slot.trans_le steers.insts) form' (by rwa [rankOf, form])
      fun b there => allowed b (home ▸ there)).bind fun r _ later => .pure (steers.trans later)

theorem tends_ensurePlaceholders (hs : s.func.Consistent)
    (grounded : s.Grounded wanted may before) (hi : wanted i) :
    Gives (s.ensurePlaceholders i) (s.Tends may before) := by
  unfold ensurePlaceholders
  split
  · exact .pure ⟨rfl, .refl hs⟩
  · rename_i skipped
    obtain ⟨slot, repeats, allowed⟩ := grounded i (by simp_all [Divergence.isDivergent]) hi
    obtain ⟨inst, hi⟩ := exists_inst slot
    refine .ask ⟨inst, hi⟩ fun inst _ => ?_
    exact (steers_chainCopies hs slot rfl repeats allowed).bind fun r _ steers =>
      .pure ⟨rfl, steers⟩

theorem tends_rewire (hs : s.func.Consistent) (grounded : s.Grounded wanted may before)
    (slot : i.index < s.func.insts.size) (wants : s.func.Wants wanted i) :
    Gives (rewire n s i) (s.Tends may before) := by
  unfold rewire
  split
  · exact .pure ⟨rfl, .refl hs⟩
  · obtain ⟨inst, hi⟩ := exists_inst slot
    have hop : s.func.operation i = .ok inst.op := by simp [operation, hi, Functor.map, Except.map]
    refine .ask ⟨inst.op, hop⟩ fun op answer => ?_
    obtain rfl : inst.op = op := Except.ok.inj (hop.symm.trans answer)
    refine Gives.bind (p := s.Tends may before) (.foldlM ⟨rfl, .refl hs⟩ fun t tends j hj => ?_)
      fun t _ tends => ?_
    · have read := wants j ⟨_, reads_of_inst hi, Operation.mem_usedInsts.mp hj⟩
      exact (tends_ensurePlaceholders tends.func.consistent (grounded.tend tends) read).mono
        fun u _ later => tends.trans later
    · obtain ⟨g, answer, same⟩ := alter_modifyOperation (f := t.func)
        (·.mapOperands (t.operandAt i n)) (slot.trans_le tends.func.insts)
      refine .ask ⟨g, answer⟩ fun g' answer' => .pure ?_
      obtain rfl : g = g' := Except.ok.inj (answer.symm.trans answer')
      exact tends.trans ⟨rfl, steers_of_alter tends.func.consistent
        (Operation.form_mapOperands _) same⟩

/-- Instructions are rewired, each once. -/
theorem tends_rewires (hs : s.func.Consistent) (grounded : s.Grounded wanted may before)
    {list : List InstId} (nodup : list.Nodup) (slots : ∀ i ∈ list, i.index < s.func.insts.size)
    (wants : ∀ i ∈ list, s.func.Wants wanted i) :
    Gives (list.foldlM (rewire n) s) (s.Tends may before) := by
  induction list generalizing s with
  | nil => exact .pure ⟨rfl, .refl hs⟩
  | cons i rest ih =>
    obtain ⟨new, nodup⟩ := List.nodup_cons.mp nodup
    rw [List.forall_mem_cons] at slots wants
    rw [List.foldlM_cons]
    refine (tends_rewire hs grounded slots.1 wants.1).bind fun t answer tends => ?_
    have same := (reads_rewire slots.1 t answer).1
    refine (ih tends.func.consistent (grounded.tend tends) nodup
      (fun j hj => (slots.2 j hj).trans_le tends.func.insts) fun j hj =>
        (wants.2 j hj).congr (same.reads j (slots.2 j hj) fun here => new (here ▸ hj))).mono
          fun u _ later => tends.trans later

/-! ### Copies that are put into place -/

/-- An instruction can be taken out of a block that may change, since it is not the last one. -/
def Inner (may : BlockId → Prop) (f : Func) (i : InstId) : Prop :=
  i.index < f.insts.size ∧ ∀ b, f.blockOf i = some b → may b ∧ (f.code b).getLast? ≠ some i

/-- The copies of placeholders, which are taken out of a copy. -/
def Splice.Doomed (splice : Splice) (copy : BlockCopy) (j : InstId) : Prop :=
  ∃ k ∈ splice.held, (k, j) ∈ copy.instMap

variable (before) in
/-- Copies of placeholders are taken out. -/
theorem steers_eraseHeld {f : Func} (hf : f.Consistent) {held : List InstId}
    {entries : List (InstId × InstId)} (inner : ∀ k ∈ held, ∀ j, (k, j) ∈ entries → Inner may f j) :
    Gives (entries.foldlM (fun f entry =>
      if held.contains entry.1 then f.erase entry.2 else .ok f) f) fun g => f.Steers may before g ∧
        ∀ b j, j ∈ g.code b ↔ j ∈ f.code b ∧ ¬ ∃ k ∈ held, (k, j) ∈ entries := by
  induction entries generalizing f with
  | nil => exact .pure ⟨.refl hf, by simp⟩
  | cons entry rest ih =>
    obtain ⟨k, j⟩ := entry
    rw [List.foldlM_cons]
    by_cases here : k ∈ held
    · obtain ⟨slot, inside⟩ := inner k here j List.mem_cons_self
      obtain ⟨f₁, answer, steers, last, code⟩ := steers_erase before hf slot inside
      refine .bind (p := fun g => f₁ = g) ⟨f₁, by simpa [here] using answer, rfl⟩ fun g _ same => ?_
      subst same
      refine (ih steers.consistent fun k hk j mem => ?_).mono fun g _ later =>
        ⟨steers.trans later.1, fun b j' => ?_⟩
      · obtain ⟨slot, inside⟩ := inner k hk j (List.mem_cons_of_mem _ mem)
        exact ⟨slot.trans_le steers.insts, fun b there =>
          last b ▸ inside b (steers.home j b slot there)⟩
      · rw [later.2, code]
        constructor
        · rintro ⟨⟨mem, other⟩, none⟩
          refine ⟨mem, fun ⟨k', hk', mem'⟩ => ?_⟩
          rcases List.mem_cons.mp mem' with same | mem'
          · exact other (Prod.mk.inj same).2
          · exact none ⟨k', hk', mem'⟩
        · rintro ⟨mem, none⟩
          exact ⟨⟨mem, fun same => none ⟨k, here, same ▸ List.mem_cons_self⟩⟩, fun ⟨k', hk', mem'⟩ =>
            none ⟨k', hk', List.mem_cons_of_mem _ mem'⟩⟩
    · refine .bind (p := fun g => f = g) ⟨f, by simp [here], rfl⟩ fun g _ same => ?_
      subst same
      refine (ih hf fun k hk j mem => inner k hk j (List.mem_cons_of_mem _ mem)).mono
        fun g _ later => ⟨later.1, fun b j' => (later.2 b j').trans (and_congr_right fun _ => ?_)⟩
      refine not_congr (exists_congr fun k' => and_congr_right fun hk' => ?_)
      have other : k' ≠ k := fun same => here (same ▸ hk')
      simp [other]

/-- What is done to the edges when a copy is put into place: the block before it comes to lead to it,
and phis come to name the blocks that control comes from. -/
structure Joined (splice : Splice) (top header exiting : BlockId) (f f₁ f₂ g : Func) : Prop where
  redirected : f₁.outline = f.outline.alter (fun i => (f.code top).getLast? = some i)
    (·.mapSuccessors (Operation.redirect splice.bottom header))
  entered : f₂.outline = f₁.outline.alter (· ∈ f.outline.phis header)
    (·.mapIncoming (Operation.redirect splice.entry top))
  left : g.outline = f₂.outline.alter (· ∈ f.outline.phis splice.bottom)
    (·.mapIncoming (Operation.redirect top exiting))

namespace Joined

variable {splice : Splice} {top header exiting : BlockId} {f f₁ f₂ g : Func}
  (joined : Joined splice top header exiting f f₁ f₂ g)

include joined

theorem code : g.code = f.code :=
  (congrArg Outline.code joined.left).trans
    ((congrArg Outline.code joined.entered).trans (congrArg Outline.code joined.redirected))

theorem blockOf : g.blockOf = f.blockOf :=
  (congrArg Outline.home joined.left).trans
    ((congrArg Outline.home joined.entered).trans (congrArg Outline.home joined.redirected))

theorem layout : g.layout = f.layout :=
  (congrArg Outline.layout joined.left).trans
    ((congrArg Outline.layout joined.entered).trans (congrArg Outline.layout joined.redirected))

theorem blocks : g.blocks.size = f.blocks.size :=
  (congrArg Outline.blocks joined.left).trans
    ((congrArg Outline.blocks joined.entered).trans (congrArg Outline.blocks joined.redirected))

theorem insts : g.insts.size = f.insts.size :=
  (congrArg Outline.insts joined.left).trans
    ((congrArg Outline.insts joined.entered).trans (congrArg Outline.insts joined.redirected))

theorem consistent (hf : f.Consistent) : g.Consistent :=
  ((hf.of_alter joined.redirected).of_alter joined.entered).of_alter joined.left

/-- Operands and ranks are what they were. -/
theorem reads (i : InstId) : g.reads i = f.reads i := by
  rw [reads_of_alter joined.left (fun op => by simp), reads_of_alter joined.entered (fun op => by simp),
    reads_of_alter joined.redirected fun op => by simp]

theorem rankOf (i : InstId) : g.rankOf i = f.rankOf i := by
  rw [rankOf_of_alter joined.left (fun op => by simp [Operation.rank]),
    rankOf_of_alter joined.entered (fun op => by simp [Operation.rank]),
    rankOf_of_alter joined.redirected fun op => by simp [Operation.rank]]

/-- Only the block before the copy leads elsewhere. -/
theorem leads (hf : f.Consistent) (b : BlockId) : g.leads b = if b = top then
    (f.leads top).map (Operation.redirect splice.bottom header) else f.leads b := by
  rw [leads_of_rename joined.left, leads_of_rename joined.entered,
    leads_of_redirect hf joined.redirected]

end Joined

/-- A copy of a region can be put into place: it has the bounds of the region, and the copies of
placeholders can be taken out of it. -/
structure Spliceable (splice : Splice) (f : Func) (copy : BlockCopy) : Prop where
  header : (copy.blockMap.get? splice.region.header).isSome
  exiting : (copy.blockMap.get? splice.region.exiting).isSome
  begins : copy.mapBlock splice.region.header ∈ copy.blocks
  ends : copy.mapBlock splice.region.exiting ∈ copy.blocks
  slots : ∀ b ∈ copy.blocks, b.index < f.blocks.size
  inner : ∀ j, splice.Doomed copy j → Inner (· ∈ copy.blocks) f j

/-- Work outside the copy does not matter. -/
theorem Spliceable.keep {splice : Splice} {f g : Func} {copy : BlockCopy}
    (h : Spliceable splice f copy) (blocks : g.blocks.size = f.blocks.size)
    (insts : f.insts.size ≤ g.insts.size)
    (home : ∀ i b, i.index < f.insts.size → g.blockOf i = some b → f.blockOf i = some b)
    (code : ∀ b ∈ copy.blocks, g.code b = f.code b) : Spliceable splice g copy where
  header := h.header
  exiting := h.exiting
  begins := h.begins
  ends := h.ends
  slots b hb := blocks ▸ h.slots b hb
  inner j doomed := by
    obtain ⟨slot, inside⟩ := h.inner j doomed
    refine ⟨slot.trans_le insts, fun b there => ?_⟩
    obtain ⟨here, early⟩ := inside b (home j b slot there)
    exact ⟨here, code b here ▸ early⟩

/-- A copy of a region is put into place.  Copies of placeholders are taken out of it, blocks keep
their form while its instructions are rewired, and then edges are redirected. -/
structure PutBehind (splice : Splice) (bound : Nat) (wanted : InstId → Prop)
    (before : Option (Bool × Bool) → Option (Bool × Bool) → Prop) (s : Replication) (top : BlockId)
    (copy : BlockCopy) (u : Replication) (f₁ f₂ g : Func) : Prop where
  wants : ∀ b ∈ copy.blocks, ∀ i ∈ s.func.code b, s.func.Wants wanted i
  rewired : ∃ f n, copy.instMap.foldlM (fun f entry =>
      if splice.held.contains entry.1 then f.erase entry.2 else .ok f) s.func = .ok f ∧
    (copy.blocks.flatMap f.code).foldlM (rewire n) { s with func := f } = .ok u
  tends : s.Tends (fun b => b.index < bound ∨ b ∈ copy.blocks) before u
  cleared : ∀ b ∈ copy.blocks, ∀ j, j ∈ u.func.code b ↔ j ∈ s.func.code b ∧ ¬ splice.Doomed copy j
  kept : ∀ b, b ∉ copy.blocks → ∀ j ∈ s.func.code b, j ∈ u.func.code b
  reads : ∀ i : InstId, i.index < s.func.insts.size → (∀ b ∈ copy.blocks, i ∉ s.func.code b) →
    u.func.reads i = s.func.reads i
  joined : Joined splice top (copy.mapBlock splice.region.header)
    (copy.mapBlock splice.region.exiting) u.func f₁ f₂ g

/-- A copy that has its bounds can be put into place. -/
theorem exists_putBehind (hs : s.func.Consistent) {bound : Nat}
    (grounded : s.Grounded wanted (·.index < bound) before) {splice : Splice} {copy : BlockCopy}
    {top : BlockId} (can : Spliceable splice s.func copy) (nodup : copy.blocks.Nodup)
    (new : ∀ b ∈ copy.blocks, bound ≤ b.index)
    (wants : ∀ b ∈ copy.blocks, ∀ i ∈ s.func.code b, s.func.Wants wanted i)
    (slot : top.index < s.func.blocks.size) (ends : splice.bottom.index < s.func.blocks.size) :
    ∃ u f₁ f₂ g, spliceCopy splice n s top copy =
        .ok ({ u with func := g }, copy.mapBlock splice.region.exiting) ∧
      PutBehind splice bound wanted before s top copy u f₁ f₂ g := by
  obtain ⟨header, hheader⟩ := Option.isSome_iff_exists.mp can.header
  obtain ⟨exiting, hexiting⟩ := Option.isSome_iff_exists.mp can.exiting
  have isHeader : copy.mapBlock splice.region.header = header := by
    simp [BlockCopy.mapBlock, hheader]
  have isExiting : copy.mapBlock splice.region.exiting = exiting := by
    simp [BlockCopy.mapBlock, hexiting]
  obtain ⟨f, erased, steers₁, code₁⟩ := steers_eraseHeld before hs
    fun k hk j mem => can.inner j ⟨k, hk, mem⟩
  obtain ⟨-, same₁, left₁⟩ := erased_held hs splice.held copy f erased
  have size₁ := steers₁.size_blocks hs
  obtain ⟨blocks, listed⟩ := exists_mapM_eq_ok f.block copy.blocks fun b hb => by
    obtain ⟨block, answer, -⟩ := exists_block (size₁ ▸ can.slots b hb : b.index < f.blocks.size)
    exact ⟨block, answer⟩
  have members : blocks.flatMap (·.insts) = copy.blocks.flatMap f.code :=
    flatMap_of_mapM_eq_ok listed fun _ _ answer => (code_of_block answer).symm
  have mem : ∀ i ∈ blocks.flatMap (·.insts), ∃ b ∈ copy.blocks, i ∈ f.code b := fun i hi =>
    List.mem_flatMap.mp (members ▸ hi)
  have slots : ∀ i ∈ blocks.flatMap (·.insts), i.index < f.insts.size := fun i hi => by
    obtain ⟨b, -, inside⟩ := mem i hi
    exact steers₁.consistent.lt_of_mem_code inside
  have once : (blocks.flatMap (·.insts)).Nodup :=
    members ▸ nodup_flatMap_code steers₁.consistent nodup
  have first : s.Tends (· ∈ copy.blocks) before { s with func := f } := ⟨rfl, steers₁⟩
  obtain ⟨u, rewired, later⟩ := tends_rewires (n := n) (s := { s with func := f })
    steers₁.consistent (grounded.tend first) once slots fun i hi => by
      obtain ⟨b, hb, inside⟩ := mem i hi
      have inside := ((code₁ b i).mp inside).1
      exact (wants b hb i inside).congr (same₁.reads i (hs.lt_of_mem_code inside) id)
  obtain ⟨same₂, -⟩ := reads_rewires once slots u rewired
  have left₂ : f.Leaves (fun j => f.insts.size ≤ j.index) u.func :=
    (Yields.foldlM (Advances.refl { s with func := f }) (fun t step i _ =>
      step.then (advances_rewire (step.fresh fun _ => id))) u rewired).func
  have tends : s.Tends (fun b => b.index < bound ∨ b ∈ copy.blocks) before u :=
    (first.mono fun _ => .inr).trans (later.mono fun _ => .inl)
  have size := tends.func.size_blocks hs
  -- redirecting edges moves nothing
  obtain ⟨g₁, redirected, same₁'⟩ := exists_replaceSuccessor tends.func.consistent
    (size ▸ slot) splice.bottom header
  have blocks₁ : g₁.blocks.size = u.func.blocks.size := congrArg Outline.blocks same₁'
  have phis₁ : g₁.outline.phis = u.func.outline.phis := by
    rw [same₁', Outline.phis_alter fun op => Operation.isPhi_mapSuccessors _ op]
  have begins := can.slots _ (isHeader ▸ can.begins)
  obtain ⟨g₂, renamed, same₂'⟩ := (tends.func.consistent.of_alter same₁').outline_renameIncoming
    (b := header) (by omega) splice.entry top
  have blocks₂ : g₂.blocks.size = g₁.blocks.size := congrArg Outline.blocks same₂'
  have phis₂ : g₂.outline.phis = u.func.outline.phis := by
    rw [same₂', Outline.phis_alter fun op => Operation.isPhi_mapIncoming _ op, phis₁]
  obtain ⟨g₃, renamed', same₃'⟩ := ((tends.func.consistent.of_alter same₁').of_alter
    same₂').outline_renameIncoming (b := splice.bottom) (by omega) top exiting
  have joined : Joined splice top header exiting u.func g₁ g₂ g₃ :=
    ⟨same₁', phis₁ ▸ same₂', phis₂ ▸ same₃'⟩
  refine ⟨u, g₁, g₂, g₃, ?_, wants, ⟨f, n, erased, members ▸ rewired⟩, tends, fun b hb j => ?_,
    fun b out j hj => ?_, fun i old out => ?_, isHeader ▸ isExiting ▸ joined⟩
  · rw [isExiting]
    unfold spliceCopy
    simp only [hheader, hexiting, bind_eq_ok_iff]
    exact ⟨f, erased, blocks, listed, u, rewired, g₁, redirected, g₂, renamed, g₃, renamed', rfl⟩
  · rw [later.func.code b (Nat.not_lt.mpr (new b hb)), code₁]
    rfl
  · have inside : j ∈ f.code b := by
      refine (code₁ b j).mpr ⟨hj, ?_⟩
      rintro ⟨k, hk, entry⟩
      exact out ((can.inner j ⟨k, hk, entry⟩).2 b (hs.mem_code.mp hj)).1
    have slot := steers₁.consistent.lt_of_mem_code inside
    rw [tends.func.consistent.mem_code, left₂.home j slot (Nat.not_le.mpr slot)]
    exact steers₁.consistent.mem_code.mp inside
  · rw [same₂.reads i (old.trans_le steers₁.insts) fun hi => ?_, same₁.reads i old id]
    obtain ⟨b, hb, inside⟩ := mem i hi
    exact out b hb ((code₁ b i).mp inside).1

/-- Copies of a region are put into place, each behind the one before. -/
inductive InRow (splice : Splice) (bound : Nat) (wanted : InstId → Prop)
    (before : Option (Bool × Bool) → Option (Bool × Bool) → Prop) :
    Replication → BlockId → List BlockCopy → Replication → Prop
  | nil {s : Replication} {top : BlockId} : InRow splice bound wanted before s top [] s
  | cons {s u t : Replication} {top : BlockId} {copy : BlockCopy} {copies : List BlockCopy}
      {f₁ f₂ g : Func} (put : PutBehind splice bound wanted before s top copy u f₁ f₂ g)
      (rest : InRow splice bound wanted before { u with func := g }
        (copy.mapBlock splice.region.exiting) copies t) :
      InRow splice bound wanted before s top (copy :: copies) t

namespace PutBehind

variable {splice : Splice} {bound : Nat} {top : BlockId} {copy : BlockCopy} {u : Replication}
  {f₁ f₂ g : Func} (put : PutBehind splice bound wanted before s top copy u f₁ f₂ g)

include put

theorem consistent : g.Consistent := put.joined.consistent put.tends.func.consistent

theorem blocks (hs : s.func.Consistent) : g.blocks.size = s.func.blocks.size :=
  put.joined.blocks.trans (put.tends.func.size_blocks hs)

theorem insts : s.func.insts.size ≤ g.insts.size := put.joined.insts ▸ put.tends.func.insts

theorem layout : g.layout = s.func.layout := put.joined.layout.trans put.tends.func.layout

theorem home {i : InstId} {b : BlockId} (old : i.index < s.func.insts.size)
    (there : g.blockOf i = some b) : s.func.blockOf i = some b :=
  put.tends.func.home i b old (put.joined.blockOf ▸ there)

/-- New blocks outside the copy are not touched. -/
theorem code {b : BlockId} (new : bound ≤ b.index) (out : b ∉ copy.blocks) :
    g.code b = s.func.code b := by
  rw [put.joined.code]
  exact put.tends.func.code b fun touched => touched.elim (Nat.not_lt.mpr new) out

theorem rankOf {i : InstId} (old : i.index < s.func.insts.size) : g.rankOf i = s.func.rankOf i := by
  rw [put.joined.rankOf, Func.rankOf, Func.rankOf, put.tends.func.formOf i old]

/-- Only the block before the copy leads elsewhere. -/
theorem leads (above : s.func.leads top = [splice.bottom]) (b : BlockId) : g.leads b =
    if b = top then [copy.mapBlock splice.region.header] else s.func.leads b := by
  rw [put.joined.leads put.tends.func.consistent, put.tends.func.leads, put.tends.func.leads, above]
  simp [Operation.redirect]

theorem grounded (grounded : s.Grounded wanted (·.index < bound) before) :
    Grounded wanted (·.index < bound) before { u with func := g } := by
  intro i hi wants
  obtain ⟨slot, repeats, allowed⟩ := grounded i (put.tends.divergence ▸ hi) wants
  exact ⟨slot.trans_le put.insts, by rwa [put.rankOf slot], fun b there =>
    allowed b (put.home slot there)⟩

end PutBehind

/-- Copies that have their bounds can be put into place, if they are apart from each other. -/
theorem exists_inRow (hs : s.func.Consistent) {bound : Nat} {splice : Splice} {top : BlockId}
    {copies : List BlockCopy} (grounded : s.Grounded wanted (·.index < bound) before)
    (can : ∀ copy ∈ copies, Spliceable splice s.func copy)
    (nodup : ∀ copy ∈ copies, copy.blocks.Nodup)
    (new : ∀ copy ∈ copies, ∀ b ∈ copy.blocks, bound ≤ b.index)
    (wants : ∀ copy ∈ copies, ∀ b ∈ copy.blocks, ∀ i ∈ s.func.code b, s.func.Wants wanted i)
    (apart : copies.Pairwise fun copy copy' => copy.blocks.Disjoint copy'.blocks)
    (slot : top.index < s.func.blocks.size) (ends : splice.bottom.index < s.func.blocks.size) :
    ∃ t, spliceCopies splice s top n copies = .ok t ∧
      InRow splice bound wanted before s top copies t := by
  induction copies generalizing s top n with
  | nil => exact ⟨s, rfl, .nil⟩
  | cons copy copies ih =>
    rw [List.forall_mem_cons] at can nodup new wants
    obtain ⟨here, apart⟩ := List.pairwise_cons.mp apart
    obtain ⟨u, f₁, f₂, g, answer, put⟩ := exists_putBehind (n := n) hs grounded can.1 nodup.1 new.1
      wants.1 slot ends
    have blocks := put.blocks hs
    have untouched : ∀ copy' ∈ copies, ∀ b ∈ copy'.blocks, g.code b = s.func.code b :=
      fun copy' hc b hb => put.code (new.2 copy' hc b hb) fun mem => here copy' hc mem hb
    obtain ⟨t, answer', row⟩ := ih (n := n + 1) (s := { u with func := g })
      put.consistent (put.grounded grounded)
      (fun copy' hc => (can.2 copy' hc).keep blocks put.insts (fun i b old => put.home old)
        (untouched copy' hc)) nodup.2 new.2
      (fun copy' hc b hb i hi => by
        rw [untouched copy' hc b hb] at hi
        refine (wants.2 copy' hc b hb i hi).congr ((put.joined.reads i).trans ?_)
        refine put.reads i (hs.lt_of_mem_code hi) fun c mem => hs.not_mem_code hi ?_
        rintro rfl
        exact here copy' hc mem hb)
      apart (show (copy.mapBlock splice.region.exiting).index < g.blocks.size from
        blocks ▸ can.1.slots _ can.1.ends) (blocks ▸ ends)
    refine ⟨t, ?_, .cons put row⟩
    simp only [spliceCopies, bind_eq_ok_iff]
    exact ⟨_, answer, answer'⟩

/-! ### Copies that are made -/

/-- Copies of blocks have been made, apart from each other, at the end of the layout. -/
structure Multiplies (f : Func) (blocks : List BlockId) (g : Func) (copies : List BlockCopy) :
    Prop where
  consistent : g.Consistent
  carries : f.Carries g
  twins : ∀ copy ∈ copies, f.Twin g blocks copy
  apart : copies.Pairwise fun copy copy' => copy.blocks.Disjoint copy'.blocks
  layout : g.layout = f.layout ++ copies.flatMap (·.blocks)

namespace Multiplies

variable {f g : Func} {blocks : List BlockId} {copies : List BlockCopy} {copy : BlockCopy}
  {b c : BlockId} (made : Multiplies f blocks g copies)

include made

theorem fresh (hc : copy ∈ copies) (hb : b ∈ copy.blocks) : f.blocks.size ≤ b.index :=
  ((made.twins copy hc).fresh b hb).1

theorem away (old : b.index < f.blocks.size) (hc : copy ∈ copies) : b ∉ copy.blocks := fun mem =>
  absurd old (Nat.not_lt.mpr (made.fresh hc mem))

/-- What was there stands in blocks that were there. -/
theorem home (hf : f.Consistent) (old : i.index < f.insts.size) (there : g.blockOf i = some b) :
    b.index < f.blocks.size := by
  have mem := made.consistent.mem_code.mpr there
  have listed := (made.consistent.mem_layout b).mpr (slot_of_mem_code mem)
  rw [made.layout, List.mem_append, List.mem_flatMap] at listed
  rcases listed with listed | ⟨copy, hc, inside⟩
  · exact (hf.mem_layout b).mp listed
  · have twin := made.twins copy hc
    obtain ⟨a, ha, rfl⟩ := twin.mem_map.mp inside
    rw [twin.code a ha] at mem
    obtain ⟨j, hj, rfl⟩ := List.mem_map.mp mem
    exact absurd old (Nat.not_lt.mpr (twin.new j (List.mem_flatMap.mpr ⟨a, ha, hj⟩)))

theorem disjoint {copy' : BlockCopy} (hc : copy ∈ copies) (hc' : copy' ∈ copies)
    (other : copy ≠ copy') : copy.blocks.Disjoint copy'.blocks := by
  have symm : Std.Symm fun copy copy' : BlockCopy => copy.blocks.Disjoint copy'.blocks :=
    ⟨fun _ _ disjoint => disjoint.symm⟩
  exact made.apart.forall hc hc' other

/-- A block that is left for one that is not copied is left for it by its copies, too. -/
theorem leads_of_outside (hf : f.Consistent) (hc : copy ∈ copies) (hb : b ∈ blocks)
    (leads : f.leads b = [c]) (out : c ∉ blocks) : g.leads (copy.mapBlock b) = [c] := by
  rw [(made.twins copy hc).leads hf hb, leads, List.map_singleton,
    (made.twins copy hc).mapBlock_of_not_mem out]

end Multiplies

/-- Copies of a region are made one after the other. -/
theorem exists_copyRegion {f : Func} (hf : f.Consistent) {region : Region} (count : Nat)
    (nodup : region.blocks.Nodup) (slots : ∀ b ∈ region.blocks, b.index < f.blocks.size) :
    ∃ g copies, copyRegion region f n count = .ok (g, copies) ∧ copies.length = count ∧
      Multiplies f region.blocks g copies := by
  induction count generalizing f n with
  | zero => exact ⟨f, [], rfl, rfl, hf, .refl f, by simp, by simp, by simp⟩
  | succ count ih =>
    obtain ⟨f₁, copy, answer, consistent, carries, twin, layout⟩ := exists_copyBlocks
      (replicaSuffix n) hf nodup slots
    obtain ⟨g, copies, others, length, made⟩ := ih (n := n + 1) consistent fun b hb =>
      (slots b hb).trans_le carries.blocks
    refine ⟨g, copy :: copies, ?_, by simp [length], made.consistent, carries.trans made.carries,
      List.forall_mem_cons.mpr ⟨twin.extend hf made.carries, fun copy' hc =>
        (made.twins copy' hc).restrict hf carries slots⟩,
      List.pairwise_cons.mpr ⟨fun copy' hc b hb hb' => ?_, made.apart⟩, by simp [made.layout, layout]⟩
    · simp only [copyRegion, bind_eq_ok_iff]
      exact ⟨_, answer, _, others, rfl⟩
    · exact made.away (twin.fresh b hb).2 hc hb'

/-- Copies that have been made can be put into place, if no block of the region ends with a
placeholder. -/
theorem spliceable_of_twin {splice : Splice} {f g : Func} {copy : BlockCopy} (hg : g.Consistent)
    (twin : f.Twin g splice.region.blocks copy)
    (header : splice.region.header ∈ splice.region.blocks)
    (exiting : splice.region.exiting ∈ splice.region.blocks)
    (kept : ∀ b ∈ splice.region.blocks, ∀ i, (f.code b).getLast? = some i → i ∉ splice.held) :
    Spliceable splice g copy where
  header := (twin.blockMap _).mpr header
  exiting := (twin.blockMap _).mpr exiting
  begins := twin.mem_map.mpr ⟨_, header, rfl⟩
  ends := twin.mem_map.mpr ⟨_, exiting, rfl⟩
  slots b hb := (twin.fresh b hb).2
  inner j := by
    rintro ⟨k, hk, mem⟩
    have entry := Assoc.get?_of_mem twin.keys mem
    obtain ⟨b, hb, inside⟩ := List.mem_flatMap.mp ((twin.instMap k).mp (by simp [entry]))
    have copied : copy.mapInst k = j := by simp [BlockCopy.mapInst, entry]
    have code := twin.code b hb
    have there : g.blockOf j = some (copy.mapBlock b) :=
      hg.mem_code.mp (code ▸ copied ▸ List.mem_map_of_mem inside)
    refine ⟨lt_of_blockOf there, fun c home => ?_⟩
    obtain rfl : copy.mapBlock b = c := Option.some.inj (there.symm.trans home)
    refine ⟨twin.mem_map.mpr ⟨b, hb, rfl⟩, fun last => ?_⟩
    rw [code, List.getLast?_map, Option.map_eq_some_iff] at last
    obtain ⟨t, last, same⟩ := last
    -- the instructions of the block have different copies
    have once : ((f.code b).map copy.mapInst).Nodup := code ▸ hg.code_nodup _
    have : t = k := List.inj_on_of_nodup_map once (List.mem_of_getLast? last) inside
      (same.trans copied.symm)
    exact kept b hb t last (this ▸ hk)

/-! ### Where control goes -/

/-- The block before the first copy leads to it, each copy ends at the header of the next one and the
last one at the block behind the region; all other blocks lead where they led. -/
theorem InRow.leads {bound : Nat} {splice : Splice} {top : BlockId} {copies : List BlockCopy}
    (row : InRow splice bound wanted before s top copies t)
    (inside : ∀ copy ∈ copies, copy.mapBlock splice.region.exiting ∈ copy.blocks)
    (apart : copies.Pairwise fun copy copy' => copy.blocks.Disjoint copy'.blocks)
    (out : ∀ copy ∈ copies, top ∉ copy.blocks) (leads : s.func.leads top = [splice.bottom])
    (ends : ∀ copy ∈ copies,
      s.func.leads (copy.mapBlock splice.region.exiting) = [splice.bottom]) :
    (∀ b, b ≠ top → (∀ copy ∈ copies, b ≠ copy.mapBlock splice.region.exiting) →
      t.func.leads b = s.func.leads b) ∧
    List.Forall₂ (fun e h => t.func.leads e = [h])
      (top :: copies.map (·.mapBlock splice.region.exiting))
      (copies.map (·.mapBlock splice.region.header) ++ [splice.bottom]) := by
  induction row with
  | nil => exact ⟨fun _ _ _ => rfl, .cons leads .nil⟩
  | @cons s u t top copy copies f₁ f₂ g put row ih =>
    rw [List.forall_mem_cons] at inside out ends
    obtain ⟨here, apart⟩ := List.pairwise_cons.mp apart
    have aim := put.leads leads
    have apart_top : ∀ copy' ∈ copies, copy'.mapBlock splice.region.exiting ≠ top :=
      fun copy' hc same => out.2 copy' hc (same ▸ inside.2 copy' hc)
    have ne_top : copy.mapBlock splice.region.exiting ≠ top := fun same => out.1 (same ▸ inside.1)
    obtain ⟨others, linked⟩ := ih inside.2 apart (fun copy' hc mem => here copy' hc inside.1 mem)
      (by rw [aim, if_neg ne_top, ends.1])
      fun copy' hc => by rw [aim, if_neg (apart_top copy' hc), ends.2 copy' hc]
    refine ⟨fun b other away => ?_, ?_⟩
    · rw [List.forall_mem_cons] at away
      rw [others b away.1 away.2, aim, if_neg other]
    · rw [List.map_cons, List.map_cons, List.cons_append]
      refine .cons ?_ linked
      rw [others top ne_top.symm fun copy' hc => (apart_top copy' hc).symm, aim, if_pos rfl]

theorem InRow.consistent {bound : Nat} {splice : Splice} {top : BlockId} {copies : List BlockCopy}
    (row : InRow splice bound wanted before s top copies t) (hs : s.func.Consistent) :
    t.func.Consistent := by
  induction row with
  | nil => exact hs
  | cons put _ ih => exact ih put.consistent

theorem InRow.home {bound : Nat} {splice : Splice} {top : BlockId} {copies : List BlockCopy}
    (row : InRow splice bound wanted before s top copies t) {b : BlockId}
    (old : i.index < s.func.insts.size) (there : t.func.blockOf i = some b) :
    s.func.blockOf i = some b := by
  induction row with
  | nil => exact there
  | cons put _ ih => exact put.home old (ih (old.trans_le put.insts) there)

theorem InRow.layout {bound : Nat} {splice : Splice} {top : BlockId} {copies : List BlockCopy}
    (row : InRow splice bound wanted before s top copies t) : t.func.layout = s.func.layout := by
  induction row with
  | nil => rfl
  | cons put _ ih => exact ih.trans put.layout

end Replication

/-! ### The blocks of a region -/

namespace Region

variable {r : Region} {f : Func} {g : Graph}

/-- Control stays in a region from its header up to its exiting block. -/
structure Enclosed (r : Region) (f : Func) (g : Graph) : Prop where
  nodup : r.blocks.Nodup
  header : r.header ∈ r.blocks
  exiting : r.exiting ∈ r.blocks
  closed : ∀ b ∈ r.blocks, b ≠ r.exiting → ∀ c ∈ f.leads b, c ∈ r.blocks
  way : g.Reaches r.header.index r.exiting.index
  found : ∀ b ∈ r.blocks,
    Relation.ReflTransGen (fun b c => b ≠ r.exiting ∧ c ∈ f.leads b) r.header b
  slots : r.header.index < g.size → ∀ b ∈ r.blocks, b.index < f.blocks.size

/-- This is so if the blocks are those that are found between them. -/
theorem enclosed_of_filled (hf : f.Consistent) (hg : f.graph = .ok g)
    (filled : f.reachableUntil r.header r.exiting = .ok r.blocks) (inside : r.exiting ∈ r.blocks) :
    r.Enclosed f g := by
  have way : g.Reaches r.header.index r.exiting.index := by
    by_cases other : r.header = r.exiting
    · rw [other]
      exact ⟨_, .stay _⟩
    · rcases (Func.mem_reachableUntil hg other filled).mp inside with before | ⟨-, u, before, edge⟩
      · exact absurd rfl before.ne
      · exact before.reaches.trans (.of_edge edge)
  have mem := mem_blocks_iff hg filled way
  refine ⟨?_, (mem _).mpr ?_, inside, fun b hb other c hc => (mem c).mpr ?_, way, fun b hb => ?_,
    fun slot b hb => ?_⟩
  · exact Func.nodup_reachableUntil filled
  · by_cases other : r.header.index = r.exiting.index
    · exact .inr other
    · exact .inl (.refl other)
  · have before := ((mem b).mp hb).resolve_right (BlockId.index_inj.not.mpr other)
    by_cases last : c.index = r.exiting.index
    · exact .inr last
    · exact .inl (before.step ((hf.mem_next hg).mpr hc) last)
  · by_cases last : b = r.exiting
    · subst last
      by_cases other : r.header = r.exiting
      · rw [other]
      · rcases (Func.mem_reachableUntil hg other filled).mp inside with before | ⟨-, u, before, edge⟩
        · exact absurd rfl before.ne
        · refine ((Func.avoids_iff (c := ⟨u⟩) hf hg).mp before).1.tail ⟨fun same => ?_, ?_⟩
          · exact before.ne (congrArg BlockId.index same)
          · exact (hf.mem_next hg (b := ⟨u⟩)).mp edge
    · exact ((Func.avoids_iff hf hg).mp
        (((mem b).mp hb).resolve_right (BlockId.index_inj.not.mpr last))).1
  · rw [← Func.size_graph hg]
    rcases (mem b).mp hb with before | last
    · exact before.reaches.lt_size slot
    · exact last ▸ way.lt_size slot

/-- Where such a region lies: its blocks exist, control leaves it to the block behind it, and the one
before it is none of its blocks. -/
theorem bounds_of_filled {i : InstId} {entry bottom : BlockId} (hf : f.Consistent)
    (hg : f.graph = .ok g) (filled : f.reachableUntil r.header r.exiting = .ok r.blocks)
    (inside : r.exiting ∈ r.blocks) (term : f.terminator r.exiting = .ok (some i))
    (jump : f.operation i = .ok (.jump bottom)) (pred : r.predecessor? f = .ok (some entry)) :
    r.Enclosed f g ∧ (∀ b ∈ r.blocks, b.index < f.blocks.size) ∧ f.leads r.exiting = [bottom] ∧
      bottom.index < f.blocks.size ∧ entry ∈ f.layout ∧ entry ∉ r.blocks := by
  have enclosed := enclosed_of_filled hf hg filled inside
  obtain ⟨listed, out, edge, -⟩ :=
    of_predecessor? hg hf.mem_layout_iff pred
  obtain ⟨-, last, op, hop, -⟩ := Func.terminator_eq_some_iff.mp term
  obtain rfl : op = .jump bottom := Except.ok.inj (hop.symm.trans jump)
  obtain ⟨ty, line⟩ := Func.operation_eq_ok_iff.mp jump
  have leads : f.leads r.exiting = [bottom] := Func.leads_of_getLast? last line
  have next := g.next_lt ((hf.mem_next hg).mpr (leads ▸ List.mem_singleton_self bottom))
  exact ⟨enclosed, enclosed.slots (g.next_lt edge), leads, next.trans_eq (Func.size_graph hg),
    listed, out⟩

/-- The region as the first of its copies. -/
def itself (r : Region) : BlockCopy := ⟨r.blocks, [], []⟩

@[simp] theorem mapBlock_itself : r.itself.mapBlock = id := rfl

/-- A copy of the region as a part of a graph. -/
def stage (r : Region) (copy : BlockCopy) : Graph.Stage where
  first := (copy.mapBlock r.header).index
  last := (copy.mapBlock r.exiting).index
  nodes := copy.blocks.map (·.index)

theorem mem_stage {copy : BlockCopy} {b : BlockId} :
    b.index ∈ (r.stage copy).nodes ↔ b ∈ copy.blocks := by
  simp [stage, BlockId.index_inj]

theorem disjoint_stage {copy copy' : BlockCopy} (apart : copy.blocks.Disjoint copy'.blocks) :
    (r.stage copy).nodes.Disjoint (r.stage copy').nodes := by
  intro v hv hv'
  obtain ⟨b, hb, rfl⟩ := List.mem_map.mp hv
  exact apart hb (mem_stage.mp hv')

/-- Where the blocks of a copy lead up to its end. -/
structure Replays (r : Region) (f t : Func) (copy : BlockCopy) : Prop where
  listed : copy.blocks = r.blocks.map copy.mapBlock
  leads : ∀ b ∈ r.blocks, b ≠ r.exiting → t.leads (copy.mapBlock b) = (f.leads b).map copy.mapBlock

/-- Control stays in a copy up to its end. -/
theorem Replays.sealed {t : Func} {graph : Graph} {copy : BlockCopy} {next : BlockId}
    (replays : r.Replays f t copy) (enclosed : r.Enclosed f g) (hf : f.Consistent)
    (hg : f.graph = .ok g) (ht : t.Consistent) (hgraph : t.graph = .ok graph)
    (ends : t.leads (copy.mapBlock r.exiting) = [next]) :
    (r.stage copy).Sealed graph next.index := by
  have mem : ∀ b, b ∈ copy.blocks ↔ ∃ a ∈ r.blocks, copy.mapBlock a = b := fun b => by
    rw [replays.listed, List.mem_map]
  -- an edge of the region and its copy
  have edges : ∀ b ∈ r.blocks, b ≠ r.exiting → ∀ v, v ∈ graph.next (copy.mapBlock b).index ↔
      ∃ c ∈ f.leads b, (copy.mapBlock c).index = v := by
    intro b hb other v
    rw [show v = (⟨v⟩ : BlockId).index from rfl, ht.mem_next hgraph, replays.leads b hb other,
      List.mem_map]
    simp only [← BlockId.index_inj]
  refine ⟨mem_stage.mpr ((mem _).mpr ⟨_, enclosed.header, rfl⟩),
    mem_stage.mpr ((mem _).mpr ⟨_, enclosed.exiting, rfl⟩), ?_, fun u inside other v edge => ?_,
    fun v => ?_⟩
  · obtain ⟨nodes, p⟩ := enclosed.way
    refine p.transport (fun v => ⟨v⟩ ∈ r.blocks) (fun v => (copy.mapBlock ⟨v⟩).index)
      enclosed.header fun x hx other y edge => ?_
    have other : (⟨x⟩ : BlockId) ≠ r.exiting := fun same => other (congrArg BlockId.index same)
    have leads : (⟨y⟩ : BlockId) ∈ f.leads ⟨x⟩ := (hf.mem_next hg).mp edge
    exact ⟨enclosed.closed ⟨x⟩ hx other ⟨y⟩ leads, (edges ⟨x⟩ hx other _).mpr ⟨⟨y⟩, leads, rfl⟩⟩
  · obtain ⟨b, hb, rfl⟩ := List.mem_map.mp inside
    obtain ⟨a, ha, rfl⟩ := (mem b).mp hb
    have other : a ≠ r.exiting := fun same => other (by rw [same]; rfl)
    obtain ⟨c, hc, rfl⟩ := (edges a ha other v).mp edge
    exact mem_stage.mpr ((mem _).mpr ⟨c, enclosed.closed a ha other c hc, rfl⟩)
  · rw [show v = (⟨v⟩ : BlockId).index from rfl]
    show _ ∈ graph.next (copy.mapBlock r.exiting).index ↔ _
    rw [ht.mem_next hgraph, ends, List.mem_singleton, BlockId.index_inj]

/-- Copies each of which leads to the next one are chained. -/
theorem chained_of_replays {t : Func} {graph : Graph} {copies : List BlockCopy} {bottom : BlockId}
    (enclosed : r.Enclosed f g) (hf : f.Consistent) (hg : f.graph = .ok g) (ht : t.Consistent)
    (hgraph : t.graph = .ok graph) (replays : ∀ copy ∈ copies, r.Replays f t copy)
    (linked : List.Forall₂ (fun e h => t.leads e = [h]) (copies.map (·.mapBlock r.exiting))
      (copies.tail.map (·.mapBlock r.header) ++ [bottom])) :
    graph.Chained bottom.index (copies.map r.stage) := by
  induction copies with
  | nil => trivial
  | cons copy copies ih =>
    rw [List.forall_mem_cons] at replays
    cases copies with
    | nil =>
      cases linked with
      | cons ends _ => exact ⟨replays.1.sealed enclosed hf hg ht hgraph ends, trivial⟩
    | cons next copies =>
      cases linked with
      | cons ends rest =>
        exact ⟨replays.1.sealed enclosed hf hg ht hgraph ends, ih replays.2 rest⟩

/-- A function with copies of a region behind each other: they lead where the region leads, each to
the next one, and everything else is as it was. -/
structure Strung (r : Region) (f t : Func) (copies : List BlockCopy) (bottom : BlockId) : Prop where
  consistent : t.Consistent
  layout : t.layout = f.layout ++ copies.flatMap (·.blocks)
  fresh : ∀ copy ∈ copies, ∀ b ∈ copy.blocks, f.blocks.size ≤ b.index
  apart : copies.Pairwise fun copy copy' => copy.blocks.Disjoint copy'.blocks
  others : ∀ b : BlockId, b.index < f.blocks.size → b ≠ r.exiting → t.leads b = f.leads b
  replays : ∀ copy ∈ copies, r.Replays f t copy
  linked : List.Forall₂ (fun e h => t.leads e = [h])
    (r.exiting :: copies.map (·.mapBlock r.exiting)) (copies.map (·.mapBlock r.header) ++ [bottom])

namespace Strung

variable {t : Func} {copies : List BlockCopy} {bottom : BlockId}
  (strung : r.Strung f t copies bottom) (enclosed : r.Enclosed f g) (hf : f.Consistent)
  (hg : f.graph = .ok g) (slots : ∀ b ∈ r.blocks, b.index < f.blocks.size)

include strung slots in
theorem replays_itself : r.Replays f t r.itself where
  listed := by rw [mapBlock_itself, List.map_id, itself]
  leads b hb other := by simpa using strung.others b (slots b hb) other

include strung in
/-- The end of each copy leads to a header, or to the block behind the region. -/
theorem exists_next {e : BlockId} (he : e ∈ r.exiting :: copies.map (·.mapBlock r.exiting)) :
    ∃ h, t.leads e = [h] ∧ (h = bottom ∨ ∃ copy ∈ copies, h = copy.mapBlock r.header) := by
  obtain ⟨n, place, rfl⟩ := List.getElem_of_mem he
  have here := strung.linked.get place (strung.linked.length_eq ▸ place)
  refine ⟨_, here, ?_⟩
  have mem := List.get_mem (copies.map (·.mapBlock r.header) ++ [bottom])
    ⟨n, strung.linked.length_eq ▸ place⟩
  rcases List.mem_append.mp mem with mem | mem
  · obtain ⟨copy, hc, same⟩ := List.mem_map.mp mem
    exact .inr ⟨copy, hc, same.symm⟩
  · exact .inl (List.mem_singleton.mp mem)

include strung in
theorem mem_layout {b : BlockId} :
    b.index < t.blocks.size ↔ b ∈ f.layout ∨ ∃ copy ∈ copies, b ∈ copy.blocks := by
  rw [← strung.consistent.mem_layout, strung.layout, List.mem_append, List.mem_flatMap]

include strung enclosed hf hg in
/-- All blocks lead to blocks that exist. -/
theorem exists_graph (behind : bottom.index < f.blocks.size) : ∃ graph, t.graph = .ok graph := by
  have copied : ∀ copy ∈ copies, ∀ a, copy.mapBlock a ∈ copy.blocks →
      (copy.mapBlock a).index < t.blocks.size := fun copy hc a mem =>
    strung.mem_layout.mpr (.inr ⟨copy, hc, mem⟩)
  have old : ∀ b : BlockId, b.index < f.blocks.size → b.index < t.blocks.size := fun b slot =>
    strung.mem_layout.mpr (.inl ((hf.mem_layout b).mpr slot))
  have mapped : ∀ copy ∈ copies, ∀ a ∈ r.blocks, copy.mapBlock a ∈ copy.blocks :=
    fun copy hc a ha => (strung.replays copy hc).listed ▸ List.mem_map_of_mem ha
  have ends : ∀ e ∈ r.exiting :: copies.map (·.mapBlock r.exiting), ∀ c ∈ t.leads e,
      c.index < t.blocks.size := by
    intro e he c hc
    obtain ⟨h, leads, rfl | ⟨copy, mem, rfl⟩⟩ := strung.exists_next he
    · obtain rfl : c = h := by simpa [leads] using hc
      exact old c behind
    · obtain rfl : c = copy.mapBlock r.header := by simpa [leads] using hc
      exact copied copy mem _ (mapped copy mem _ enclosed.header)
  obtain ⟨graph, hgraph, -⟩ := Func.exists_graph (f := t) fun b hb => by
    have slot := Func.mem_blockIds.mp hb
    refine ⟨_, strung.consistent.successors_eq slot, fun c hc => Func.mem_blockIds.mpr ?_⟩
    rcases strung.mem_layout.mp slot with listed | ⟨copy, mem, inside⟩
    · by_cases last : b = r.exiting
      · exact ends b (by simp [last]) c hc
      · have slot := (hf.mem_layout b).mp listed
        rw [strung.others b slot last, ← hf.mem_next hg] at hc
        exact old c (Func.size_graph hg ▸ g.next_lt hc)
    · rw [(strung.replays copy mem).listed] at inside
      obtain ⟨a, ha, rfl⟩ := List.mem_map.mp inside
      by_cases last : a = r.exiting
      · exact ends _ (last ▸ List.mem_cons_of_mem _ (List.mem_map_of_mem mem)) c hc
      · rw [(strung.replays copy mem).leads a ha last, List.mem_map] at hc
        obtain ⟨c, hc, rfl⟩ := hc
        exact copied copy mem _ (mapped copy mem _ (enclosed.closed a ha last c hc))
  exact ⟨graph, hgraph⟩

variable {graph : Graph} (hgraph : t.graph = .ok graph)

include strung enclosed hf hg slots hgraph

theorem chained : graph.Chained bottom.index ((r.itself :: copies).map r.stage) :=
  chained_of_replays enclosed hf hg strung.consistent hgraph
    (List.forall_mem_cons.mpr ⟨strung.replays_itself slots, strung.replays⟩) strung.linked

theorem inSequence (outside : bottom ∉ r.blocks) (behind : bottom.index < f.blocks.size) :
    graph.InSequence ((r.itself :: copies).map r.stage) bottom.index := by
  refine (strung.chained enclosed hf hg slots hgraph).inSequence ?_ ?_
  · rw [List.pairwise_map, List.pairwise_cons]
    refine ⟨fun copy hc => disjoint_stage fun b hb hb' => ?_, strung.apart.imp disjoint_stage⟩
    exact absurd (slots b hb) (Nat.not_lt.mpr (strung.fresh copy hc b hb'))
  · rw [List.forall_mem_map, List.forall_mem_cons]
    refine ⟨fun mem => outside (mem_stage.mp mem), fun copy hc mem => ?_⟩
    exact absurd behind (Nat.not_lt.mpr (strung.fresh copy hc bottom (mem_stage.mp mem)))

/-- What led to the block behind the region leads there through all of the copies. -/
theorem reaches (leads : f.leads r.exiting = [bottom]) {u v : Nat} (reached : g.Reaches u v) :
    graph.Reaches u v := by
  refine reached.lift fun u v edge => ?_
  have edge' : (⟨v⟩ : BlockId) ∈ f.leads ⟨u⟩ := (hf.mem_next hg).mp edge
  by_cases last : (⟨u⟩ : BlockId) = r.exiting
  · obtain ⟨first, rest⟩ := strung.chained enclosed hf hg slots hgraph
    obtain rfl : (⟨v⟩ : BlockId) = bottom := by simpa [last, leads] using edge'
    have start : u = (r.stage r.itself).last := congrArg BlockId.index last
    rw [start]
    exact (Graph.Reaches.of_edge first.edge).trans rest.reaches_after
  · have slot : u < f.blocks.size := Func.size_graph hg ▸ Graph.source_lt edge
    rw [← strung.others ⟨u⟩ slot last] at edge'
    exact .of_edge ((strung.consistent.mem_next hgraph).mpr edge')

end Strung

end Region

namespace Replication

open Func

variable {s t : Replication} {i : InstId} {wanted : InstId → Prop}
  {before : Option (Bool × Bool) → Option (Bool × Bool) → Prop}

variable (wanted before) in
/-- Copies of a region are made and put into place, each behind the one before. -/
theorem exists_replicateRegion {region : Region} {entry bottom : BlockId} {g : Graph}
    (consistent : s.func.Consistent)
    (known : ∀ i ∈ s.divergence.set, wanted i →
      i.index < s.func.insts.size ∧ before (s.func.rankOf i) (s.func.rankOf i))
    (wants : ∀ b ∈ region.blocks, ∀ i ∈ s.func.code b, s.func.Wants wanted i)
    (new : ∀ j : InstId, s.func.insts.size ≤ j.index → wanted j)
    (enclosed : region.Enclosed s.func g)
    (slots : ∀ b ∈ region.blocks, b.index < s.func.blocks.size)
    (behind : bottom.index < s.func.blocks.size)
    (kept : ∀ b ∈ region.blocks, ∀ i, (s.func.code b).getLast? = some i → i ∉ s.placeholders.all)
    (leads : s.func.leads region.exiting = [bottom])
    (pred : region.predecessor? s.func = .ok (some entry)) :
    ∃ t func copies, s.replicateRegion region = .ok (none, t.withAlive region copies) ∧
      copyRegion region s.func 0 s.replicas = .ok (func, copies) ∧ copies.length = s.replicas ∧
      Multiplies s.func region.blocks func copies ∧
      InRow ⟨region, entry, bottom, s.placeholders.all⟩ s.func.blocks.size wanted before
        { s with func } region.exiting copies t := by
  obtain ⟨func, copies, made, length, multiplies⟩ :=
    exists_copyRegion (n := 0) consistent s.replicas enclosed.nodup slots
  have carries := multiplies.carries
  have last := slots _ enclosed.exiting
  have grounded : Grounded wanted (·.index < s.func.blocks.size) before { s with func } := by
    intro i hi wants
    obtain ⟨slot, repeats⟩ := known i hi wants
    have same : func.rankOf i = s.func.rankOf i := by
      rw [rankOf, rankOf, formOf_congr (carries.line i slot)]
    exact ⟨slot.trans_le carries.insts, same ▸ repeats, fun b => multiplies.home consistent slot⟩
  have can : ∀ copy ∈ copies, Spliceable ⟨region, entry, bottom, s.placeholders.all⟩ func copy :=
    fun copy hc => spliceable_of_twin multiplies.consistent (multiplies.twins copy hc)
      enclosed.header enclosed.exiting kept
  obtain ⟨t, spliced, row⟩ := exists_inRow (n := 0) multiplies.consistent grounded can
    (fun copy hc => (multiplies.twins copy hc).nodup) (fun copy hc b => multiplies.fresh hc)
    (fun copy hc b hb i hi => by
      have twin := multiplies.twins copy hc
      obtain ⟨a, ha, rfl⟩ := twin.mem_map.mp hb
      rw [twin.code a ha] at hi
      obtain ⟨j, hj, rfl⟩ := List.mem_map.mp hi
      exact twin.wants (List.mem_flatMap.mpr ⟨a, ha, hj⟩) (wants a ha j hj) new)
    multiplies.apart (last.trans_le carries.blocks) (behind.trans_le carries.blocks)
  have exit : region.exit? s.func = .ok (some bottom) := by
    rw [Region.exit?, consistent.successors_eq last, leads]
    rfl
  refine ⟨t, func, copies, ?_, made, length, multiplies, row⟩
  simp [replicateRegion, pred, exit, made, spliced, bind, Except.bind, pure, Except.pure, withAlive]

/-- Copies that have been put into place are strung together. -/
theorem strung_of_inRow {region : Region} {g : Graph} {entry bottom : BlockId} {func : Func}
    {copies : List BlockCopy} (consistent : s.func.Consistent) (enclosed : region.Enclosed s.func g)
    (slots : ∀ b ∈ region.blocks, b.index < s.func.blocks.size)
    (leads : s.func.leads region.exiting = [bottom]) (outside : bottom ∉ region.blocks)
    (made : Multiplies s.func region.blocks func copies)
    (row : InRow ⟨region, entry, bottom, s.placeholders.all⟩ s.func.blocks.size wanted before
      { s with func } region.exiting copies t) : region.Strung s.func t.func copies bottom := by
  have last := slots _ enclosed.exiting
  have ends : ∀ copy ∈ copies, copy.mapBlock region.exiting ∈ copy.blocks := fun copy hc =>
    (made.twins copy hc).mem_map.mpr ⟨_, enclosed.exiting, rfl⟩
  obtain ⟨others, linked⟩ := row.leads ends made.apart (fun copy hc => made.away last hc)
    ((made.carries.leads consistent last).trans leads)
    fun copy hc => made.leads_of_outside consistent hc enclosed.exiting leads outside
  refine ⟨row.consistent made.consistent, row.layout.trans made.layout,
    fun copy hc b => made.fresh hc, made.apart, fun b slot other => ?_, fun copy hc =>
      ⟨(made.twins copy hc).listed, fun b hb other => ?_⟩, linked⟩
  · refine (others b other fun copy hc same => ?_).trans (made.carries.leads consistent slot)
    exact made.away slot hc (same ▸ ends copy hc)
  · have mem : copy.mapBlock b ∈ copy.blocks := (made.twins copy hc).mem_map.mpr ⟨b, hb, rfl⟩
    refine (others _ (fun same => ?_) fun copy' hc' same => ?_).trans
      ((made.twins copy hc).leads consistent hb)
    · exact made.away last hc (same ▸ mem)
    · by_cases one : copy = copy'
      · subst one
        have once := (made.twins copy hc).listed ▸ (made.twins copy hc).nodup
        exact other (List.inj_on_of_nodup_map once hb enclosed.exiting same)
      · exact made.disjoint hc hc' one mem (same ▸ ends copy' hc')

/-- Control goes through a repeated region and then through its copies.  The region is one whose
blocks are found between its header and its exiting block, which ends in a jump to a block outside,
and none of its blocks ends with a placeholder, which only a jump or branch that is named by an
operand can have.  Then as many copies are made as there are replicas, and the region and its copies
come one after the other, up to the block behind the region; control comes to them if it came to the
region before. -/
theorem replicateRegion_chains {region : Region} {g : Graph} {entry bottom : BlockId}
    (consistent : s.func.Consistent) (known : ∀ i ∈ s.divergence.set, i.index < s.func.insts.size)
    (hg : s.func.graph = .ok g)
    (filled : s.func.reachableUntil region.header region.exiting = .ok region.blocks)
    (inside : region.exiting ∈ region.blocks)
    (ended : ∀ b ∈ region.blocks, ∃ i, s.func.terminator b = .ok (some i) ∧
      i ∉ s.placeholders.all)
    (term : s.func.terminator region.exiting = .ok (some i))
    (jump : s.func.operation i = .ok (.jump bottom)) (outside : bottom ∉ region.blocks)
    (pred : region.predecessor? s.func = .ok (some entry)) :
    ∃ t func copies graph, s.replicateRegion region = .ok (none, t) ∧
      copyRegion region s.func 0 s.replicas = .ok (func, copies) ∧ copies.length = s.replicas ∧
      (∀ copy ∈ copies, copy.blocks = region.blocks.map copy.mapBlock) ∧
      t.func.entry = s.func.entry ∧ t.func.graph = .ok graph ∧
      graph.InSequence ((region.itself :: copies).map region.stage) bottom.index ∧
      ∀ root, g.Reaches root region.header.index → graph.Reaches root region.header.index := by
  obtain ⟨enclosed, slots, leads, behind, listed, -⟩ :=
    Region.bounds_of_filled consistent hg filled inside term jump pred
  obtain ⟨t, func, copies, answer, made, length, multiplies, row⟩ := exists_replicateRegion
    (fun _ => True) (fun _ _ => True) consistent
    (fun i hi _ => ⟨known i hi, trivial⟩) (fun _ _ _ _ _ _ => trivial) (fun _ _ => trivial)
    enclosed slots behind (fun b hb j hj => by
      obtain ⟨i, term, kept⟩ := ended b hb
      obtain ⟨-, last, -⟩ := terminator_eq_some_iff.mp term
      obtain rfl : i = j := Option.some.inj (last.symm.trans hj)
      exact kept) leads pred
  have strung := strung_of_inRow consistent enclosed slots leads outside multiplies row
  obtain ⟨graph, hgraph⟩ := strung.exists_graph enclosed consistent hg behind
  refine ⟨_, func, copies, graph, answer, made, length,
    fun copy hc => (strung.replays copy hc).listed, ?_, hgraph,
    strung.inSequence enclosed consistent hg slots hgraph outside behind,
    fun root reached => strung.reaches enclosed consistent hg slots hgraph leads reached⟩
  show t.func.entry = _
  rw [Func.entry, Func.entry, strung.layout]
  cases h : s.func.layout with
  | nil => simp [h] at listed
  | cons b rest => rfl

/-- For three threads the region of the example and its two copies come one after the other, and
control comes to all of them. -/
theorem pick_chains : ∃ t graph,
    (start pickFound.divergence 3 pick .empty).replicateRegion pickRegion = .ok (none, t) ∧
    t.func.graph = .ok graph ∧
    graph.InSequence [⟨1, 3, [1, 2, 3]⟩, ⟨5, 7, [5, 6, 7]⟩, ⟨8, 10, [8, 9, 10]⟩] 4 ∧
    graph.Reaches 0 1 := by
  have stages : (copyRegion pickRegion pick 0 2).toOption.map (fun r =>
      (pickRegion.itself :: r.2).map pickRegion.stage) =
      some [⟨1, 3, [1, 2, 3]⟩, ⟨5, 7, [5, 6, 7]⟩, ⟨8, 10, [8, 9, 10]⟩] := by decide +kernel
  obtain ⟨t, func, copies, graph, answer, made, -, -, -, hgraph, sequence, reaches⟩ :=
    replicateRegion_chains (s := start pickFound.divergence 3 pick .empty)
      (g := pickFound.flow.graph) (i := ⟨7⟩) (show pick.Consistent from consistent_assemble ..)
      (by decide) (by cbv)
      (show pick.reachableUntil pickRegion.header pickRegion.exiting = .ok pickRegion.blocks by cbv)
      (by decide) (by
        rw [show pickRegion.blocks = [⟨1⟩, ⟨2⟩, ⟨3⟩] from rfl]
        simp only [List.forall_mem_cons]
        exact ⟨⟨⟨3⟩, by rfl, by decide⟩, ⟨⟨5⟩, by rfl, by decide⟩, ⟨⟨7⟩, by rfl, by decide⟩, by simp⟩)
      (by rfl) (show pick.operation ⟨7⟩ = .ok (.jump ⟨4⟩) by rfl) (by decide)
      (show pickRegion.predecessor? pick = .ok (some ⟨0⟩) by cbv)
  have made : copyRegion pickRegion pick 0 2 = .ok (func, copies) := made
  rw [made] at stages
  refine ⟨t, graph, answer, hgraph, Option.some.inj stages ▸ sequence, reaches 0 ?_⟩
  exact .of_edge (by decide)

end Replication

/-! ### Placeholders of a jump -/

/-- A loop that divergent threads leave in different rounds, so that what is computed in it is
divergent behind it.  `exit` names the jump at the end of `join`, where the region of `head` ends. -/
def heldJump : Func := .assemble "held_jump" [⟨"n", .i32⟩] [
  ("entry", [
    ⟨.call "llvm.nvvm.read.ptx.sreg.tid.x" [], .i32, "t"⟩,
    ⟨.compare .slt (.inst ⟨0⟩) (.arg 0), .i1, "c"⟩,
    ⟨.jump ⟨1⟩, .void, ""⟩]),
  ("loop", [⟨.jump ⟨2⟩, .void, ""⟩]),
  ("head", [⟨.branch (.inst ⟨1⟩) ⟨3⟩ ⟨4⟩, .void, ""⟩]),
  ("body", [⟨.jump ⟨4⟩, .void, ""⟩]),
  ("join", [⟨.jump ⟨5⟩, .void, "j"⟩]),
  ("latch", [⟨.branch (.inst ⟨1⟩) ⟨1⟩ ⟨6⟩, .void, ""⟩]),
  ("exit", [
    ⟨.binary .add (.inst ⟨6⟩) (.const 1), .i32, "y"⟩,
    ⟨.ret none, .void, ""⟩])]

/-- The region of the branch in the loop. -/
def heldJumpRegion : Region := ⟨⟨2⟩, ⟨4⟩, [⟨2⟩, ⟨3⟩, ⟨4⟩], [⟨6⟩], [⟨1⟩]⟩

/-- What the analysis finds in the kernel. -/
def heldJumpFound : DivergentFunc where
  func := heldJump
  flow :=
    { graph := ⟨#[[1], [2], [3, 4], [4], [5], [1, 6], []], by decide⟩
      dom := ⟨#[some 0, some 0, some 1, some 2, some 2, some 4, some 5]⟩
      pdom := ⟨#[some 1, some 2, some 4, some 4, some 5, some 6, some 7, some 7], 7⟩
      loops := ⟨[⟨⟨1⟩, [⟨1⟩, ⟨2⟩, ⟨3⟩, ⟨4⟩, ⟨5⟩], [⟨5⟩], none, 1⟩]⟩ }
  grid := ⟨[(⟨0⟩, .threadId, .x)], []⟩
  divergence :=
    { level := .thread
      dim := .x
      set := [⟨8⟩, ⟨6⟩, ⟨7⟩, ⟨4⟩, ⟨1⟩, ⟨0⟩]
      placed := [(⟨0⟩, ⟨0⟩), (⟨1⟩, ⟨0⟩), (⟨4⟩, ⟨2⟩), (⟨6⟩, ⟨4⟩), (⟨7⟩, ⟨5⟩), (⟨8⟩, ⟨6⟩)]
      branches := [⟨4⟩, ⟨7⟩]
      regions := [heldJumpRegion, ⟨⟨5⟩, ⟨6⟩, [⟨5⟩, ⟨1⟩, ⟨2⟩, ⟨3⟩, ⟨4⟩, ⟨6⟩], [], [⟨1⟩]⟩]
      reads := [⟨0⟩] }

theorem analyze_heldJump :
    heldJump.analyze (.only .x) [] .thread .x = .ok (.ok heldJumpFound) :=
  Func.analyze_eq_ok_iff.mpr ⟨by cbv, by rfl, by cbv, rfl⟩

/-- What is made of the kernel for three threads when `y` and then the region are repeated.  The
jump of `join` has two placeholders, and the last of them (12) leads on to the copies. -/
def heldJumpOnce : Func where
  name := "held_jump"
  params := [⟨"n", .i32⟩]
  returnTy := .void
  convention := .kernel
  blocks := #[
    ⟨"entry", [⟨0⟩, ⟨1⟩, ⟨24⟩, ⟨25⟩, ⟨2⟩]⟩,
    ⟨"loop", [⟨3⟩]⟩,
    ⟨"head", [⟨4⟩]⟩,
    ⟨"body", [⟨5⟩]⟩,
    ⟨"join", [⟨6⟩, ⟨11⟩, ⟨12⟩]⟩,
    ⟨"latch", [⟨7⟩]⟩,
    ⟨"exit", [⟨8⟩, ⟨10⟩, ⟨13⟩, ⟨9⟩]⟩,
    ⟨"head.cf2", [⟨14⟩]⟩,
    ⟨"body.cf2", [⟨15⟩]⟩,
    ⟨"join.cf2", [⟨16⟩]⟩,
    ⟨"head.cf3", [⟨19⟩]⟩,
    ⟨"body.cf3", [⟨20⟩]⟩,
    ⟨"join.cf3", [⟨21⟩]⟩]
  layout := [⟨0⟩, ⟨1⟩, ⟨2⟩, ⟨3⟩, ⟨4⟩, ⟨5⟩, ⟨6⟩, ⟨7⟩, ⟨8⟩, ⟨9⟩, ⟨10⟩, ⟨11⟩, ⟨12⟩]
  insts := #[
    ⟨.call "llvm.nvvm.read.ptx.sreg.tid.x" [], .i32, "t", some ⟨0⟩⟩,
    ⟨.compare .slt (.inst ⟨0⟩) (.arg 0), .i1, "c", some ⟨0⟩⟩,
    ⟨.jump ⟨1⟩, .void, "", some ⟨0⟩⟩,
    ⟨.jump ⟨2⟩, .void, "", some ⟨1⟩⟩,
    ⟨.branch (.inst ⟨1⟩) ⟨3⟩ ⟨4⟩, .void, "", some ⟨2⟩⟩,
    ⟨.jump ⟨4⟩, .void, "", some ⟨3⟩⟩,
    ⟨.jump ⟨5⟩, .void, "j", some ⟨4⟩⟩,
    ⟨.branch (.inst ⟨1⟩) ⟨1⟩ ⟨6⟩, .void, "", some ⟨5⟩⟩,
    ⟨.binary .add (.inst ⟨6⟩) (.const 1), .i32, "y", some ⟨6⟩⟩,
    ⟨.ret none, .void, "", some ⟨6⟩⟩,
    ⟨.binary .add (.inst ⟨11⟩) (.const 1), .i32, "y.cf2", some ⟨6⟩⟩,
    ⟨.jump ⟨5⟩, .void, "j.place.holder.cf2", some ⟨4⟩⟩,
    ⟨.jump ⟨7⟩, .void, "j.place.holder.cf3", some ⟨4⟩⟩,
    ⟨.binary .add (.inst ⟨12⟩) (.const 1), .i32, "y.cf3", some ⟨6⟩⟩,
    ⟨.branch (.inst ⟨24⟩) ⟨8⟩ ⟨9⟩, .void, "", some ⟨7⟩⟩,
    ⟨.jump ⟨9⟩, .void, "", some ⟨8⟩⟩,
    ⟨.jump ⟨10⟩, .void, "j.cf2", some ⟨9⟩⟩,
    ⟨.jump ⟨5⟩, .void, "j.place.holder.cf2.cf2", none⟩,
    ⟨.jump ⟨5⟩, .void, "j.place.holder.cf3.cf2", none⟩,
    ⟨.branch (.inst ⟨25⟩) ⟨11⟩ ⟨12⟩, .void, "", some ⟨10⟩⟩,
    ⟨.jump ⟨12⟩, .void, "", some ⟨11⟩⟩,
    ⟨.jump ⟨5⟩, .void, "j.cf3", some ⟨12⟩⟩,
    ⟨.jump ⟨5⟩, .void, "j.place.holder.cf2.cf3", none⟩,
    ⟨.jump ⟨5⟩, .void, "j.place.holder.cf3.cf3", none⟩,
    ⟨.compare .slt (.inst ⟨0⟩) (.arg 0), .i1, "c.place.holder.cf2", some ⟨0⟩⟩,
    ⟨.compare .slt (.inst ⟨0⟩) (.arg 0), .i1, "c.place.holder.cf3", some ⟨0⟩⟩]

/-- Where its blocks lead. -/
def heldJumpGraph : Graph :=
  ⟨#[[1], [2], [3, 4], [4], [7], [1, 6], [], [8, 9], [9], [10], [11, 12], [12], [5]], by decide⟩

/-- Where the blocks lead when the region has been repeated once more: the first new copy (13, 14,
15) goes to `latch`, as the jump of `join` did, and not on to the second (16, 17, 18). -/
def heldJumpTwiceGraph : Graph :=
  ⟨#[[1], [2], [3, 4], [4], [13], [1, 6], [], [8, 9], [9], [10], [11, 12], [12], [5],
    [14, 15], [15], [5], [17, 18], [18], [5]], by decide⟩

namespace Replication

open Func

theorem performAll_heldJump :
    ∃ s, (start heldJumpFound.divergence 3 heldJump .empty).performAll
      [.inst ⟨8⟩, .region heldJumpRegion] = .ok s ∧ s.func = heldJumpOnce ∧
        ⟨12⟩ ∈ s.placeholders.all ∧ s.replicas = 2 := by
  have once : ((start heldJumpFound.divergence 3 heldJump .empty).performAll
      [.inst ⟨8⟩, .region heldJumpRegion]).toOption.map (fun s =>
        (s.func, s.placeholders.all.contains ⟨12⟩, s.replicas)) = some (heldJumpOnce, true, 2) := by
    decide +kernel
  obtain ⟨s, run, same⟩ := Option.map_eq_some_iff.mp once
  obtain ⟨func, held, count⟩ : s.func = heldJumpOnce ∧ _ ∧ s.replicas = 2 := by simpa using same
  exact ⟨s, toOption_eq_some_iff.mp run, func, by simpa using held, count⟩

/-- The region is repeated once more without an error. -/
theorem replicateRegion_heldJump {s : Replication}
    (run : (start heldJumpFound.divergence 3 heldJump .empty).performAll
      [.inst ⟨8⟩, .region heldJumpRegion] = .ok s) :
    ∃ t, s.replicateRegion heldJumpRegion = .ok (none, t) ∧
      t.func.graph = .ok heldJumpTwiceGraph := by
  have twice : (((start heldJumpFound.divergence 3 heldJump .empty).performAll
      [.inst ⟨8⟩, .region heldJumpRegion]).bind (·.replicateRegion heldJumpRegion)).toOption.map
        (fun r => (r.1.isNone, r.2.func.graph.toOption.map Graph.succs)) =
      some (true, some heldJumpTwiceGraph.succs) := by decide +kernel
  rw [run] at twice
  obtain ⟨⟨e, t⟩, answer, same⟩ := Option.map_eq_some_iff.mp twice
  obtain ⟨success, graph⟩ := Prod.mk.inj same
  obtain rfl : e = none := by simpa using success
  obtain ⟨⟨succs, closed⟩, graph, same⟩ := Option.map_eq_some_iff.mp graph
  obtain rfl : succs = heldJumpTwiceGraph.succs := same
  exact ⟨t, toOption_eq_some_iff.mp answer, toOption_eq_some_iff.mp graph⟩

theorem copyRegion_heldJump :
    ∃ func copies, copyRegion heldJumpRegion heldJumpOnce 0 2 = .ok (func, copies) ∧
      copies.map heldJumpRegion.stage = [⟨13, 15, [13, 14, 15]⟩, ⟨16, 18, [16, 17, 18]⟩] := by
  have stages : (copyRegion heldJumpRegion heldJumpOnce 0 2).toOption.map (fun r =>
      r.2.map heldJumpRegion.stage) = some [⟨13, 15, [13, 14, 15]⟩, ⟨16, 18, [16, 17, 18]⟩] := by
    decide +kernel
  obtain ⟨⟨func, copies⟩, made, stages⟩ := Option.map_eq_some_iff.mp stages
  exact ⟨func, copies, toOption_eq_some_iff.mp made, stages⟩

theorem exists_terminator_heldJumpOnce {b : BlockId} (hb : b ∈ heldJumpOnce.layout) :
    ∃ i, heldJumpOnce.terminator b = .ok (some i) := by
  have ends : ∀ b ∈ heldJumpOnce.layout,
      ((heldJumpOnce.terminator b).toOption.bind id).isSome := by decide
  obtain ⟨i, term⟩ := Option.isSome_iff_exists.mp (ends b hb)
  obtain ⟨_, answer, rfl⟩ := Option.bind_eq_some_iff.mp term
  exact ⟨i, toOption_eq_some_iff.mp answer⟩

/-- The blocks up to the first new copy lead to nothing else. -/
theorem not_reaches_heldJumpTwiceGraph : ¬ heldJumpTwiceGraph.Reaches 0 16 := by
  rintro ⟨nodes, path⟩
  have step : ∀ x ∈ [0, 1, 2, 3, 4, 5, 6, 13, 14, 15], ∀ w ∈ heldJumpTwiceGraph.next x,
    w ∈ [0, 1, 2, 3, 4, 5, 6, 13, 14, 15] := by decide
  exact absurd (path.mem_of_closed step (by decide)) (by decide)

/-- A region is repeated once more that ends with a placeholder.  All else is as it should be: the
region is one of the analysis, its blocks are found between its header and its exiting block, and
this ends in a jump to a block outside.  But placeholders are taken out of copies, and the first new
copy ends with what the jump was before copies were put behind it: control gets to the region, but
not to the second new copy. -/
theorem not_reaches_heldJump :
    heldJump.firstFlaw? = .ok none ∧
      heldJump.analyze (.only .x) [] .thread .x = .ok (.ok heldJumpFound) ∧
      heldJumpRegion ∈ heldJumpFound.divergence.regions ∧
      ∃ s t func copies,
        (start heldJumpFound.divergence 3 heldJump .empty).performAll
          [.inst ⟨8⟩, .region heldJumpRegion] = .ok s ∧
        s.func.Consistent ∧ (∀ b ∈ s.func.layout, ∃ i, s.func.terminator b = .ok (some i)) ∧
        s.func.graph = .ok heldJumpGraph ∧
        s.func.reachableUntil heldJumpRegion.header heldJumpRegion.exiting =
          .ok heldJumpRegion.blocks ∧
        heldJumpRegion.exiting ∈ heldJumpRegion.blocks ∧
        s.func.terminator heldJumpRegion.exiting = .ok (some ⟨12⟩) ∧
        s.func.operation ⟨12⟩ = .ok (.jump ⟨7⟩) ∧ ⟨7⟩ ∉ heldJumpRegion.blocks ∧
        heldJumpRegion.predecessor? s.func = .ok (some ⟨1⟩) ∧ ⟨12⟩ ∈ s.placeholders.all ∧
        s.replicateRegion heldJumpRegion = .ok (none, t) ∧
        copyRegion heldJumpRegion s.func 0 s.replicas = .ok (func, copies) ∧
        copies.map heldJumpRegion.stage = [⟨13, 15, [13, 14, 15]⟩, ⟨16, 18, [16, 17, 18]⟩] ∧
        t.func.graph = .ok heldJumpTwiceGraph ∧ heldJumpTwiceGraph.Reaches 0 2 ∧
        ¬ heldJumpTwiceGraph.Reaches 0 16 := by
  obtain ⟨s, run, func, held, count⟩ := performAll_heldJump
  obtain ⟨t, answer, graph⟩ := replicateRegion_heldJump run
  obtain ⟨g, copies, made, stages⟩ := copyRegion_heldJump
  have consistent := consistent_performAll (s := start heldJumpFound.divergence 3 heldJump .empty)
    (show heldJump.Consistent from consistent_assemble ..) _ s run
  have loop : heldJumpTwiceGraph.Reaches 0 1 := .of_edge (by decide)
  refine ⟨by cbv, analyze_heldJump, List.mem_cons_self, s, t, g, copies, run, consistent, ?_⟩
  rw [func, count]
  exact ⟨fun _ => exists_terminator_heldJumpOnce, by cbv, by cbv, by decide, by rfl, by rfl,
    by decide, by cbv, held, answer, made, stages, graph, loop.trans (.of_edge (by decide)),
    not_reaches_heldJumpTwiceGraph⟩

end Replication

end KernelCoarsening
