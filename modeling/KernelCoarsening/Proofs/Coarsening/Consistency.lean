/-
Coarsening keeps a kernel consistent.

Bringing regions into form, scaling the grid and repeating are made of edits, and most edits keep
any function consistent.  Placing an instruction behind another does so only if the instruction
is placed nowhere; where coarsening does it, the instruction is a copy that was made for it, and
what happens in between does not place the copy.

* `Func.Spares` — a consistent function with instructions that still have to be placed;
* `Func.Consistent.extractPlaces`, `Func.Consistent.scaleGrid`,
  `Replication.consistent_replicateAll`, … — the steps of coarsening keep a function consistent.
-/
import KernelCoarsening.Coarsening.Kernel
import KernelCoarsening.Proofs.Ir.EditSequences

namespace KernelCoarsening

namespace Func

variable {f g : Func} {b : BlockId} {i j anchor : InstId}

/-! ### Regions in form -/

theorem Consistent.dividePhi (h : f.Consistent) {members : List BlockId} {extracted : BlockId}
    {jump phi : InstId} : Yields (dividePhi members extracted jump f phi) Consistent := by
  refine .ask fun inst _ => ?_
  split
  · refine h.insertBefore.bind fun _ h₁ => h₁.insertBefore.bind fun _ h₂ => ?_
    exact h₂.replaceUses.bind fun _ h₃ => h₃.erase
  · exact .pure h

theorem Consistent.isolate (h : f.Consistent) {region : Region} :
    Yields (f.isolate region) fun r => r.1.Consistent := by
  refine .ask fun g _ => ?_
  dsimp only
  split
  · exact .pure h
  · refine .ask fun label _ => (h.addBlockBefore _ _).append.bind fun _ h₁ => ?_
    refine Yields.bind (p := Consistent) (.foldlM h₁ fun _ h _ _ => h.replaceSuccessor)
      fun _ h₂ => ?_
    refine .ask fun phis _ => ?_
    exact Yields.bind (p := Consistent) (.foldlM h₂ fun _ h _ _ => h.dividePhi) fun _ h₃ => .pure h₃

theorem Consistent.cutHeader (h : f.Consistent) {loops : LoopForest} {header : BlockId} :
    Yields (f.cutHeader loops header) fun r => r.1.Consistent := by
  unfold Func.cutHeader
  split
  · exact .pure h
  · exact .ask fun block hb => .ask fun _ _ => h.splitBlock (lt_of_block hb)

theorem Consistent.cutExiting (h : f.Consistent) {exiting : BlockId} :
    Yields (f.cutExiting exiting) fun r => r.1.Consistent := by
  refine .ask fun n first => .ask fun _ _ => ?_
  obtain ⟨phis, hphis, -⟩ := bind_eq_ok_iff.mp first
  obtain ⟨block, hb, -⟩ := bind_eq_ok_iff.mp hphis
  exact h.splitBlock (lt_of_block hb)

theorem Consistent.extractRegion (h : f.Consistent) {regions : List Region} {n : Nat}
    {region : Region} : Yields (f.extractRegion regions n region) fun r => r.2.1.Consistent := by
  refine .ask fun flow _ => .ask fun exiting _ => ?_
  split
  · exact .pure h
  · refine h.cutHeader.bind fun _ h₁ => h₁.cutExiting.bind fun _ h₂ => ?_
    dsimp only
    split
    · exact .pure h₂
    · exact .ask fun _ _ => h₂.isolate.bind fun _ h₃ => .ask fun _ _ => .pure h₃

/-- What has been done when an error stops the work is consistent, too. -/
theorem Consistent.extractPlaces (h : f.Consistent) {regions : List Region} {places : List Nat} :
    Yields (f.extractPlaces regions places) fun r => r.2.1.Consistent := by
  induction places generalizing f regions with
  | nil => exact .pure h
  | cons n rest ih =>
    rw [Func.extractPlaces]
    split
    · exact ih h
    · refine h.extractRegion.bind fun r hr => ?_
      obtain ⟨error, g, regions⟩ := r
      cases error with
      | some e => exact .pure hr
      | none => exact ih hr

/-! ### The grid -/

theorem Consistent.scaleExtent (h : f.Consistent) {factor : Nat} :
    Yields (scaleExtent factor f i) Consistent :=
  .ask fun _ _ => h.insertAfter.bind fun _ h₁ => h₁.replaceUsesExcept.bind fun _ h₂ => .pure h₂

theorem Consistent.addSiblings (h : f.Consistent) {base behind : InstId} {ty : Ty} {name : String}
    {stride k count : Nat} :
    Yields (addSiblings base ty name stride f behind k count) fun r => r.1.Consistent := by
  induction count generalizing f behind k with
  | zero => exact .pure h
  | succ count ih =>
    rw [Func.addSiblings]
    exact h.insertAfter.bind fun _ h₁ => (ih h₁).bind fun _ h₂ => .pure h₂

theorem Consistent.scaleIdentity (h : f.Consistent) {factor stride : Nat} :
    Yields (scaleIdentity factor stride f i) fun r => r.1.Consistent := by
  refine .ask fun inst _ => ?_
  refine h.insertAfter.bind fun _ h₁ => h₁.insertAfter.bind fun _ h₂ => ?_
  refine h₂.insertAfter.bind fun _ h₃ => h₃.insertAfter.bind fun _ h₄ => ?_
  exact h₄.replaceUsesExcept.bind fun _ h₅ => h₅.addSiblings.bind fun _ h₆ => .pure h₆

theorem Consistent.scaleIdentities (h : f.Consistent) {factor stride : Nat} {map : ReplicaMap}
    {reads : List InstId} :
    Yields (scaleIdentities factor stride f map reads) fun r => r.1.Consistent := by
  induction reads generalizing f map with
  | nil => exact .pure h
  | cons i rest ih =>
    rw [Func.scaleIdentities]
    exact h.scaleIdentity.bind fun _ h₁ => ih h₁

theorem Consistent.scaleGrid (h : f.Consistent) {grid : GridReads} {p : CoarseningParams} :
    Yields (f.scaleGrid grid p) fun r => ∀ g map, r = .ok (g, map) → g.Consistent := by
  unfold Func.scaleGrid
  split
  · exact .pure (by simp)
  · refine Yields.bind (p := Consistent) (.foldlM h fun _ h _ _ => h.scaleExtent) fun _ h₁ => ?_
    refine h₁.scaleIdentities.bind fun r h₂ => .pure ?_
    rintro g map same
    obtain rfl : r = (g, map) := by simpa using same
    exact h₂

/-! ### Spare instructions -/

theorem blockOf_modifyInst {k : Inst → Inst} (other : j ≠ i) :
    Yields (f.modifyInst i k) fun g => g.blockOf j = f.blockOf j := by
  intro g answer
  obtain ⟨inst, hi, -⟩ := bind_eq_ok_iff.mp answer
  obtain ⟨g', answer', same⟩ := outline_modifyInst k hi
  obtain rfl : g' = g := by simpa [answer'] using answer
  rw [show g'.blockOf = Function.update f.blockOf i (k inst).block from
    congrArg Outline.home same, Function.update_of_ne other]

theorem blockOf_place {n : Nat} (other : j ≠ i) :
    Yields (f.place b n i) fun g => g.blockOf j = f.blockOf j := by
  refine Yields.bind (p := fun g => g.blockOf j = f.blockOf j) ?_ fun g same =>
    (blockOf_modifyInst other).mono fun _ same' => same'.trans same
  exact .ask fun _ _ => .pure rfl

/-- Placing an instruction moves no other. -/
theorem blockOf_attachAfter (other : j ≠ i) :
    Yields (f.attachAfter anchor i) fun g => g.blockOf j = f.blockOf j := by
  refine .ask fun place _ => ?_
  match place with
  | none => exact .pure rfl
  | some (b, n) =>
    refine .ask fun op _ => ?_
    split
    · refine .ask fun op' _ => ?_
      split
      · exact blockOf_place other
      · exact .ask fun _ _ => blockOf_place other
    · exact blockOf_place other

/-- A consistent function, and instructions of it that are placed nowhere. -/
structure Spares (f : Func) (held : List InstId) : Prop where
  consistent : f.Consistent
  nodup : held.Nodup
  slot : ∀ i ∈ held, i.index < f.insts.size
  free : ∀ i ∈ held, f.blockOf i = none

namespace Spares

variable {held : List InstId}

theorem nil (h : f.Consistent) : f.Spares [] := ⟨h, by simp, by simp, by simp⟩

/-- A copy is one more instruction that has to be placed. -/
theorem copyInst (h : f.Spares held) {name : String} :
    Yields (f.copyInst i name) fun r => r.1.Spares (r.2 :: held) := by
  refine .ask fun inst _ => .pure ⟨h.consistent.newInst _ _ _, ?_, ?_, ?_⟩
  · refine List.nodup_cons.mpr ⟨fun mem => ?_, h.nodup⟩
    exact absurd (h.slot _ mem) (by simp [Func.newInst])
  · intro j hj
    have size : (f.newInst inst.op inst.ty name).1.insts.size = f.insts.size + 1 := by
      simp [Func.newInst]
    rcases List.mem_cons.mp hj with rfl | hj
    · exact size ▸ Nat.lt_succ_self _
    · exact size ▸ Nat.lt_succ_of_lt (h.slot j hj)
  · intro j hj
    rcases List.mem_cons.mp hj with rfl | hj
    · exact blockOf_newInst _ _ _
    · rw [show (f.newInst inst.op inst.ty name).1.blockOf = f.blockOf from
        congrArg Outline.home (outline_newInst _ _ _)]
      exact h.free j hj

/-- An instruction that has been placed need not be placed any more. -/
theorem attachAfter (h : f.Spares (i :: held)) :
    Yields (f.attachAfter anchor i) (Spares · held) := by
  obtain ⟨new, nodup⟩ := List.nodup_cons.mp h.nodup
  intro g answer
  refine ⟨h.consistent.attachAfter (h.free i (by simp)) g answer, nodup, ?_, ?_⟩
  · intro j hj
    exact Nat.lt_of_lt_of_le (h.slot j (by simp [hj])) (grows_attachAfter g answer).insts
  · intro j hj
    have other : j ≠ i := fun same => new (same ▸ hj)
    rw [blockOf_attachAfter other g answer, h.free j (by simp [hj])]

theorem modifyOperation (h : f.Spares held) {k : Operation → Operation} :
    Yields (f.modifyOperation i k) (Spares · held) := by
  intro g answer
  refine ⟨h.consistent.modifyOperation g answer, h.nodup, ?_, ?_⟩
  · intro j hj
    exact Nat.lt_of_lt_of_le (h.slot j hj) (grows_modifyOperation g answer).insts
  · intro j hj
    obtain ⟨inst, hi, -⟩ := bind_eq_ok_iff.mp answer
    obtain ⟨g', answer', same⟩ := outline_modifyOperation k (line_of_inst hi)
    obtain rfl : g' = g := by simpa [answer'] using answer
    rw [show g'.blockOf = f.blockOf from congrArg Outline.home same, h.free j hj]

end Spares

end Func

/-! ### Repetition -/

namespace Replication

open Func

variable {s : Replication} {held : List InstId}

theorem spares_chainCopies {f : Func} (h : f.Spares held) {i behind : InstId}
    {name suffix : String} {n count : Nat} :
    Yields (chainCopies i name suffix f behind n count) fun r => r.1.Spares held := by
  induction count generalizing f behind n with
  | zero => exact .pure h
  | succ count ih =>
    rw [chainCopies]
    exact h.copyInst.bind fun _ h₁ => h₁.attachAfter.bind fun _ h₂ =>
      (ih h₂).bind fun _ h₃ => .pure h₃

theorem spares_ensurePlaceholders (h : s.func.Spares held) {i : InstId} :
    Yields (s.ensurePlaceholders i) fun t => t.func.Spares held := by
  unfold ensurePlaceholders
  split
  · exact .pure h
  · exact .ask fun _ _ => (spares_chainCopies h).bind fun _ hg => .pure hg

theorem spares_rewire (h : s.func.Spares held) {n : Nat} {i : InstId} :
    Yields (rewire n s i) fun t => t.func.Spares held := by
  unfold rewire
  split
  · exact .pure h
  · refine .ask fun op _ => ?_
    refine Yields.bind (p := fun t : Replication => t.func.Spares held)
      (.foldlM h fun t ht i _ => spares_ensurePlaceholders ht) fun t ht => ?_
    exact ht.modifyOperation.bind fun _ hg => .pure hg

theorem consistent_rewire (h : s.func.Consistent) {n : Nat} {i : InstId} :
    Yields (rewire n s i) fun t => t.func.Consistent :=
  (spares_rewire (.nil h)).mono fun _ ht => ht.consistent

theorem consistent_chainReplicas (h : s.func.Consistent) {i behind : InstId} {name : String}
    {n count : Nat} :
    Yields (chainReplicas i name s behind n count) fun r => r.1.func.Consistent := by
  induction count generalizing s behind n with
  | zero => exact .pure h
  | succ count ih =>
    rw [chainReplicas]
    refine (Spares.nil h).copyInst.bind fun r h₁ => ?_
    obtain ⟨func, copy⟩ := r
    -- the copy is not placed while its operands are chosen
    refine (spares_rewire (s := { s with func }) h₁).bind fun t h₂ => ?_
    refine h₂.attachAfter.bind fun g h₃ => ?_
    exact (ih (s := { t with func := g }) h₃.consistent).bind fun _ h₄ => .pure h₄

theorem consistent_replicateInst (h : s.func.Consistent) {i : InstId} :
    Yields (s.replicateInst i) fun t => t.func.Consistent := by
  refine .ask fun inst _ => ?_
  split
  · exact .pure h
  · exact (consistent_chainReplicas h).bind fun _ hg => .pure hg

theorem consistent_copyRegion {region : Region} {f : Func} (h : f.Consistent) {n count : Nat} :
    Yields (copyRegion region f n count) fun r => r.1.Consistent := by
  induction count generalizing f n with
  | zero => exact .pure h
  | succ count ih =>
    rw [copyRegion]
    exact h.copyBlocks.bind fun _ h₁ => (ih h₁).bind fun _ h₂ => .pure h₂

theorem consistent_spliceCopy (h : s.func.Consistent) {splice : Splice} {n : Nat} {top : BlockId}
    {copy : BlockCopy} : Yields (spliceCopy splice n s top copy) fun r => r.1.func.Consistent := by
  unfold spliceCopy
  split
  · split
    · have erased : Yields (copy.instMap.foldlM (fun f entry =>
          if splice.held.contains entry.1 then f.erase entry.2 else .ok f) s.func) Consistent := by
        refine .foldlM h fun g hg entry _ => ?_
        split
        · exact hg.erase
        · exact .pure hg
      refine erased.bind fun g h₁ => .ask fun blocks _ => ?_
      refine Yields.bind (p := fun t : Replication => t.func.Consistent)
        (.foldlM h₁ fun t ht i _ => consistent_rewire ht) fun t h₂ => ?_
      refine h₂.replaceSuccessor.bind fun _ h₃ => h₃.renameIncoming.bind fun _ h₄ => ?_
      exact h₄.renameIncoming.bind fun _ h₅ => .pure h₅
    · exact .pure h
  · exact .pure h

theorem consistent_spliceCopies (h : s.func.Consistent) {splice : Splice} {top : BlockId} {n : Nat}
    {copies : List BlockCopy} :
    Yields (spliceCopies splice s top n copies) fun t => t.func.Consistent := by
  induction copies generalizing s top n with
  | nil => exact .pure h
  | cons copy copies ih =>
    rw [spliceCopies]
    exact (consistent_spliceCopy h).bind fun _ h₁ => ih h₁

theorem consistent_replicateRegion (h : s.func.Consistent) {region : Region} :
    Yields (s.replicateRegion region) fun r => r.2.func.Consistent := by
  refine .ask fun entry _ => ?_
  split
  · refine .ask fun bottom _ => ?_
    split
    · refine (consistent_copyRegion h).bind fun r h₁ => ?_
      obtain ⟨func, copies⟩ := r
      exact (consistent_spliceCopies (s := { s with func }) h₁).bind fun t h₂ => .pure h₂
    · exact .ask fun _ _ => .pure h
  · exact .ask fun _ _ => .pure h

theorem consistent_replicateRegions (h : s.func.Consistent) {regions : List Region} :
    Yields (s.replicateRegions regions) fun r => r.2.func.Consistent := by
  induction regions generalizing s with
  | nil => exact .pure h
  | cons region rest ih =>
    rw [replicateRegions]
    refine (consistent_replicateRegion h).bind fun r hr => ?_
    obtain ⟨error, t⟩ := r
    cases error with
    | some e => exact .pure hr
    | none => exact ih hr

theorem consistent_replicateAll (h : s.func.Consistent) :
    Yields s.replicateAll fun r => r.2.func.Consistent :=
  Yields.bind (p := fun t : Replication => t.func.Consistent)
    (.foldlM h fun _ ht _ _ => consistent_replicateInst ht) fun _ ht =>
      consistent_replicateRegions ht

theorem consistent_resolve (h : s.func.Consistent) {placeholder : InstId} :
    Yields (s.resolve placeholder) fun t => t.func.Consistent := by
  unfold resolve
  split
  · split
    · exact .pure h
    · exact h.replaceUses.bind fun _ h₁ => h₁.erase.bind fun _ h₂ => .pure h₂
  · exact h.replaceUses.bind fun _ h₁ => h₁.erase.bind fun _ h₂ => .pure h₂

theorem consistent_resolveAll (h : s.func.Consistent) :
    Yields s.resolveAll fun t => t.func.Consistent :=
  .foldlM h fun _ ht _ _ => consistent_resolve ht

end Replication

end KernelCoarsening
