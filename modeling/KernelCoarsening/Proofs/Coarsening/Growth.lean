/-
Coarsening lets a kernel grow.

Bringing regions into form, scaling the grid and repeating are made of edits, so they take
nothing away:

* `Func.grows_coarsen` — a coarsened kernel has grown from the kernel, and in particular has a
  body if the kernel has one.
-/
import KernelCoarsening.Coarsening.Kernel
import KernelCoarsening.Proofs.Ir.Growth

namespace KernelCoarsening

namespace Func

variable {f : Func}

/-! ### Regions in form -/

theorem grows_dividePhi {members : List BlockId} {extracted : BlockId} {jump phi : InstId} :
    Yields (dividePhi members extracted jump f phi) f.Grows := by
  refine .ask fun inst _ => ?_
  split
  · refine grows_insertBefore.bind fun _ h₁ => ?_
    refine (h₁.thenWith grows_insertBefore).bind fun _ h₂ => ?_
    refine (h₂.thenWith grows_replaceUses).bind fun _ h₃ => ?_
    exact h₃.then grows_erase
  · exact .pure (.refl f)

theorem grows_isolate {region : Region} :
    Yields (f.isolate region) fun r => f.Grows r.1 := by
  refine .ask fun g _ => ?_
  dsimp only
  split
  · exact .pure (.refl f)
  · refine .ask fun label _ => ?_
    refine (grows_addBlockBefore.thenWith grows_append).bind fun _ h₁ => ?_
    refine (h₁.then (grows_foldlM fun _ _ => grows_replaceSuccessor)).bind fun _ h₂ => ?_
    refine .ask fun _ _ => ?_
    exact (h₂.then (grows_foldlM fun _ _ => grows_dividePhi)).bind fun _ h₃ => .pure h₃

theorem grows_cutHeader {loops : LoopForest} {header : BlockId} :
    Yields (f.cutHeader loops header) fun r => f.Grows r.1 := by
  unfold cutHeader
  split
  · exact .pure (.refl f)
  · exact .ask fun _ _ => .ask fun _ _ => grows_splitBlock

theorem grows_cutExiting {exiting : BlockId} :
    Yields (f.cutExiting exiting) fun r => f.Grows r.1 :=
  .ask fun _ _ => .ask fun _ _ => grows_splitBlock

theorem grows_extractRegion {regions : List Region} {n : Nat} {region : Region} :
    Yields (f.extractRegion regions n region) fun r => f.Grows r.2.1 := by
  refine .ask fun flow _ => .ask fun exiting _ => ?_
  split
  · exact .pure (.refl f)
  · refine grows_cutHeader.bind fun _ h₁ => ?_
    refine (h₁.thenWith grows_cutExiting).bind fun _ h₂ => ?_
    dsimp only
    split
    · exact .pure h₂
    · refine .ask fun _ _ => ?_
      refine (h₂.thenWith grows_isolate).bind fun _ h₃ => ?_
      exact .ask fun _ _ => .pure h₃

theorem grows_extractPlaces {regions : List Region} {places : List Nat} :
    Yields (f.extractPlaces regions places) fun r => f.Grows r.2.1 := by
  induction places generalizing f regions with
  | nil => exact .pure (.refl f)
  | cons n rest ih =>
    rw [extractPlaces]
    split
    · exact ih
    · refine grows_extractRegion.bind fun r hr => ?_
      obtain ⟨error, g, regions⟩ := r
      cases error with
      | some e => exact .pure hr
      | none => exact ih.mono fun _ hh => hr.trans hh

/-! ### The grid -/

theorem grows_scaleExtent {factor : Nat} {i : InstId} :
    Yields (scaleExtent factor f i) f.Grows := by
  refine .ask fun inst _ => ?_
  refine grows_insertAfter.bind fun _ h₁ => ?_
  exact (h₁.thenWith grows_replaceUsesExcept).bind fun _ h₂ => .pure h₂

theorem grows_addSiblings {base behind : InstId} {ty : Ty} {name : String}
    {stride k count : Nat} :
    Yields (addSiblings base ty name stride f behind k count) fun r => f.Grows r.1 := by
  induction count generalizing f behind k with
  | zero => exact .pure (.refl f)
  | succ count ih =>
    rw [addSiblings]
    refine grows_insertAfter.bind fun _ h₁ => ?_
    exact (h₁.thenWith ih).bind fun _ h₂ => .pure h₂

theorem grows_scaleIdentity {factor stride : Nat} {i : InstId} :
    Yields (scaleIdentity factor stride f i) fun r => f.Grows r.1 := by
  refine .ask fun inst _ => ?_
  refine grows_insertAfter.bind fun _ h₁ => ?_
  refine (h₁.thenWith grows_insertAfter).bind fun _ h₂ => ?_
  refine (h₂.thenWith grows_insertAfter).bind fun _ h₃ => ?_
  refine (h₃.thenWith grows_insertAfter).bind fun _ h₄ => ?_
  refine (h₄.thenWith grows_replaceUsesExcept).bind fun _ h₅ => ?_
  exact (h₅.thenWith grows_addSiblings).bind fun _ h₆ => .pure h₆

theorem grows_scaleIdentities {factor stride : Nat} {map : ReplicaMap} {reads : List InstId} :
    Yields (scaleIdentities factor stride f map reads) fun r => f.Grows r.1 := by
  induction reads generalizing f map with
  | nil => exact .pure (.refl f)
  | cons i rest ih =>
    rw [scaleIdentities]
    exact grows_scaleIdentity.bind fun _ h₁ => h₁.thenWith ih

theorem grows_scaleGrid {grid : GridReads} {p : CoarseningParams} :
    Yields (f.scaleGrid grid p) fun r => ∀ g map, r = .ok (g, map) → f.Grows g := by
  unfold scaleGrid
  split
  · exact .pure (by simp)
  · refine Yields.bind (grows_foldlM fun _ _ => grows_scaleExtent) fun _ h₁ => ?_
    refine (h₁.thenWith grows_scaleIdentities).bind fun r h₂ => .pure ?_
    rintro g map same
    obtain rfl : r = (g, map) := by simpa using same
    exact h₂

end Func

/-! ### Repetition -/

namespace Replication

open Func

variable {s : Replication}

/-- A step of a repetition that lets the function grow. -/
theorem growsFrom {f : Func} {x : Except Fault Replication} (hg : f.Grows s.func)
    (hx : Yields x fun t => s.func.Grows t.func) : Yields x fun t => f.Grows t.func :=
  hx.mono fun _ hh => hg.trans hh

theorem grows_chainCopies {f : Func} {i behind : InstId} {name suffix : String} {n count : Nat} :
    Yields (chainCopies i name suffix f behind n count) fun r => f.Grows r.1 := by
  induction count generalizing f behind n with
  | zero => exact .pure (.refl f)
  | succ count ih =>
    rw [chainCopies]
    refine grows_copyInst.bind fun _ h₁ => ?_
    refine (h₁.then grows_attachAfter).bind fun _ h₂ => ?_
    exact (h₂.thenWith ih).bind fun _ h₃ => .pure h₃

theorem grows_ensurePlaceholders {i : InstId} :
    Yields (s.ensurePlaceholders i) fun t => s.func.Grows t.func := by
  unfold ensurePlaceholders
  split
  · exact .pure (.refl _)
  · exact .ask fun _ _ => grows_chainCopies.bind fun _ hg => .pure hg

theorem grows_rewire {n : Nat} {i : InstId} :
    Yields (rewire n s i) fun t => s.func.Grows t.func := by
  unfold rewire
  split
  · exact .pure (.refl _)
  · refine .ask fun op _ => ?_
    refine Yields.bind (p := fun t : Replication => s.func.Grows t.func)
      (.foldlM (.refl _) fun t ht i _ => growsFrom ht grows_ensurePlaceholders) fun t ht => ?_
    exact (ht.then grows_modifyOperation).bind fun _ hg => .pure hg

theorem grows_chainReplicas {i behind : InstId} {name : String} {n count : Nat} :
    Yields (chainReplicas i name s behind n count) fun r => s.func.Grows r.1.func := by
  induction count generalizing s behind n with
  | zero => exact .pure (.refl _)
  | succ count ih =>
    rw [chainReplicas]
    refine grows_copyInst.bind fun r h₁ => ?_
    obtain ⟨func, copy⟩ := r
    refine Yields.bind (grows_rewire.mono fun _ hh => h₁.trans hh) fun t h₂ => ?_
    refine (h₂.then grows_attachAfter).bind fun g h₃ => ?_
    refine Yields.bind (p := fun r : Replication × List InstId => s.func.Grows r.1.func)
      (ih.mono fun _ hh => h₃.trans hh) fun _ h₄ => .pure h₄

theorem grows_replicateInst {i : InstId} :
    Yields (s.replicateInst i) fun t => s.func.Grows t.func := by
  refine .ask fun inst _ => ?_
  split
  · exact .pure (.refl _)
  · exact grows_chainReplicas.bind fun _ hg => .pure hg

theorem grows_copyRegion {region : Region} {f : Func} {n count : Nat} :
    Yields (copyRegion region f n count) fun r => f.Grows r.1 := by
  induction count generalizing f n with
  | zero => exact .pure (.refl f)
  | succ count ih =>
    rw [copyRegion]
    refine grows_copyBlocks.bind fun _ h₁ => ?_
    exact (h₁.thenWith ih).bind fun _ h₂ => .pure h₂

theorem grows_spliceCopy {splice : Splice} {n : Nat} {top : BlockId} {copy : BlockCopy} :
    Yields (spliceCopy splice n s top copy) fun r => s.func.Grows r.1.func := by
  unfold spliceCopy
  split
  · split
    · have erased : Yields (copy.instMap.foldlM (fun f entry =>
          if splice.held.contains entry.1 then f.erase entry.2 else .ok f) s.func)
            s.func.Grows := by
        refine grows_foldlM fun g entry => ?_
        split
        · exact grows_erase
        · exact .pure (.refl g)
      refine erased.bind fun g h₁ => .ask fun blocks _ => ?_
      refine Yields.bind (p := fun t : Replication => s.func.Grows t.func)
        (.foldlM h₁ fun t ht i _ => growsFrom ht grows_rewire) fun t h₂ => ?_
      refine (h₂.then grows_replaceSuccessor).bind fun _ h₃ => ?_
      refine (h₃.then grows_renameIncoming).bind fun _ h₄ => ?_
      exact (h₄.then grows_renameIncoming).bind fun _ h₅ => .pure h₅
    · exact .pure (.refl _)
  · exact .pure (.refl _)

theorem grows_spliceCopies {splice : Splice} {top : BlockId} {n : Nat}
    {copies : List BlockCopy} :
    Yields (spliceCopies splice s top n copies) fun t => s.func.Grows t.func := by
  induction copies generalizing s top n with
  | nil => exact .pure (.refl _)
  | cons copy copies ih =>
    rw [spliceCopies]
    exact grows_spliceCopy.bind fun _ h₁ => growsFrom h₁ ih

theorem grows_replicateRegion {region : Region} :
    Yields (s.replicateRegion region) fun r => s.func.Grows r.2.func := by
  refine .ask fun entry _ => ?_
  split
  · refine .ask fun bottom _ => ?_
    split
    · refine grows_copyRegion.bind fun r h₁ => ?_
      obtain ⟨func, copies⟩ := r
      exact Yields.bind (grows_spliceCopies.mono fun _ hh => h₁.trans hh) fun t h₂ => .pure h₂
    · exact .ask fun _ _ => .pure (.refl _)
  · exact .ask fun _ _ => .pure (.refl _)

theorem grows_replicateRegions {regions : List Region} :
    Yields (s.replicateRegions regions) fun r => s.func.Grows r.2.func := by
  induction regions generalizing s with
  | nil => exact .pure (.refl _)
  | cons region rest ih =>
    rw [replicateRegions]
    refine grows_replicateRegion.bind fun r hr => ?_
    obtain ⟨error, t⟩ := r
    cases error with
    | some e => exact .pure hr
    | none => exact ih.mono fun _ hh => hr.trans hh

theorem grows_replicateAll : Yields s.replicateAll fun r => s.func.Grows r.2.func := by
  refine Yields.bind (p := fun t : Replication => s.func.Grows t.func)
    (.foldlM (.refl _) fun t ht i _ => growsFrom ht grows_replicateInst) fun t ht => ?_
  exact grows_replicateRegions.mono fun _ hh => ht.trans hh

theorem grows_resolve {placeholder : InstId} :
    Yields (s.resolve placeholder) fun t => s.func.Grows t.func := by
  unfold resolve
  split
  · split
    · exact .pure (.refl _)
    · refine grows_replaceUses.bind fun _ h₁ => ?_
      exact (h₁.then grows_erase).bind fun _ h₂ => .pure h₂
  · refine grows_replaceUses.bind fun _ h₁ => ?_
    exact (h₁.then grows_erase).bind fun _ h₂ => .pure h₂

theorem grows_resolveAll : Yields s.resolveAll fun t => s.func.Grows t.func :=
  .foldlM (.refl _) fun _ ht _ _ => growsFrom ht grows_resolve

end Replication

/-! ### Kernels -/

namespace Func

variable {f : Func} {shared : List GlobalId} {p : CoarseningParams}

theorem grows_normalize :
    Yields (f.normalize shared p) fun r => ∀ found, r = .ok found → f.Grows found.func := by
  refine .ask fun first _ => ?_
  split
  · exact .pure (by simp)
  · refine Yields.bind (grows_extractPlaces) fun r hr => ?_
    obtain ⟨error, g, regions⟩ := r
    cases error with
    | some e => exact .pure (by simp)
    | none =>
      refine .ask fun second analyzed => ?_
      split
      · exact .pure (by simp)
      · rename_i found
        refine .ask fun error _ => ?_
        split
        · exact .pure (by simp)
        · refine .pure ?_
          rintro found' same
          obtain rfl : found = found' := by simpa using same
          -- the second analysis is of the function in form
          have same : found.func = g := by
            unfold analyze at analyzed
            simp only [bind_eq_ok_iff] at analyzed
            obtain ⟨flow, _, grid, _, answer, _, last⟩ := analyzed
            cases answer with
            | error e => simp [pure, Except.pure, Except.map] at last
            | ok d =>
              obtain rfl : _ = found := by simpa [pure, Except.pure, Except.map] using last
              rfl
          exact same ▸ hr

/-- A coarsened kernel has grown from the kernel. -/
theorem grows_coarsen {costs : Option CostTable} :
    Yields (f.coarsen shared p costs) fun r => ∀ made, r = .ok made → f.Grows made.func := by
  unfold coarsen
  split
  · exact .pure (by simp)
  · refine grows_normalize.bind fun answer h₁ => ?_
    split
    · exact .pure (by simp)
    · rename_i found
      refine .ask fun report _ => ?_
      refine grows_scaleGrid.bind fun answer h₂ => ?_
      split
      · exact .pure (by simp)
      · rename_i scaled map
        have h₃ := (h₁ found rfl).trans (h₂ scaled map rfl)
        refine Replication.grows_replicateAll.bind fun r h₄ => ?_
        obtain ⟨error, s⟩ := r
        cases error with
        | some e => exact .pure (by simp)
        | none =>
          refine Replication.grows_resolveAll.bind fun t h₅ => ?_
          refine .ask fun flaw _ => ?_
          split
          · exact .pure (by simp)
          · refine .pure ?_
            rintro made same
            obtain rfl : _ = made := by simpa using same
            exact (h₃.trans h₄).trans h₅

end Func

end KernelCoarsening
