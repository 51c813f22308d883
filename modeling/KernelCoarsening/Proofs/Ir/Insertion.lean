/-
Instructions that are placed behind others.

An edit that only adds instructions turns every instruction of a block into a chunk that starts
with it.  Described so, an edit need not say in which block and at which place it happens, and
edits compose:

* `Func.Adds` — a function with more instructions, chunk by chunk;
* `Func.exists_attachAfter`, `Func.exists_insertAfter` — the edits that place an instruction;
* `Func.eq_of_mem_chunk` — an instruction belongs to one chunk only.
-/
import KernelCoarsening.Proofs.Ir.Outline
import Mathlib.Data.List.Pairwise
import Mathlib.Data.List.Lattice
import Mathlib.Order.Nat

namespace KernelCoarsening

/-- What becomes of an instruction where others are placed right behind `anchor`. -/
def behind (anchor : InstId) (new : List InstId) (i : InstId) : List InstId :=
  if i = anchor then i :: new else [i]

section behind

variable {anchor i : InstId} {new code : List InstId}

@[simp] theorem behind_self : behind anchor new anchor = anchor :: new := if_pos rfl

theorem behind_of_ne (other : i ≠ anchor) : behind anchor new i = [i] := if_neg other

theorem mem_behind {x : InstId} : x ∈ behind anchor new i ↔ x = i ∨ i = anchor ∧ x ∈ new := by
  unfold behind
  by_cases here : i = anchor <;> simp [here]

theorem flatMap_behind_of_notMem (out : anchor ∉ code) : code.flatMap (behind anchor new) = code := by
  induction code with
  | nil => rfl
  | cons i code ih =>
    obtain ⟨here, later⟩ := not_or.mp fun h => out (List.mem_cons.mpr h)
    rw [List.flatMap_cons, behind_of_ne (Ne.symm here), ih later, List.singleton_append]

theorem flatMap_behind {before after : List InstId} (nodup : (before ++ anchor :: after).Nodup) :
    (before ++ anchor :: after).flatMap (behind anchor new) =
      before ++ anchor :: (new ++ after) := by
  obtain ⟨-, later, apart⟩ := List.nodup_append.mp nodup
  have front : anchor ∉ before := fun mem => apart anchor mem anchor (by simp) rfl
  have back : anchor ∉ after := (List.nodup_cons.mp later).1
  rw [List.flatMap_append, List.flatMap_cons, flatMap_behind_of_notMem front,
    flatMap_behind_of_notMem back, behind_self, List.cons_append]

/-- Instructions that stay do not care whether others are placed before some are left out or
after. -/
theorem filter_flatMap_behind {p : InstId → Bool} (kept : p anchor = true)
    (all : ∀ x ∈ new, p x = true) :
    (code.flatMap (behind anchor new)).filter p = (code.filter p).flatMap (behind anchor new) := by
  induction code with
  | nil => rfl
  | cons i code ih =>
    rw [List.flatMap_cons, List.filter_append, ih]
    by_cases here : i = anchor
    · subst here
      simp [kept, List.filter_eq_self.mpr all]
    · by_cases stays : p i = true <;> simp [behind_of_ne here, stays]

/-- What is placed behind an instruction does not matter if it is left out. -/
theorem filter_flatMap_behind_of_not {p : InstId → Bool} (none : ∀ x ∈ new, p x = false) :
    (code.flatMap (behind anchor new)).filter p = code.filter p := by
  have gone : new.filter p = [] := List.filter_eq_nil_iff.mpr fun x hx => by simp [none x hx]
  induction code with
  | nil => rfl
  | cons i code ih =>
    rw [List.flatMap_cons, List.filter_append, ih, List.filter_cons]
    by_cases here : i = anchor
    · subst here
      by_cases stays : p i = true <;> simp [stays, gone]
    · by_cases stays : p i = true <;> simp [behind_of_ne here, stays]

end behind

namespace Func

variable {f g h : Func} {split split' : InstId → List InstId} {i j x anchor : InstId}
  {op op' : Operation} {ty ty' : Ty}

/-- Functions with the same layout have the same blocks. -/
theorem size_blocks_eq (hf : f.Consistent) (hg : g.Consistent) (layout : g.layout = f.layout) :
    g.blocks.size = f.blocks.size := by
  have same : ∀ n, n < g.blocks.size ↔ n < f.blocks.size := fun n => by
    rw [← hg.mem_layout ⟨n⟩, layout, hf.mem_layout]
  have := same g.blocks.size
  have := same f.blocks.size
  omega

/-- An instruction belongs to the chunk of one instruction only, if code that lists nothing twice
consists of chunks. -/
theorem eq_of_mem_chunk (hf : f.Consistent) (hg : g.Consistent) {p : InstId → Bool}
    {chunk : InstId → List InstId} (code : ∀ b, (g.code b).filter p = (f.code b).flatMap chunk)
    (hi : (f.blockOf i).isSome) (hj : (f.blockOf j).isSome) (hx : x ∈ chunk i)
    (hx' : x ∈ chunk j) : i = j := by
  obtain ⟨b, hb⟩ := Option.isSome_iff_exists.mp hi
  obtain ⟨d, hd⟩ := Option.isSome_iff_exists.mp hj
  have memI := hf.mem_code.mpr hb
  have memJ := hf.mem_code.mpr hd
  have inB : x ∈ (g.code b).filter p := code b ▸ List.mem_flatMap.mpr ⟨i, memI, hx⟩
  have inD : x ∈ (g.code d).filter p := code d ▸ List.mem_flatMap.mpr ⟨j, memJ, hx'⟩
  obtain rfl : b = d := by
    simpa [hg.mem_code.mp (List.mem_of_mem_filter inB)] using
      hg.mem_code.mp (List.mem_of_mem_filter inD)
  have nodup := (hg.code_nodup b).filter p
  rw [code b, List.nodup_flatMap] at nodup
  by_contra other
  have symmetric : Std.Symm (Function.onFun List.Disjoint chunk) := ⟨fun _ _ h => List.Disjoint.symm h⟩
  exact nodup.2.forall memI memJ other hx hx'

/-- Chunks list nothing twice. -/
theorem nodup_chunk (hf : f.Consistent) (hg : g.Consistent) {p : InstId → Bool}
    {chunk : InstId → List InstId} (code : ∀ b, (g.code b).filter p = (f.code b).flatMap chunk)
    (hi : (f.blockOf i).isSome) : (chunk i).Nodup := by
  obtain ⟨b, hb⟩ := Option.isSome_iff_exists.mp hi
  have nodup := (hg.code_nodup b).filter p
  rw [code b, List.nodup_flatMap] at nodup
  exact nodup.1 i (hf.mem_code.mpr hb)

/-- The instructions of the code are those of the chunks. -/
theorem isSome_blockOf_iff (hf : f.Consistent) (hg : g.Consistent)
    {chunk : InstId → List InstId} (code : ∀ b, g.code b = (f.code b).flatMap chunk) :
    (g.blockOf x).isSome ↔ ∃ i, (f.blockOf i).isSome ∧ x ∈ chunk i := by
  constructor
  · intro placed
    obtain ⟨b, hb⟩ := Option.isSome_iff_exists.mp placed
    have mem := hg.mem_code.mpr hb
    rw [code b] at mem
    obtain ⟨i, hi, hx⟩ := List.mem_flatMap.mp mem
    exact ⟨i, Option.isSome_of_eq_some (hf.mem_code.mp hi), hx⟩
  · rintro ⟨i, placed, hx⟩
    obtain ⟨b, hb⟩ := Option.isSome_iff_exists.mp placed
    refine Option.isSome_of_eq_some (hg.mem_code (b := b) |>.mp ?_)
    exact code b ▸ List.mem_flatMap.mpr ⟨i, hf.mem_code.mpr hb, hx⟩

/-- A function with more instructions: every instruction of a block has become a chunk, and what
was there does what it did. -/
structure Adds (f g : Func) (split : InstId → List InstId) : Prop where
  consistent : g.Consistent
  params : g.params = f.params
  layout : g.layout = f.layout
  code : ∀ b, g.code b = (f.code b).flatMap split
  size : f.insts.size ≤ g.insts.size
  line : ∀ i : InstId, i.index < f.insts.size → g.line i = f.line i

namespace Adds

theorem refl (hf : f.Consistent) : f.Adds f fun i => [i] :=
  ⟨hf, rfl, rfl, by simp, Nat.le_refl _, fun _ _ => rfl⟩

theorem trans (first : f.Adds g split) (second : g.Adds h split') :
    f.Adds h fun i => (split i).flatMap split' where
  consistent := second.consistent
  params := second.params.trans first.params
  layout := second.layout.trans first.layout
  code b := by rw [second.code, first.code, List.flatMap_assoc]
  size := first.size.trans second.size
  line i old := by rw [second.line i (Nat.lt_of_lt_of_le old first.size), first.line i old]

/-- Only what becomes of placed instructions matters. -/
theorem congr (hf : f.Consistent) (adds : f.Adds g split)
    (same : ∀ i, (f.blockOf i).isSome → split i = split' i) : f.Adds g split' :=
  { adds with
    code := fun b => by
      rw [adds.code b]
      refine List.flatMap_congr fun i hi => ?_
      exact same i (Option.isSome_of_eq_some (hf.mem_code.mp hi)) }

theorem isSome_blockOf (hf : f.Consistent) (adds : f.Adds g split) :
    (g.blockOf x).isSome ↔ ∃ i, (f.blockOf i).isSome ∧ x ∈ split i :=
  isSome_blockOf_iff hf adds.consistent adds.code

end Adds

theorem adds_newInst (hf : f.Consistent) (op : Operation) (ty : Ty) (name : String) :
    f.Adds (f.newInst op ty name).1 fun i => [i] where
  consistent := hf.newInst op ty name
  params := rfl
  layout := rfl
  code b := by
    rw [show (f.newInst op ty name).1.code = f.code from
      congrArg Outline.code (outline_newInst (f := f) op ty name)]
    simp
  size := by simp [newInst]
  line i old := by
    have new : i ≠ ⟨f.insts.size⟩ := by
      rintro rfl
      simp at old
    rw [show (f.newInst op ty name).1.line = _ from
      congrArg Outline.line (outline_newInst (f := f) op ty name)]
    simp [Function.update_of_ne new]

theorem line_newInst (f : Func) (op : Operation) (ty : Ty) (name : String) :
    (f.newInst op ty name).1.line ⟨f.insts.size⟩ = some (op, ty) := by
  rw [show (f.newInst op ty name).1.line = _ from
    congrArg Outline.line (outline_newInst (f := f) op ty name)]
  simp

theorem size_newInst (f : Func) (op : Operation) (ty : Ty) (name : String) :
    (f.newInst op ty name).1.insts.size = f.insts.size + 1 := by
  simp [newInst]

/-- An instruction that is placed nowhere goes right behind another one, if that one is no phi or
both are. -/
theorem exists_attachAfter (hf : f.Consistent) (placed : (f.blockOf anchor).isSome)
    (free : f.blockOf x = none) (hanchor : f.line anchor = some (op, ty))
    (hx : f.line x = some (op', ty')) (phis : op.isPhi = true → op'.isPhi = true) :
    ∃ g, f.attachAfter anchor x = .ok g ∧ f.Adds g (behind anchor [x]) ∧
      g.insts.size = f.insts.size := by
  obtain ⟨b, hb⟩ := Option.isSome_iff_exists.mp placed
  obtain ⟨before, after, code⟩ := List.append_of_mem (hf.mem_code.mpr hb)
  obtain ⟨g, answer, same⟩ := hf.outline_attachAfter code hanchor hx phis
  have whole : g.code = Function.update f.code b (before ++ anchor :: x :: after) :=
    congrArg Outline.code same
  have perm : (before ++ anchor :: x :: after).Perm (x :: f.code b) := by
    have moved : ((before ++ [anchor]) ++ x :: after).Perm (x :: ((before ++ [anchor]) ++ after)) :=
      List.perm_middle
    simpa [code] using moved
  refine ⟨g, answer, ?_, congrArg Outline.insts same⟩
  refine ⟨hf.of_placed free perm same, congrArg Outline.params same, congrArg Outline.layout same,
    fun c => ?_, (congrArg Outline.insts same).ge, fun i _ => congrFun (congrArg Outline.line same) i⟩
  by_cases here : c = b
  · subst here
    rw [whole, Function.update_self, code, flatMap_behind (code ▸ hf.code_nodup c)]
    rfl
  · rw [whole, Function.update_of_ne here, flatMap_behind_of_notMem fun mem => here ?_]
    simpa [hb] using (hf.mem_code.mp mem).symm

/-- A new instruction goes right behind another one, if that one is no phi or both are. -/
theorem exists_attachAfter_newInst (hf : f.Consistent) (placed : (f.blockOf anchor).isSome)
    (hanchor : f.line anchor = some (op, ty)) (op' : Operation) (ty' : Ty) (name : String)
    (phis : op.isPhi = true → op'.isPhi = true) :
    ∃ g, (f.newInst op' ty' name).1.attachAfter anchor ⟨f.insts.size⟩ = .ok g ∧
      f.Adds g (behind anchor [⟨f.insts.size⟩]) ∧ g.insts.size = f.insts.size + 1 ∧
      g.line ⟨f.insts.size⟩ = some (op', ty') := by
  have new := adds_newInst hf op' ty' name
  have home : (f.newInst op' ty' name).1.blockOf = f.blockOf :=
    congrArg Outline.home (outline_newInst (f := f) op' ty' name)
  have line := line_newInst f op' ty' name
  have old : anchor.index < f.insts.size :=
    line_isSome_iff.mp (Option.isSome_of_eq_some hanchor)
  obtain ⟨g, answer, adds, size⟩ := exists_attachAfter new.consistent (home ▸ placed)
    (x := ⟨f.insts.size⟩) (by rw [home, blockOf_size]) (by rw [new.line _ old, hanchor]) line phis
  refine ⟨g, answer, (new.trans adds).congr hf fun i _ => by simp, size.trans (size_newInst ..), ?_⟩
  rw [adds.line _ (by rw [size_newInst]; exact Nat.lt_succ_self _), line]

theorem exists_insertAfter (hf : f.Consistent) (placed : (f.blockOf anchor).isSome)
    (hanchor : f.line anchor = some (op, ty)) (op' : Operation) (ty' : Ty) (name : String)
    (phis : op.isPhi = true → op'.isPhi = true) :
    ∃ g, f.insertAfter anchor op' ty' name = .ok (g, ⟨f.insts.size⟩) ∧
      f.Adds g (behind anchor [⟨f.insts.size⟩]) ∧ g.insts.size = f.insts.size + 1 ∧
      g.line ⟨f.insts.size⟩ = some (op', ty') ∧ (g.blockOf ⟨f.insts.size⟩).isSome := by
  obtain ⟨g, answer, adds, size, line⟩ :=
    exists_attachAfter_newInst hf placed hanchor op' ty' name phis
  refine ⟨g, ?_, adds, size, line, (adds.isSome_blockOf hf).mpr ⟨anchor, placed, by simp⟩⟩
  show (do return (← (f.newInst op' ty' name).1.attachAfter anchor ⟨f.insts.size⟩, _)) = _
  rw [answer]
  rfl

end Func

end KernelCoarsening
