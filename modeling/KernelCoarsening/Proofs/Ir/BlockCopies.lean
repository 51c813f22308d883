/-
Copies of blocks.

A copy of blocks is made one instruction at a time, and then its operands and edges are redirected
to the copies:

* `Func.Copies` — nothing is moved meanwhile, and the copies are new, placed, and of one
  instruction each;
* `BlockCopy.Covers` — which blocks and instructions have been copied so far;
* `Func.copies_copyBlocks` — all blocks are, and all the instructions in them.
-/
import KernelCoarsening.Proofs.Flow.Loops
import KernelCoarsening.Proofs.Ir.Frame

namespace KernelCoarsening

namespace Func

/-- What holds while blocks are copied: nothing has been moved, and the copies are new, placed, and
of one instruction each. -/
structure Copies (f : Func) (state : Func × BlockCopy) : Prop where
  consistent : state.1.Consistent
  leaves : f.Leaves (fun _ => False) state.1
  placed : ∀ i j, (i, j) ∈ state.2.instMap →
    f.insts.size ≤ j.index ∧ (state.1.blockOf j).isSome
  one : ∀ i i' j, (i, j) ∈ state.2.instMap → (i', j) ∈ state.2.instMap → i = i'

end Func

/-- Blocks and instructions have been copied. -/
structure BlockCopy.Covers (copy : BlockCopy) (blocks : List BlockId) (insts : List InstId) :
    Prop where
  blocks : ∀ b ∈ blocks, (copy.blockMap.get? b).isSome
  insts : ∀ i ∈ insts, (copy.instMap.get? i).isSome

theorem Assoc.isSome_insert {κ ν : Type} [DecidableEq κ] {m : Assoc κ ν} {key k : κ} {value : ν}
    (h : k = key ∨ (m.get? k).isSome) : ((m.insert key value).get? k).isSome := by
  rw [get?_insert]
  split
  · rfl
  · exact h.resolve_left (Ne.symm ‹_›)

namespace Func

variable {f g : Func} {state : Func × BlockCopy} {b target : BlockId} {i : InstId}
  {suffix : String} {blocks : List BlockId} {insts : List InstId}

theorem isSome_append {op : Operation} {ty : Ty} {name : String} :
    Yields (f.append b op ty name) fun r => (r.1.blockOf r.2).isSome :=
  .ask fun _ _ => isSome_place.bind fun _ placed => .pure placed

namespace Copies

variable (h : f.Copies state)

include h

theorem copyInto (covers : state.2.Covers blocks insts) :
    Yields (copyInto target suffix state i) fun state' => f.Copies state' ∧
      state'.2.Covers blocks (i :: insts) := by
  refine .ask fun inst _ => .ask fun r answer => .pure ?_
  have new : r.2 = ⟨state.1.insts.size⟩ := snd_append r answer
  have left : state.1.Leaves (fun _ => False) r.1 := leaves_append r answer
  have old : ∀ i j, (i, j) ∈ state.2.instMap → j.index < state.1.insts.size :=
    fun i j hj => lt_of_placed (h.placed i j hj).2
  refine ⟨⟨h.consistent.append r answer, h.leaves.trans left, fun k j hj => ?_, ?_⟩,
    covers.blocks, fun k hk => Assoc.isSome_insert ?_⟩
  · rcases Assoc.mem_insert hj with same | hj
    · obtain ⟨-, rfl⟩ := Prod.mk.inj same
      exact ⟨by rw [new]; exact h.leaves.grows.insts, isSome_append r answer⟩
    · rw [left.home j (old k j hj) id]
      exact h.placed k j hj
  · -- the slot of the new copy was not there when the others were made
    have other : ∀ k j, (k, j) ∈ state.2.instMap → j ≠ r.2 := by
      rintro k j hj rfl
      have slot := old k r.2 hj
      rw [new] at slot
      exact absurd slot (Nat.lt_irrefl _)
    intro k k' j hj hj'
    rcases Assoc.mem_insert hj with same | hj <;> rcases Assoc.mem_insert hj' with same' | hj'
    · exact (Prod.mk.inj same).1.trans (Prod.mk.inj same').1.symm
    · exact absurd (Prod.mk.inj same).2 (other k' j hj')
    · exact absurd (Prod.mk.inj same').2 (other k j hj)
    · exact h.one k k' j hj hj'
  · exact (List.mem_cons.mp hk).imp_right (covers.insts k)

theorem copyInsts (covers : state.2.Covers blocks insts) (list : List InstId) :
    Yields (list.foldlM (Func.copyInto target suffix) state) fun state' => f.Copies state' ∧
      state'.2.Covers blocks (list ++ insts) := by
  induction list generalizing state insts with
  | nil => exact .pure ⟨h, covers⟩
  | cons i rest ih =>
    rw [List.foldlM_cons]
    refine (h.copyInto covers).bind fun state' h' => (ih h'.1 h'.2).mono fun _ known => ?_
    refine ⟨known.1, known.2.blocks, fun k hk => known.2.insts k ?_⟩
    simp only [List.cons_append, List.mem_cons, List.mem_append] at hk ⊢
    tauto

/-- What stands in a block has not been moved since. -/
theorem code_subset (hf : f.Consistent) (mem : i ∈ f.code b) : i ∈ state.1.code b := by
  have home := hf.mem_code.mp mem
  refine h.consistent.mem_code.mpr ?_
  rw [h.leaves.home i (lt_of_blockOf home) id, home]

theorem copyBlock (hf : f.Consistent) (covers : state.2.Covers blocks insts) :
    Yields (copyBlock suffix state b) fun state' => f.Copies state' ∧
      state'.2.Covers (b :: blocks) (f.code b ++ insts) := by
  refine .ask fun block hb => ?_
  have left : state.1.Leaves (fun _ => False) (state.1.addBlock (suffixed block.name suffix)).1 :=
    leaves_addBlock _
  have h₁ : f.Copies ((state.1.addBlock (suffixed block.name suffix)).1, { state.2 with
      blocks := state.2.blocks ++ [⟨state.1.blocks.size⟩]
      blockMap := state.2.blockMap.insert b ⟨state.1.blocks.size⟩ }) :=
    ⟨h.consistent.addBlock _, h.leaves.trans left, h.placed, h.one⟩
  have covers₁ : ∀ c ∈ b :: blocks,
      ((state.2.blockMap.insert b ⟨state.1.blocks.size⟩).get? c).isSome := fun c hc =>
    Assoc.isSome_insert ((List.mem_cons.mp hc).imp_right (covers.blocks c))
  refine (h₁.copyInsts ⟨covers₁, covers.insts⟩ block.insts).mono fun _ known =>
    ⟨known.1, known.2.blocks, fun k hk => known.2.insts k ?_⟩
  rw [← code_of_block hb]
  exact List.mem_append.mpr ((List.mem_append.mp hk).imp_left (h.code_subset hf))

theorem copyAll (hf : f.Consistent) (covers : state.2.Covers blocks insts) (list : List BlockId) :
    Yields (list.foldlM (Func.copyBlock suffix) state) fun state' => f.Copies state' ∧
      state'.2.Covers (list ++ blocks) (list.flatMap f.code ++ insts) := by
  induction list generalizing state blocks insts with
  | nil => exact .pure ⟨h, covers⟩
  | cons b rest ih =>
    rw [List.foldlM_cons]
    refine (h.copyBlock hf covers).bind fun state' h' => (ih h'.1 h'.2).mono fun _ known => ?_
    refine ⟨known.1, fun c hc => known.2.blocks c ?_, fun k hk => known.2.insts k ?_⟩
    · simp only [List.cons_append, List.mem_cons, List.mem_append] at hc ⊢
      tauto
    · simp only [List.flatMap_cons, List.mem_append] at hk ⊢
      tauto

end Copies

/-- Copied blocks are placed, and so are the instructions in them. -/
theorem copies_copyBlocks (hf : f.Consistent) : Yields (f.copyBlocks blocks suffix) fun r =>
    f.Copies r ∧ r.2.Covers blocks (blocks.flatMap f.code) := by
  have start : f.Copies (f, ⟨[], [], []⟩) := ⟨hf, .refl f, by simp, by simp⟩
  have none : BlockCopy.Covers ⟨[], [], []⟩ [] [] := ⟨by simp, by simp⟩
  refine (start.copyAll hf none blocks).bind fun state known => ?_
  obtain ⟨h, covers⟩ := known
  rw [List.append_nil, List.append_nil] at covers
  have rewired : ∀ g : Func, ∀ c ∈ state.2.blocks,
      Yields (rewireBlock state.2 g c) (g.Leaves fun _ => False) := fun g c _ =>
    .ask fun block _ => leaves_foldlM fun g' i _ => leaves_modifyOperation fun op => by
      simp [BlockCopy.mapOperation]
  refine .ask fun g answer => .pure ⟨?_, covers⟩
  have left := leaves_foldlM rewired g answer
  have consistent : g.Consistent := Yields.foldlM h.consistent
    (fun g' h' c _ => h'.rewireBlock) g answer
  refine ⟨consistent, h.leaves.trans left, fun i j hj => ?_, h.one⟩
  obtain ⟨new, placed⟩ := h.placed i j hj
  exact ⟨new, by rw [left.home j (lt_of_placed placed) id]; exact placed⟩

end Func

end KernelCoarsening
