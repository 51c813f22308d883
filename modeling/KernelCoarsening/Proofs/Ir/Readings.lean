/-
What instructions read.

Placing and erasing instructions and redirecting edges changes no operand.  When the operands of
instructions are changed, one after the other, then only those of these instructions are, and when
blocks are copied, then a copy reads what its original reads, with copies in the place of what has
been copied:

* `Func.SameReads` — instructions read what they read, but for some that may have been rewired;
* `Func.reads_modifyOperations` — each of some instructions is rewired once;
* `Func.Mirrors` — copies of blocks have been made, and the copies read what their originals read;
* `Func.mirrored_copyBlocks` — in the end they read the copies.
-/
import KernelCoarsening.Proofs.Ir.BlockCopies

namespace KernelCoarsening

namespace Func

variable {f g : Func} {b : BlockId} {i j anchor : InstId} {rewired : InstId → Prop}

/-- The operands of an instruction. -/
def reads (f : Func) (i : InstId) : Option (List Value) := (f.line i).map (·.1.operands)

theorem reads_of_insts (same : g.insts[i.index]? = f.insts[i.index]?) : g.reads i = f.reads i := by
  rw [reads, reads, line_of_insts same]

theorem reads_of_inst {inst : Inst} (answer : f.inst i = .ok inst) :
    f.reads i = some inst.op.operands := by
  rw [reads, line_of_inst answer]
  rfl

/-! ### Edits that change no operand -/

/-- The instructions that were there read what they read, but for some that may have been
rewired. -/
structure SameReads (rewired : InstId → Prop) (f g : Func) : Prop where
  grows : f.Grows g
  reads : ∀ i, i.index < f.insts.size → ¬ rewired i → g.reads i = f.reads i

namespace SameReads

theorem refl (f : Func) : f.SameReads rewired f := ⟨.refl f, fun _ _ _ => rfl⟩

theorem trans {h : Func} (first : f.SameReads rewired g) (second : g.SameReads rewired h) :
    f.SameReads rewired h where
  grows := first.grows.trans second.grows
  reads i old keeps := (second.reads i (Nat.lt_of_lt_of_le old first.grows.insts) keeps).trans
    (first.reads i old keeps)

theorem mono {more : InstId → Prop} (same : f.SameReads rewired g)
    (sub : ∀ i, i.index < f.insts.size → rewired i → more i) : f.SameReads more g where
  grows := same.grows
  reads i old keeps := same.reads i old fun gone => keeps (sub i old gone)

end SameReads

/-- What reads the same after an edit has read it from where the edits began. -/
theorem SameReads.then {x : Except Fault Func} (first : f.SameReads rewired g)
    (second : Yields x (g.SameReads rewired)) : Yields x (f.SameReads rewired) :=
  second.mono fun _ later => first.trans later

theorem sameReads_foldlM {α : Type} {step : Func → α → Except Fault Func} {xs : List α}
    (each : ∀ g, ∀ a ∈ xs, Yields (step g a) (g.SameReads rewired)) :
    Yields (xs.foldlM step f) (f.SameReads rewired) :=
  .foldlM (.refl f) fun g hg a ha => hg.then (each g a ha)

theorem sameReads_of_insts (grows : f.Grows g)
    (insts : ∀ i : InstId, i.index < f.insts.size → g.insts[i.index]? = f.insts[i.index]?) :
    f.SameReads rewired g :=
  ⟨grows, fun i old _ => reads_of_insts (insts i old)⟩

/-- An instruction changes, and its operands are mapped. -/
theorem reads_modifyInst {k : Inst → Inst} {m : Value → Value}
    (maps : ∀ inst, (k inst).op.operands = inst.op.operands.map m) :
    Yields (f.modifyInst i k) fun g => ∀ j,
      g.reads j = if j = i then (f.reads j).map (List.map m) else f.reads j := by
  intro g answer j
  split
  · rename_i here
    subst here
    rw [reads, reads, line, line, insts_modifyInst_self g answer]
    cases f.insts[j.index]? with
    | none => rfl
    | some inst => exact congrArg some (maps inst)
  · exact reads_of_insts (insts_modifyInst ‹_› g answer)

/-- An instruction changes, but for its operands. -/
theorem sameReads_modifyInst {k : Inst → Inst}
    (kept : ∀ inst, (k inst).op.operands = inst.op.operands) :
    Yields (f.modifyInst i k) (f.SameReads rewired) := by
  intro g answer
  refine ⟨grows_modifyInst g answer, fun j _ _ => ?_⟩
  simpa using reads_modifyInst (m := id) (fun inst => by simp [kept]) g answer j

theorem sameReads_modifyOperation {k : Operation → Operation}
    (kept : ∀ op, (k op).operands = op.operands) :
    Yields (f.modifyOperation i k) (f.SameReads rewired) :=
  sameReads_modifyInst fun _ => kept _

theorem sameReads_modifyBlock {k : Block → Block} :
    Yields (f.modifyBlock b k) (f.SameReads rewired) := fun g answer =>
  sameReads_of_insts (grows_modifyBlock g answer) fun _ _ => by rw [insts_modifyBlock g answer]

theorem sameReads_place {n : Nat} : Yields (f.place b n i) (f.SameReads rewired) :=
  sameReads_modifyBlock.bind fun _ same => same.then (sameReads_modifyInst fun _ => rfl)

theorem sameReads_attachAfter : Yields (f.attachAfter anchor i) (f.SameReads rewired) := by
  refine .ask fun place _ => ?_
  match place with
  | none => exact .pure (.refl f)
  | some (b, n) =>
    refine .ask fun op _ => ?_
    split
    · refine .ask fun op' _ => ?_
      split
      · exact sameReads_place
      · exact .ask fun _ _ => sameReads_place
    · exact sameReads_place

theorem sameReads_erase : Yields (f.erase i) (f.SameReads rewired) := by
  refine .ask fun inst _ => ?_
  split
  · exact .pure (.refl f)
  · exact (sameReads_modifyInst (k := fun inst => { inst with block := none })
      fun _ => rfl).bind fun _ same => same.then sameReads_modifyBlock

theorem sameReads_addBlock (name : String) : f.SameReads rewired (f.addBlock name).1 :=
  sameReads_of_insts grows_addBlock fun _ _ => rfl

theorem sameReads_copyInst {name : String} :
    Yields (f.copyInst i name) fun r => f.SameReads rewired r.1 :=
  .ask fun _ _ => .pure (sameReads_of_insts grows_newInst fun _ old => insts_newInst old)

/-- What is appended reads what it is told to. -/
theorem reads_append {op : Operation} {ty : Ty} {name : String} :
    Yields (f.append b op ty name) fun r =>
      f.SameReads rewired r.1 ∧ r.1.reads r.2 = some op.operands := by
  refine .ask fun block _ => ?_
  have new : (f.newInst op ty name).1.reads ⟨f.insts.size⟩ = some op.operands := by
    simp [newInst, reads, line]
  have same : f.SameReads rewired (f.newInst op ty name).1 :=
    sameReads_of_insts grows_newInst fun _ old => insts_newInst old
  refine .ask fun g placing => .pure ?_
  have later : (f.newInst op ty name).1.SameReads (fun _ => False) g := sameReads_place g placing
  refine ⟨same.trans (later.mono fun _ _ => False.elim), ?_⟩
  rw [← new]
  exact later.reads _ (by simp [newInst]) id

theorem blockOf_append {op : Operation} {ty : Ty} {name : String} :
    Yields (f.append b op ty name) fun r => r.1.blockOf r.2 = some b := by
  refine .ask fun block _ => .ask fun g placing => .pure ?_
  obtain ⟨f₁, -, attached⟩ := bind_eq_ok_iff.mp placing
  obtain ⟨inst, hi, -⟩ := bind_eq_ok_iff.mp attached
  rw [blockOf, insts_modifyInst_self g attached, inst_eq_ok_iff.mp hi]
  rfl

theorem sameReads_replaceSuccessor {old new : BlockId} :
    Yields (f.replaceSuccessor b old new) (f.SameReads rewired) := by
  refine .ask fun term _ => ?_
  cases term with
  | none => exact .pure (.refl f)
  | some term => exact sameReads_modifyOperation fun op => by simp

theorem sameReads_renameIncoming {old new : BlockId} :
    Yields (f.renameIncoming b old new) (f.SameReads rewired) :=
  .ask fun _ _ => sameReads_foldlM fun _ _ _ => sameReads_modifyOperation fun op => by simp

/-! ### Operands that are mapped -/

/-- The operands of each of some instructions are mapped once. -/
theorem reads_modifyOperations {k : Operation → Operation} {m : Value → Value}
    (maps : ∀ op, (k op).operands = op.operands.map m) {list : List InstId} (nodup : list.Nodup) :
    Yields (list.foldlM (fun f i => f.modifyOperation i k) f) fun g => ∀ j,
      g.reads j = if j ∈ list then (f.reads j).map (List.map m) else f.reads j := by
  induction list generalizing f with
  | nil => exact .pure fun j => by simp
  | cons i rest ih =>
    obtain ⟨other, nodup⟩ := List.nodup_cons.mp nodup
    rw [List.foldlM_cons]
    refine (reads_modifyInst fun inst => maps inst.op).bind fun g first => ?_
    refine (ih nodup).mono fun g' later j => ?_
    rw [later j, first j]
    by_cases here : j = i
    · simp [here, other]
    · simp [here]

theorem blockOf_modifyOperation {k : Operation → Operation} :
    Yields (f.modifyOperation i k) fun g => g.blockOf = f.blockOf := by
  intro g answer
  obtain ⟨inst, hi, -⟩ := bind_eq_ok_iff.mp answer
  obtain ⟨g', answer', same⟩ := alter_modifyOperation (f := f) k
    (line_isSome_iff.mp (Option.isSome_of_eq_some (line_of_inst hi)))
  obtain rfl : g' = g := by simpa [answer'] using answer
  exact congrArg Outline.home same

/-- The instructions of a block come to read copies. -/
theorem reads_rewireBlock (hf : f.Consistent) {copy : BlockCopy} :
    Yields (rewireBlock copy f b) fun g => g.blockOf = f.blockOf ∧ ∀ j,
      g.reads j = if f.blockOf j = some b then (f.reads j).map (List.map copy.mapValue)
        else f.reads j := by
  refine .ask fun block hb g answer => ⟨?_, fun j => ?_⟩
  · refine Yields.foldlM (r := fun g => g.blockOf = f.blockOf) rfl (fun g same i _ => ?_) g answer
    exact blockOf_modifyOperation.mono fun _ later => later.trans same
  · have nodup : block.insts.Nodup := code_of_block hb ▸ hf.code_nodup b
    have maps : ∀ op : Operation, (copy.mapOperation op).operands = op.operands.map copy.mapValue :=
      fun op => by simp [BlockCopy.mapOperation]
    rw [reads_modifyOperations maps nodup g answer j]
    simp only [← hf.mem_code, code_of_block hb]

/-- The instructions of some blocks come to read copies. -/
theorem reads_rewireBlocks (hf : f.Consistent) {copy : BlockCopy} {list : List BlockId}
    (nodup : list.Nodup) : Yields (list.foldlM (rewireBlock copy) f) fun g =>
      g.blockOf = f.blockOf ∧ ∀ j,
      ((∃ b ∈ list, f.blockOf j = some b) →
        g.reads j = (f.reads j).map (List.map copy.mapValue)) ∧
      ((∀ b ∈ list, f.blockOf j ≠ some b) → g.reads j = f.reads j) := by
  induction list generalizing f with
  | nil => exact .pure ⟨rfl, fun j => ⟨by simp, fun _ => rfl⟩⟩
  | cons b rest ih =>
    obtain ⟨other, nodup⟩ := List.nodup_cons.mp nodup
    rw [List.foldlM_cons]
    refine .ask fun f₁ answer => ?_
    obtain ⟨home, first⟩ := reads_rewireBlock hf f₁ answer
    refine (ih (hf.rewireBlock f₁ answer) nodup).mono fun g later =>
      ⟨later.1.trans home, fun j => ?_⟩
    obtain ⟨inside, outside⟩ := later.2 j
    rw [home, first j] at inside outside
    constructor
    · rintro ⟨c, hc, here⟩
      rcases List.mem_cons.mp hc with rfl | hc
      · have alone : ∀ d ∈ rest, f.blockOf j ≠ some d := fun d hd there =>
          other (Option.some.inj (here.symm.trans there) ▸ hd)
        rw [outside alone, if_pos here]
      · have apart : b ≠ c := fun same => other (same ▸ hc)
        rw [inside ⟨c, hc, here⟩, if_neg]
        rw [here]
        exact fun same => apart (Option.some.inj same).symm
    · intro away
      rw [List.forall_mem_cons] at away
      rw [outside away.2, if_neg away.1]

/-! ### Copies of blocks -/

/-- Copies of blocks have been made, and the copies of instructions read what is made of what their
originals read. -/
structure Mirrors (f : Func) (blocks : List BlockId) (m : Value → Value)
    (state : Func × BlockCopy) : Prop where
  same : f.SameReads (fun _ => False) state.1
  nodup : state.2.blocks.Nodup
  fresh : ∀ b ∈ state.2.blocks, f.blocks.size ≤ b.index ∧ b.index < state.1.blocks.size
  source : ∀ i j, (i, j) ∈ state.2.instMap → i.index < f.insts.size → ∃ b ∈ blocks, i ∈ f.code b
  home : ∀ i j, (i, j) ∈ state.2.instMap → ∃ b ∈ state.2.blocks, state.1.blockOf j = some b
  mirror : ∀ i j, (i, j) ∈ state.2.instMap → i.index < f.insts.size →
    state.1.reads j = (f.reads i).map (List.map m)

namespace Mirrors

variable {state : Func × BlockCopy} {blocks : List BlockId} {k : Value → Value}

/-- What leaves instructions and operands alone leaves copies alone. -/
theorem extend {copy : BlockCopy} (m : f.Mirrors blocks k (g, copy)) {g' : Func}
    (same : g.SameReads (fun _ => False) g') (left : g.Leaves (fun _ => False) g') :
    f.Mirrors blocks k (g', copy) := by
  have home : ∀ i j, (i, j) ∈ copy.instMap → ∃ b ∈ copy.blocks, g.blockOf j = some b := m.home
  refine ⟨m.same.trans same, m.nodup, fun b hb => ?_, m.source, fun i j hj => ?_,
    fun i j hj slot => ?_⟩
  · exact ⟨(m.fresh b hb).1, Nat.lt_of_lt_of_le (m.fresh b hb).2 same.grows.blocks⟩
  · obtain ⟨b, hb, here⟩ := home i j hj
    exact ⟨b, hb, (left.home j (lt_of_blockOf here) id).trans here⟩
  · obtain ⟨b, -, here⟩ := home i j hj
    exact (same.reads j (lt_of_blockOf here) id).trans (m.mirror i j hj slot)

/-- What has been left alone before copies were made is there to be copied. -/
theorem restrict (m : g.Mirrors blocks k state) (hf : f.Consistent) (hg : g.Consistent)
    (same : f.SameReads (fun _ => False) g) (left : f.Leaves (fun _ => False) g) :
    f.Mirrors blocks k state := by
  have slot : ∀ i : InstId, i.index < f.insts.size → i.index < g.insts.size := fun i old =>
    Nat.lt_of_lt_of_le old same.grows.insts
  refine ⟨same.trans m.same, m.nodup, fun b hb => ?_, fun i j hj old => ?_, m.home,
    fun i j hj old => ?_⟩
  · exact ⟨Nat.le_trans same.grows.blocks (m.fresh b hb).1, (m.fresh b hb).2⟩
  · obtain ⟨b, hb, mem⟩ := m.source i j hj (slot i old)
    exact ⟨b, hb, hf.mem_code.mpr ((left.home i old id).symm.trans (hg.mem_code.mp mem))⟩
  · rw [m.mirror i j hj (slot i old), same.reads i old id]

end Mirrors

namespace Mirrors

variable {state : Func × BlockCopy} {blocks : List BlockId} {target : BlockId} {suffix : String}
  (h : f.Copies state) (m : f.Mirrors blocks id state)

include h m

theorem copyInto (ht : target ∈ state.2.blocks)
    (known : i.index < f.insts.size → ∃ b ∈ blocks, i ∈ f.code b) :
    Yields (copyInto target suffix state i) fun state' => f.Copies state' ∧
      f.Mirrors blocks id state' ∧ target ∈ state'.2.blocks := by
  have none : state.2.Covers [] [] := ⟨by simp, by simp⟩
  suffices Yields (Func.copyInto target suffix state i) fun state' =>
      f.Mirrors blocks id state' ∧ target ∈ state'.2.blocks from
    fun state' answer => ⟨(h.copyInto none state' answer).1, this state' answer⟩
  refine .ask fun inst hi => .ask fun r answer => .pure ⟨?_, ht⟩
  obtain ⟨same, read⟩ : state.1.SameReads (fun _ => False) r.1 ∧
      r.1.reads r.2 = some inst.op.operands := reads_append r answer
  have left : state.1.Leaves (fun _ => False) r.1 := leaves_append r answer
  have old : ∀ i j, (i, j) ∈ state.2.instMap → j.index < state.1.insts.size :=
    fun i j hj => lt_of_placed (h.placed i j hj).2
  refine ⟨m.same.trans same, m.nodup, fun b hb => ?_, fun k j hj => ?_, fun k j hj => ?_,
    fun k j hj slot => ?_⟩
  · exact ⟨(m.fresh b hb).1, Nat.lt_of_lt_of_le (m.fresh b hb).2 same.grows.blocks⟩
  · rcases Assoc.mem_insert hj with here | before
    · obtain ⟨rfl, -⟩ := Prod.mk.inj here
      exact known
    · exact m.source k j before
  · rcases Assoc.mem_insert hj with here | before
    · obtain ⟨-, rfl⟩ := Prod.mk.inj here
      exact ⟨target, ht, blockOf_append r answer⟩
    · rw [left.home j (old k j before) id]
      exact m.home k j before
  · rcases Assoc.mem_insert hj with here | before
    · obtain ⟨rfl, rfl⟩ := Prod.mk.inj here
      rw [read, ← m.same.reads k slot id, reads_of_inst hi]
      simp
    · rw [same.reads j (old k j before) id]
      exact m.mirror k j before slot

theorem copyBlock (hf : f.Consistent) (hb : b ∈ blocks) :
    Yields (copyBlock suffix state b) fun state' => f.Copies state' ∧
      f.Mirrors blocks id state' := by
  refine .ask fun block answer => ?_
  have left : state.1.Leaves (fun _ => False) (state.1.addBlock (suffixed block.name suffix)).1 :=
    leaves_addBlock _
  have next : ∀ c ∈ state.2.blocks, c.index < state.1.blocks.size := fun c hc => (m.fresh c hc).2
  have h₁ : f.Copies ((state.1.addBlock (suffixed block.name suffix)).1, { state.2 with
      blocks := state.2.blocks ++ [⟨state.1.blocks.size⟩]
      blockMap := state.2.blockMap.insert b ⟨state.1.blocks.size⟩ }) :=
    ⟨h.consistent.addBlock _, h.leaves.trans left, h.placed, h.one⟩
  have m₁ : f.Mirrors blocks id ((state.1.addBlock (suffixed block.name suffix)).1, { state.2 with
      blocks := state.2.blocks ++ [⟨state.1.blocks.size⟩]
      blockMap := state.2.blockMap.insert b ⟨state.1.blocks.size⟩ }) := by
    refine ⟨m.same.trans (sameReads_addBlock _), ?_, fun c hc => ?_, m.source, fun k j hj => ?_,
      m.mirror⟩
    · refine m.nodup.append (List.nodup_singleton _) (List.disjoint_singleton.mpr fun mem => ?_)
      exact absurd (next _ mem) (Nat.lt_irrefl _)
    · have grown : (state.1.addBlock (suffixed block.name suffix)).1.blocks.size =
          state.1.blocks.size + 1 := by simp [addBlock, newBlock]
      rcases List.mem_append.mp hc with before | here
      · exact ⟨(m.fresh c before).1, by rw [grown]; exact Nat.lt_succ_of_lt (next c before)⟩
      · obtain rfl := List.mem_singleton.mp here
        exact ⟨m.same.grows.blocks, by simp [grown]⟩
    · obtain ⟨c, hc, home⟩ := m.home k j hj
      exact ⟨c, List.mem_append_left _ hc, home⟩
  refine (Yields.foldlM (r := fun state' => f.Copies state' ∧ f.Mirrors blocks id state' ∧
    ⟨state.1.blocks.size⟩ ∈ state'.2.blocks) ⟨h₁, m₁, by simp⟩ fun state' known i hi => ?_).mono
      fun _ known => ⟨known.1, known.2.1⟩
  refine copyInto known.1 known.2.1 known.2.2 fun slot => ⟨b, hb, ?_⟩
  -- what stands in the block by now and was there before stood in it before
  have home := h.consistent.mem_code.mp (code_of_block answer ▸ hi)
  rw [h.leaves.home i slot id] at home
  exact hf.mem_code.mpr home

end Mirrors

/-- Copies of blocks read what their originals read, and the copies of what has been copied. -/
theorem mirrors_copyBlocks (hf : f.Consistent) {blocks : List BlockId} {suffix : String} :
    Yields (f.copyBlocks blocks suffix) fun r => f.Mirrors blocks r.2.mapValue r := by
  have start : f.Copies (f, ⟨[], [], []⟩) := ⟨hf, .refl f, by simp, by simp⟩
  have none : f.Mirrors blocks id (f, ⟨[], [], []⟩) :=
    ⟨.refl f, by simp, by simp, by simp, by simp, by simp⟩
  refine Yields.bind (p := fun state => f.Copies state ∧ f.Mirrors blocks id state)
    (.foldlM ⟨start, none⟩ fun state known b hb => Mirrors.copyBlock known.1 known.2 hf hb)
    fun state known => .ask fun g rewiring => .pure ?_
  obtain ⟨h, m⟩ := known
  have grows : state.1.Grows g := grows_foldlM (fun _ _ => grows_rewireBlock) g rewiring
  obtain ⟨home, read⟩ := reads_rewireBlocks h.consistent m.nodup g rewiring
  -- what was there before stands in no copied block
  have apart : ∀ i : InstId, i.index < f.insts.size → ∀ b ∈ state.2.blocks,
      state.1.blockOf i ≠ some b := by
    intro i slot b hb here
    rw [h.leaves.home i slot id] at here
    exact absurd (slot_of_mem_code (hf.mem_code.mpr here)) (Nat.not_lt.mpr (m.fresh b hb).1)
  refine ⟨⟨m.same.grows.trans grows, fun i slot _ => ?_⟩, m.nodup, fun b hb => ?_, m.source,
    fun i j hj => ?_, fun i j hj slot => ?_⟩
  · rw [(read i).2 (apart i slot), m.same.reads i slot id]
  · exact ⟨(m.fresh b hb).1, Nat.lt_of_lt_of_le (m.fresh b hb).2 grows.blocks⟩
  · rw [home]
    exact m.home i j hj
  · rw [(read j).1 (m.home i j hj), m.mirror i j hj slot, List.map_id_fun]
    simp

end Func

end KernelCoarsening
