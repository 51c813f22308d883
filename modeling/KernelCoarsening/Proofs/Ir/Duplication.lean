/-
What copies of blocks are.

Copies take the next slots, in the order of what they copy, and the function before them is left as
it is:

* `Func.Twin` — a function with copies of blocks: the copy of a block lists the copies of its
  instructions, and the copy of an instruction refers to copies;
* `Func.BlockCopied` — what copying one block does to it;
* `Func.exists_copyBlocks` — this is what copying blocks makes of a function;
* `Func.Twin.leads` — the copy of a block leads to the copies of what the block leads to.
-/
import KernelCoarsening.Proofs.Divergence.Straight
import KernelCoarsening.Proofs.Flow.LoopNesting
import KernelCoarsening.Proofs.Ir.Frame

namespace KernelCoarsening

/-- The copy of an instruction, or the instruction itself if it was not copied. -/
def BlockCopy.mapInst (copy : BlockCopy) (i : InstId) : InstId := (copy.instMap.get? i).getD i

/-- Instructions that are altered apart from each other are altered together. -/
theorem Outline.alter_apart {o : Outline} {p q r : InstId → Prop} [DecidablePred p]
    [DecidablePred q] [DecidablePred r] {k : Operation → Operation} (apart : ∀ i, p i → ¬ q i)
    (both : ∀ i, r i ↔ p i ∨ q i) : (o.alter p k).alter q k = o.alter r k := by
  simp only [alter, Outline.mk.injEq, true_and, and_true]
  funext i
  by_cases hp : p i
  · simp [hp, apart i hp, (both i).mpr (.inl hp)]
  · simp [hp, both]

namespace Func

variable {f g : Func} {b target : BlockId} {i j : InstId} {blocks done : List BlockId}
  {suffix : String}

/-! ### Where blocks lead -/

/-- The blocks that a block leads to: those of its last instruction. -/
def leads (f : Func) (b : BlockId) : List BlockId :=
  ((f.code b).getLast?.bind f.kind).elim [] (·.2)

theorem leads_of_getLast? {op : Operation} {ty : Ty} (last : (f.code b).getLast? = some i)
    (line : f.line i = some (op, ty)) : f.leads b = op.successors := by
  simp [leads, last, kind, line]

theorem leads_of_nil (none : f.code b = []) : f.leads b = [] := by simp [leads, none]

theorem slot_of_mem_leads {c : BlockId} (h : c ∈ f.leads b) : b.index < f.blocks.size := by
  cases code : f.code b with
  | nil => simp [leads_of_nil code] at h
  | cons i rest => exact slot_of_mem_code (code ▸ List.mem_cons_self : i ∈ f.code b)

/-- The successors of a block are what it leads to. -/
theorem Consistent.successors_eq (hf : f.Consistent) (slot : b.index < f.blocks.size) :
    f.successors b = .ok (f.leads b) := by
  obtain ⟨block, hb, insts⟩ := exists_block slot
  cases last : (f.code b).getLast? with
  | none =>
    have none : f.code b = [] := List.getLast?_eq_none_iff.mp last
    simp [successors, terminator, hb, insts, none, leads, bind, Except.bind, pure, Except.pure]
  | some t =>
    have placed := hf.mem_code.mp (List.mem_of_getLast? last)
    obtain ⟨op, ty, line⟩ := exists_line (by simp [placed] : (f.blockOf t).isSome)
    have hop : f.operation t = .ok op := operation_eq_ok_iff.mpr ⟨ty, line⟩
    rw [leads_of_getLast? last line]
    cases term : op.isTerminator with
    | true =>
      simp [successors, terminator, hb, insts, last, hop, term, bind, Except.bind, pure,
        Except.pure]
    | false =>
      simp [successors, terminator, hb, insts, last, hop, term, bind, Except.bind, pure,
        Except.pure, Operation.successors_of_plain term]

/-- The edges of the graph are where blocks lead. -/
theorem Consistent.mem_next (hf : f.Consistent) {graph : Graph} (hg : f.graph = .ok graph)
    {c : BlockId} : c.index ∈ graph.next b.index ↔ c ∈ f.leads b := by
  by_cases slot : b.index < f.blocks.size
  · exact mem_next_graph hg (hf.successors_eq slot) (size_graph hg ▸ slot)
  · have none : f.code b = [] := List.eq_nil_iff_forall_not_mem.mpr fun i hi =>
      slot (slot_of_mem_code hi)
    have outside : ¬ b.index < graph.succs.size := fun lt => slot (size_graph hg ▸ lt)
    simp [leads_of_nil none, Graph.next, Array.getElem?_eq_none (Nat.not_lt.mp outside)]

/-! ### Copies of instructions -/

variable (target suffix) in
/-- Copies of instructions are appended to a block and take the next slots, in their order. -/
theorem exists_copyInsts (hf : f.Consistent) (slot : target.index < f.blocks.size)
    {list : List InstId} (nodup : list.Nodup) (old : ∀ i ∈ list, i.index < f.insts.size)
    (copy : BlockCopy) :
    ∃ g made, list.foldlM (copyInto target suffix) (f, copy) = .ok (g, made) ∧
      made.blocks = copy.blocks ∧ made.blockMap = copy.blockMap ∧
      (∀ i, made.instMap.get? i = if i ∈ list then some ⟨f.insts.size + list.idxOf i⟩
        else copy.instMap.get? i) ∧
      (copy.instMap.keys.Nodup → made.instMap.keys.Nodup) ∧
      g.Consistent ∧ g.layout = f.layout ∧ g.blocks.size = f.blocks.size ∧
      f.insts.size ≤ g.insts.size ∧
      (∀ b, g.code b = if b = target then f.code target ++ list.map made.mapInst else f.code b) ∧
      (∀ j : InstId, j.index < f.insts.size → g.line j = f.line j) ∧
      ∀ i ∈ list, g.line (made.mapInst i) = f.line i := by
  induction list generalizing f copy with
  | nil =>
    exact ⟨f, copy, rfl, rfl, rfl, by simp, id, hf, rfl, rfl, Nat.le_refl _, by simp, by simp,
      by simp⟩
  | cons i rest ih =>
    obtain ⟨out, nodup⟩ := List.nodup_cons.mp nodup
    rw [List.forall_mem_cons] at old
    obtain ⟨inst, hi⟩ := exists_inst old.1
    obtain ⟨g₁, answer, same⟩ := outline_append inst.op inst.ty (suffixed inst.name suffix) slot
    have size : g₁.insts.size = f.insts.size + 1 := congrArg Outline.insts same
    have blocks : g₁.blocks.size = f.blocks.size := congrArg Outline.blocks same
    have code : g₁.code = Function.update f.code target (f.code target ++ [⟨f.insts.size⟩]) :=
      congrArg Outline.code same
    have line : g₁.line = Function.update f.line ⟨f.insts.size⟩ (some (inst.op, inst.ty)) :=
      congrArg Outline.line same
    have kept : ∀ j : InstId, j.index < f.insts.size → g₁.line j = f.line j := by
      intro j slot
      have other : j ≠ ⟨f.insts.size⟩ := by
        rintro rfl
        exact absurd slot (Nat.lt_irrefl _)
      rw [line, Function.update_of_ne other]
    have consistent : g₁.Consistent := hf.append _ answer
    obtain ⟨g, made, rest', blocks', blockMap, instMap, keys, consistent', layout, size', grown,
      code', line', copied⟩ := ih consistent (blocks ▸ slot) nodup
        (fun j hj => Nat.lt_trans (old.2 j hj) (size ▸ Nat.lt_succ_self _))
        { copy with instMap := copy.instMap.insert i ⟨f.insts.size⟩ }
    have first : made.mapInst i = ⟨f.insts.size⟩ := by
      simp [BlockCopy.mapInst, instMap, out]
    refine ⟨g, made, ?_, blocks', blockMap, fun j => ?_,
      fun nodup => keys (Assoc.nodup_insert nodup ..), consistent', ?_, size'.trans blocks,
      Nat.le_trans (size ▸ Nat.le_succ _) grown, fun c => ?_, fun j slot => ?_, ?_⟩
    · rw [List.foldlM_cons]
      simpa [copyInto, hi, answer, bind, Except.bind, pure, Except.pure] using rest'
    · rw [instMap, Assoc.get?_insert, size]
      by_cases here : j = i
      · subst here
        simp [out]
      · by_cases later : j ∈ rest
        · simp [here, later, List.idxOf_cons_ne _ (Ne.symm here)]
          omega
        · simp [here, later, Ne.symm here]
    · rw [layout]
      exact congrArg Outline.layout same
    · rw [code', code]
      by_cases here : c = target
      · simp [here, first]
      · simp [here]
    · rw [line' j (Nat.lt_trans slot (size ▸ Nat.lt_succ_self _)), kept j slot]
    · refine List.forall_mem_cons.mpr ⟨?_, fun j hj => ?_⟩
      · rw [first, line' _ (size ▸ Nat.lt_succ_self _), line, Function.update_self, line_of_inst hi]
      · rw [copied j hj, kept j (old.2 j hj)]

/-! ### Copies of blocks -/

/-- One block has been copied: the new block at the end holds copies of its instructions. -/
structure BlockCopied (b : BlockId) (state state' : Func × BlockCopy) : Prop where
  consistent : state'.1.Consistent
  layout : state'.1.layout = state.1.layout ++ [⟨state.1.blocks.size⟩]
  size : state'.1.blocks.size = state.1.blocks.size + 1
  ids : state'.2.blocks = state.2.blocks ++ [⟨state.1.blocks.size⟩]
  insts : state.1.insts.size ≤ state'.1.insts.size
  code : ∀ c, state'.1.code c = if c = ⟨state.1.blocks.size⟩
    then (state.1.code b).map state'.2.mapInst else state.1.code c
  line : ∀ i : InstId, i.index < state.1.insts.size → state'.1.line i = state.1.line i
  blockMap : ∀ c, state'.2.blockMap.get? c =
    if b = c then some ⟨state.1.blocks.size⟩ else state.2.blockMap.get? c
  instMap : ∀ i, state'.2.instMap.get? i = if i ∈ state.1.code b
    then some ⟨state.1.insts.size + (state.1.code b).idxOf i⟩ else state.2.instMap.get? i
  keys : state.2.instMap.keys.Nodup → state'.2.instMap.keys.Nodup
  lines : ∀ i ∈ state.1.code b, state'.1.line (state'.2.mapInst i) = state.1.line i

variable (suffix) in
theorem Consistent.exists_blockCopied {state : Func × BlockCopy} (h : state.1.Consistent)
    (slot : b.index < state.1.blocks.size) :
    ∃ state', Func.copyBlock suffix state b = .ok state' ∧ BlockCopied b state state' := by
  obtain ⟨g, copy⟩ := state
  obtain ⟨block, hb, insts⟩ := exists_block (f := g) slot
  generalize hg₁ : (g.addBlock (suffixed block.name suffix)).1 = g₁
  have code₁ : g₁.code = g.code := by
    rw [← hg₁]
    exact congrArg Outline.code (outline_newBlock (f := g) (suffixed block.name suffix))
  have line₁ : g₁.line = g.line := by rw [← hg₁]; rfl
  have insts₁ : g₁.insts.size = g.insts.size := by rw [← hg₁]; rfl
  have size₁ : g₁.blocks.size = g.blocks.size + 1 := by
    simp [← hg₁, Func.addBlock, Func.newBlock]
  have layout₁ : g₁.layout = g.layout ++ [⟨g.blocks.size⟩] := by rw [← hg₁]; rfl
  have empty : g.code ⟨g.blocks.size⟩ = [] := by
    refine List.eq_nil_iff_forall_not_mem.mpr fun i hi => ?_
    exact absurd (slot_of_mem_code hi) (Nat.lt_irrefl _)
  obtain ⟨g₂, made, answer, blocks, blockMap, instMap, keys, consistent, layout, size₂, grown,
    code, line, copied⟩ := exists_copyInsts (f := g₁) ⟨g.blocks.size⟩ suffix
      (hg₁ ▸ h.addBlock _) (size₁ ▸ Nat.lt_succ_self _) (h.code_nodup b)
      (fun i hi => insts₁ ▸ h.lt_of_mem_code hi)
      { copy with
        blocks := copy.blocks ++ [⟨g.blocks.size⟩]
        blockMap := copy.blockMap.insert b ⟨g.blocks.size⟩ }
  refine ⟨(g₂, made), ?_, consistent, layout.trans layout₁, size₂.trans size₁, blocks,
    insts₁ ▸ grown, fun c => ?_, fun i slot => ?_, fun c => ?_, fun i => ?_, keys, fun i hi => ?_⟩
  · rw [Func.copyBlock, bind_eq_ok_iff]
    exact ⟨block, hb, by rw [insts]; subst hg₁; exact answer⟩
  · rw [code, code₁, empty, List.nil_append]
  · rw [line i (insts₁ ▸ slot), line₁]
  · rw [blockMap, Assoc.get?_insert]
  · rw [instMap, insts₁]
  · rw [copied i hi, line₁]

/-- What holds while blocks are copied, before the copies refer to each other: the function is left
as it was, and each copy does what its original does. -/
structure Duplicating (f : Func) (done : List BlockId) (state : Func × BlockCopy) : Prop where
  consistent : state.1.Consistent
  layout : state.1.layout = f.layout ++ state.2.blocks
  size : state.1.blocks.size = f.blocks.size + done.length
  ids : state.2.blocks = (List.range' f.blocks.size done.length).map BlockId.mk
  insts : f.insts.size ≤ state.1.insts.size
  code : ∀ b : BlockId, b.index < f.blocks.size → state.1.code b = f.code b
  line : ∀ i : InstId, i.index < f.insts.size → state.1.line i = f.line i
  blockMap : ∀ b, state.2.blockMap.get? b =
    if b ∈ done then some ⟨f.blocks.size + done.idxOf b⟩ else none
  instMap : ∀ i, (state.2.instMap.get? i).isSome ↔ i ∈ done.flatMap f.code
  keys : state.2.instMap.keys.Nodup
  new : ∀ i ∈ done.flatMap f.code, f.insts.size ≤ (state.2.mapInst i).index
  copied : ∀ b ∈ done, state.1.code (state.2.mapBlock b) = (f.code b).map state.2.mapInst
  lines : ∀ i ∈ done.flatMap f.code, state.1.line (state.2.mapInst i) = f.line i

theorem Duplicating.mapBlock {state : Func × BlockCopy} (h : f.Duplicating done state)
    (hb : b ∈ done) : state.2.mapBlock b = ⟨f.blocks.size + done.idxOf b⟩ := by
  simp [BlockCopy.mapBlock, h.blockMap, hb]

/-- The copies are those of the blocks, in their order. -/
theorem Duplicating.blocks_eq {state : Func × BlockCopy} (h : f.Duplicating done state)
    (nodup : done.Nodup) : state.2.blocks = done.map state.2.mapBlock := by
  rw [h.ids, List.map_congr_left fun b hb => h.mapBlock hb]
  refine List.ext_getElem (by simp) fun n hn hn' => ?_
  simp [nodup.idxOf_getElem]

/-- The instructions of the copies are the copies of the instructions. -/
theorem Duplicating.flatMap_code {state : Func × BlockCopy} (h : f.Duplicating done state)
    (nodup : done.Nodup) :
    state.2.blocks.flatMap state.1.code = (done.flatMap f.code).map state.2.mapInst := by
  rw [h.blocks_eq nodup, List.flatMap_map, List.map_flatMap]
  exact List.flatMap_congr fun b hb => h.copied b hb

/-- Instructions of different blocks differ. -/
theorem Consistent.not_mem_code (hf : f.Consistent) {c : BlockId} (mem : i ∈ f.code c)
    (other : c ≠ b) : i ∉ f.code b := fun mem' =>
  other (Option.some.inj ((hf.mem_code.mp mem).symm.trans (hf.mem_code.mp mem')))

section step

variable {state state' : Func × BlockCopy}

/-- Instructions of the other blocks keep their copies. -/
theorem BlockCopied.mapInst_of_notMem (step : BlockCopied b state state')
    (out : i ∉ state.1.code b) : state'.2.mapInst i = state.2.mapInst i := by
  simp [BlockCopy.mapInst, step.instMap, out]

/-- The copies of the instructions of the block are new. -/
theorem BlockCopied.le_mapInst (step : BlockCopied b state state') (hi : i ∈ state.1.code b) :
    state.1.insts.size ≤ (state'.2.mapInst i).index := by
  simp [BlockCopy.mapInst, step.instMap, hi]

theorem BlockCopied.mapBlock (step : BlockCopied b state state') (c : BlockId) :
    state'.2.mapBlock c = if b = c then ⟨state.1.blocks.size⟩ else state.2.mapBlock c := by
  unfold BlockCopy.mapBlock
  rw [step.blockMap]
  split <;> rfl

/-- What was copied before stands in other blocks. -/
theorem Duplicating.mapInst_of_mem (hf : f.Consistent) (h : f.Duplicating done state)
    (step : BlockCopied b state state') (slot : b.index < f.blocks.size) (new : b ∉ done)
    {c : BlockId} (hc : c ∈ done) (hi : i ∈ f.code c) :
    state'.2.mapInst i = state.2.mapInst i := by
  refine step.mapInst_of_notMem ?_
  rw [h.code b slot]
  exact hf.not_mem_code hi fun same : c = b => new (same ▸ hc)

/-- After one more block, each copy still lists the copies of the instructions of its block. -/
theorem Duplicating.code_mapBlock (hf : f.Consistent) (h : f.Duplicating done state)
    (step : BlockCopied b state state') (slot : b.index < f.blocks.size) (new : b ∉ done)
    {c : BlockId} (hc : c ∈ done ++ [b]) :
    state'.1.code (state'.2.mapBlock c) = (f.code c).map state'.2.mapInst := by
  rcases List.mem_append.mp hc with hc | hc
  · have apart : b ≠ c := fun same => new (same ▸ hc)
    have other : state.2.mapBlock c ≠ ⟨state.1.blocks.size⟩ := by
      have := List.idxOf_lt_length_of_mem hc
      rw [h.mapBlock hc, h.size]
      simp
      omega
    rw [step.mapBlock, if_neg apart, step.code, if_neg other, h.copied c hc]
    exact List.map_congr_left fun i hi => (h.mapInst_of_mem hf step slot new hc hi).symm
  · obtain rfl := List.mem_singleton.mp hc
    rw [step.mapBlock, if_pos rfl, step.code, if_pos rfl, h.code c slot]

/-- After one more block, each copy of an instruction still does what the instruction does. -/
theorem Duplicating.line_mapInst (hf : f.Consistent) (h : f.Duplicating done state)
    (step : BlockCopied b state state') (slot : b.index < f.blocks.size) (new : b ∉ done)
    (hi : i ∈ (done ++ [b]).flatMap f.code) : state'.1.line (state'.2.mapInst i) = f.line i := by
  rw [List.flatMap_append, List.flatMap_singleton, List.mem_append] at hi
  by_cases here : i ∈ f.code b
  · rw [step.lines i (h.code b slot ▸ here), h.line i (hf.lt_of_mem_code here)]
  · have there := hi.resolve_right here
    obtain ⟨c, hc, mem⟩ := List.mem_flatMap.mp there
    have does := h.lines i there
    have placed : (state.2.mapInst i).index < state.1.insts.size := by
      rw [← line_isSome_iff, does, line_isSome_iff]
      exact hf.lt_of_mem_code mem
    rw [h.mapInst_of_mem hf step slot new hc mem, step.line _ placed, does]

/-- One more block is copied. -/
theorem Duplicating.copyBlock (hf : f.Consistent) (h : f.Duplicating done state)
    (slot : b.index < f.blocks.size) (new : b ∉ done) :
    ∃ state', Func.copyBlock suffix state b = .ok state' ∧ f.Duplicating (done ++ [b]) state' := by
  obtain ⟨state', answer, step⟩ :=
    h.consistent.exists_blockCopied (b := b) suffix (h.size ▸ Nat.lt_add_right _ slot)
  refine ⟨state', answer, step.consistent, ?_, ?_, ?_, h.insts.trans step.insts, fun c old => ?_,
    fun i old => ?_, fun c => ?_, fun i => ?_, step.keys h.keys, fun i hi => ?_,
    fun c hc => h.code_mapBlock hf step slot new hc,
    fun i hi => h.line_mapInst hf step slot new hi⟩
  · rw [step.layout, step.ids, ← List.append_assoc, ← h.layout]
  · rw [step.size, h.size, List.length_append]
    rfl
  · rw [step.ids, h.ids, h.size, List.length_append, List.length_singleton, List.range'_concat]
    simp
  · have other : c ≠ ⟨state.1.blocks.size⟩ := by
      rintro rfl
      rw [h.size] at old
      simp at old
    rw [step.code, if_neg other, h.code c old]
  · rw [step.line i (Nat.lt_of_lt_of_le old h.insts), h.line i old]
  · rw [step.blockMap, h.blockMap c]
    by_cases here : b = c
    · subst here
      simp [h.size, List.idxOf_append_of_notMem new]
    · by_cases there : c ∈ done
      · simp [here, there, List.idxOf_append_of_mem there]
      · simp [here, there, Ne.symm here]
  · rw [step.instMap, h.code b slot, List.flatMap_append, List.mem_append, List.flatMap_singleton]
    by_cases here : i ∈ f.code b
    · simp [here]
    · simp only [here, if_false, or_false]
      exact h.instMap i
  · rw [List.flatMap_append, List.flatMap_singleton, List.mem_append] at hi
    by_cases here : i ∈ f.code b
    · exact h.insts.trans (step.le_mapInst (h.code b slot ▸ here))
    · have there := hi.resolve_right here
      obtain ⟨c, hc, mem⟩ := List.mem_flatMap.mp there
      rw [h.mapInst_of_mem hf step slot new hc mem]
      exact h.new i there

end step

variable (suffix) in
/-- Blocks are copied one after the other. -/
theorem exists_copied (hf : f.Consistent) {list : List BlockId} {state : Func × BlockCopy}
    (h : f.Duplicating done state) (slots : ∀ b ∈ list, b.index < f.blocks.size)
    (nodup : (done ++ list).Nodup) :
    ∃ state', list.foldlM (Func.copyBlock suffix) state = .ok state' ∧
      f.Duplicating (done ++ list) state' := by
  induction list generalizing done state with
  | nil => exact ⟨state, rfl, by simpa using h⟩
  | cons b rest ih =>
    rw [List.forall_mem_cons] at slots
    have new : b ∉ done := fun hb => (List.disjoint_of_nodup_append nodup hb) (by simp)
    obtain ⟨state₁, answer, h₁⟩ := h.copyBlock hf slots.1 new
    obtain ⟨state₂, answer', h₂⟩ := ih h₁ slots.2 (by simpa using nodup)
    exact ⟨state₂, by rw [List.foldlM_cons, answer]; exact answer', by simpa using h₂⟩

/-! ### References to copies -/

/-- Changing what each of some instructions does, once. -/
theorem alter_each {k : Operation → Operation} {xs : List InstId} (nodup : xs.Nodup)
    (inside : ∀ i ∈ xs, i.index < f.insts.size) :
    ∃ g, xs.foldlM (fun f i => f.modifyOperation i k) f = .ok g ∧
      g.outline = f.outline.alter (· ∈ xs) k := by
  induction xs generalizing f with
  | nil => exact ⟨f, rfl, (Outline.alter_of_not (by simp)).symm⟩
  | cons x xs ih =>
    obtain ⟨out, nodup⟩ := List.nodup_cons.mp nodup
    obtain ⟨f₁, h₁, same₁⟩ := alter_modifyOperation k (inside x (by simp))
    have size : f₁.insts.size = f.insts.size := congrArg Outline.insts same₁
    obtain ⟨g, h₂, same₂⟩ := ih (f := f₁) nodup fun i hi =>
      size ▸ inside i (List.mem_cons_of_mem _ hi)
    refine ⟨g, by rw [List.foldlM_cons, h₁]; exact h₂, ?_⟩
    rw [same₂, same₁]
    exact Outline.alter_apart (by rintro i rfl; exact out) fun i => by simp

/-- The instructions of some blocks come to refer to copies. -/
theorem alter_rewireBlocks (hf : f.Consistent) (copy : BlockCopy) {list : List BlockId}
    (nodup : list.Nodup) (slots : ∀ b ∈ list, b.index < f.blocks.size) :
    ∃ g, list.foldlM (rewireBlock copy) f = .ok g ∧
      g.outline = f.outline.alter (· ∈ list.flatMap f.code) copy.mapOperation := by
  induction list generalizing f with
  | nil => exact ⟨f, rfl, (Outline.alter_of_not (by simp)).symm⟩
  | cons b rest ih =>
    obtain ⟨out, nodup⟩ := List.nodup_cons.mp nodup
    rw [List.forall_mem_cons] at slots
    obtain ⟨block, hb, insts⟩ := exists_block slots.1
    obtain ⟨f₁, h₁, same₁⟩ := alter_each (k := copy.mapOperation) (hf.code_nodup b) fun i hi =>
      hf.lt_of_mem_code hi
    have code : f₁.code = f.code := congrArg Outline.code same₁
    have size : f₁.blocks.size = f.blocks.size := congrArg Outline.blocks same₁
    obtain ⟨g, h₂, same₂⟩ := ih (f := f₁) (hf.of_alter same₁) nodup fun c hc => size ▸ slots.2 c hc
    have here : rewireBlock copy f b = .ok f₁ := by
      rw [rewireBlock, bind_eq_ok_iff]
      exact ⟨block, hb, insts ▸ h₁⟩
    refine ⟨g, by rw [List.foldlM_cons, here]; exact h₂, ?_⟩
    rw [same₂, same₁, code]
    refine Outline.alter_apart (fun i hi later => ?_) fun i => by simp
    obtain ⟨c, hc, mem⟩ := List.mem_flatMap.mp later
    exact hf.not_mem_code mem (fun same : c = b => out (same ▸ hc)) hi

/-- A function goes on with more blocks and instructions, and what was there is as it was. -/
structure Carries (f g : Func) : Prop where
  layout : f.layout <+: g.layout
  blocks : f.blocks.size ≤ g.blocks.size
  insts : f.insts.size ≤ g.insts.size
  code : ∀ b : BlockId, b.index < f.blocks.size → g.code b = f.code b
  line : ∀ i : InstId, i.index < f.insts.size → g.line i = f.line i

namespace Carries

theorem refl (f : Func) : f.Carries f :=
  ⟨List.prefix_refl _, Nat.le_refl _, Nat.le_refl _, fun _ _ => rfl, fun _ _ => rfl⟩

theorem trans {h : Func} (first : f.Carries g) (second : g.Carries h) : f.Carries h where
  layout := first.layout.trans second.layout
  blocks := first.blocks.trans second.blocks
  insts := first.insts.trans second.insts
  code b slot := (second.code b (slot.trans_le first.blocks)).trans (first.code b slot)
  line i slot := (second.line i (slot.trans_le first.insts)).trans (first.line i slot)

end Carries

/-- A copy of blocks of a function lies in another function, which carries the former.  The copy of
a block lists the copies of its instructions, and the copy of an instruction does what the
instruction does, with copies in the place of what has been copied. -/
structure Twin (f g : Func) (blocks : List BlockId) (copy : BlockCopy) : Prop where
  listed : copy.blocks = blocks.map copy.mapBlock
  nodup : copy.blocks.Nodup
  fresh : ∀ b ∈ copy.blocks, f.blocks.size ≤ b.index ∧ b.index < g.blocks.size
  blockMap : ∀ b, (copy.blockMap.get? b).isSome ↔ b ∈ blocks
  instMap : ∀ i, (copy.instMap.get? i).isSome ↔ i ∈ blocks.flatMap f.code
  keys : copy.instMap.keys.Nodup
  new : ∀ i ∈ blocks.flatMap f.code, f.insts.size ≤ (copy.mapInst i).index
  code : ∀ b ∈ blocks, g.code (copy.mapBlock b) = (f.code b).map copy.mapInst
  line : ∀ i ∈ blocks.flatMap f.code, g.line (copy.mapInst i) =
    (f.line i).map fun line => (copy.mapOperation line.1, line.2)

/-- Before the first block is copied. -/
theorem Duplicating.start (hf : f.Consistent) : f.Duplicating [] (f, ⟨[], [], []⟩) :=
  ⟨hf, by simp, by simp, by simp, Nat.le_refl _, fun _ _ => rfl, fun _ _ => rfl,
    by simp [Assoc.get?], by simp [Assoc.get?], by simp [Assoc.keys], by simp, by simp, by simp⟩

variable (suffix) in
/-- Copying blocks, each once, makes copies of them at the end of the layout. -/
theorem exists_copyBlocks (hf : f.Consistent) (nodup : blocks.Nodup)
    (slots : ∀ b ∈ blocks, b.index < f.blocks.size) :
    ∃ g copy, f.copyBlocks blocks suffix = .ok (g, copy) ∧ g.Consistent ∧ f.Carries g ∧
      f.Twin g blocks copy ∧ g.layout = f.layout ++ copy.blocks := by
  obtain ⟨⟨g, copy⟩, answer, h⟩ := exists_copied suffix hf (.start hf) slots (by simpa using nodup)
  rw [List.nil_append] at h
  have ids : copy.blocks = _ := h.ids
  have size : g.blocks.size = f.blocks.size + blocks.length := h.size
  have distinct : copy.blocks.Nodup := by
    rw [ids]
    exact List.Nodup.map (fun _ _ same => BlockId.mk.inj same) (List.nodup_range' ..)
  have fresh : ∀ b ∈ copy.blocks, f.blocks.size ≤ b.index ∧ b.index < g.blocks.size := by
    intro b hb
    rw [ids, List.mem_map] at hb
    obtain ⟨n, hn, rfl⟩ := hb
    obtain ⟨above, below⟩ := List.mem_range'_1.mp hn
    exact ⟨above, by simp only [size]; omega⟩
  have consistent : g.Consistent := h.consistent
  obtain ⟨g', rewired, same⟩ := alter_rewireBlocks consistent copy distinct fun b hb =>
    (fresh b hb).2
  have code : g'.code = g.code := congrArg Outline.code same
  have size' : g'.blocks.size = g.blocks.size := congrArg Outline.blocks same
  have layout : g'.layout = f.layout ++ copy.blocks :=
    (congrArg Outline.layout same).trans h.layout
  -- only copies are rewired
  have line : ∀ i, g'.line i = if i ∈ (blocks.flatMap f.code).map copy.mapInst then
      (g.line i).map fun line => (copy.mapOperation line.1, line.2) else g.line i := fun i => by
    rw [← h.flatMap_code nodup]
    exact congrFun (congrArg Outline.line same) i
  refine ⟨g', copy, ?_, consistent.of_alter same, ?_, ?_, layout⟩
  · rw [copyBlocks, bind_eq_ok_iff]
    exact ⟨_, answer, by simp [rewired, bind, Except.bind, pure, Except.pure]⟩
  · refine ⟨⟨_, layout.symm⟩, by omega, h.insts.trans_eq (congrArg Outline.insts same).symm,
      fun b slot => (congrFun code b).trans (h.code b slot), fun i slot => ?_⟩
    have other : i ∉ (blocks.flatMap f.code).map copy.mapInst := by
      intro mem
      obtain ⟨j, hj, rfl⟩ := List.mem_map.mp mem
      exact absurd slot (Nat.not_lt.mpr (h.new j hj))
    rw [line, if_neg other]
    exact h.line i slot
  · refine ⟨h.blocks_eq nodup, distinct, fun b hb => size' ▸ fresh b hb, fun b => ?_, h.instMap,
      h.keys, h.new,
      fun b hb => (congrFun code _).trans (h.copied b hb), fun i hi => ?_⟩
    · rw [show copy.blockMap.get? b = _ from h.blockMap b]
      split <;> simp_all
    · rw [line, if_pos (List.mem_map_of_mem hi)]
      exact congrArg _ (h.lines i hi)

/-- Blocks with the same instructions, which do the same, lead to the same blocks. -/
theorem leads_congr (code : g.code b = f.code b)
    (line : ∀ i ∈ f.code b, g.line i = f.line i) : g.leads b = f.leads b := by
  rw [leads, leads, code]
  cases last : (f.code b).getLast? with
  | none => rfl
  | some t => simp [kind, line t (List.mem_of_getLast? last)]

theorem Carries.leads (h : f.Carries g) (hf : f.Consistent) (slot : b.index < f.blocks.size) :
    g.leads b = f.leads b :=
  leads_congr (h.code b slot) fun i hi => h.line i (hf.lt_of_mem_code hi)

namespace Twin

variable {h : Func} {copy : BlockCopy}

theorem mem_map (twin : f.Twin g blocks copy) {c : BlockId} :
    c ∈ copy.blocks ↔ ∃ b ∈ blocks, copy.mapBlock b = c := by
  rw [twin.listed, List.mem_map]

/-- The copy of an instruction is listed with it. -/
theorem mem_instMap (twin : f.Twin g blocks copy) (hi : i ∈ blocks.flatMap f.code) :
    (i, copy.mapInst i) ∈ copy.instMap := by
  obtain ⟨j, entry⟩ := Option.isSome_iff_exists.mp ((twin.instMap i).mpr hi)
  rw [show copy.mapInst i = j by simp [BlockCopy.mapInst, entry]]
  exact Assoc.mem_of_get? entry

/-- The copy of a block leads to the copies of what the block leads to. -/
theorem leads (twin : f.Twin g blocks copy) (hf : f.Consistent) (hb : b ∈ blocks) :
    g.leads (copy.mapBlock b) = (f.leads b).map copy.mapBlock := by
  rw [Func.leads, twin.code b hb, List.getLast?_map, Func.leads]
  cases last : (f.code b).getLast? with
  | none => rfl
  | some t =>
    have mem := List.mem_of_getLast? last
    have does := twin.line t (List.mem_flatMap.mpr ⟨b, hb, mem⟩)
    obtain ⟨⟨op, ty⟩, line⟩ := Option.isSome_iff_exists.mp
      (line_isSome_iff.mpr (hf.lt_of_mem_code mem))
    simp [kind, does, line, BlockCopy.mapOperation]

/-- A function that carries a copy has it. -/
theorem extend (twin : f.Twin g blocks copy) (hf : f.Consistent) (carries : g.Carries h) :
    f.Twin h blocks copy := by
  have slot : ∀ i ∈ blocks.flatMap f.code, (copy.mapInst i).index < g.insts.size := by
    intro i hi
    obtain ⟨b, -, mem⟩ := List.mem_flatMap.mp hi
    rw [← line_isSome_iff, twin.line i hi, Option.isSome_map, line_isSome_iff]
    exact hf.lt_of_mem_code mem
  refine ⟨twin.listed, twin.nodup, fun b hb => (twin.fresh b hb).imp_right
    (·.trans_le carries.blocks), twin.blockMap, twin.instMap, twin.keys, twin.new,
    fun b hb => ?_, fun i hi => ?_⟩
  · have inside := (twin.fresh (copy.mapBlock b) (twin.mem_map.mpr ⟨b, hb, rfl⟩)).2
    exact (carries.code _ inside).trans (twin.code b hb)
  · exact (carries.line _ (slot i hi)).trans (twin.line i hi)

/-- What has been carried is there to be copied. -/
theorem restrict (twin : g.Twin h blocks copy) (hf : f.Consistent) (carries : f.Carries g)
    (slots : ∀ b ∈ blocks, b.index < f.blocks.size) : f.Twin h blocks copy := by
  have code : blocks.flatMap g.code = blocks.flatMap f.code :=
    List.flatMap_congr fun b hb => carries.code b (slots b hb)
  refine ⟨twin.listed, twin.nodup, fun b hb => (twin.fresh b hb).imp_left carries.blocks.trans,
    twin.blockMap, fun i => code ▸ twin.instMap i, twin.keys, fun i hi => ?_, fun b hb => ?_,
    fun i hi => ?_⟩
  · exact carries.insts.trans (twin.new i (code ▸ hi))
  · rw [twin.code b hb, carries.code b (slots b hb)]
  · obtain ⟨b, -, mem⟩ := List.mem_flatMap.mp hi
    rw [twin.line i (code ▸ hi), carries.line i (hf.lt_of_mem_code mem)]

end Twin

end Func

end KernelCoarsening
