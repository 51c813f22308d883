/-
A copy of blocks is an isomorphic copy.

The copies of instructions stand where the instructions stand, do the same with copies in the place
of what has been copied, and have its names with a suffix; nothing else in the function changes:

* `BlockCopy.Mirrors` — what a copied instruction does, told from the maps of the copy alone, one
  case for each kind of instruction;
* `Func.KeepsNames`, `Func.Labelled` — old names stay, and copies get theirs;
* `Func.inst_of_parts`, `Func.block_of_parts` — a slot is its line, its name and its place;
* `Func.Isomorphic`, `Func.copyBlocks_isomorphic` — all that copying blocks does.
-/
import KernelCoarsening.Proofs.Ir.BlockCopies
import KernelCoarsening.Proofs.Ir.Duplication

namespace KernelCoarsening

/-! ### What copies do -/

namespace BlockCopy

variable {copy : BlockCopy}

/-- An operand, and the operand of a copy that stands for it. -/
inductive Reads (copy : BlockCopy) : Value → Value → Prop where
  | copied {i j : InstId} (made : copy.instMap.get? i = some j) : Reads copy (.inst i) (.inst j)
  | outside {i : InstId} (other : copy.instMap.get? i = none) : Reads copy (.inst i) (.inst i)
  | undef : Reads copy .undef .undef
  | arg (n : Nat) : Reads copy (.arg n) (.arg n)
  | const (c : Int64) : Reads copy (.const c) (.const c)
  | global (g : GlobalId) : Reads copy (.global g) (.global g)

/-- A block that an instruction names, and the block that its copy names instead. -/
inductive Names (copy : BlockCopy) : BlockId → BlockId → Prop where
  | copied {b c : BlockId} (made : copy.blockMap.get? b = some c) : Names copy b c
  | outside {b : BlockId} (other : copy.blockMap.get? b = none) : Names copy b b

/-- What an instruction does, and what its copy does: the same with other operands and blocks. -/
inductive Mirrors (copy : BlockCopy) : Operation → Operation → Prop where
  | binary {op : BinaryOp} {l r l' r' : Value} (lhs : copy.Reads l l') (rhs : copy.Reads r r') :
      Mirrors copy (.binary op l r) (.binary op l' r')
  | compare {rel : Comparison} {l r l' r' : Value} (lhs : copy.Reads l l')
      (rhs : copy.Reads r r') : Mirrors copy (.compare rel l r) (.compare rel l' r')
  | convert {op : Conversion} {v v' : Value} (value : copy.Reads v v') :
      Mirrors copy (.convert op v) (.convert op v')
  | select {c t e c' t' e' : Value} (cond : copy.Reads c c') (onTrue : copy.Reads t t')
      (onFalse : copy.Reads e e') : Mirrors copy (.select c t e) (.select c' t' e')
  | phi {incoming incoming' : List (Value × BlockId)}
      (each : List.Forall₂ (fun p q => copy.Reads p.1 q.1 ∧ copy.Names p.2 q.2)
        incoming incoming') : Mirrors copy (.phi incoming) (.phi incoming')
  | element {b i b' i' : Value} (base : copy.Reads b b') (index : copy.Reads i i') :
      Mirrors copy (.element b i) (.element b' i')
  | load {p p' : Value} (ptr : copy.Reads p p') : Mirrors copy (.load p) (.load p')
  | store {p v p' v' : Value} (ptr : copy.Reads p p') (value : copy.Reads v v') :
      Mirrors copy (.store p v) (.store p' v')
  | call {callee : String} {args args' : List Value} (each : List.Forall₂ copy.Reads args args') :
      Mirrors copy (.call callee args) (.call callee args')
  | jump {t t' : BlockId} (target : copy.Names t t') : Mirrors copy (.jump t) (.jump t')
  | branch {c c' : Value} {t e t' e' : BlockId} (cond : copy.Reads c c')
      (onTrue : copy.Names t t') (onFalse : copy.Names e e') :
      Mirrors copy (.branch c t e) (.branch c' t' e')
  | ret {v v' : Option Value} (value : Option.Rel copy.Reads v v') :
      Mirrors copy (.ret v) (.ret v')
  | unreachable : Mirrors copy .unreachable .unreachable

theorem reads_mapValue (v : Value) : copy.Reads v (copy.mapValue v) := by
  cases v with
  | inst i =>
    simp only [mapValue]
    cases made : copy.instMap.get? i with
    | none => exact .outside made
    | some j => exact .copied made
  | arg n => exact .arg n
  | const c => exact .const c
  | global g => exact .global g
  | undef => exact .undef

theorem names_mapBlock (b : BlockId) : copy.Names b (copy.mapBlock b) := by
  unfold mapBlock
  cases made : copy.blockMap.get? b with
  | none => exact .outside made
  | some c => exact .copied made

/-- The operation that refers to copies does so in every operand and every block that it names. -/
theorem mirrors_mapOperation (op : Operation) : copy.Mirrors op (copy.mapOperation op) := by
  cases op with
  | binary op l r => exact .binary (reads_mapValue l) (reads_mapValue r)
  | compare rel l r => exact .compare (reads_mapValue l) (reads_mapValue r)
  | convert op v => exact .convert (reads_mapValue v)
  | select c t e => exact .select (reads_mapValue c) (reads_mapValue t) (reads_mapValue e)
  | phi incoming =>
    refine .phi ?_
    rw [List.map_map, List.forall₂_map_right_iff]
    exact List.forall₂_same.mpr fun p _ => ⟨reads_mapValue p.1, names_mapBlock p.2⟩
  | element b i => exact .element (reads_mapValue b) (reads_mapValue i)
  | load p => exact .load (reads_mapValue p)
  | store p v => exact .store (reads_mapValue p) (reads_mapValue v)
  | call callee args =>
    refine .call ?_
    rw [List.forall₂_map_right_iff]
    exact List.forall₂_same.mpr fun v _ => reads_mapValue v
  | jump t => exact .jump (names_mapBlock t)
  | branch c t e => exact .branch (reads_mapValue c) (names_mapBlock t) (names_mapBlock e)
  | ret v =>
    cases v with
    | none => exact .ret .none
    | some v => exact .ret (.some (reads_mapValue v))
  | unreachable => exact .unreachable

end BlockCopy

namespace Func

variable {f g h : Func} {state : Func × BlockCopy} {b target : BlockId} {i : InstId}
  {suffix : String} {blocks done : List BlockId}

/-! ### Names -/

/-- The name of a block, if it exists. -/
def blockName (f : Func) (b : BlockId) : Option String := f.blocks[b.index]?.map (·.name)

/-- The name of an instruction, if it exists. -/
def instName (f : Func) (i : InstId) : Option String := f.insts[i.index]?.map (·.name)

theorem instName_of_inst {inst : Inst} (h : f.inst i = .ok inst) : f.instName i = some inst.name := by
  rw [instName, inst_eq_ok_iff.mp h, Option.map_some]

theorem blockName_of_block {block : Block} (h : f.block b = .ok block) :
    f.blockName b = some block.name := by
  rw [blockName, block_eq_ok_iff.mp h, Option.map_some]

/-- Blocks and instructions that were there have the names that they had. -/
structure KeepsNames (f g : Func) : Prop where
  grows : f.Grows g
  blockName : ∀ b : BlockId, b.index < f.blocks.size → g.blockName b = f.blockName b
  instName : ∀ i : InstId, i.index < f.insts.size → g.instName i = f.instName i

namespace KeepsNames

theorem refl (f : Func) : f.KeepsNames f := ⟨.refl f, fun _ _ => rfl, fun _ _ => rfl⟩

theorem trans (first : f.KeepsNames g) (second : g.KeepsNames h) : f.KeepsNames h where
  grows := first.grows.trans second.grows
  blockName b old := (second.blockName b (old.trans_le first.grows.blocks)).trans
    (first.blockName b old)
  instName i old := (second.instName i (old.trans_le first.grows.insts)).trans
    (first.instName i old)

end KeepsNames

theorem KeepsNames.then {x : Except Fault Func} (first : f.KeepsNames g)
    (second : Yields x g.KeepsNames) : Yields x f.KeepsNames :=
  second.mono fun _ later => first.trans later

theorem keepsNames_modifyInst {k : Inst → Inst} (same : ∀ inst, (k inst).name = inst.name) :
    Yields (f.modifyInst i k) f.KeepsNames := by
  intro g answer
  have blocks : g.blocks = f.blocks := by
    obtain ⟨inst, -, answer⟩ := bind_eq_ok_iff.mp answer
    obtain rfl := Except.ok.inj answer
    rfl
  refine ⟨grows_modifyInst g answer, fun b _ => by rw [blockName, blockName, blocks],
    fun j _ => ?_⟩
  by_cases here : j = i
  · subst here
    rw [instName, instName, insts_modifyInst_self g answer, Option.map_map]
    exact Option.map_congr fun inst _ => same inst
  · rw [instName, instName, insts_modifyInst here g answer]

theorem keepsNames_modifyBlock {k : Block → Block} (same : ∀ block, (k block).name = block.name) :
    Yields (f.modifyBlock b k) f.KeepsNames := by
  intro g answer
  refine ⟨grows_modifyBlock g answer, fun c _ => ?_, fun i _ => ?_⟩
  · obtain ⟨block, hb, answer⟩ := bind_eq_ok_iff.mp answer
    obtain rfl := Except.ok.inj answer
    have slot := block_eq_ok_iff.mp hb
    by_cases here : b.index = c.index
    · have inside := (Array.getElem?_eq_some_iff.mp slot).1
      rw [blockName, blockName, ← here, slot, Array.getElem?_setIfInBounds_self_of_lt inside]
      exact congrArg some (same block)
    · rw [blockName, blockName, Array.getElem?_setIfInBounds_ne here]
  · rw [instName, instName, insts_modifyBlock g answer]

theorem keepsNames_newInst (op : Operation) (ty : Ty) (name : String) :
    f.KeepsNames (f.newInst op ty name).1 :=
  ⟨grows_newInst, fun _ _ => rfl, fun _ old => by rw [instName, instName, insts_newInst old]⟩

theorem keepsNames_addBlock (name : String) : f.KeepsNames (f.addBlock name).1 :=
  ⟨grows_addBlock, fun b old => by
    simp [blockName, addBlock, newBlock, Array.getElem?_push, Nat.ne_of_lt old], fun _ _ => rfl⟩

theorem keepsNames_place {n : Nat} : Yields (f.place b n i) f.KeepsNames := by
  refine Yields.bind (p := f.KeepsNames) (keepsNames_modifyBlock fun _ => rfl) fun g first => ?_
  exact first.then (keepsNames_modifyInst fun _ => rfl)

/-- An appended instruction has the name it was given. -/
theorem keepsNames_append {op : Operation} {ty : Ty} {name : String} :
    Yields (f.append b op ty name) fun r => f.KeepsNames r.1 ∧ r.1.instName r.2 = some name := by
  refine .ask fun block _ => keepsNames_place.bind fun g later => .pure ?_
  refine ⟨(keepsNames_newInst op ty name).trans later, ?_⟩
  have slot : f.insts.size < (f.newInst op ty name).1.insts.size := by simp [newInst]
  have named := later.instName ⟨f.insts.size⟩ slot
  exact named.trans (by simp [instName])

theorem keepsNames_foldlM {α : Type} {step : Func → α → Except Fault Func} {xs : List α}
    (each : ∀ g, ∀ a ∈ xs, Yields (step g a) g.KeepsNames) :
    Yields (xs.foldlM step f) f.KeepsNames :=
  .foldlM (.refl f) fun g hg a ha => hg.then (each g a ha)

theorem keepsNames_rewireBlock {copy : BlockCopy} :
    Yields (rewireBlock copy f b) f.KeepsNames :=
  .ask fun _ _ => keepsNames_foldlM fun _ _ _ => keepsNames_modifyInst fun _ => rfl

/-- What holds of the names while blocks are copied: old names stay, and copies have those of what
they copy, with a suffix. -/
structure Labelled (f : Func) (suffix : String) (state : Func × BlockCopy) : Prop where
  kept : f.KeepsNames state.1
  blocks : ∀ b c, (b, c) ∈ state.2.blockMap → c.index < state.1.blocks.size ∧
    state.1.blockName c = (f.blockName b).map (suffixed · suffix)
  insts : ∀ i j, (i, j) ∈ state.2.instMap → j.index < state.1.insts.size ∧
    state.1.instName j = (f.instName i).map (suffixed · suffix)

namespace Labelled

/-- Names that are kept later are still there. -/
theorem extend (named : f.Labelled suffix state) (later : state.1.KeepsNames g) :
    f.Labelled suffix (g, state.2) where
  kept := named.kept.trans later
  blocks b c hc := by
    obtain ⟨slot, name⟩ := named.blocks b c hc
    exact ⟨slot.trans_le later.grows.blocks, (later.blockName c slot).trans name⟩
  insts i j hj := by
    obtain ⟨slot, name⟩ := named.insts i j hj
    exact ⟨slot.trans_le later.grows.insts, (later.instName j slot).trans name⟩

theorem copyInto (named : f.Labelled suffix state) (old : i.index < f.insts.size) :
    Yields (copyInto target suffix state i) (f.Labelled suffix) := by
  refine .ask fun inst hi => .ask fun r answer => .pure ?_
  obtain ⟨later, name⟩ := keepsNames_append r answer
  have new : r.2 = ⟨state.1.insts.size⟩ := snd_append r answer
  have slot : r.2.index < r.1.insts.size := by
    by_contra beyond
    simp [instName, Array.getElem?_eq_none (Nat.not_lt.mp beyond)] at name
  have original : f.instName i = some inst.name := by
    rw [← named.kept.instName i old, instName_of_inst hi]
  have before := named.extend later
  refine ⟨before.kept, before.blocks, fun k j hj => ?_⟩
  rcases Assoc.mem_insert hj with same | hj
  · obtain ⟨rfl, rfl⟩ := Prod.mk.inj same
    exact ⟨slot, by rw [name, original, Option.map_some]⟩
  · exact before.insts k j hj

theorem copyInsts (named : f.Labelled suffix state) {list : List InstId}
    (old : ∀ i ∈ list, i.index < f.insts.size) :
    Yields (list.foldlM (Func.copyInto target suffix) state) (f.Labelled suffix) :=
  .foldlM named fun _ named i hi => named.copyInto (old i hi)

/-- Copying one more block gives the copies their names. -/
theorem copyBlock (hf : f.Consistent) (made : f.Duplicating done state)
    (named : f.Labelled suffix state) (slot : b.index < f.blocks.size) :
    Yields (Func.copyBlock suffix state b) (f.Labelled suffix) := by
  refine .ask fun block hb => ?_
  have listed : block.insts = f.code b := (code_of_block hb).symm.trans (made.code b slot)
  have original : f.blockName b = some block.name := by
    rw [← named.kept.blockName b slot, blockName_of_block hb]
  have later := named.extend (keepsNames_addBlock (suffixed block.name suffix))
  have start : f.Labelled suffix ((state.1.addBlock (suffixed block.name suffix)).1, { state.2 with
      blocks := state.2.blocks ++ [⟨state.1.blocks.size⟩]
      blockMap := state.2.blockMap.insert b ⟨state.1.blocks.size⟩ }) := by
    refine ⟨later.kept, fun k c hc => ?_, later.insts⟩
    rcases Assoc.mem_insert hc with same | hc
    · obtain ⟨rfl, rfl⟩ := Prod.mk.inj same
      rw [original]
      simp [addBlock, newBlock, blockName]
    · exact later.blocks k c hc
  exact start.copyInsts fun i hi => hf.lt_of_mem_code (listed ▸ hi)

theorem copyAll (hf : f.Consistent) {list : List BlockId} (made : f.Duplicating done state)
    (named : f.Labelled suffix state) (slots : ∀ b ∈ list, b.index < f.blocks.size)
    (nodup : (done ++ list).Nodup) :
    Yields (list.foldlM (Func.copyBlock suffix) state) (f.Labelled suffix) := by
  induction list generalizing done state with
  | nil => exact .pure named
  | cons b rest ih =>
    rw [List.forall_mem_cons] at slots
    have new : b ∉ done := fun hb => (List.disjoint_of_nodup_append nodup hb) (by simp)
    obtain ⟨next, answer, made'⟩ : ∃ next, Func.copyBlock suffix state b = .ok next ∧ _ :=
      made.copyBlock hf slots.1 new
    rw [List.foldlM_cons, answer]
    exact ih made' (copyBlock hf made named slots.1 next answer) slots.2 (by simpa using nodup)

end Labelled

/-- Copies of blocks are named after the blocks. -/
theorem labelled_copyBlocks (hf : f.Consistent) (nodup : blocks.Nodup)
    (slots : ∀ b ∈ blocks, b.index < f.blocks.size) :
    Yields (f.copyBlocks blocks suffix) (f.Labelled suffix) := by
  have start : f.Labelled suffix (f, ⟨[], [], []⟩) := ⟨.refl f, by simp, by simp⟩
  refine (start.copyAll hf (.start hf) slots (by simpa using nodup)).bind fun state named => ?_
  refine (keepsNames_foldlM fun _ _ _ => keepsNames_rewireBlock).bind fun g later => .pure ?_
  exact named.extend later

/-! ### Slots and their parts -/

theorem blockOf_of_inst {inst : Inst} (h : f.inst i = .ok inst) : f.blockOf i = inst.block := by
  rw [blockOf, inst_eq_ok_iff.mp h, Option.bind_some]

/-- An instruction is what it does, with its type, its name and its place. -/
theorem inst_of_parts {inst : Inst} (line : f.line i = some (inst.op, inst.ty))
    (name : f.instName i = some inst.name) (home : f.blockOf i = inst.block) :
    f.inst i = .ok inst := by
  obtain ⟨there, hi, op, ty⟩ := inst_of_line line
  have name' : there.name = inst.name := Option.some.inj ((instName_of_inst hi).symm.trans name)
  have home' : there.block = inst.block := (blockOf_of_inst hi).symm.trans home
  rw [hi, show there = inst by cases there; cases inst; simp_all]

/-- A block is its name and the list of its instructions. -/
theorem block_of_parts {block : Block} (name : f.blockName b = some block.name)
    (code : f.code b = block.insts) : f.block b = .ok block := by
  obtain ⟨there, hb, name'⟩ := Option.map_eq_some_iff.mp name
  have hb := block_eq_ok_iff.mpr hb
  have insts : there.insts = block.insts := (code_of_block hb).symm.trans code
  rw [hb, show there = block by cases there; cases block; simp_all]

/-! ### Isomorphic copies -/

/-- All that copying blocks of a function does.  The maps of the copy lead from the copied blocks and
their instructions, and from nothing else, to slots that are new; the copy of a block lists the copies
of its instructions, and the copy of an instruction does what the instruction does, among copies. -/
structure Isomorphic (f : Func) (blocks : List BlockId) (suffix : String) (g : Func)
    (copy : BlockCopy) : Prop where
  layout : g.layout = f.layout ++ copy.blocks
  order : List.Forall₂ (fun b c => copy.blockMap.get? b = some c) blocks copy.blocks
  copiedBlocks : ∀ b, (copy.blockMap.get? b).isSome ↔ b ∈ blocks
  copiedInsts : ∀ i, (copy.instMap.get? i).isSome ↔ ∃ b ∈ blocks, f.blockOf i = some b
  newBlocks : ∀ b c, copy.blockMap.get? b = some c → f.blocks.size ≤ c.index
  newInsts : ∀ i j, copy.instMap.get? i = some j → f.insts.size ≤ j.index
  oneBlock : ∀ b b' c, copy.blockMap.get? b = some c → copy.blockMap.get? b' = some c → b = b'
  oneInst : ∀ i i' j, copy.instMap.get? i = some j → copy.instMap.get? i' = some j → i = i'
  block : ∀ b c block, copy.blockMap.get? b = some c → f.block b = .ok block →
    ∃ block', g.block c = .ok block' ∧ block'.name = suffixed block.name suffix ∧
      List.Forall₂ (fun i j => copy.instMap.get? i = some j) block.insts block'.insts
  inst : ∀ i j inst, copy.instMap.get? i = some j → f.inst i = .ok inst →
    ∃ inst', g.inst j = .ok inst' ∧ copy.Mirrors inst.op inst'.op ∧ inst'.ty = inst.ty ∧
      inst'.name = suffixed inst.name suffix ∧ inst'.block = inst.block.bind copy.blockMap.get?
  keptBlocks : ∀ b block, f.block b = .ok block → g.block b = .ok block
  keptInsts : ∀ i inst, f.inst i = .ok inst → g.inst i = .ok inst

namespace Twin

variable {copy : BlockCopy}

theorem get?_block (twin : f.Twin g blocks copy) (hb : b ∈ blocks) :
    copy.blockMap.get? b = some (copy.mapBlock b) := by
  obtain ⟨c, made⟩ := Option.isSome_iff_exists.mp ((twin.blockMap b).mpr hb)
  rw [made, BlockCopy.mapBlock, made, Option.getD_some]

theorem get?_inst (twin : f.Twin g blocks copy) (hi : i ∈ blocks.flatMap f.code) :
    copy.instMap.get? i = some (copy.mapInst i) :=
  Assoc.get?_of_mem twin.keys (twin.mem_instMap hi)

theorem mem_of_get?_block (twin : f.Twin g blocks copy) {c : BlockId}
    (made : copy.blockMap.get? b = some c) : b ∈ blocks ∧ copy.mapBlock b = c :=
  ⟨(twin.blockMap b).mp (by simp [made]), by simp [BlockCopy.mapBlock, made]⟩

theorem mem_of_get?_inst (twin : f.Twin g blocks copy) {j : InstId}
    (made : copy.instMap.get? i = some j) : i ∈ blocks.flatMap f.code ∧ copy.mapInst i = j :=
  ⟨(twin.instMap i).mp (by simp [made]), by simp [BlockCopy.mapInst, made]⟩

end Twin

variable (suffix) in
/-- Copying blocks, each once, answers with an isomorphic copy of them apart from what was there,
whatever the blocks refer to. -/
theorem copyBlocks_isomorphic (hf : f.Consistent) (nodup : blocks.Nodup)
    (slots : ∀ b ∈ blocks, b.index < f.blocks.size) :
    ∃ g copy, f.copyBlocks blocks suffix = .ok (g, copy) ∧
      f.Isomorphic blocks suffix g copy := by
  obtain ⟨g, copy, answer, hg, carries, twin, layout⟩ := exists_copyBlocks suffix hf nodup slots
  obtain ⟨copies, -⟩ := copies_copyBlocks hf (g, copy) answer
  have named : f.Labelled suffix (g, copy) := labelled_copyBlocks hf nodup slots _ answer
  -- two blocks with one copy would be listed twice in the layout
  have apart : ∀ b ∈ blocks, ∀ b' ∈ blocks, copy.mapBlock b = copy.mapBlock b' → b = b' :=
    List.inj_on_of_nodup_map (twin.listed ▸ twin.nodup)
  refine ⟨g, copy, answer, layout, ?_, twin.blockMap, fun i => ?_, fun b c made => ?_,
    fun i j made => ?_, fun b b' c made made' => ?_, fun i i' j made made' => ?_,
    fun b c block made hb => ?_, fun i j inst made hi => ?_, fun b block hb => ?_,
    fun i inst hi => ?_⟩
  · rw [twin.listed, List.forall₂_map_right_iff]
    exact List.forall₂_same.mpr fun b hb => twin.get?_block hb
  · simp only [twin.instMap, List.mem_flatMap, hf.mem_code]
  · obtain ⟨hb, rfl⟩ := twin.mem_of_get?_block made
    exact (twin.fresh _ (twin.mem_map.mpr ⟨b, hb, rfl⟩)).1
  · obtain ⟨hi, rfl⟩ := twin.mem_of_get?_inst made
    exact twin.new i hi
  · obtain ⟨hb, rfl⟩ := twin.mem_of_get?_block made
    obtain ⟨hb', same⟩ := twin.mem_of_get?_block made'
    exact apart b hb b' hb' same.symm
  · exact copies.one i i' j (Assoc.mem_of_get? made) (Assoc.mem_of_get? made')
  · obtain ⟨there, rfl⟩ := twin.mem_of_get?_block made
    have name : g.blockName (copy.mapBlock b) = some (suffixed block.name suffix) := by
      rw [(named.blocks b _ (Assoc.mem_of_get? made)).2, blockName_of_block hb, Option.map_some]
    refine ⟨⟨_, (f.code b).map copy.mapInst⟩, block_of_parts name (twin.code b there), rfl, ?_⟩
    rw [List.forall₂_map_right_iff, ← code_of_block hb]
    exact List.forall₂_same.mpr fun i hi => twin.get?_inst (List.mem_flatMap.mpr ⟨b, there, hi⟩)
  · obtain ⟨there, rfl⟩ := twin.mem_of_get?_inst made
    obtain ⟨b, hb, mem⟩ := List.mem_flatMap.mp there
    have line : g.line (copy.mapInst i) = some (copy.mapOperation inst.op, inst.ty) := by
      rw [twin.line i there, line_of_inst hi, Option.map_some]
    have name : g.instName (copy.mapInst i) = some (suffixed inst.name suffix) := by
      rw [(named.insts i _ (Assoc.mem_of_get? made)).2, instName_of_inst hi, Option.map_some]
    have home : g.blockOf (copy.mapInst i) = some (copy.mapBlock b) :=
      hg.mem_code.mp (twin.code b hb ▸ List.mem_map_of_mem mem)
    have placed : inst.block = some b := (blockOf_of_inst hi).symm.trans (hf.mem_code.mp mem)
    refine ⟨⟨copy.mapOperation inst.op, inst.ty, _, some (copy.mapBlock b)⟩,
      inst_of_parts line name home, BlockCopy.mirrors_mapOperation inst.op, rfl, rfl, ?_⟩
    rw [placed, Option.bind_some, twin.get?_block hb]
  · have slot := lt_of_block hb
    exact block_of_parts ((named.kept.blockName b slot).trans (blockName_of_block hb))
      ((carries.code b slot).trans (code_of_block hb))
  · have slot : i.index < f.insts.size := (Array.getElem?_eq_some_iff.mp (inst_eq_ok_iff.mp hi)).1
    exact inst_of_parts ((carries.line i slot).trans (line_of_inst hi))
      ((named.kept.instName i slot).trans (instName_of_inst hi))
      ((copies.leaves.home i slot id).trans (blockOf_of_inst hi))

/-- A loop of one block, whose phi reads a sum that is written behind it. -/
def countUp : Func := .assemble "count_up" [⟨"out", .ptr .global⟩, ⟨"n", .i32⟩] [
  ("entry", [
    ⟨.compare .slt (.const 0) (.arg 1), .i1, "c"⟩,
    ⟨.branch (.inst ⟨0⟩) ⟨1⟩ ⟨2⟩, .void, ""⟩]),
  ("loop", [
    ⟨.phi [(.const 0, ⟨0⟩), (.inst ⟨3⟩, ⟨1⟩)], .i32, "i"⟩,
    ⟨.binary .add (.inst ⟨2⟩) (.const 1), .i32, "i1"⟩,
    ⟨.compare .slt (.inst ⟨3⟩) (.arg 1), .i1, "u"⟩,
    ⟨.branch (.inst ⟨4⟩) ⟨1⟩ ⟨2⟩, .void, ""⟩]),
  ("exit", [
    ⟨.phi [(.const 0, ⟨0⟩), (.inst ⟨3⟩, ⟨1⟩)], .i32, "s"⟩,
    ⟨.store (.arg 0) (.inst ⟨6⟩), .void, ""⟩,
    ⟨.ret none, .void, ""⟩])]

/-- The loop and what comes behind it are copied, the latter first.  The phi of the copy still knows
the entry, which was not copied, and the branch of the copy leads to copies only. -/
theorem copyBlocks_countUp : countUp.Consistent ∧ ([⟨2⟩, ⟨1⟩] : List BlockId).Nodup ∧
    (∀ b ∈ ([⟨2⟩, ⟨1⟩] : List BlockId), b.index < countUp.blocks.size) ∧
    ∃ g copy, countUp.copyBlocks [⟨2⟩, ⟨1⟩] ".cf2" = .ok (g, copy) ∧
      countUp.Isomorphic [⟨2⟩, ⟨1⟩] ".cf2" g copy ∧ copy.blocks = [⟨3⟩, ⟨4⟩] ∧
      g.inst ⟨12⟩ = .ok ⟨.phi [(.const 0, ⟨0⟩), (.inst ⟨13⟩, ⟨4⟩)], .i32, "i.cf2", some ⟨4⟩⟩ ∧
      g.inst ⟨15⟩ = .ok ⟨.branch (.inst ⟨14⟩) ⟨4⟩ ⟨3⟩, .void, "", some ⟨4⟩⟩ := by
  have consistent : countUp.Consistent := consistent_assemble ..
  have nodup : ([⟨2⟩, ⟨1⟩] : List BlockId).Nodup := by decide
  have slots : ∀ b ∈ ([⟨2⟩, ⟨1⟩] : List BlockId), b.index < countUp.blocks.size := by decide
  obtain ⟨g, copy, answer, isomorphic⟩ := copyBlocks_isomorphic ".cf2" consistent nodup slots
  have seen : (fun r : Func × BlockCopy => (r.2.blocks, r.1.insts[12]?, r.1.insts[15]?)) <$>
      countUp.copyBlocks [⟨2⟩, ⟨1⟩] ".cf2" = .ok ([⟨3⟩, ⟨4⟩],
        some ⟨.phi [(.const 0, ⟨0⟩), (.inst ⟨13⟩, ⟨4⟩)], .i32, "i.cf2", some ⟨4⟩⟩,
        some ⟨.branch (.inst ⟨14⟩) ⟨4⟩ ⟨3⟩, .void, "", some ⟨4⟩⟩) := by cbv
  rw [answer] at seen
  obtain ⟨listed, rest⟩ := Prod.mk.inj (Except.ok.inj seen)
  obtain ⟨phi, branch⟩ := Prod.mk.inj rest
  exact ⟨consistent, nodup, slots, g, copy, answer, isomorphic, listed, inst_eq_ok_iff.mpr phi,
    inst_eq_ok_iff.mpr branch⟩

end Func

end KernelCoarsening
