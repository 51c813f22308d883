/-
Regions are brought into form and grids are scaled without a fault.

In a consistent function whose instructions lead to blocks that exist, these steps follow no
handle outside its arena, as long as the handles that they are given exist:

* `Func.Intact`, `Func.Becomes` — such a function, and one that it has grown to;
* `Func.Linked.exitingFor`, `Func.Linked.fill` — questions about regions;
* `Func.Becomes.append`, `Func.Becomes.splitBlock`, … — edits;
* `Func.Robust` — what is kept, without a fault, when regions are brought into form;
* `Func.Intact.extractPlaces`, `Func.Intact.scaleGrid` — regions in form, and the grid.
-/
import KernelCoarsening.Proofs.Coarsening.Consistency
import KernelCoarsening.Proofs.Coarsening.Extraction
import KernelCoarsening.Proofs.Coarsening.Growth
import KernelCoarsening.Proofs.Divergence.Discovery
import KernelCoarsening.Proofs.Flow.LoopNesting

namespace KernelCoarsening

namespace Func

variable {f g h : Func} {b : BlockId} {i : InstId}

/-- A consistent function whose instructions lead to blocks that exist. -/
structure Intact (f : Func) : Prop where
  consistent : f.Consistent
  wired : f.Wired 0

/-- A consistent function whose blocks lead to blocks that exist. -/
structure Linked (f : Func) : Prop where
  consistent : f.Consistent
  exists_successors : ∀ {b : BlockId}, b.index < f.blocks.size →
    ∃ succs, f.successors b = .ok succs ∧ ∀ c ∈ succs, c.index < f.blocks.size

theorem Intact.linked (whole : f.Intact) : f.Linked :=
  ⟨whole.consistent, whole.consistent.exists_successors whole.wired⟩

/-! ### Questions about control flow -/

theorem answers_label (slot : b.index < f.blocks.size) : Answers (f.label b) := by
  obtain ⟨block, answer, -⟩ := exists_block slot
  exact .bind ⟨block, answer⟩ fun _ _ => .pure

theorem lt_of_parent?_postDominators {graph : Graph} {e : BlockId}
    (h : (f.postDominators graph).parent? b = some e) : e.index < graph.size := by
  obtain ⟨v, found, rfl⟩ := Option.map_eq_some_iff.mp h
  obtain ⟨above, real⟩ := Option.filter_eq_some_iff.mp found
  obtain ⟨-, ⟨nodes, way⟩, dominates, -⟩ := Graph.above?_parents_eq_some (by simp) above
  -- the tree belongs to a graph with one more node, which is not answered
  have inside := way.lt_size (by simp) v (dominates nodes way)
  have real : v ≠ graph.size := of_decide_eq_true real
  rw [Graph.size_exitGraph] at inside
  exact Nat.lt_of_le_of_ne (Nat.le_of_lt_succ inside) real

namespace Linked

variable (linked : f.Linked)

include linked

theorem answers_graph : Answers f.graph := by
  have targets : f.Targeted := by
    intro b hb
    obtain ⟨succs, answer, lands⟩ := linked.exists_successors (mem_blockIds.mp hb)
    exact ⟨succs, answer, fun c hc => mem_blockIds.mpr (lands c hc)⟩
  obtain ⟨graph, answer, -⟩ := exists_graph targets
  exact ⟨graph, answer⟩

theorem answers_flow : Answers f.flow := linked.answers_graph.bind fun _ _ => .pure

/-- A function that has a block has a body. -/
theorem body (slot : b.index < f.blocks.size) :
    f.isDeclaration = false ∧ f.entry.index < f.blocks.size := by
  have listed := linked.consistent.mem_layout
  have body : f.isDeclaration = false :=
    List.isEmpty_eq_false_iff_exists_mem.mpr ⟨b, (listed b).mpr slot⟩
  exact ⟨body, (listed _).mp (entry_mem_layout body)⟩

/-- The only exit of a loop exists. -/
theorem uniqueLoopExit? {lp : Loop} (slots : ∀ b ∈ lp.blocks, b.index < f.blocks.size) :
    Gives (f.uniqueLoopExit? lp) fun exit => ∀ e, exit = some e → e.index < f.blocks.size := by
  obtain ⟨all, found⟩ := exists_mapM_eq_ok f.successors lp.blocks fun b hb => by
    obtain ⟨succs, answer, -⟩ := linked.exists_successors (slots b hb)
    exact ⟨succs, answer⟩
  have lands : ∀ e ∈ all.flatten, e.index < f.blocks.size := by
    intro e he
    obtain ⟨succs, hs, he⟩ := List.mem_flatten.mp he
    obtain ⟨b, hb, answer⟩ := (mem_of_mapM_eq_ok found).mp hs
    obtain ⟨succs', answer', inside⟩ := linked.exists_successors (slots b hb)
    obtain rfl : succs' = succs := by simpa [answer'] using answer
    exact inside e he
  have exits : Gives (f.loopExits lp) fun exits => ∀ e ∈ exits, e.index < f.blocks.size :=
    ⟨_, bind_eq_ok_iff.mpr ⟨all, found, rfl⟩, fun e he =>
      lands e (List.mem_of_mem_filter (List.mem_eraseDups.mp he))⟩
  refine exits.bind fun exits _ inside => ?_
  split
  · exact .pure fun e same => inside e (by simp [Option.some.inj same])
  · exact .pure (by simp)

/-- The blocks of a loop can be reached, and so they exist. -/
theorem slots_of_loop {flow : Flow} (hf : f.flow = .ok flow) (slot : b.index < f.blocks.size)
    {lp : Loop} (listed : lp ∈ flow.loops.loops) : ∀ c ∈ lp.blocks, c.index < f.blocks.size := by
  obtain ⟨hg, hdom, -, hloops⟩ := flow_eq_ok hf
  have size := size_graph hg
  obtain ⟨body, entry⟩ := linked.body slot
  rw [hloops, hdom] at listed
  have natural := naturalLoop_of_mem_loops (size ▸ entry) body listed
  exact fun c hc => size ▸ (natural.reached hc).lt_size (size ▸ entry)

/-- A region that starts at a block ends at a block. -/
theorem exitingFor {flow : Flow} (hf : f.flow = .ok flow) (slot : b.index < f.blocks.size) :
    Gives (Region.exitingFor f flow b) fun r => ∀ e, r = .ok e → e.index < f.blocks.size := by
  obtain ⟨hg, -, hpdom, -⟩ := flow_eq_ok hf
  have size := size_graph hg
  have label : Answers (f.label b) := answers_label slot
  unfold Region.exitingFor
  cases parent : flow.pdom.parent? b with
  | none => exact .ask label fun _ _ => .pure (by simp)
  | some p =>
    have inside : p.index < f.blocks.size :=
      size ▸ lt_of_parent?_postDominators (hpdom ▸ parent)
    dsimp only
    split
    · cases innermost : flow.loops.innermost? b with
      | none => exact .pure fun e same => Except.ok.inj same ▸ inside
      | some lp =>
        obtain ⟨n, -, there⟩ := Option.bind_eq_some_iff.mp innermost
        have slots := linked.slots_of_loop hf slot (List.mem_of_getElem? there)
        refine (linked.uniqueLoopExit? slots).bind fun exit _ lands => ?_
        cases exit with
        | some e => exact .pure fun e' same => Except.ok.inj same ▸ lands e rfl
        | none => exact .ask label fun _ _ => .pure (by simp)
    · exact .pure fun e same => Except.ok.inj same ▸ inside

/-- A search that starts at blocks of the function finds its way. -/
theorem answers_reach {stop : BlockId} {found stack : List BlockId}
    (slots : ∀ b ∈ stack, b.index < f.blocks.size) : Answers (f.reach stop found stack) := by
  induction found, stack using Func.reach.induct f stop with
  | case1 found => exact ⟨found, by rw [reach]⟩
  | case2 found b rest old ih =>
    rw [reach, dif_pos old]
    exact ih fun c hc => slots c (List.mem_cons_of_mem _ hc)
  | case3 found rest new ih =>
    rw [reach, dif_neg new, dif_pos rfl]
    exact ih fun c hc => slots c (List.mem_cons_of_mem _ hc)
  | case4 found b rest new last slot succs hs ih =>
    rw [reach, dif_neg new, dif_neg last, dif_pos slot, hs]
    obtain ⟨succs', answer, lands⟩ := linked.exists_successors (mem_blockIds.mp slot)
    obtain rfl : succs' = succs := by simpa [answer] using hs
    refine ih fun c hc => ?_
    rcases List.mem_append.mp hc with hc | hc
    · exact lands c (List.mem_of_mem_filter hc)
    · exact slots c (List.mem_cons_of_mem _ hc)
  | case5 found b rest new last slot fault hs =>
    obtain ⟨succs, answer, -⟩ := linked.exists_successors (mem_blockIds.mp slot)
    simp [answer] at hs
  | case6 found b rest new last slot =>
    exact absurd (mem_blockIds.mpr (slots b (by simp))) slot

/-- A region with a header and an exiting block can be filled. -/
theorem fill {region : Region} (header : region.header.index < f.blocks.size)
    (exiting : region.exiting.index < f.blocks.size) :
    Gives (region.fill f) fun r => r.header = region.header ∧ r.exiting = region.exiting ∧
      ∀ b ∈ r.blocks, b.index < f.blocks.size := by
  have search : Answers (f.reachableUntil region.header region.exiting) :=
    .map (linked.answers_reach (by simpa using header))
  refine Answers.gives (search.bind fun _ _ => .pure) fun r answer => ?_
  have slots := fun exits b hb => slot_of_mem_fill answer exits (b := b) hb
  obtain ⟨blocks, -, same⟩ := bind_eq_ok_iff.mp answer
  obtain rfl := Except.ok.inj same
  exact ⟨rfl, rfl, slots exiting⟩

theorem answers_operations : Answers f.operations := by
  obtain ⟨all, answer, placed⟩ := linked.consistent.instructions
  refine .bind ⟨all, answer⟩ fun all' answer' => exists_mapM_eq_ok _ _ fun i hi => ?_
  obtain rfl : all = all' := by simpa [answer] using answer'
  exact (answers_operation (lt_of_placed ((placed i).mp hi))).bind fun _ _ => .pure

/-- The instructions of blocks exist. -/
theorem blocks {bs : List BlockId} (slots : ∀ b ∈ bs, b.index < f.blocks.size) :
    Gives (bs.mapM f.block) fun blocks =>
      ∀ i ∈ blocks.flatMap (·.insts), i.index < f.insts.size := by
  obtain ⟨blocks, found⟩ := exists_mapM_eq_ok f.block bs fun b hb => by
    obtain ⟨block, answer, -⟩ := exists_block (slots b hb)
    exact ⟨block, answer⟩
  refine ⟨blocks, found, fun i hi => ?_⟩
  obtain ⟨block, hblock, hi⟩ := List.mem_flatMap.mp hi
  obtain ⟨b, -, answer⟩ := (mem_of_mapM_eq_ok found).mp hblock
  exact linked.consistent.lt_of_mem_code (b := b) (code_of_block answer ▸ hi)

/-- The border of a region whose blocks exist can be found. -/
theorem findBorder {region : Region} (slots : ∀ b ∈ region.blocks, b.index < f.blocks.size)
    (ops : List (InstId × Operation)) :
    Gives (region.findBorder f ops) fun r => r.header = region.header := by
  obtain ⟨blocks, found, inside⟩ := linked.blocks slots
  obtain ⟨inner, asked⟩ := exists_mapM_eq_ok f.operation (blocks.flatMap (·.insts))
    fun i hi => answers_operation (inside i hi)
  exact ⟨_, bind_eq_ok_iff.mpr ⟨_, bind_eq_ok_iff.mpr ⟨blocks, found, rfl⟩,
    bind_eq_ok_iff.mpr ⟨inner, asked, rfl⟩⟩, rfl⟩

theorem analyze {region : Region} (header : region.header.index < f.blocks.size)
    (exiting : region.exiting.index < f.blocks.size) :
    Gives (region.analyze f) fun r => r.header = region.header := by
  refine (linked.fill header exiting).bind fun filled _ known => ?_
  obtain ⟨same, -, slots⟩ := known
  refine .ask linked.answers_operations fun ops _ => ?_
  exact (linked.findBorder slots ops).mono fun _ _ kept => kept.trans same

end Linked

/-! ### Edits that do not fail -/

/-- The block behind a cut exists. -/
theorem slot_splitBlock {cut : Nat} {name : String} :
    Yields (f.splitBlock b cut name) fun r => r.2.index < r.1.blocks.size := by
  refine .ask fun block _ => ?_
  split
  · intro r answer
    simp [throw, throwThe, MonadExceptOf.throw, bind, Except.bind] at answer
  · refine (grows_modifyBlock (f := (f.addBlockAfter b name).1)).bind fun _ h₁ => ?_
    refine (h₁.then (grows_foldlM fun _ _ => grows_modifyInst)).bind fun _ h₂ => ?_
    refine (h₂.then grows_modifyBlock).bind fun _ h₃ => .ask fun _ _ => ?_
    refine (h₃.then (grows_foldlM fun _ _ => grows_renameIncoming)).bind fun _ h₄ => ?_
    refine (h₄.thenWith grows_append).bind fun _ h₅ => .pure ?_
    exact Nat.lt_of_lt_of_le (by simp [addBlockAfter, newBlock]) h₅.blocks

/-- A function has grown to one that is intact. -/
structure Becomes (f g : Func) : Prop extends Intact g where
  grows : f.Grows g

theorem Intact.refl (whole : f.Intact) : f.Becomes f := ⟨whole, .refl f⟩

namespace Becomes

variable {op : Operation} {ty : Ty} {name : String} {anchor : InstId}

theorem trans (first : f.Becomes g) (second : g.Becomes h) : f.Becomes h :=
  ⟨second.toIntact, first.grows.trans second.grows⟩

theorem block (made : f.Becomes g) (slot : b.index < f.blocks.size) : b.index < g.blocks.size :=
  Nat.lt_of_lt_of_le slot made.grows.blocks

theorem inst (made : f.Becomes g) (slot : i.index < f.insts.size) : i.index < g.insts.size :=
  Nat.lt_of_lt_of_le slot made.grows.insts

variable (made : f.Becomes g)

include made

theorem addBlockBefore (anchor : BlockId) (name : String) :
    f.Becomes (g.addBlockBefore anchor name).1 where
  consistent := made.consistent.addBlockBefore anchor name
  wired := (made.wired.newBlock name _).mono (Nat.zero_le _)
  grows := made.grows.trans grows_addBlockBefore

theorem append (slot : b.index < g.blocks.size)
    (lands : ∀ c ∈ op.successors, c.index < g.blocks.size) :
    Gives (g.append b op ty name) fun r => f.Becomes r.1 :=
  (answers_append slot).gives fun r answer => ⟨⟨made.consistent.append r answer,
    made.wired.append lands r answer⟩, made.grows.trans (grows_append r answer)⟩

theorem insertAfter (plain : op.successors = []) :
    Gives (g.insertAfter anchor op ty name) fun r => f.Becomes r.1 :=
  made.consistent.answers_insertAfter.gives fun r answer =>
    ⟨⟨made.consistent.insertAfter r answer, made.wired.insertAfter (by simp [plain]) r answer⟩,
      made.grows.trans (grows_insertAfter r answer)⟩

theorem insertBefore (plain : op.successors = []) :
    Gives (g.insertBefore anchor op ty name) fun r => f.Becomes r.1 :=
  made.consistent.answers_insertBefore.gives fun r answer =>
    ⟨⟨made.consistent.insertBefore r answer, made.wired.insertBefore (by simp [plain]) r answer⟩,
      made.grows.trans (grows_insertBefore r answer)⟩

theorem erase (slot : i.index < g.insts.size) : Gives (g.erase i) f.Becomes :=
  (made.consistent.answers_erase slot).gives fun r answer =>
    ⟨⟨made.consistent.erase r answer, made.wired.erase r answer⟩,
      made.grows.trans (grows_erase r answer)⟩

theorem replaceUsesExcept {new : Value} {keep : List InstId} :
    Gives (g.replaceUsesExcept i new keep) fun r => f.Becomes r.1 :=
  made.consistent.answers_replaceUsesExcept.gives fun r answer =>
    ⟨⟨made.consistent.replaceUsesExcept r answer, made.wired.replaceUsesExcept r answer⟩,
      made.grows.trans (grows_replaceUsesExcept r answer)⟩

theorem replaceUses {new : Value} : Gives (g.replaceUses i new) fun r => f.Becomes r.1 :=
  made.replaceUsesExcept

theorem replaceSuccessor {old new : BlockId} (slot : b.index < g.blocks.size)
    (lands : new.index < g.blocks.size) : Gives (g.replaceSuccessor b old new) f.Becomes :=
  (made.consistent.answers_replaceSuccessor slot).gives fun r answer =>
    ⟨⟨made.consistent.replaceSuccessor r answer, made.wired.redirect lands r answer⟩,
      made.grows.trans (grows_replaceSuccessor r answer)⟩

theorem renameIncoming {old new : BlockId} (slot : b.index < g.blocks.size) :
    Gives (g.renameIncoming b old new) f.Becomes :=
  (made.consistent.answers_renameIncoming slot).gives fun r answer =>
    ⟨⟨made.consistent.renameIncoming r answer, made.wired.renameIncoming r answer⟩,
      made.grows.trans (grows_renameIncoming r answer)⟩

theorem splitBlock (slot : b.index < g.blocks.size) {cut : Nat}
    (within : cut ≤ (g.code b).length) :
    Gives (g.splitBlock b cut name) fun r => f.Becomes r.1 ∧ r.2.index < r.1.blocks.size :=
  (made.consistent.answers_splitBlock made.wired slot within).gives fun r answer =>
    ⟨⟨⟨made.consistent.splitBlock slot r answer, made.wired.splitBlock r answer⟩,
      made.grows.trans (grows_splitBlock r answer)⟩, slot_splitBlock r answer⟩

/-- What comes to an answer from a function does so from one that it has grown from. -/
theorem next {x : Except Fault Func} (edit : Gives x g.Becomes) : Gives x f.Becomes :=
  edit.mono fun _ _ => made.trans

end Becomes

/-! ### Regions in form -/

namespace Intact

variable (whole : f.Intact)

include whole

theorem dividePhi {members : List BlockId} {extracted : BlockId} {jump phi : InstId}
    (slot : phi.index < f.insts.size) :
    Gives (dividePhi members extracted jump f phi) f.Becomes := by
  refine .ask (exists_inst slot) fun inst _ => ?_
  split
  · refine (whole.refl.insertBefore rfl).bind fun _ _ h₁ => ?_
    refine (h₁.insertBefore rfl).bind fun _ _ h₂ => ?_
    exact h₂.replaceUses.bind fun _ _ h₃ => h₃.erase (h₃.inst slot)
  · exact .pure whole.refl

/-- The blocks of a region come to lead to a block that exists. -/
theorem redirectAll {blocks : List BlockId} {old new : BlockId}
    (slots : ∀ b ∈ blocks, b.index < f.blocks.size) (lands : new.index < f.blocks.size) :
    Gives (blocks.foldlM (fun f b => f.replaceSuccessor b old new) f) f.Becomes :=
  .foldlM whole.refl fun _ made b hb =>
    made.replaceSuccessor (made.block (slots b hb)) (made.block lands)

theorem dividePhis {members : List BlockId} {extracted : BlockId} {jump : InstId}
    {phis : List InstId} (slots : ∀ phi ∈ phis, phi.index < f.insts.size) :
    Gives (phis.foldlM (Func.dividePhi members extracted jump) f) f.Becomes :=
  .foldlM whole.refl fun _ made phi hphi =>
    made.next (made.toIntact.dividePhi (made.inst (slots phi hphi)))

/-- The phis of a block exist. -/
theorem phis (slot : b.index < f.blocks.size) :
    Gives (f.phis b) fun phis => ∀ phi ∈ phis, phi.index < f.insts.size := by
  refine ⟨_, whole.consistent.phis_eq slot, fun phi hphi => ?_⟩
  exact whole.consistent.lt_of_mem_code ((List.takeWhile_sublist _).subset hphi)

theorem isolate {region : Region} (exiting : region.exiting.index < f.blocks.size)
    (slots : ∀ b ∈ region.blocks, b.index < f.blocks.size) :
    Gives (f.isolate region) fun r => f.Becomes r.1 ∧ r.2.header = region.header ∧
      r.2.exiting.index < r.1.blocks.size := by
  refine .ask whole.linked.answers_graph fun graph _ => ?_
  dsimp only
  split
  · exact .pure ⟨whole.refl, rfl, exiting⟩
  · refine .ask (answers_label exiting) fun label _ => ?_
    have h₀ := whole.refl.addBlockBefore region.exiting (suffixed label ".extracted")
    have new : f.blocks.size <
        (f.addBlockBefore region.exiting (suffixed label ".extracted")).1.blocks.size := by
      simp [Func.addBlockBefore, Func.newBlock]
    -- what was there is still there after each of the edits that follow
    have lands := h₀.block exiting
    refine (h₀.toIntact.refl.append new (by simpa [Operation.successors] using lands)).bind
      fun r₁ _ h₁ => ?_
    have slots₁ := fun b hb => h₁.block (h₀.block (slots b hb))
    refine (h₁.toIntact.redirectAll slots₁ (h₁.block new)).bind fun f₂ _ h₂ => ?_
    refine (h₂.toIntact.phis (h₂.block (h₁.block (h₀.block exiting)))).bind fun phis _ inside => ?_
    refine (h₂.toIntact.dividePhis inside).bind fun f₃ _ h₃ => .pure ⟨?_, rfl, ?_⟩
    · exact h₀.trans (h₁.trans (h₂.trans h₃))
    · exact h₃.block (h₂.block (h₁.block new))

theorem cutHeader {loops : LoopForest} {header : BlockId} (slot : header.index < f.blocks.size) :
    Gives (f.cutHeader loops header) fun r => f.Becomes r.1 ∧ r.2.index < r.1.blocks.size := by
  unfold Func.cutHeader
  split
  · exact .pure ⟨whole.refl, slot⟩
  · obtain ⟨block, answer, insts⟩ := exists_block slot
    refine .ask ⟨block, answer⟩ fun block' answer' => .ask (answers_label slot) fun _ _ => ?_
    obtain rfl : block = block' := by simpa [answer] using answer'
    exact whole.refl.splitBlock slot (insts ▸ Nat.sub_le _ _)

theorem cutExiting {exiting : BlockId} (slot : exiting.index < f.blocks.size) :
    Gives (f.cutExiting exiting) fun r => f.Becomes r.1 ∧ r.2.index < r.1.blocks.size := by
  have first : Answers (f.firstNonPhi exiting) := (whole.phis slot).answers.bind fun _ _ => .pure
  refine .ask first fun n first => .ask (answers_label slot) fun _ _ => ?_
  exact whole.refl.splitBlock slot (whole.consistent.firstNonPhi_le first)

end Intact

/-- What is kept when headers and exiting blocks are cut and regions get exiting blocks of their
own, and none of this fails. -/
structure Robust (P : Func → Prop) : Prop where
  linked : ∀ {f}, P f → f.Linked
  cutHeader : ∀ {f loops header}, P f → header.index < f.blocks.size →
    Gives (f.cutHeader loops header) fun r =>
      P r.1 ∧ f.blocks.size ≤ r.1.blocks.size ∧ r.2.index < r.1.blocks.size
  cutExiting : ∀ {f exiting}, P f → exiting.index < f.blocks.size →
    Gives (f.cutExiting exiting) fun r =>
      P r.1 ∧ f.blocks.size ≤ r.1.blocks.size ∧ r.2.index < r.1.blocks.size
  isolate : ∀ {f} {region filled : Region}, P f → region.fill f = .ok filled →
    filled.exiting.index < f.blocks.size →
    Gives (f.isolate filled) fun r => P r.1 ∧ f.blocks.size ≤ r.1.blocks.size ∧
      r.2.header = filled.header ∧ r.2.exiting.index < r.1.blocks.size

namespace Robust

variable {P : Func → Prop} {regions : List Region} (robust : Robust P)

include robust

/-- A region that starts at a block is brought into form, or there is an error; the regions still
start at blocks. -/
theorem extractRegion (hf : P f) {n : Nat} {region : Region}
    (header : region.header.index < f.blocks.size)
    (headers : ∀ r ∈ regions, r.header.index < f.blocks.size) :
    Gives (f.extractRegion regions n region) fun r => P r.2.1 ∧
      ∀ q ∈ r.2.2, q.header.index < r.2.1.blocks.size := by
  have linked := robust.linked hf
  refine .ask linked.answers_flow fun flow hflow => ?_
  refine (linked.exitingFor hflow header).bind fun found _ ends => ?_
  cases found with
  | error e => exact .pure ⟨hf, headers⟩
  | ok exiting =>
    refine (robust.cutHeader hf header).bind fun r₁ _ known₁ => ?_
    obtain ⟨f₁, top⟩ := r₁
    obtain ⟨h₁, grown₁, slot₁⟩ := known₁
    have ends₁ : exiting.index < f₁.blocks.size := (ends exiting rfl).trans_le grown₁
    refine (robust.cutExiting h₁ ends₁).bind fun r₂ _ known₂ => ?_
    obtain ⟨f₂, behind⟩ := r₂
    obtain ⟨h₂, grown₂, slot₂⟩ := known₂
    -- regions that started at the exiting block now start behind the cut
    have moved : ∀ q ∈ (regions.set n { region with header := top, exiting }).map fun r =>
        if r.header = exiting then { r with header := behind } else r,
        q.header.index < f₂.blocks.size := by
      intro q hq
      obtain ⟨r, hr, rfl⟩ := List.mem_map.mp hq
      split
      · exact slot₂
      · rcases List.mem_or_eq_of_mem_set hr with old | rfl
        · exact (headers r old).trans_le (grown₁.trans grown₂)
        · exact slot₁.trans_le grown₂
    dsimp only
    split
    · exact .pure ⟨h₂, moved⟩
    · rename_i region' place
      have header' := moved region' (List.mem_of_getElem? place)
      -- the region at the place ends at the block that was found for it
      have exiting' : region'.exiting.index < f₂.blocks.size := by
        rw [List.getElem?_map, Option.map_eq_some_iff] at place
        obtain ⟨r, there, rfl⟩ := place
        obtain ⟨-, rfl⟩ : n < regions.length ∧ { region with header := top, exiting } = r := by
          simpa [List.getElem?_set] using there
        split
        · exact ends₁.trans_le grown₂
        · exact ends₁.trans_le grown₂
      refine ((robust.linked h₂).fill header' exiting').bind fun filled hfill known => ?_
      obtain ⟨same, exits, slots⟩ := known
      refine (robust.isolate h₂ hfill (exits ▸ exiting')).bind fun r₃ _ known₃ => ?_
      obtain ⟨h₃, grown₃, same₃, ends₃⟩ := known₃
      have header₃ : r₃.2.header.index < r₃.1.blocks.size :=
        same₃.trans same ▸ header'.trans_le grown₃
      refine ((robust.linked h₃).analyze header₃ ends₃).bind fun last _ same₄ => .pure ⟨h₃, ?_⟩
      intro q hq
      rcases List.mem_or_eq_of_mem_set hq with old | rfl
      · exact (moved q old).trans_le grown₃
      · exact same₄ ▸ header₃

theorem extractPlaces (hf : P f) {places : List Nat}
    (headers : ∀ r ∈ regions, r.header.index < f.blocks.size) :
    Gives (f.extractPlaces regions places) fun r => P r.2.1 := by
  induction places generalizing f regions with
  | nil => exact .pure hf
  | cons n rest ih =>
    rw [Func.extractPlaces]
    split
    · exact ih hf headers
    · rename_i region place
      have header := headers region (List.mem_of_getElem? place)
      refine (robust.extractRegion hf header headers).bind fun r _ known => ?_
      obtain ⟨error, g, regions'⟩ := r
      obtain ⟨hg, headers'⟩ := known
      cases error with
      | some e => exact .pure hg
      | none => exact ih hg headers'

end Robust

theorem robust_becomes (f : Func) : Robust f.Becomes where
  linked made := made.toIntact.linked
  cutHeader made slot := (made.toIntact.cutHeader slot).mono fun _ _ ⟨more, there⟩ =>
    ⟨made.trans more, more.grows.blocks, there⟩
  cutExiting made slot := (made.toIntact.cutExiting slot).mono fun _ _ ⟨more, there⟩ =>
    ⟨made.trans more, more.grows.blocks, there⟩
  isolate made hfill exiting :=
    (made.toIntact.isolate exiting fun _ => slot_of_mem_fill hfill exiting).mono
      fun _ _ ⟨more, there⟩ => ⟨made.trans more, more.grows.blocks, there⟩

theorem Intact.extractPlaces (whole : f.Intact) {regions : List Region} {places : List Nat}
    (headers : ∀ r ∈ regions, r.header.index < f.blocks.size) :
    Gives (f.extractPlaces regions places) fun r => f.Becomes r.2.1 :=
  (robust_becomes f).extractPlaces whole.refl headers

/-! ### The grid -/

namespace Intact

variable (whole : f.Intact)

include whole

theorem scaleExtent {factor : Nat} (slot : i.index < f.insts.size) :
    Gives (scaleExtent factor f i) f.Becomes :=
  .ask (exists_inst slot) fun _ _ => (whole.refl.insertAfter rfl).bind fun _ _ h₁ =>
    h₁.replaceUsesExcept.bind fun _ _ h₂ => .pure h₂

theorem addSiblings {base behind : InstId} {ty : Ty} {name : String} {stride k count : Nat} :
    Gives (addSiblings base ty name stride f behind k count) fun r => f.Becomes r.1 := by
  induction count generalizing f behind k with
  | zero => exact .pure whole.refl
  | succ count ih =>
    rw [Func.addSiblings]
    refine (whole.refl.insertAfter rfl).bind fun _ _ h₁ => ?_
    exact (ih h₁.toIntact).bind fun _ _ h₂ => .pure (h₁.trans h₂)

theorem scaleIdentity {factor stride : Nat} (slot : i.index < f.insts.size) :
    Gives (scaleIdentity factor stride f i) fun r => f.Becomes r.1 := by
  refine .ask (exists_inst slot) fun inst _ => ?_
  refine (whole.refl.insertAfter rfl).bind fun _ _ h₁ => (h₁.insertAfter rfl).bind fun _ _ h₂ => ?_
  refine (h₂.insertAfter rfl).bind fun _ _ h₃ => (h₃.insertAfter rfl).bind fun _ _ h₄ => ?_
  refine h₄.replaceUsesExcept.bind fun _ _ h₅ => h₅.toIntact.addSiblings.bind fun _ _ h₆ => ?_
  exact .pure (h₅.trans h₆)

theorem scaleIdentities {factor stride : Nat} {map : ReplicaMap} {reads : List InstId}
    (slots : ∀ i ∈ reads, i.index < f.insts.size) :
    Gives (scaleIdentities factor stride f map reads) fun r => f.Becomes r.1 := by
  induction reads generalizing f map with
  | nil => exact .pure whole.refl
  | cons i rest ih =>
    rw [Func.scaleIdentities]
    refine (whole.scaleIdentity (slots i (by simp))).bind fun _ _ h₁ => ?_
    refine (ih h₁.toIntact fun j hj => h₁.inst (slots j (by simp [hj]))).mono fun _ _ => h₁.trans

theorem scaleGrid {grid : GridReads} {p : CoarseningParams}
    (slots : ∀ read ∈ grid.reads, read.1.index < f.insts.size) :
    Gives (f.scaleGrid grid p) fun r => ∀ g map, r = .ok (g, map) → f.Becomes g := by
  have along : ∀ r d, ∀ i ∈ grid.along r d, i.index < f.insts.size := by
    intro r d i hi
    obtain ⟨read, hread, rfl⟩ := List.mem_map.mp hi
    exact slots read (List.mem_of_mem_filter hread)
  unfold Func.scaleGrid
  split
  · exact .pure (by simp)
  · refine Gives.bind (p := f.Becomes) (.foldlM whole.refl fun g made i hi =>
      made.next (made.toIntact.scaleExtent (made.inst (along _ _ i hi)))) fun g _ h₁ => ?_
    refine (h₁.toIntact.scaleIdentities fun i hi => h₁.inst (along _ _ i hi)).bind fun r _ h₂ => ?_
    refine .pure fun g' map same => ?_
    obtain rfl : r = (g', map) := by simpa using same
    exact h₁.trans h₂

end Intact

end Func

end KernelCoarsening
