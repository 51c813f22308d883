/-
Repetitions come to an answer.

A repetition knows divergent values and placeholders, and it is given instructions and regions to
repeat.  If all of these exist, it follows no handle outside its arena:

* `Replication.Ready` — what a repetition knows exists;
* `Replication.Ready.replicateInst`, `Replication.Ready.replicateRegion` — one instruction, one
  region;
* `Replication.Ready.replicateAll`, `Replication.Ready.resolveAll` — a whole repetition;
* `editing_keeps_consistent` — all edits and all steps of coarsening keep a function consistent,
  and have answers where handles exist.
-/
import KernelCoarsening.Proofs.Coarsening.Placeholders
import KernelCoarsening.Proofs.Coarsening.Progress

namespace KernelCoarsening

namespace Func

theorem Intact.copyBlocks {f : Func} (whole : f.Intact) {blocks : List BlockId} {suffix : String}
    (slots : ∀ b ∈ blocks, b.index < f.blocks.size) :
    Gives (f.copyBlocks blocks suffix) fun r => f.Becomes r.1 ∧ r.1.Holds r.2 := by
  refine (whole.consistent.answers_copyBlocks whole.wired slots).gives fun r answer => ⟨?_, ?_⟩
  · exact ⟨⟨whole.consistent.copyBlocks r answer, whole.wired.copyBlocks r answer⟩,
      grows_copyBlocks r answer⟩
  · obtain ⟨r₁, copied, answer⟩ := bind_eq_ok_iff.mp answer
    obtain ⟨g, rewired, answer⟩ := bind_eq_ok_iff.mp answer
    obtain rfl := Except.ok.inj answer
    have grown : r₁.1.Grows g := grows_foldlM (fun _ _ => grows_rewireBlock) g rewired
    exact (Copying.foldlM_copyBlock whole.wired r₁ copied).holds.grow grown

end Func

/-- The bounds and the blocks of a region exist. -/
structure Region.Within (r : Region) (f : Func) : Prop where
  header : r.header.index < f.blocks.size
  exiting : r.exiting.index < f.blocks.size
  blocks : ∀ b ∈ r.blocks, b.index < f.blocks.size

theorem Region.Within.grow {r : Region} {f g : Func} (h : r.Within f) (grown : f.Grows g) :
    r.Within g where
  header := Nat.lt_of_lt_of_le h.header grown.blocks
  exiting := Nat.lt_of_lt_of_le h.exiting grown.blocks
  blocks b hb := Nat.lt_of_lt_of_le (h.blocks b hb) grown.blocks

namespace Replication

open Func

variable {s : Replication} {d : Divergence} {held : List InstId} {i : InstId} {n count : Nat}

/-- A repetition of what a divergence says: its function is intact, with instructions that still
have to be placed, and divergent values and placeholders exist. -/
structure Ready (d : Divergence) (held : List InstId) (s : Replication) : Prop where
  known : s.divergence = d
  spares : s.func.Spares held
  wired : s.func.Wired 0
  divergent : ∀ i ∈ d.set, i.index < s.func.insts.size
  placeholders : ∀ i ∈ s.placeholders.all, i.index < s.func.insts.size

/-- A repetition that has not begun is ready if what is divergent exists. -/
theorem ready_start {f : Func} (factor : Nat) (map : ReplicaMap) (whole : f.Intact)
    (divergent : ∀ i ∈ d.set, i.index < f.insts.size) : (start d factor f map).Ready d [] where
  known := rfl
  spares := .nil whole.consistent
  wired := whole.wired
  divergent := divergent
  placeholders i hi := by simp [start, Placeholders.empty, Placeholders.all] at hi

/-- Copies of an instruction that exists are chained behind another, and exist. -/
theorem gives_chainCopies {f : Func} (spares : f.Spares held) (wired : f.Wired 0) {behind : InstId}
    {name suffix : String} (slot : i.index < f.insts.size) :
    Gives (chainCopies i name suffix f behind n count) fun r => r.1.Wired 0 ∧
      ∀ c ∈ r.2, c.index < r.1.insts.size := by
  induction count generalizing f behind n with
  | zero => exact .pure ⟨wired, by simp⟩
  | succ count ih =>
    rw [chainCopies]
    refine .ask (answers_copyInst slot) fun r copied => ?_
    have h₁ := spares.copyInst r copied
    have new := h₁.slot r.2 (by simp)
    -- the copy is placed nowhere yet, so that placing it keeps the function consistent
    refine .ask (h₁.consistent.answers_attachAfter new) fun g placed => ?_
    have grown := (grows_copyInst r copied).trans (grows_attachAfter g placed)
    have wired₁ := (wired.copyInst r copied).attachAfter g placed
    refine (ih (h₁.attachAfter g placed) wired₁ (Nat.lt_of_lt_of_le slot grown.insts)).bind
      fun rest chained known => .pure ⟨known.1, ?_⟩
    refine List.forall_mem_cons.mpr ⟨?_, known.2⟩
    exact Nat.lt_of_lt_of_le new
      ((grows_attachAfter g placed).trans (grows_chainCopies rest chained)).insts

namespace Ready

variable (ready : s.Ready d held)

include ready

/-- The function has grown, and other instructions have to be placed. -/
theorem edit {held' : List InstId} {g : Func} (spares : g.Spares held') (wired : g.Wired 0)
    (grown : s.func.Grows g) : Ready d held' { s with func := g } where
  known := ready.known
  spares := spares
  wired := wired
  divergent i hi := Nat.lt_of_lt_of_le (ready.divergent i hi) grown.insts
  placeholders i hi := Nat.lt_of_lt_of_le (ready.placeholders i hi) grown.insts

theorem ensurePlaceholders : Gives (s.ensurePlaceholders i) (Ready d held) := by
  unfold Replication.ensurePlaceholders
  split
  · exact .pure ready
  · rename_i needed
    obtain ⟨⟨-, member⟩, none⟩ : (s.map.contains i = false ∧ s.divergence.isDivergent i = true) ∧
        s.placeholders.get? i = none := by
      simpa using needed
    -- only divergent values get placeholders
    have slot : i.index < s.func.insts.size := by
      refine ready.divergent i ?_
      rw [ready.known] at member
      simpa [Divergence.isDivergent] using member
    refine .ask (exists_inst slot) fun inst _ => ?_
    refine (gives_chainCopies ready.spares ready.wired slot).bind fun r chained known => .pure ?_
    have edited := ready.edit (spares_chainCopies ready.spares r chained) known.1
      (grows_chainCopies r chained)
    refine { edited with placeholders := fun j hj => ?_ }
    rw [Placeholders.all_insert none] at hj
    rcases List.mem_append.mp hj with old | new
    · exact edited.placeholders j old
    · exact known.2 j new

theorem rewire (slot : i.index < s.func.insts.size) : Gives (rewire n s i) (Ready d held) := by
  unfold Replication.rewire
  split
  · exact .pure ready
  · refine .ask (answers_operation slot) fun op _ => ?_
    refine Gives.bind (p := fun t : Replication => t.Ready d held ∧ s.func.Grows t.func)
      (.foldlM ⟨ready, .refl _⟩ fun t ht j _ => ?_) fun t _ ht => ?_
    · exact ht.1.ensurePlaceholders.mono fun t' answer h =>
        ⟨h, ht.2.trans (grows_ensurePlaceholders t' answer)⟩
    · have slot := Nat.lt_of_lt_of_le slot ht.2.insts
      refine .ask (answers_modifyInst slot) fun g changed => .pure ?_
      refine ht.1.edit (ht.1.spares.modifyOperation g changed) ?_ (grows_modifyOperation g changed)
      exact ht.1.wired.modifyOperation (fun op c hc => .inl (by simpa using hc)) g changed

end Ready

/-! ### Instructions -/

theorem Ready.chainReplicas (ready : s.Ready d []) {behind : InstId} {name : String}
    (slot : i.index < s.func.insts.size) :
    Gives (chainReplicas i name s behind n count) fun r => r.1.Ready d [] := by
  induction count generalizing s behind n with
  | zero => exact .pure ready
  | succ count ih =>
    rw [Replication.chainReplicas]
    refine .ask (answers_copyInst slot) fun r copied => ?_
    obtain ⟨func, copy⟩ := r
    have h₁ : Ready d [copy] { s with func } := ready.edit (ready.spares.copyInst _ copied)
      (ready.wired.copyInst _ copied) (grows_copyInst _ copied)
    have new := h₁.spares.slot copy (by simp)
    refine (h₁.rewire new).bind fun t rewired h₂ => ?_
    have grown := (grows_copyInst _ copied).trans (grows_rewire t rewired)
    refine .ask (h₂.spares.consistent.answers_attachAfter (h₂.spares.slot copy (by simp)))
      fun g placed => ?_
    have h₃ : Ready d [] { t with func := g } := h₂.edit (h₂.spares.attachAfter g placed)
      (h₂.wired.attachAfter g placed) (grows_attachAfter g placed)
    refine (ih h₃ ?_).bind fun _ _ h₄ => .pure h₄
    exact Nat.lt_of_lt_of_le slot (grown.trans (grows_attachAfter g placed)).insts

theorem Ready.replicateInst (ready : s.Ready d []) (slot : i.index < s.func.insts.size) :
    Gives (s.replicateInst i) (Ready d []) := by
  refine .ask (exists_inst slot) fun inst _ => ?_
  split
  · exact .pure ready
  · refine (ready.chainReplicas slot).bind fun r _ h₁ => .pure ?_
    exact ⟨h₁.known, h₁.spares, h₁.wired, h₁.divergent, by simpa using h₁.placeholders⟩

/-! ### Regions -/

theorem Ready.intact (ready : s.Ready d []) : s.func.Intact :=
  ⟨ready.spares.consistent, ready.wired⟩

theorem Ready.becomes (ready : s.Ready d []) {g : Func} (made : s.func.Becomes g) :
    Ready d [] { s with func := g } :=
  ready.edit (.nil made.consistent) made.wired made.grows

theorem gives_copyRegion {region : Region} {f : Func} (whole : f.Intact)
    (slots : ∀ b ∈ region.blocks, b.index < f.blocks.size) :
    Gives (copyRegion region f n count) fun r => f.Becomes r.1 ∧ ∀ copy ∈ r.2, r.1.Holds copy := by
  induction count generalizing f n with
  | zero => exact .pure ⟨whole.refl, by simp⟩
  | succ count ih =>
    rw [copyRegion]
    refine (whole.copyBlocks slots).bind fun r₁ _ known₁ => ?_
    obtain ⟨h₁, first⟩ := known₁
    refine (ih h₁.toIntact fun b hb => h₁.block (slots b hb)).bind fun r₂ _ known₂ => ?_
    obtain ⟨h₂, others⟩ := known₂
    exact .pure ⟨h₁.trans h₂, List.forall_mem_cons.mpr ⟨first.grow h₂.grows, others⟩⟩

/-- Copied placeholders go. -/
theorem gives_eraseHeld {f : Func} (whole : f.Intact) {copy : BlockCopy} (holds : f.Holds copy)
    (gone : List InstId) : Gives (copy.instMap.foldlM (fun f entry =>
      if gone.contains entry.1 then f.erase entry.2 else .ok f) f) f.Becomes := by
  refine .foldlM whole.refl fun g made entry mem => ?_
  split
  · exact made.erase (made.inst (holds.insts entry.1 entry.2 mem))
  · exact .pure made

theorem Ready.spliceCopy (ready : s.Ready d []) {splice : Splice} {top : BlockId} {copy : BlockCopy}
    (holds : s.func.Holds copy) (htop : top.index < s.func.blocks.size)
    (hbottom : splice.bottom.index < s.func.blocks.size) :
    Gives (spliceCopy splice n s top copy) fun r => r.1.Ready d [] ∧
      r.2.index < r.1.func.blocks.size := by
  unfold Replication.spliceCopy
  split
  · rename_i header hheader
    split
    · rename_i exiting hexiting
      refine (gives_eraseHeld ready.intact holds splice.held).bind fun g _ h₁ => ?_
      have ready₁ := ready.becomes h₁
      -- what is rewired stands in the copied blocks when the placeholders are gone
      refine (h₁.toIntact.linked.blocks fun b hb => h₁.block (holds.copies b hb)).bind
        fun blocks _ inside => ?_
      refine Gives.bind (p := fun t : Replication => t.Ready d [] ∧ g.Grows t.func)
        (.foldlM ⟨ready₁, .refl _⟩ fun t ht i hi => ?_) fun t _ ht => ?_
      · have slot := Nat.lt_of_lt_of_le (inside i hi) ht.2.insts
        exact (ht.1.rewire slot).mono fun t' answer h =>
          ⟨h, ht.2.trans (grows_rewire t' answer)⟩
      · have whole := ht.1.intact
        have old : ∀ {b : BlockId}, b.index < s.func.blocks.size → b.index < t.func.blocks.size :=
          fun slot => Nat.lt_of_lt_of_le (h₁.block slot) ht.2.blocks
        have header := old (holds.mapped _ _ hheader)
        refine (whole.refl.replaceSuccessor (old htop) header).bind fun _ _ h₂ => ?_
        refine (h₂.renameIncoming (h₂.block header)).bind fun _ _ h₃ => ?_
        refine (h₃.renameIncoming (h₃.block (old hbottom))).bind fun _ _ h₄ => ?_
        exact .pure ⟨ht.1.becomes h₄, h₄.block (old (holds.mapped _ _ hexiting))⟩
    · exact .pure ⟨ready, htop⟩
  · exact .pure ⟨ready, htop⟩

theorem Ready.spliceCopies (ready : s.Ready d []) {splice : Splice} {top : BlockId}
    {copies : List BlockCopy} (holds : ∀ copy ∈ copies, s.func.Holds copy)
    (htop : top.index < s.func.blocks.size)
    (hbottom : splice.bottom.index < s.func.blocks.size) :
    Gives (spliceCopies splice s top n copies) (Ready d []) := by
  induction copies generalizing s top n with
  | nil => exact .pure ready
  | cons copy copies ih =>
    rw [Replication.spliceCopies]
    refine (ready.spliceCopy (holds copy (by simp)) htop hbottom).bind fun r spliced known => ?_
    have grown := grows_spliceCopy r spliced
    refine ih known.1 (fun copy' mem => (holds copy' (by simp [mem])).grow grown) known.2 ?_
    exact Nat.lt_of_lt_of_le hbottom grown.blocks

theorem answers_predecessor? {f : Func} (whole : f.Intact) {region : Region} :
    Answers (region.predecessor? f) := by
  refine .bind (.filterM fun b hb => ?_) fun outer _ => ?_
  · have listed := List.mem_of_mem_filter hb
    obtain ⟨succs, answer, -⟩ :=
      whole.linked.exists_successors ((whole.consistent.mem_layout b).mp listed)
    exact .bind ⟨succs, answer⟩ fun _ _ => .pure
  · split
    · exact .pure
    · exact .pure

theorem gives_exit? {f : Func} (whole : f.Intact) {region : Region}
    (exiting : region.exiting.index < f.blocks.size) :
    Gives (region.exit? f) fun exit => ∀ b, exit = some b → b.index < f.blocks.size := by
  refine Gives.bind (p := fun succs : List BlockId => ∀ c ∈ succs, c.index < f.blocks.size)
    (whole.linked.exists_successors exiting) fun succs _ lands => ?_
  split
  · exact .pure fun b same => lands b (by simp [Option.some.inj same])
  · exact .pure (by simp)

theorem all_foldl_record (p : Placeholders) (alive : List (InstId × List InstId)) :
    (alive.foldl (fun held entry => held.record entry.1 entry.2) p).all = p.all := by
  induction alive generalizing p with
  | nil => rfl
  | cons entry alive ih => rw [List.foldl_cons, ih, Placeholders.all_record]

theorem Ready.replicateRegion (ready : s.Ready d []) {region : Region}
    (within : region.Within s.func) :
    Gives (s.replicateRegion region) fun r => r.2.Ready d [] := by
  refine .ask (answers_predecessor? ready.intact) fun entry _ => ?_
  cases entry with
  | none => exact .ask (answers_label within.header) fun _ _ => .pure ready
  | some entry =>
    refine (gives_exit? ready.intact within.exiting).bind fun bottom _ lands => ?_
    cases bottom with
    | none => exact .ask (answers_label within.exiting) fun _ _ => .pure ready
    | some bottom =>
      -- the exiting block leads to the block below the copies, which therefore exists
      refine (gives_copyRegion ready.intact within.blocks).bind fun r _ known => ?_
      obtain ⟨func, copies⟩ := r
      obtain ⟨made, holds⟩ := known
      refine ((ready.becomes made).spliceCopies holds (made.block within.exiting)
        (made.block (lands bottom rfl))).bind fun t _ h₁ => .pure ?_
      refine ⟨h₁.known, h₁.spares, h₁.wired, h₁.divergent, ?_⟩
      simpa [all_foldl_record] using h₁.placeholders

theorem Ready.replicateRegions (ready : s.Ready d []) {regions : List Region}
    (within : ∀ r ∈ regions, r.Within s.func) :
    Gives (s.replicateRegions regions) fun r => r.2.Ready d [] := by
  induction regions generalizing s with
  | nil => exact .pure ready
  | cons region rest ih =>
    rw [Replication.replicateRegions]
    refine (ready.replicateRegion (within region (by simp))).bind fun r answer h₁ => ?_
    have grown := grows_replicateRegion r answer
    obtain ⟨error, t⟩ := r
    cases error with
    | some e => exact .pure h₁
    | none => exact ih h₁ fun r hr => (within r (by simp [hr])).grow grown

/-- Everything that is divergent is repeated, or there is an error. -/
theorem Ready.replicateAll (ready : s.Ready d [])
    (insts : ∀ i ∈ d.outermostInstructions, i.index < s.func.insts.size)
    (regions : ∀ r ∈ d.outermostRegions, r.Within s.func) :
    Gives s.replicateAll fun r => r.2.Ready d [] := by
  unfold Replication.replicateAll
  rw [ready.known]
  refine Gives.bind (p := fun t : Replication => t.Ready d [] ∧ s.func.Grows t.func)
    (.foldlM ⟨ready, .refl _⟩ fun t ht i hi => ?_) fun t _ ht => ?_
  · have slot := Nat.lt_of_lt_of_le (insts i hi) ht.2.insts
    exact (ht.1.replicateInst slot).mono fun t' answer h =>
      ⟨h, ht.2.trans (grows_replicateInst t' answer)⟩
  · rw [ht.1.known]
    exact ht.1.replicateRegions fun r hr => (regions r hr).grow ht.2

/-! ### Placeholders -/

theorem Ready.resolve (ready : s.Ready d []) {placeholder : InstId}
    (slot : placeholder.index < s.func.insts.size) :
    Gives (s.resolve placeholder) fun t => t.Ready d [] ∧ s.func.Grows t.func := by
  unfold Replication.resolve
  split
  · split
    · exact .pure ⟨ready, .refl _⟩
    · refine ready.intact.refl.replaceUses.bind fun _ _ h₁ => ?_
      refine (h₁.erase (h₁.inst slot)).bind fun _ _ h₂ => .pure ⟨ready.becomes h₂, h₂.grows⟩
  · refine ready.intact.refl.replaceUses.bind fun _ _ h₁ => ?_
    refine (h₁.erase (h₁.inst slot)).bind fun _ _ h₂ => .pure ⟨{ ready.becomes h₂ with }, h₂.grows⟩

theorem Ready.resolveAll (ready : s.Ready d []) : Gives s.resolveAll (Ready d []) := by
  refine (Gives.foldlM (r := fun t : Replication => t.Ready d [] ∧ s.func.Grows t.func)
    ⟨ready, .refl _⟩ fun t ht i hi => ?_).mono fun _ _ ht => ht.1
  have slot := Nat.lt_of_lt_of_le (ready.placeholders i hi) ht.2.insts
  exact (ht.1.resolve slot).mono fun _ _ h => ⟨h.1, ht.2.trans h.2⟩

end Replication

/-! ### All edits -/

/-- Edits that name what exists keep a function consistent, from the function without blocks on,
and none of them fails if new operations lead to blocks that exist.  So whatever function the
steps of coarsening leave, finished or stopped by an error, is consistent if the one that they
began with was; and where what they are given exists, they come to an answer. -/
theorem editing_keeps_consistent :
    (∀ name params returnTy edits, (Func.empty name params returnTy).along Edit.valid edits = true →
      Yields ((Func.empty name params returnTy).editAll edits) Func.Consistent ∧
      ((Func.empty name params returnTy).along Edit.lands edits = true →
        Gives ((Func.empty name params returnTy).editAll edits) Func.Intact)) ∧
    -- whatever is left of a consistent function
    (∀ f : Func, f.Consistent →
      (∀ regions, Yields (f.extractRegions regions) fun r => r.2.1.Consistent) ∧
      (∀ grid p, Yields (f.scaleGrid grid p) fun r => ∀ g map, r = .ok (g, map) → g.Consistent)) ∧
    (∀ s : Replication, s.func.Consistent →
      (∀ i, Yields (s.replicateInst i) fun t => t.func.Consistent) ∧
      (∀ region, Yields (s.replicateRegion region) fun r => r.2.func.Consistent) ∧
      Yields s.replicateAll (fun r => r.2.func.Consistent) ∧
      Yields s.resolveAll fun t => t.func.Consistent) ∧
    -- and where handles exist
    (∀ f : Func, f.Intact →
      (∀ regions, (∀ r ∈ regions, r.header.index < f.blocks.size) →
        Gives (f.extractRegions regions) fun r => r.2.1.Intact) ∧
      (∀ grid p, (∀ read ∈ grid.reads, read.1.index < f.insts.size) →
        Gives (f.scaleGrid grid p) fun r => ∀ g map, r = .ok (g, map) → g.Intact)) ∧
    (∀ (d : Divergence) (s : Replication), s.Ready d [] →
      (∀ i, i.index < s.func.insts.size → Gives (s.replicateInst i) (Replication.Ready d [])) ∧
      (∀ region, region.Within s.func →
        Gives (s.replicateRegion region) fun r => r.2.Ready d []) ∧
      ((∀ i ∈ d.outermostInstructions, i.index < s.func.insts.size) →
        (∀ r ∈ d.outermostRegions, r.Within s.func) →
          Gives s.replicateAll fun r => r.2.Ready d []) ∧
      Gives s.resolveAll (Replication.Ready d [])) := by
  refine ⟨fun name params returnTy edits valid => ?_, fun f h => ?_, fun s h => ?_,
    fun f whole => ?_, fun d s ready => ?_⟩
  · have consistent := Func.consistent_empty name params returnTy
    have wired := Func.wired_empty name params returnTy
    have kept := consistent.editAll valid
    refine ⟨kept, fun lands => ?_⟩
    exact (consistent.answers_editAll wired valid lands).gives fun g answer =>
      ⟨kept g answer, wired.editAll valid lands g answer⟩
  · exact ⟨fun _ => h.extractPlaces, fun _ _ => h.scaleGrid⟩
  · exact ⟨fun _ => Replication.consistent_replicateInst h,
      fun _ => Replication.consistent_replicateRegion h, Replication.consistent_replicateAll h,
      Replication.consistent_resolveAll h⟩
  · refine ⟨fun regions headers => ?_, fun grid p slots => ?_⟩
    · exact (whole.extractPlaces headers).mono fun _ _ made => made.toIntact
    · exact (whole.scaleGrid slots).mono fun _ _ made g map same => (made g map same).toIntact
  · exact ⟨fun _ slot => ready.replicateInst slot, fun _ within => ready.replicateRegion within,
      ready.replicateAll, ready.resolveAll⟩

/-- Every kind of edit once or more, the first ones on the function without blocks. -/
def someEdits : List Edit :=
  [.addBlock "entry", .addBlockAfter ⟨0⟩ "loop", .addBlockBefore ⟨1⟩ "spare",
    .append ⟨0⟩ (.jump ⟨1⟩) .void "", .append ⟨1⟩ (.phi [(.const 0, ⟨0⟩)]) .i32 "i",
    .append ⟨1⟩ (.jump ⟨1⟩) .void "",
    .insertAfter ⟨1⟩ (.binary .add (.inst ⟨1⟩) (.const 1)) .i32 "n",
    .newInst (.binary .mul (.inst ⟨1⟩) (.const 2)) .i32 "d", .attachAfter ⟨1⟩ ⟨4⟩,
    .insertBefore ⟨3⟩ (.binary .sub (.inst ⟨1⟩) (.const 1)) .i32 "p", .copyInst ⟨3⟩ "c",
    .replaceUses ⟨1⟩ (.inst ⟨3⟩), .replaceUsesExcept ⟨3⟩ (.const 3) [⟨1⟩], .splitBlock ⟨1⟩ 2 "tail",
    .renameIncoming ⟨1⟩ ⟨0⟩ ⟨3⟩, .replaceSuccessor ⟨0⟩ ⟨1⟩ ⟨3⟩, .copyBlocks [⟨1⟩, ⟨3⟩] ".copy",
    .setName ⟨1⟩ "j", .setBlockName ⟨1⟩ "head", .erase ⟨3⟩]

/-- The phi of the loop of `someEdits` as the only divergent value. -/
def phiOnly : Divergence where
  level := .thread
  dim := .x
  set := [⟨1⟩]
  placed := [(⟨1⟩, ⟨1⟩)]
  branches := []
  regions := []
  reads := []

theorem someEdits_keep_consistent : ∃ g, (Func.empty "f" [] .void).editAll someEdits = .ok g ∧
    g.Consistent ∧
    Gives (g.extractRegions [.bounds ⟨0⟩ ⟨3⟩]) (fun r => r.2.1.Consistent) ∧
    Gives (Replication.start phiOnly 2 g .empty).replicateAll fun r => r.2.func.Consistent := by
  have valid : (Func.empty "f" [] .void).along Edit.valid someEdits = true := by decide +kernel
  have lands : (Func.empty "f" [] .void).along Edit.lands someEdits = true := by decide +kernel
  have size : (fun g => (g.blocks.size, g.insts.size)) <$>
      (Func.empty "f" [] .void).editAll someEdits = .ok (6, 14) := by cbv
  have outermost : phiOnly.outermostInstructions = [⟨1⟩] ∧ phiOnly.outermostRegions = [] := by
    decide
  obtain ⟨edits, -, -, coarsening, repetition⟩ := editing_keeps_consistent
  obtain ⟨g, answer, whole⟩ := (edits "f" [] .void someEdits valid).2 lands
  obtain ⟨blocks, insts⟩ : g.blocks.size = 6 ∧ g.insts.size = 14 := by simpa [answer] using size
  have inside : (⟨1⟩ : InstId).index < g.insts.size := by rw [insts]; decide
  have ready := Replication.ready_start (d := phiOnly) 2 .empty whole fun i hi =>
    List.mem_singleton.mp hi ▸ inside
  refine ⟨g, answer, whole.consistent, ?_, ?_⟩
  · refine ((coarsening g whole).1 _ ?_).mono fun _ _ h => h.consistent
    simp [Region.bounds, blocks]
  · refine ((repetition phiOnly _ ready).2.2.1 ?_ ?_).mono fun _ _ h => h.spares.consistent
    · rw [outermost.1]
      exact fun i hi => List.mem_singleton.mp hi ▸ inside
    · simp [outermost.2]

end KernelCoarsening
