/-
The first replica stays as it was.

Whatever commands a repetition is given, and wherever errors stop them, only new instructions are
rewired, only placeholders are replaced, and only copies of placeholders are taken out:

* `Replication.Keeps` — a repetition has kept a function, and its placeholders are new;
* `Replication.Keeps.perform` — every command keeps it, but for the regions that it repeats;
* `Replication.commands_keep_first_replica` — so do all commands, in any order;
* `Replication.earlyRead_changed` — an instruction that reads what does not exist yet is changed.
-/
import KernelCoarsening.Proofs.Coarsening.Commands
import KernelCoarsening.Proofs.Coarsening.Preservation
import KernelCoarsening.Proofs.Divergence.Nesting

namespace KernelCoarsening

namespace Replication

open Func

variable {s : Replication}

theorem sameKinds_chainCopies {f : Func} {i behind : InstId} {name suffix : String}
    {n count : Nat} : Yields (chainCopies i name suffix f behind n count) fun r =>
      f.SameKinds r.1 := by
  induction count generalizing f behind n with
  | zero => exact .pure (.refl f)
  | succ count ih =>
    rw [chainCopies]
    refine .ask fun r copied => .ask fun g placed => ?_
    have grown := (grows_copyInst r copied).trans (grows_attachAfter g placed)
    have first := (kind_copyInst r copied).1.trans (grows_copyInst r copied)
      (sameKinds_attachAfter g placed)
    exact ih.bind fun _ later => .pure (first.trans grown later)

theorem sameKinds_ensurePlaceholders {i : InstId} :
    Yields (s.ensurePlaceholders i) fun t => s.func.SameKinds t.func := by
  unfold ensurePlaceholders
  split
  · exact .pure (.refl _)
  · exact .ask fun _ _ => sameKinds_chainCopies.bind fun _ kept => .pure kept

theorem sameKinds_rewire {n : Nat} {i : InstId} :
    Yields (rewire n s i) fun t => s.func.SameKinds t.func := by
  unfold rewire
  split
  · exact .pure (.refl _)
  · refine .ask fun op _ => ?_
    refine Yields.bind (p := fun t : Replication => s.func.Grows t.func ∧ s.func.SameKinds t.func)
      (.foldlM ⟨.refl _, .refl _⟩ fun t ht i _ t' answer => ?_) fun t ht => ?_
    · have grown := grows_ensurePlaceholders t' answer
      exact ⟨ht.1.trans grown, ht.2.trans ht.1 (sameKinds_ensurePlaceholders t' answer)⟩
    · exact sameKinds_mapOperands.bind fun _ kept => .pure (ht.2.trans ht.1 kept)


/-! ### One step -/

/-- A repetition that has kept a function, and all of whose placeholders are new. -/
structure Keeps (f : Func) (regions : List Region) (s : Replication) : Prop where
  func : f.Preserves regions s.func
  placeholders : ∀ i ∈ s.placeholders.all, f.insts.size ≤ i.index

theorem keeps_start {f : Func} (hf : f.Consistent) (d : Divergence) (factor : Nat)
    (map : ReplicaMap) : (start d factor f map).Keeps f [] where
  func := hf.preserves
  placeholders i hi := by simp [start, Placeholders.empty, Placeholders.all] at hi

/-- Copies of an instruction are chained behind one of its kind. -/
theorem preserves_chainCopies {f g : Func} {regions : List Region} (h : f.Preserves regions g)
    {i behind : InstId} (alike : g.kind behind = g.kind i) {name suffix : String} {n count : Nat} :
    Yields (chainCopies i name suffix g behind n count) fun r =>
      f.Preserves regions r.1 ∧ ∀ c ∈ r.2, f.insts.size ≤ c.index := by
  induction count generalizing g behind n with
  | zero => exact .pure ⟨h, by simp⟩
  | succ count ih =>
    rw [chainCopies]
    refine .ask fun r copied => .ask fun g₂ placed => ?_
    obtain ⟨h₁, new, free⟩ := h.copyInst r copied
    obtain ⟨beside, -, slot⟩ := kind_copy copied alike (.refl _)
    have h₂ := h₁.attachAfter new free beside slot g₂ placed
    -- the copy is of the kind of what it copies, so the next one may go behind it
    obtain ⟨-, alike₂, -⟩ := kind_copy copied alike (sameKinds_attachAfter g₂ placed)
    refine (ih h₂ alike₂).bind fun rest h₃ => .pure ⟨h₃.1, ?_⟩
    exact List.forall_mem_cons.mpr ⟨new, h₃.2⟩

namespace Keeps

variable {f : Func} {regions : List Region} {i : InstId} {n : Nat}

theorem mono {more : List Region} (h : s.Keeps f regions) (sub : ∀ r ∈ regions, r ∈ more) :
    s.Keeps f more := ⟨h.func.mono sub, h.placeholders⟩

variable (h : s.Keeps f regions)

include h

theorem ensurePlaceholders : Yields (s.ensurePlaceholders i) (Keeps f regions) := by
  unfold Replication.ensurePlaceholders
  split
  · exact .pure h
  · rename_i needed
    obtain ⟨-, none⟩ : _ ∧ s.placeholders.get? i = none := by simpa using needed
    refine .ask fun inst _ => ?_
    refine (preserves_chainCopies h.func rfl).bind fun r known => .pure ⟨known.1, fun j hj => ?_⟩
    rw [Placeholders.all_insert none] at hj
    rcases List.mem_append.mp hj with old | new
    · exact h.placeholders j old
    · exact known.2 j new

/-- A new instruction reads what a replica reads. -/
theorem rewire (new : f.insts.size ≤ i.index) : Yields (rewire n s i) (Keeps f regions) := by
  unfold Replication.rewire
  split
  · exact .pure h
  · refine .ask fun op _ => ?_
    refine Yields.bind (.foldlM h fun t ht j _ => ht.ensurePlaceholders) fun t ht => ?_
    refine (ht.func.modifyNew new (renames_id _) fun op => by simp).bind fun g hg => .pure ?_
    exact ⟨hg, ht.placeholders⟩

theorem chainReplicas {behind : InstId} (alike : s.func.kind behind = s.func.kind i)
    {name : String} {count : Nat} : Yields (chainReplicas i name s behind n count) fun r =>
      r.1.Keeps f regions := by
  induction count generalizing s behind n with
  | zero => exact .pure h
  | succ count ih =>
    rw [Replication.chainReplicas]
    refine .ask fun r copied => .ask fun t rewired => .ask fun g placed => ?_
    obtain ⟨func, copy⟩ := r
    obtain ⟨h₁, new, free⟩ := h.func.copyInst _ copied
    have h₂ := Keeps.rewire (s := { s with func }) ⟨h₁, h.placeholders⟩ new t rewired
    -- the placeholders that the copy reads are placed before it is
    have apart := spares_rewire (s := { s with func })
      ((Spares.nil h.func.consistent).copyInst _ copied)
      t rewired
    have kinds := sameKinds_rewire t rewired
    obtain ⟨beside, -, slot⟩ := kind_copy copied alike kinds
    have h₃ := h₂.func.attachAfter new (apart.free copy (by simp)) beside slot g placed
    obtain ⟨-, alike₃, -⟩ := kind_copy copied alike
      (kinds.trans (grows_rewire t rewired) (sameKinds_attachAfter g placed))
    exact (ih (s := { t with func := g }) ⟨h₃, h₂.placeholders⟩ alike₃).bind fun _ h₄ => .pure h₄

theorem replicateInst : Yields (s.replicateInst i) (Keeps f regions) := by
  refine .ask fun inst _ => ?_
  split
  · exact .pure h
  · refine (h.chainReplicas rfl).bind fun r h₁ => .pure ⟨h₁.func, ?_⟩
    simpa using h₁.placeholders

end Keeps

theorem preserves_copyRegion {f g : Func} {regions : List Region} (h : f.Preserves regions g)
    (hf : f.Consistent) {region : Region} {n count : Nat} :
    Yields (copyRegion region g n count) fun r => f.Preserves regions r.1 ∧
      ∀ copy ∈ r.2, f.Precedes copy := by
  induction count generalizing g n with
  | zero => exact .pure ⟨h, by simp⟩
  | succ count ih =>
    rw [copyRegion]
    refine (h.copyBlocks hf).bind fun r₁ h₁ => (ih h₁.1).bind fun r₂ h₂ => .pure ⟨h₂.1, ?_⟩
    exact List.forall_mem_cons.mpr ⟨h₁.2, h₂.2⟩

namespace Keeps

variable {f : Func} {regions : List Region} {n : Nat} (h : s.Keeps f regions)

include h

theorem edit {g : Func} (hg : f.Preserves regions g) : Keeps f regions { s with func := g } :=
  ⟨hg, h.placeholders⟩

theorem eraseHeld (hf : f.Consistent) {copy : BlockCopy} (new : f.Precedes copy)
    (gone : List InstId) : Yields (copy.instMap.foldlM (fun f entry =>
      if gone.contains entry.1 then f.erase entry.2 else .ok f) s.func) (f.Preserves regions) := by
  refine .foldlM h.func fun g hg entry mem => ?_
  split
  · exact hg.erase hf (new.insts entry.1 entry.2 mem)
  · exact .pure hg

theorem spliceCopy (hf : f.Consistent) {splice : Splice} {top : BlockId} {copy : BlockCopy}
    (new : f.Precedes copy) (htop : f.blocks.size ≤ top.index ∨ ∃ r ∈ regions, r.exiting = top)
    (bottom : f.blocks.size ≤ splice.bottom.index ∨
      ∃ r ∈ regions, r.exit? f = .ok (some splice.bottom)) :
    Yields (spliceCopy splice n s top copy) fun r => r.1.Keeps f regions ∧
      (f.blocks.size ≤ r.2.index ∨ ∃ r' ∈ regions, r'.exiting = r.2) := by
  unfold Replication.spliceCopy
  split
  · rename_i header hheader
    split
    · rename_i exiting hexiting
      have fresh := new.mapped _ _ hexiting
      refine (h.eraseHeld hf new splice.held).bind fun g h₁ => .ask fun blocks listed => ?_
      refine Yields.bind (p := Keeps f regions) (.foldlM (h.edit h₁) fun t ht i hi => ?_)
        fun t h₂ => ?_
      · obtain ⟨block, hblock, mem⟩ := List.mem_flatMap.mp hi
        obtain ⟨b, hb, asked⟩ := (mem_of_mapM_eq_ok listed).mp hblock
        rw [← code_of_block asked] at mem
        exact ht.rewire (h₁.new_of_mem_code hf (new.copies b hb) mem)
      · refine (h₂.func.replaceSuccessor hf (new.mapped _ _ hheader) htop).bind fun g₃ h₃ => ?_
        refine (h₃.renameIncoming hf (.inl (new.mapped _ _ hheader))).bind fun g₄ h₄ => ?_
        refine (h₄.renameIncoming hf (bottom.imp_right fun exit => ⟨fresh, exit⟩)).bind
          fun g₅ h₅ => .pure ⟨h₂.edit h₅, .inl fresh⟩
    · exact .pure ⟨h, htop⟩
  · exact .pure ⟨h, htop⟩

theorem spliceCopies (hf : f.Consistent) {splice : Splice} {top : BlockId}
    {copies : List BlockCopy} (new : ∀ copy ∈ copies, f.Precedes copy)
    (htop : f.blocks.size ≤ top.index ∨ ∃ r ∈ regions, r.exiting = top)
    (bottom : f.blocks.size ≤ splice.bottom.index ∨
      ∃ r ∈ regions, r.exit? f = .ok (some splice.bottom)) :
    Yields (spliceCopies splice s top n copies) (Keeps f regions) := by
  induction copies generalizing s top n with
  | nil => exact .pure h
  | cons copy copies ih =>
    rw [Replication.spliceCopies]
    rw [List.forall_mem_cons] at new
    exact (h.spliceCopy hf new.1 htop bottom).bind fun r h₁ => ih h₁.1 new.2 h₁.2

/-- A region is repeated, or there is an error and nothing happens. -/
theorem replicateRegion (hf : f.Consistent) {region : Region}
    (slot : region.exiting.index < f.blocks.size) :
    Yields (s.replicateRegion region) fun r =>
      (r.1 = none → r.2.Keeps f (region :: regions)) ∧ (r.1.isSome → r.2 = s) := by
  refine yields_replicateRegion (fun _ => ⟨by simp, fun _ => rfl⟩)
    fun _ bottom func copies t exit copying spliced => ⟨fun _ => ?_, by simp⟩
  obtain ⟨kept, precede⟩ := preserves_copyRegion h.func hf _ copying
  have h₂ : Keeps f (region :: regions) { s with func } :=
    (h.edit kept).mono fun _ => List.mem_cons_of_mem _
  have below := (h.func.exit? hf slot exit).imp_right fun exit =>
    (⟨region, by simp, exit⟩ : ∃ r ∈ region :: regions, r.exit? f = .ok (some bottom))
  have h₃ := h₂.spliceCopies hf precede (.inr ⟨region, by simp, rfl⟩) below t spliced
  exact ⟨h₃.func, by simpa [withAlive, all_foldl_record] using h₃.placeholders⟩

/-- Regions are repeated up to the first error. -/
theorem replicateRegions (hf : f.Consistent) {list : List Region}
    (slots : ∀ r ∈ list, r.exiting.index < f.blocks.size) :
    Yields (s.replicateRegions list) fun r => r.2.Keeps f (s.repeated list ++ regions) := by
  induction list generalizing s regions with
  | nil => exact .pure h
  | cons region rest ih =>
    rw [List.forall_mem_cons] at slots
    rw [Replication.replicateRegions]
    refine .ask fun r answer => ?_
    obtain ⟨done, failed⟩ := h.replicateRegion hf slots.1 r answer
    obtain ⟨error, t⟩ := r
    cases error with
    | some e =>
      obtain rfl := failed rfl
      exact .pure (h.mono fun r hr => List.mem_append_right _ hr)
    | none =>
      refine (ih (done rfl) slots.2).mono fun r h' => h'.mono fun r' hr' => ?_
      simp only [repeated, answer, List.cons_append, List.mem_cons, List.mem_append] at hr' ⊢
      tauto

theorem resolve (hf : f.Consistent) (defined : f.Defined) {placeholder : InstId}
    (new : f.insts.size ≤ placeholder.index) :
    Yields (s.resolve placeholder) (Keeps f regions) := by
  unfold Replication.resolve
  split
  · split
    · exact .pure h
    · refine (h.func.replaceUses defined new).bind fun r h₁ => ?_
      exact (h₁.erase hf new).bind fun g h₂ => .pure (h.edit h₂)
  · refine (h.func.replaceUses defined new).bind fun r h₁ => ?_
    exact (h₁.erase hf new).bind fun g h₂ => .pure ⟨h₂, h.placeholders⟩

/-! ### All steps -/

/-- A command keeps what was there, but for what repeating its regions asks for. -/
theorem perform (hf : f.Consistent) (defined : f.Defined) {command : Command}
    (slots : ∀ r ∈ s.divergence.regions, r.exiting.index < f.blocks.size)
    (known : ∀ r, command = .region r → r ∈ s.divergence.regions) :
    Yields (s.perform command) (Keeps f (s.repeatedBy command ++ regions)) := by
  cases command with
  | all =>
    refine .map (.ask fun t first => ?_)
    have h₁ : t.Keeps f regions := Yields.foldlM h (fun u hu i _ => hu.replicateInst) t first
    have same := (sameTask_replicateInsts t first).1
    simp only [repeatedBy, first]
    refine h₁.replicateRegions hf fun r hr => slots r ?_
    rw [← same]
    exact (Region.mem_outermost.mp hr).1
  | inst i => exact h.replicateInst
  | region r =>
    refine .map fun answer asked => ?_
    obtain ⟨done, failed⟩ := h.replicateRegion hf (slots r (known r rfl)) answer asked
    obtain ⟨error, t⟩ := answer
    cases error with
    | some e =>
      obtain rfl := failed rfl
      exact h.mono fun r hr => List.mem_append_right _ hr
    | none => simpa [repeatedBy, repeated, asked] using done rfl
  | resolve => exact .foldlM h fun t ht i hi => ht.resolve hf defined (h.placeholders i hi)

theorem performAll (hf : f.Consistent) (defined : f.Defined) {commands : List Command}
    (slots : ∀ r ∈ s.divergence.regions, r.exiting.index < f.blocks.size)
    (known : ∀ r, .region r ∈ commands → r ∈ s.divergence.regions) :
    Yields (s.performAll commands) (Keeps f (s.repeatedAlong commands ++ regions)) := by
  induction commands generalizing s regions with
  | nil => exact .pure h
  | cons command rest ih =>
    rw [Replication.performAll, List.foldlM_cons]
    refine .ask fun t first => ?_
    have h₁ := h.perform hf defined slots (fun r here => known r (by simp [here])) t first
    have same := (sameTask_perform command t first).1
    refine (ih h₁ (same ▸ slots) (fun r hr => same ▸ known r (by simp [hr]))).mono fun u h₂ => ?_
    refine h₂.mono fun r hr => ?_
    simp only [repeatedAlong, first, List.mem_append] at hr ⊢
    tauto

end Keeps

/-- Whatever commands make of a repetition, the function that it began with is still there: every
instruction has its type, its name, its block and its operation, but for the terminators of exiting
blocks and the phis behind regions that were repeated, and in every block the instructions that
were there are in their order. -/
theorem commands_keep_first_replica {f : Func} (consistent : f.Consistent) (defined : f.Defined)
    {selector : DimensionSelector} {shared : List GlobalId} {level : Level} {dim : Dimension}
    {found : DivergentFunc} (analysis : f.analyze selector shared level dim = .ok (.ok found))
    (factor : Nat) (map : ReplicaMap) (commands : List Command)
    (known : ∀ r, .region r ∈ commands → r ∈ found.divergence.regions)
    (run : (start found.divergence factor f map).performAll commands = .ok s) :
    (∀ i inst, f.inst i = .ok inst → ∃ op, s.func.inst i = .ok { inst with op } ∧ f.Retouched
      ((start found.divergence factor f map).repeatedAlong commands) i inst.op op) ∧
    ∀ b, (s.func.code b).filter (·.index < f.insts.size) = f.code b := by
  obtain ⟨ops, accesses, a⟩ := analyzed analysis
  have slots : ∀ r ∈ found.divergence.regions, r.exiting.index < f.blocks.size := by
    intro r hr
    have spans := a.spans consistent hr
    rw [← size_graph a.graph]
    exact spans.slot spans.exiting_mem
  have kept := (keeps_start consistent found.divergence factor map).performAll consistent defined
    slots known s run
  rw [List.append_nil] at kept
  refine ⟨fun i inst hi => ?_, fun b => kept.func.filter_code consistent⟩
  obtain ⟨op, there, touched⟩ := kept.func.kept i inst (inst_eq_ok_iff.mp hi)
  exact ⟨op, inst_eq_ok_iff.mpr there, touched⟩

/-- A region, an instruction of it and everything at once are repeated in a kernel with a phi behind
the region. -/
theorem pick_keeps_first_replica :
    ∃ s, (start pickFound.divergence 3 pick .empty).performAll [.region pickRegion, .all,
        .inst ⟨4⟩, .resolve, .region pickRegion] = .ok s ∧
      (s.stats.regions, s.stats.placeholders) = (3, 4) ∧
      (∀ i inst, pick.inst i = .ok inst → ∃ op, s.func.inst i = .ok { inst with op } ∧
        pick.Retouched ((start pickFound.divergence 3 pick .empty).repeatedAlong
          [.region pickRegion, .all, .inst ⟨4⟩, .resolve, .region pickRegion]) i inst.op op) ∧
      ∀ b, (s.func.code b).filter (·.index < pick.insts.size) = pick.code b := by
  have stats : ((start pickFound.divergence 3 pick .empty).performAll [.region pickRegion, .all,
      .inst ⟨4⟩, .resolve, .region pickRegion]).toOption.map
        (fun s => (s.stats.regions, s.stats.placeholders)) = some (3, 4) := by decide +kernel
  obtain ⟨s, run, counts⟩ := Option.map_eq_some_iff.mp stats
  replace run := toOption_eq_some_iff.mp run
  have consistent : pick.Consistent := consistent_assemble ..
  refine ⟨s, run, counts, commands_keep_first_replica consistent
    (defined_of_flawless consistent (by cbv)) analyze_pick 3 .empty _ ?_ run⟩
  simp [pickFound, pickRegion]

/-! ### An instruction that reads what does not exist yet -/

/-- The last of the sums reads an instruction that does not exist: repeating the others makes a
placeholder in its slot. -/
def earlyRead : Func := .assemble "early_read" [] [
  ("entry", [
    ⟨.call "llvm.nvvm.read.ptx.sreg.tid.x" [], .i32, "t"⟩,
    ⟨.binary .add (.inst ⟨2⟩) (.const 1), .i32, "u"⟩,
    ⟨.binary .add (.inst ⟨0⟩) (.const 1), .i32, "v"⟩,
    ⟨.binary .add (.inst ⟨7⟩) (.const 1), .i32, "w"⟩,
    ⟨.jump ⟨1⟩, .void, ""⟩]),
  ("exit", [⟨.ret none, .void, ""⟩])]

/-- What the analysis finds in the kernel. -/
def earlyReadFound : DivergentFunc where
  func := earlyRead
  flow :=
    { graph := ⟨#[[1], []], by decide⟩
      dom := ⟨#[some 0, some 0]⟩
      pdom := ⟨#[some 1, some 2, some 2], 2⟩
      loops := ⟨[]⟩ }
  grid := ⟨[(⟨0⟩, .threadId, .x)], []⟩
  divergence :=
    { level := .thread
      dim := .x
      set := [⟨1⟩, ⟨2⟩, ⟨0⟩]
      placed := [(⟨0⟩, ⟨0⟩), (⟨1⟩, ⟨0⟩), (⟨2⟩, ⟨0⟩)]
      branches := []
      regions := []
      reads := [⟨0⟩] }

theorem analyze_earlyRead :
    earlyRead.analyze (.only .x) [] .thread .x = .ok (.ok earlyReadFound) :=
  Func.analyze_eq_ok_iff.mpr ⟨by cbv, by rfl, by cbv, rfl⟩

/-- In a consistent kernel without any branch, an instruction that was there reads something else
when everything has been repeated and placeholders have gone. -/
theorem earlyRead_changed :
    earlyRead.Consistent ∧
      earlyRead.analyze (.only .x) [] .thread .x = .ok (.ok earlyReadFound) ∧
      ∃ s, (start earlyReadFound.divergence 2 earlyRead .empty).performAll [.all, .resolve] =
          .ok s ∧
        earlyRead.operation ⟨3⟩ = .ok (.binary .add (.inst ⟨7⟩) (.const 1)) ∧
        s.func.operation ⟨3⟩ = .ok (.binary .add (.inst ⟨8⟩) (.const 1)) ∧
        ∀ regions, ¬ earlyRead.Retouched regions ⟨3⟩ (.binary .add (.inst ⟨7⟩) (.const 1))
          (.binary .add (.inst ⟨8⟩) (.const 1)) := by
  have reads : ((start earlyReadFound.divergence 2 earlyRead .empty).performAll
      [.all, .resolve]).toOption.map (fun s => (s.func.operation ⟨3⟩).toOption) =
        some (some (.binary .add (.inst ⟨8⟩) (.const 1))) := by decide +kernel
  obtain ⟨s, run, changed⟩ := Option.map_eq_some_iff.mp reads
  refine ⟨consistent_assemble .., analyze_earlyRead, s, toOption_eq_some_iff.mp run, by rfl,
    toOption_eq_some_iff.mp changed, fun regions touched => ?_⟩
  exact absurd touched.operands (by decide)

end Replication

end KernelCoarsening
