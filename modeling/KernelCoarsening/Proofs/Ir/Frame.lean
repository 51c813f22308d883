/-
What an edit leaves alone.

An edit that is made for one instruction touches the slot of that instruction only, and an edit
that is made for a block touches the slots of its phis or of its terminator:

* `Func.insts_attachAfter`, `Func.insts_erase`, … — the slots of all other instructions are as
  they were;
* `Func.SameKinds` — what is a phi stays one, and all instructions lead where they led;
* `Func.Leaves` — instructions stay where they are, and terminators stay terminators.
-/
import KernelCoarsening.Proofs.Ir.Editing

namespace KernelCoarsening

namespace Func

variable {f g h : Func} {b : BlockId} {i j anchor : InstId}

/-! ### Slots of other instructions -/

theorem insts_modifyInst {k : Inst → Inst} (other : j ≠ i) :
    Yields (f.modifyInst i k) fun g => g.insts[j.index]? = f.insts[j.index]? := by
  have apart : i.index ≠ j.index := fun same => other (by cases i; cases j; simp_all)
  refine .ask fun inst _ => .pure ?_
  exact Array.getElem?_setIfInBounds_ne apart

theorem insts_modifyInst_self {k : Inst → Inst} :
    Yields (f.modifyInst i k) fun g => g.insts[i.index]? = (f.insts[i.index]?).map k := by
  refine .ask fun inst hi => .pure ?_
  have slot := inst_eq_ok_iff.mp hi
  rw [slot, Option.map_some,
    Array.getElem?_setIfInBounds_self_of_lt (Array.getElem?_eq_some_iff.mp slot).1]

theorem insts_modifyBlock {k : Block → Block} :
    Yields (f.modifyBlock b k) fun g => g.insts = f.insts :=
  .ask fun _ _ => .pure rfl

theorem insts_newInst {op : Operation} {ty : Ty} {name : String} (old : j.index < f.insts.size) :
    (f.newInst op ty name).1.insts[j.index]? = f.insts[j.index]? := by
  simp [newInst, Array.getElem?_push, Nat.ne_of_lt old]

theorem insts_place {n : Nat} (other : j ≠ i) :
    Yields (f.place b n i) fun g => g.insts[j.index]? = f.insts[j.index]? :=
  insts_modifyBlock.bind fun _ same => (insts_modifyInst other).mono fun _ kept => by
    rw [kept, same]

theorem insts_attachAfter (other : j ≠ i) :
    Yields (f.attachAfter anchor i) fun g => g.insts[j.index]? = f.insts[j.index]? := by
  refine .ask fun place _ => ?_
  match place with
  | none => exact .pure rfl
  | some (b, n) =>
    refine .ask fun op _ => ?_
    split
    · refine .ask fun op' _ => ?_
      split
      · exact insts_place other
      · exact .ask fun _ _ => insts_place other
    · exact insts_place other

theorem insts_append {op : Operation} {ty : Ty} {name : String} (old : j.index < f.insts.size) :
    Yields (f.append b op ty name) fun r => r.1.insts[j.index]? = f.insts[j.index]? := by
  refine .ask fun block _ => ?_
  have other : j ≠ ⟨f.insts.size⟩ := fun same => by simp [same] at old
  exact (insts_place other).bind fun _ kept => .pure (kept.trans (insts_newInst old))

theorem snd_append {op : Operation} {ty : Ty} {name : String} :
    Yields (f.append b op ty name) fun r => r.2 = ⟨f.insts.size⟩ :=
  .ask fun _ _ => .ask fun _ _ => .pure rfl

/-- A copy takes the next slot. -/
theorem slot_copyInst {name : String} : Yields (f.copyInst i name) fun r =>
    r.2.index = f.insts.size ∧ r.2.index < r.1.insts.size :=
  .ask fun _ _ => .pure ⟨rfl, by simp [newInst]⟩

theorem insts_erase (other : j ≠ i) :
    Yields (f.erase i) fun g => g.insts[j.index]? = f.insts[j.index]? := by
  refine .ask fun inst _ => ?_
  split
  · exact .pure rfl
  · exact (insts_modifyInst other).bind fun _ kept => insts_modifyBlock.mono fun _ same => by
      rw [same, kept]

theorem line_of_insts (same : g.insts[i.index]? = f.insts[i.index]?) : g.line i = f.line i := by
  rw [line, line, same]

theorem operation_of_insts (same : g.insts[i.index]? = f.insts[i.index]?) :
    g.operation i = f.operation i := by
  rw [operation, operation, inst, inst, same]

theorem lt_of_operation {op : Operation} (h : f.operation i = .ok op) :
    i.index < f.insts.size := by
  obtain ⟨ty, line⟩ := operation_eq_ok_iff.mp h
  exact line_isSome_iff.mp (Option.isSome_of_eq_some line)

/-- An instruction that is not placed is no place to put another one behind. -/
theorem attachAfter_of_unplaced (unplaced : f.blockOf anchor = none) :
    f.attachAfter anchor i = .ok f := by
  simp [attachAfter, position, unplaced, bind, Except.bind, pure, Except.pure]

/-! ### Kinds -/

/-- Whether an instruction is a phi, and where it leads. -/
def kind (f : Func) (i : InstId) : Option (Bool × List BlockId) :=
  (f.line i).map fun line => (line.1.isPhi, line.1.successors)

theorem kind_of_insts (same : g.insts[i.index]? = f.insts[i.index]?) : g.kind i = f.kind i := by
  rw [kind, kind, line_of_insts same]

theorem lt_of_kind (slot : (f.kind i).isSome) : i.index < f.insts.size :=
  line_isSome_iff.mp (by simpa [kind] using slot)

/-- The instructions that were there have the kinds that they had. -/
def SameKinds (f g : Func) : Prop := ∀ i : InstId, i.index < f.insts.size → g.kind i = f.kind i

theorem SameKinds.refl (f : Func) : f.SameKinds f := fun _ _ => rfl

theorem SameKinds.trans (first : f.SameKinds g) (grown : f.Grows g) (second : g.SameKinds h) :
    f.SameKinds h := fun i old =>
  (second i (Nat.lt_of_lt_of_le old grown.insts)).trans (first i old)

theorem sameKinds_newInst (op : Operation) (ty : Ty) (name : String) :
    f.SameKinds (f.newInst op ty name).1 := fun _ old => kind_of_insts (insts_newInst old)

/-- Placing an instruction changes no kind, not even its own. -/
theorem sameKinds_place {n : Nat} : Yields (f.place b n i) f.SameKinds := by
  refine insts_modifyBlock.bind fun f₁ same g answer j _ => ?_
  have before : f₁.kind j = f.kind j := kind_of_insts (by rw [same])
  by_cases here : j = i
  · subst here
    have kept := insts_modifyInst_self g answer
    rw [← before, kind, kind, line, line, kept, Option.map_map]
    cases f₁.insts[j.index]? <;> rfl
  · rw [← before, kind_of_insts (insts_modifyInst here g answer)]

theorem sameKinds_attachAfter : Yields (f.attachAfter anchor i) f.SameKinds := by
  refine .ask fun place _ => ?_
  match place with
  | none => exact .pure (.refl f)
  | some (b, n) =>
    refine .ask fun op _ => ?_
    split
    · refine .ask fun op' _ => ?_
      split
      · exact sameKinds_place
      · exact .ask fun _ _ => sameKinds_place
    · exact sameKinds_place

theorem sameKinds_mapOperands {k : Value → Value} :
    Yields (f.modifyOperation i (·.mapOperands k)) f.SameKinds := by
  intro g answer j _
  by_cases here : j = i
  · subst here
    have kept := insts_modifyInst_self g answer
    rw [kind, kind, line, line, kept, Option.map_map, Option.map_map, Option.map_map]
    congr 1
    funext inst
    simp
  · exact kind_of_insts (insts_modifyInst here g answer)

/-- A copy is of the kind of what it copies. -/
theorem kind_copyInst {name : String} : Yields (f.copyInst i name) fun r =>
    f.SameKinds r.1 ∧ r.1.kind r.2 = f.kind i ∧ (f.kind i).isSome := by
  refine .ask fun inst hi => .pure ⟨sameKinds_newInst _ _ _, ?_, ?_⟩
  · simp [newInst, kind, line, inst_eq_ok_iff.mp hi]
  · simp [kind, line_of_inst hi]

/-- A copy stays of the kind of what it copies, and of what is of the same kind. -/
theorem kind_copy {name : String} {r : Func × InstId} (copied : f.copyInst i name = .ok r)
    (alike : f.kind anchor = f.kind i) (kinds : r.1.SameKinds g) :
    g.kind r.2 = g.kind anchor ∧ g.kind r.2 = g.kind i ∧ (g.kind r.2).isSome := by
  obtain ⟨before, kind, slot⟩ := kind_copyInst r copied
  have same : ∀ j, (f.kind j).isSome → g.kind j = f.kind j := fun j slot => by
    have old := lt_of_kind slot
    rw [kinds j (Nat.lt_of_lt_of_le old (grows_copyInst r copied).insts), before j old]
  rw [kinds r.2 (lt_of_kind (kind ▸ slot)), kind, same i slot, same anchor (alike ▸ slot)]
  exact ⟨alike.symm, rfl, slot⟩

/-! ### Places -/

/-- Whether an instruction is a terminator. -/
def ends (f : Func) (i : InstId) : Option Bool := (f.line i).map (·.1.isTerminator)

/-- The instructions that were there are where they were, but for some that may be moved, and
terminators are what they were. -/
structure Leaves (moved : InstId → Prop) (f g : Func) : Prop where
  grows : f.Grows g
  home : ∀ i, i.index < f.insts.size → ¬ moved i → g.blockOf i = f.blockOf i
  ends : ∀ i, i.index < f.insts.size → g.ends i = f.ends i

variable {moved : InstId → Prop}

theorem Leaves.refl (f : Func) : f.Leaves moved f := ⟨.refl f, fun _ _ _ => rfl, fun _ _ => rfl⟩

theorem Leaves.trans (first : f.Leaves moved g) (second : g.Leaves moved h) :
    f.Leaves moved h where
  grows := first.grows.trans second.grows
  home i old stays := (second.home i (Nat.lt_of_lt_of_le old first.grows.insts) stays).trans
    (first.home i old stays)
  ends i old := (second.ends i (Nat.lt_of_lt_of_le old first.grows.insts)).trans (first.ends i old)

theorem Leaves.mono {more : InstId → Prop} (leaves : f.Leaves moved g)
    (sub : ∀ i, i.index < f.insts.size → moved i → more i) : f.Leaves more g where
  grows := leaves.grows
  home i old stays := leaves.home i old fun gone => stays (sub i old gone)
  ends := leaves.ends

/-- What an edit leaves has been left from where the edits began. -/
theorem Leaves.then {x : Except Fault Func} (first : f.Leaves moved g)
    (second : Yields x (g.Leaves moved)) : Yields x (f.Leaves moved) :=
  second.mono fun _ later => first.trans later

theorem leaves_foldlM {α : Type} {step : Func → α → Except Fault Func} {xs : List α}
    (each : ∀ g, ∀ a ∈ xs, Yields (step g a) (g.Leaves moved)) :
    Yields (xs.foldlM step f) (f.Leaves moved) :=
  .foldlM (.refl f) fun g hg a ha => hg.then (each g a ha)

theorem leaves_of_insts (grows : f.Grows g)
    (insts : ∀ i : InstId, i.index < f.insts.size → g.insts[i.index]? = f.insts[i.index]?) :
    f.Leaves moved g where
  grows := grows
  home i old _ := by rw [blockOf, blockOf, insts i old]
  ends i old := by rw [Func.ends, Func.ends, line, line, insts i old]

/-- An instruction changes.  It stays a terminator if it is one, and it stays where it is unless it
may be moved. -/
theorem leaves_modifyInst {k : Inst → Inst}
    (kinds : ∀ inst, (k inst).op.isTerminator = inst.op.isTerminator)
    (stays : moved i ∨ ∀ inst, (k inst).block = inst.block) :
    Yields (f.modifyInst i k) (f.Leaves moved) := by
  intro g answer
  have self := insts_modifyInst_self g answer
  have others : ∀ j : InstId, j ≠ i → g.insts[j.index]? = f.insts[j.index]? :=
    fun j other => insts_modifyInst other g answer
  refine ⟨grows_modifyInst g answer, fun j _ keeps => ?_, fun j _ => ?_⟩
  · by_cases here : j = i
    · subst here
      have same := stays.resolve_left keeps
      rw [blockOf, blockOf, self]
      cases f.insts[j.index]? with
      | none => rfl
      | some inst => exact same inst
    · rw [blockOf, blockOf, others j here]
  · by_cases here : j = i
    · subst here
      rw [Func.ends, Func.ends, line, line, self]
      cases f.insts[j.index]? with
      | none => rfl
      | some inst => exact congrArg some (kinds inst)
    · rw [Func.ends, Func.ends, line, line, others j here]

theorem leaves_modifyOperation {k : Operation → Operation}
    (kinds : ∀ op, (k op).isTerminator = op.isTerminator) :
    Yields (f.modifyOperation i k) (f.Leaves moved) :=
  leaves_modifyInst (fun _ => kinds _) (.inr fun _ => rfl)

theorem leaves_modifyBlock {k : Block → Block} : Yields (f.modifyBlock b k) (f.Leaves moved) :=
  fun g answer => leaves_of_insts (grows_modifyBlock g answer) fun _ _ => by
    rw [insts_modifyBlock g answer]

theorem leaves_newInst (op : Operation) (ty : Ty) (name : String) :
    f.Leaves moved (f.newInst op ty name).1 :=
  leaves_of_insts grows_newInst fun _ old => insts_newInst old

theorem leaves_place (moves : moved i) {n : Nat} : Yields (f.place b n i) (f.Leaves moved) :=
  leaves_modifyBlock.bind fun _ left =>
    left.then (leaves_modifyInst (fun _ => rfl) (.inl moves))

theorem leaves_attachAfter (moves : moved i) :
    Yields (f.attachAfter anchor i) (f.Leaves moved) := by
  refine .ask fun place _ => ?_
  match place with
  | none => exact .pure (.refl f)
  | some (b, n) =>
    refine .ask fun op _ => ?_
    split
    · refine .ask fun op' _ => ?_
      split
      · exact leaves_place moves
      · exact .ask fun _ _ => leaves_place moves
    · exact leaves_place moves

theorem leaves_append {op : Operation} {ty : Ty} {name : String} :
    Yields (f.append b op ty name) fun r => f.Leaves moved r.1 := fun r answer =>
  leaves_of_insts (grows_append r answer) fun _ old => insts_append old r answer

theorem leaves_addBlock (name : String) : f.Leaves moved (f.addBlock name).1 :=
  leaves_of_insts grows_addBlock fun _ _ => rfl

theorem leaves_erase (moves : moved i) : Yields (f.erase i) (f.Leaves moved) := by
  refine .ask fun inst _ => ?_
  split
  · exact .pure (.refl f)
  · exact (leaves_modifyInst (k := fun inst => { inst with block := none }) (fun _ => rfl)
      (.inl moves)).bind fun _ left => left.then leaves_modifyBlock

theorem leaves_copyInst {name : String} :
    Yields (f.copyInst i name) fun r => f.Leaves moved r.1 :=
  .ask fun _ _ => .pure (leaves_newInst _ _ _)

theorem leaves_replaceUses {old : InstId} {new : Value} :
    Yields (f.replaceUses old new) fun r => f.Leaves moved r.1 := by
  refine .ask fun users _ => ?_
  refine .foldlM (r := fun r : Func × Nat => f.Leaves moved r.1) (.refl f) fun r hr user _ => ?_
  refine .ask fun op _ => ?_
  exact (hr.then (leaves_modifyOperation fun op => by simp [Operation.substitute])).bind
    fun _ left => .pure left

theorem leaves_replaceSuccessor {old new : BlockId} :
    Yields (f.replaceSuccessor b old new) (f.Leaves moved) := by
  refine .ask fun term _ => ?_
  cases term with
  | none => exact .pure (.refl f)
  | some term => exact leaves_modifyOperation fun op => by simp

theorem leaves_renameIncoming {old new : BlockId} :
    Yields (f.renameIncoming b old new) (f.Leaves moved) :=
  .ask fun _ _ => leaves_foldlM fun _ _ _ => leaves_modifyOperation fun op => by simp

theorem isSome_place {n : Nat} : Yields (f.place b n i) fun g => (g.blockOf i).isSome := by
  refine .ask fun f₁ _ g answer => ?_
  obtain ⟨inst, hi, -⟩ := bind_eq_ok_iff.mp answer
  rw [blockOf, insts_modifyInst_self g answer, inst_eq_ok_iff.mp hi]
  rfl

/-- What is placed behind a placed instruction is placed. -/
theorem Consistent.isSome_attachAfter (hf : f.Consistent) (placed : (f.blockOf anchor).isSome) :
    Yields (f.attachAfter anchor i) fun g => (g.blockOf i).isSome := by
  obtain ⟨b, home⟩ := Option.isSome_iff_exists.mp placed
  obtain ⟨before, after, code⟩ := List.append_of_mem (hf.mem_code.mpr home)
  unfold Func.attachAfter
  rw [hf.position code]
  refine .ask fun _ answer => ?_
  obtain rfl := Except.ok.inj answer
  refine .ask fun op _ => ?_
  split
  · refine .ask fun op' _ => ?_
    split
    · exact isSome_place
    · exact .ask fun _ _ => isSome_place
  · exact isSome_place

end Func

end KernelCoarsening
