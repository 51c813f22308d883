/-
The shape of blocks.

A block in shape starts with its phis and ends with its only terminator.  What a block answers
to questions follows from its shape, and so does what is done to its phis and its terminator:

* `Outline.Shape` — a block consists of phis, of instructions that are neither phis nor
  terminators, and of one terminator;
* `Outline.Formed`, `Outline.Tidy` — all blocks are in shape, and what is named is there;
* `Func.formed_of_flawless`, `Func.tidy_of_flawless` — this holds of a function without flaws, the
  latter if its phis name blocks of the function only;
* `Func.outline_replaceSuccessor`, `Func.outline_renameIncoming` — edits of control flow.
-/
import KernelCoarsening.Proofs.Flow.WellFormed
import KernelCoarsening.Proofs.Ir.Outline

namespace KernelCoarsening

namespace Operation

@[simp] theorem isPhi_mapIncoming (k : BlockId → BlockId) (op : Operation) :
    (op.mapIncoming k).isPhi = op.isPhi := by cases op <;> rfl

@[simp] theorem isTerminator_mapIncoming (k : BlockId → BlockId) (op : Operation) :
    (op.mapIncoming k).isTerminator = op.isTerminator := by cases op <;> rfl

@[simp] theorem successors_mapIncoming (k : BlockId → BlockId) (op : Operation) :
    (op.mapIncoming k).successors = op.successors := by cases op <;> rfl

@[simp] theorem isPhi_mapSuccessors (k : BlockId → BlockId) (op : Operation) :
    (op.mapSuccessors k).isPhi = op.isPhi := by cases op <;> rfl

@[simp] theorem isTerminator_mapSuccessors (k : BlockId → BlockId) (op : Operation) :
    (op.mapSuccessors k).isTerminator = op.isTerminator := by cases op <;> rfl

@[simp] theorem isPhi_mapOperands (k : Value → Value) (op : Operation) :
    (op.mapOperands k).isPhi = op.isPhi := by cases op <;> rfl

@[simp] theorem isTerminator_mapOperands (k : Value → Value) (op : Operation) :
    (op.mapOperands k).isTerminator = op.isTerminator := by cases op <;> rfl

theorem not_isPhi_of_isTerminator {op : Operation} (h : op.isTerminator = true) :
    op.isPhi = false := by
  cases op <;> simp_all [isTerminator, isPhi]

theorem successors_of_plain {op : Operation} (plain : op.isTerminator = false) :
    op.successors = [] := by
  cases op <;> simp_all [isTerminator, successors]

end Operation

namespace Outline

variable {o : Outline} {b : BlockId} {i : InstId} {P Q : Operation → Prop}

/-- An instruction exists, and what it does has a property. -/
def Does (o : Outline) (i : InstId) (P : Operation → Prop) : Prop :=
  ∃ op ty, o.line i = some (op, ty) ∧ P op

theorem Does.mono (h : o.Does i P) (sub : ∀ op, P op → Q op) : o.Does i Q := by
  obtain ⟨op, ty, line, hP⟩ := h
  exact ⟨op, ty, line, sub op hP⟩

/-- A block consists of phis, of instructions that are neither phis nor terminators, and of one
terminator. -/
structure Shape (o : Outline) (b : BlockId) (phis body : List InstId) (last : InstId) : Prop where
  code : o.code b = phis ++ (body ++ [last])
  phis : ∀ i ∈ phis, o.Does i fun op => op.isPhi = true
  body : ∀ i ∈ body, o.Does i fun op => op.isPhi = false ∧ op.isTerminator = false
  last : o.Does last fun op => op.isTerminator = true

/-- An instruction is a phi. -/
def isPhi (o : Outline) (i : InstId) : Bool := (o.line i).any (·.1.isPhi)

/-- The phis that a block starts with. -/
def phis (o : Outline) (b : BlockId) : List InstId := (o.code b).takeWhile o.isPhi

theorem Shape.does {phis body : List InstId} {last : InstId} (h : o.Shape b phis body last)
    (hi : i ∈ o.code b) : ∃ op ty, o.line i = some (op, ty) := by
  have any : ∀ {P : Operation → Prop}, o.Does i P → ∃ op ty, o.line i = some (op, ty) :=
    fun ⟨op, ty, line, _⟩ => ⟨op, ty, line⟩
  rw [h.code] at hi
  simp only [List.mem_append, List.mem_singleton] at hi
  rcases hi with hi | hi | rfl
  · exact any (h.phis i hi)
  · exact any (h.body i hi)
  · exact any h.last

/-- The terminator of a block is its last instruction. -/
theorem Shape.eq_last {phis body : List InstId} {last : InstId} (h : o.Shape b phis body last)
    (hi : i ∈ o.code b) {op : Operation} {ty : Ty} (line : o.line i = some (op, ty))
    (term : op.isTerminator = true) : i = last := by
  have kind : ∀ {P : Operation → Prop}, o.Does i P → P op := by
    rintro P ⟨op', ty', line', hP⟩
    obtain ⟨rfl, -⟩ : op = op' ∧ ty = ty' := by simpa [line] using line'
    exact hP
  rw [h.code] at hi
  simp only [List.mem_append, List.mem_singleton] at hi
  rcases hi with hi | hi | rfl
  · have := kind (h.phis i hi)
    simp [Operation.not_isPhi_of_isTerminator term] at this
  · have := kind (h.body i hi)
    simp [term] at this
  · rfl

theorem isPhi_of_does (h : o.Does i fun op => op.isPhi = true) : o.isPhi i = true := by
  obtain ⟨op, ty, line, phi⟩ := h
  simp [isPhi, line, phi]

theorem not_isPhi_of_does (h : o.Does i fun op => op.isPhi = false) : o.isPhi i = false := by
  obtain ⟨op, ty, line, phi⟩ := h
  simp [isPhi, line, phi]

theorem takeWhile_isPhi {phis rest : List InstId}
    (phi : ∀ i ∈ phis, o.Does i fun op => op.isPhi = true)
    (other : ∀ i ∈ rest, o.Does i fun op => op.isPhi = false) :
    (phis ++ rest).takeWhile o.isPhi = phis := by
  rw [List.takeWhile_append_of_pos fun i hi => isPhi_of_does (phi i hi)]
  cases rest with
  | nil => simp
  | cons i rest => simp [not_isPhi_of_does (other i (by simp))]

theorem Shape.not_phi {phis body : List InstId} {last : InstId} (h : o.Shape b phis body last)
    (hi : i ∈ body ++ [last]) : o.Does i fun op => op.isPhi = false := by
  simp only [List.mem_append, List.mem_singleton] at hi
  rcases hi with hi | rfl
  · exact (h.body i hi).mono fun _ kind => kind.1
  · exact h.last.mono fun _ => Operation.not_isPhi_of_isTerminator

theorem Shape.phis_eq {phis body : List InstId} {last : InstId} (h : o.Shape b phis body last) :
    o.phis b = phis := by
  rw [Outline.phis, h.code]
  exact takeWhile_isPhi h.phis fun i hi => h.not_phi hi

/-- A block has one shape. -/
theorem Shape.unique {phis body phis' body' : List InstId} {last last' : InstId}
    (h : o.Shape b phis body last) (h' : o.Shape b phis' body' last') :
    phis = phis' ∧ body = body' ∧ last = last' := by
  obtain rfl := h.phis_eq.symm.trans h'.phis_eq
  have same := List.append_cancel_left (h.code.symm.trans h'.code)
  obtain ⟨rfl, ends⟩ := List.append_inj' same rfl
  exact ⟨rfl, rfl, by simpa using ends⟩

theorem Shape.getLast? {phis body : List InstId} {last : InstId} (h : o.Shape b phis body last) :
    (o.code b).getLast? = some last := by
  rw [h.code, ← List.append_assoc, List.getLast?_concat]

theorem Shape.mem_of_phi {phis body : List InstId} {last : InstId} (h : o.Shape b phis body last)
    (hi : i ∈ phis) : i ∈ o.code b := by
  rw [h.code]
  exact List.mem_append_left _ hi

theorem Shape.mem_of_rest {phis body : List InstId} {last : InstId} (h : o.Shape b phis body last)
    (hi : i ∈ body ++ [last]) : i ∈ o.code b := by
  rw [h.code]
  exact List.mem_append_right _ hi

theorem Shape.last_mem {phis body : List InstId} {last : InstId} (h : o.Shape b phis body last) :
    last ∈ o.code b := h.mem_of_rest (by simp)

/-- All phis of a block in shape are among those that it starts with. -/
theorem Shape.mem_phis {phis body : List InstId} {last : InstId} (h : o.Shape b phis body last) :
    i ∈ o.phis b ↔ i ∈ o.code b ∧ o.isPhi i = true := by
  rw [h.phis_eq]
  refine ⟨fun hi => ⟨h.mem_of_phi hi, isPhi_of_does (h.phis i hi)⟩, fun ⟨mem, phi⟩ => ?_⟩
  rw [h.code, List.mem_append] at mem
  refine mem.resolve_right fun plain => ?_
  rw [not_isPhi_of_does (h.not_phi plain)] at phi
  contradiction

/-- All blocks are in shape, operands are placed, and terminators lead to blocks. -/
structure Formed (o : Outline) : Prop where
  consistent : o.Consistent
  formed : ∀ b : BlockId, b.index < o.blocks → ∃ phis body last, o.Shape b phis body last
  operands : ∀ i op ty, (o.home i).isSome → o.line i = some (op, ty) →
    ∀ j ∈ op.usedInsts, (o.home j).isSome
  targets : ∀ i op ty, (o.home i).isSome → o.line i = some (op, ty) →
    ∀ t ∈ op.successors, t.index < o.blocks

/-- In addition, phis name blocks that exist. -/
structure Tidy (o : Outline) : Prop extends o.Formed where
  named : ∀ i incoming ty, (o.home i).isSome → o.line i = some (.phi incoming, ty) →
    ∀ p ∈ incoming, p.2.index < o.blocks

/-- The shape of a block depends on the kinds of its instructions. -/
theorem Shape.alter {phis body : List InstId} {last : InstId} (h : o.Shape b phis body last)
    {p : InstId → Prop} [DecidablePred p] {k : Operation → Operation}
    (phi : ∀ op, (k op).isPhi = op.isPhi) (term : ∀ op, (k op).isTerminator = op.isTerminator) :
    (o.alter p k).Shape b phis body last := by
  have kind : ∀ {i : InstId} {P : Operation → Prop}, (∀ op, P op → P (k op)) → o.Does i P →
      (o.alter p k).Does i P := by
    rintro i P keep ⟨op, ty, line, hP⟩
    by_cases hp : p i
    · exact ⟨k op, ty, by simp [line_alter, hp, line], keep op hP⟩
    · exact ⟨op, ty, by simp [line_alter, hp, line], hP⟩
  exact ⟨h.code, fun i hi => kind (by simp [phi]) (h.phis i hi),
    fun i hi => kind (by simp [phi, term]) (h.body i hi), kind (by simp [term]) h.last⟩

theorem phis_alter {p : InstId → Prop} [DecidablePred p] {k : Operation → Operation}
    (phi : ∀ op, (k op).isPhi = op.isPhi) : (o.alter p k).phis = o.phis := by
  have same : (o.alter p k).isPhi = o.isPhi := by
    funext i
    by_cases hp : p i
    · cases line : o.line i <;> simp [isPhi, line_alter, hp, line, phi]
    · simp [isPhi, line_alter, hp]
  funext b
  rw [Outline.phis, Outline.phis, same]
  rfl

end Outline

namespace Func

variable {f : Func} {b : BlockId} {i : InstId} {phis body : List InstId} {last : InstId}

theorem operation_of_does {P : Operation → Prop} (h : f.outline.Does i P) :
    ∃ op, f.operation i = .ok op ∧ P op := by
  obtain ⟨op, ty, line, hP⟩ := h
  exact ⟨op, operation_eq_ok_iff.mpr ⟨ty, line⟩, hP⟩

/-- The phis of a list are those that it starts with. -/
theorem leadingPhis_eq {insts : List InstId} (inside : ∀ i ∈ insts, i.index < f.insts.size) :
    f.leadingPhis insts = .ok (insts.takeWhile f.outline.isPhi) := by
  induction insts with
  | nil => rfl
  | cons i insts ih =>
    obtain ⟨⟨op, ty⟩, line⟩ := Option.isSome_iff_exists.mp
      (line_isSome_iff.mpr (inside i (by simp)))
    have hop : f.operation i = .ok op := operation_eq_ok_iff.mpr ⟨ty, line⟩
    have kind : f.outline.isPhi i = op.isPhi := by
      simp [Outline.isPhi, show f.outline.line i = _ from line]
    have later := ih fun j hj => inside j (List.mem_cons_of_mem _ hj)
    by_cases phi : op.isPhi = true
    · simp [leadingPhis, hop, phi, later, kind, bind, Except.bind, pure, Except.pure]
    · simp [leadingPhis, hop, phi, kind, bind, Except.bind, pure, Except.pure]

theorem Consistent.phis_eq (h : f.Consistent) (hb : b.index < f.blocks.size) :
    f.phis b = .ok (f.outline.phis b) := by
  obtain ⟨block, hblock, insts⟩ := exists_block hb
  have answer := leadingPhis_eq fun i (hi : i ∈ f.code b) => h.lt_of_mem_code hi
  simp only [Func.phis, hblock, bind, Except.bind, insts, answer]
  rfl

theorem slot_of_shape (h : f.outline.Shape b phis body last) : b.index < f.blocks.size :=
  slot_of_mem_code h.last_mem

theorem phis_of_shape (h : f.outline.Shape b phis body last) : f.phis b = .ok phis := by
  obtain ⟨block, hblock, insts⟩ := exists_block (slot_of_shape h)
  have inside : ∀ i ∈ f.code b, i.index < f.insts.size := by
    intro i hi
    obtain ⟨op, ty, line⟩ := h.does hi
    exact line_isSome_iff.mp (Option.isSome_of_eq_some line)
  have answer := leadingPhis_eq inside
  simp only [Func.phis, hblock, bind, Except.bind, insts, answer]
  exact congrArg Except.ok h.phis_eq

theorem terminator_of_shape (h : f.outline.Shape b phis body last) :
    f.terminator b = .ok (some last) := by
  obtain ⟨block, hblock, insts⟩ := exists_block (slot_of_shape h)
  obtain ⟨op, hop, term⟩ := operation_of_does h.last
  have final : block.insts.getLast? = some last := insts ▸ h.getLast?
  simp [terminator, hblock, final, hop, term, bind, Except.bind, pure, Except.pure]

theorem successors_of_shape (h : f.outline.Shape b phis body last) {op : Operation}
    (hop : f.operation last = .ok op) : f.successors b = .ok op.successors := by
  simp [successors, terminator_of_shape h, hop, bind, Except.bind, pure, Except.pure]

/-! ### Functions without flaws -/

/-- Where an instruction of a block in shape leads, there is a block. -/
theorem target_lt_of_shape {g : Graph} (hg : f.graph = .ok g) (shape : f.outline.Shape b phis body last)
    (mem : i ∈ f.code b) {op : Operation} {ty : Ty} (line : f.line i = some (op, ty)) {t : BlockId}
    (target : t ∈ op.successors) : t.index < f.blocks.size := by
  -- only the last instruction of the block has successors
  have term : op.isTerminator = true := by
    by_contra plain
    simp [Operation.successors_of_plain (by simpa using plain)] at target
  obtain rfl := shape.eq_last mem line term
  have succs := successors_of_shape shape (operation_eq_ok_iff.mpr ⟨ty, line⟩)
  have edge :=
    (mem_next_graph hg succs ((slot_of_mem_code mem).trans_eq (size_graph hg).symm)).mpr target
  exact (Graph.next_lt edge).trans_eq (size_graph hg)

/-- Instructions in which no flaw is found: phis first, and everything that they read is
placed. -/
theorem split_of_instFlaw? {begun : Bool} {insts : List InstId}
    (h : f.instFlaw? b begun insts = .ok none) :
    ∃ phis rest, insts = phis ++ rest ∧ (begun = true → phis = []) ∧
      (∀ i ∈ phis, f.outline.Does i fun op => op.isPhi = true) ∧
      (∀ i ∈ rest, f.outline.Does i fun op => op.isPhi = false) ∧
      ∀ i ∈ insts, f.outline.Does i fun op => ∀ j ∈ op.usedInsts, f.isLive j := by
  induction insts generalizing begun with
  | nil => exact ⟨[], [], by simp⟩
  | cons i insts ih =>
    rw [instFlaw?, bind_eq_ok_iff] at h
    obtain ⟨inst, hi, h⟩ := h
    split at h
    · simp only [bind_eq_ok_iff] at h
      obtain ⟨_, _, h⟩ := h
      simp [pure, Except.pure] at h
    split at h
    · simp only [bind_eq_ok_iff] at h
      obtain ⟨_, _, h⟩ := h
      simp [pure, Except.pure] at h
    split at h
    · simp [pure, Except.pure] at h
    rename_i notLate notDangling
    have line : f.outline.line i = some (inst.op, inst.ty) := line_of_inst hi
    have reads : f.outline.Does i fun op => ∀ j ∈ op.usedInsts, f.isLive j :=
      ⟨inst.op, inst.ty, line, by simpa using notDangling⟩
    obtain ⟨phis, rest, split, none, hphis, hrest, live⟩ := ih h
    have all : ∀ j ∈ i :: insts, f.outline.Does j fun op => ∀ k ∈ op.usedInsts, f.isLive k := by
      intro j hj
      rcases List.mem_cons.mp hj with rfl | hj
      · exact reads
      · exact live j hj
    by_cases phi : inst.op.isPhi = true
    · refine ⟨i :: phis, rest, by simp [split], fun yes => ?_, fun j hj => ?_, hrest, all⟩
      · simp [phi, yes] at notLate
      · rcases List.mem_cons.mp hj with rfl | hj
        · exact ⟨_, _, line, phi⟩
        · exact hphis j hj
    · rw [Bool.not_eq_true] at phi
      obtain rfl := none (by simp [phi])
      refine ⟨[], i :: rest, by simp [split], fun _ => rfl, by simp, fun j hj => ?_, all⟩
      rcases List.mem_cons.mp hj with rfl | hj
      · exact ⟨_, _, line, phi⟩
      · exact hrest j hj

theorem shape_of_flawless (flawless : f.firstFlaw? = .ok none) (listed : b ∈ f.layout)
    (inside : b.index < f.blocks.size) :
    ∃ phis body last, f.outline.Shape b phis body last := by
  obtain ⟨block, hblock, insts⟩ := exists_block inside
  obtain ⟨⟨last, hlast⟩, none⟩ := wellFormed_block flawless listed hblock
  obtain ⟨phis, rest, split, -, hphis, hrest, -⟩ := split_of_instFlaw? none
  -- the terminator is the last of all instructions
  unfold terminator at hlast
  simp only [hblock, bind, Except.bind] at hlast
  cases final : block.insts.getLast? with
  | none => simp [final, pure, Except.pure] at hlast
  | some i =>
    simp only [final] at hlast
    cases hop : f.operation i with
    | error e => simp [hop] at hlast
    | ok op =>
      simp only [hop] at hlast
      split at hlast
      · rename_i term
        obtain ⟨before, hbefore⟩ := List.getLast?_eq_some_iff.mp final
        obtain ⟨ty, line⟩ := operation_eq_ok_iff.mp hop
        have ends : f.outline.Does i fun op => op.isTerminator = true := ⟨op, ty, line, term⟩
        -- it is no phi, so it belongs to the rest
        have behind : rest ≠ [] := by
          rintro rfl
          have mem : i ∈ phis := by
            have : i ∈ block.insts := by simp [hbefore]
            simpa [split] using this
          obtain ⟨op', ty', line', phi⟩ := hphis i mem
          obtain ⟨rfl, -⟩ : op = op' ∧ ty = ty' := by
            simpa [show f.outline.line i = _ from line] using line'
          simp [Operation.not_isPhi_of_isTerminator term] at phi
        obtain ⟨body, j, rfl⟩ := List.eq_nil_or_concat rest |>.resolve_left behind
        rw [List.concat_eq_append] at split hrest
        obtain rfl : j = i := by
          have := final
          rw [split, ← List.append_assoc, List.getLast?_concat] at this
          simpa using this
        refine ⟨phis, body, j, insts.symm.trans split, hphis, fun x hx => ?_, ends⟩
        obtain ⟨op', ty', line', phi⟩ := hrest x (by simp [hx])
        refine ⟨op', ty', line', phi, ?_⟩
        -- a terminator inside the body would have something behind it
        obtain ⟨front, back, hfront⟩ := List.append_of_mem hx
        obtain ⟨inst, hinst, rfl, -⟩ := inst_of_line (show f.line x = _ from line')
        by_contra yes
        rw [Bool.not_eq_false] at yes
        have whole : block.insts = (phis ++ front) ++ x :: (back ++ [j]) := by
          simp [split, hfront]
        have := last_of_instFlaw? (whole ▸ none) hinst yes
        simp at this
      · simp [pure, Except.pure] at hlast

/-- A function without flaws is well-formed. -/
theorem formed_of_flawless (consistent : f.Consistent) (flawless : f.firstFlaw? = .ok none) :
    f.outline.Formed := by
  have listed : ∀ b : BlockId, b.index < f.blocks.size → b ∈ f.layout :=
    fun b => (consistent.mem_layout b).mpr
  have formed : ∀ b : BlockId, b.index < f.blocks.size →
      ∃ phis body last, f.outline.Shape b phis body last := fun b inside =>
    shape_of_flawless flawless (listed b inside) inside
  refine ⟨consistent_iff.mp consistent, formed, ?_, ?_⟩
  · intro i op ty placed line j hj
    obtain ⟨b, hb⟩ := Option.isSome_iff_exists.mp placed
    have mem := consistent.mem_code.mpr hb
    obtain ⟨block, hblock, insts⟩ := exists_block (slot_of_mem_code mem)
    obtain ⟨-, none⟩ := wellFormed_block flawless (listed b (slot_of_mem_code mem)) hblock
    obtain ⟨_, _, -, -, -, -, live⟩ := split_of_instFlaw? none
    obtain ⟨op', ty', line', reads⟩ := live i (insts ▸ mem)
    obtain ⟨rfl, -⟩ : op = op' ∧ ty = ty' := by simpa [line] using line'
    exact reads j hj
  · intro i op ty placed line t ht
    obtain ⟨b, hb⟩ := Option.isSome_iff_exists.mp placed
    have mem := consistent.mem_code.mpr hb
    obtain ⟨phis, body, last, shape⟩ := formed b (slot_of_mem_code mem)
    unfold firstFlaw? at flawless
    obtain ⟨g, hg, -⟩ := bind_eq_ok_iff.mp flawless
    exact target_lt_of_shape hg shape mem line ht

/-- A function without flaws is tidy if its phis name blocks of the function only. -/
theorem tidy_of_flawless (consistent : f.Consistent) (flawless : f.firstFlaw? = .ok none)
    (named : ∀ i incoming, f.isLive i → f.operation i = .ok (.phi incoming) →
      ∀ p ∈ incoming, p.2.index < f.blocks.size) : f.outline.Tidy where
  toFormed := formed_of_flawless consistent flawless
  named i incoming ty placed line p hp :=
    named i incoming placed (operation_eq_ok_iff.mpr ⟨ty, line⟩) p hp

/-! ### Edits of control flow -/

theorem outline_replaceSuccessor (shape : f.outline.Shape b phis body last) (old new : BlockId) :
    ∃ g, f.replaceSuccessor b old new = .ok g ∧
      g.outline = f.outline.alter (· = last) (·.mapSuccessors (Operation.redirect old new)) := by
  obtain ⟨op, ty, line, -⟩ := shape.last
  obtain ⟨g, answer, same⟩ := alter_modifyOperation (f := f) (i := last)
    (·.mapSuccessors (Operation.redirect old new)) (line_isSome_iff.mp (Option.isSome_of_eq_some line))
  refine ⟨g, ?_, same⟩
  simp [replaceSuccessor, terminator_of_shape shape, answer, bind, Except.bind]

/-- Redirecting the terminators of several blocks. -/
theorem outline_replaceSuccessor_foldlM (members : List BlockId)
    (shapes : ∀ b ∈ members, ∃ phis body last, f.outline.Shape b phis body last)
    (old new : BlockId) :
    ∃ g, members.foldlM (fun f b => f.replaceSuccessor b old new) f = .ok g ∧ g.outline =
      f.outline.alter (· ∈ members.filterMap fun b => (f.code b).getLast?)
        (·.mapSuccessors (Operation.redirect old new)) := by
  induction members generalizing f with
  | nil => exact ⟨f, rfl, (Outline.alter_of_not (by simp)).symm⟩
  | cons b members ih =>
    obtain ⟨phis, body, last, shape⟩ := shapes b (by simp)
    obtain ⟨f₁, h₁, same₁⟩ := outline_replaceSuccessor shape old new
    have code : f₁.code = f.code := congrArg Outline.code same₁
    obtain ⟨g, h₂, same₂⟩ := ih (f := f₁) fun c hc => by
      obtain ⟨phis', body', last', shape'⟩ := shapes c (List.mem_cons_of_mem _ hc)
      refine ⟨phis', body', last', ?_⟩
      rw [same₁]
      exact shape'.alter (by simp) (by simp)
    refine ⟨g, by rw [List.foldlM_cons, h₁]; exact h₂, ?_⟩
    have final : (f.code b).getLast? = some last := shape.getLast?
    rw [same₂, same₁, Outline.alter_alter (Operation.mapSuccessors_redirect old new)]
    refine Outline.alter_congr fun i => ?_
    rw [code]
    simp [final]

theorem Consistent.outline_renameIncoming (h : f.Consistent) (hb : b.index < f.blocks.size)
    (old new : BlockId) :
    ∃ g, f.renameIncoming b old new = .ok g ∧ g.outline =
      f.outline.alter (· ∈ f.outline.phis b) (·.mapIncoming (Operation.redirect old new)) := by
  obtain ⟨g, answer, same⟩ := alter_foldlM (f := f) (Operation.mapIncoming_redirect old new)
    (f.outline.phis b) fun i hi => h.lt_of_mem_code ((List.takeWhile_sublist _).subset hi)
  refine ⟨g, ?_, same⟩
  simp [renameIncoming, h.phis_eq hb, answer, bind, Except.bind]

/-- Renaming in the phis of several blocks. -/
theorem Consistent.outline_renameIncoming_foldlM (h : f.Consistent) (targets : List BlockId)
    (slots : ∀ c ∈ targets, c.index < f.blocks.size) (old new : BlockId) :
    ∃ g, targets.foldlM (fun f c => f.renameIncoming c old new) f = .ok g ∧ g.outline =
      f.outline.alter (· ∈ targets.flatMap f.outline.phis)
        (·.mapIncoming (Operation.redirect old new)) := by
  induction targets generalizing f with
  | nil => exact ⟨f, rfl, (Outline.alter_of_not (by simp)).symm⟩
  | cons c targets ih =>
    obtain ⟨f₁, h₁, same₁⟩ := h.outline_renameIncoming (slots c (by simp)) old new
    have size : f₁.blocks.size = f.blocks.size := congrArg Outline.blocks same₁
    have phis : f₁.outline.phis = f.outline.phis := by
      rw [same₁, Outline.phis_alter fun op => Operation.isPhi_mapIncoming _ op]
    obtain ⟨g, h₂, same₂⟩ := ih (f := f₁) (h.of_alter same₁)
      fun d hd => size ▸ slots d (List.mem_cons_of_mem _ hd)
    refine ⟨g, by rw [List.foldlM_cons, h₁]; exact h₂, ?_⟩
    rw [same₂, phis, same₁, Outline.alter_alter (Operation.mapIncoming_redirect old new)]
    exact Outline.alter_congr fun i => by simp

end Func

end KernelCoarsening
