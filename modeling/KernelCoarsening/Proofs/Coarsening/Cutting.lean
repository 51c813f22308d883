/-
Cutting a block in two keeps what a function does.

Behind its phis, a block may be cut anywhere: control runs through the first part, over the new
jump, and through the second part.  The blocks that follow know the second part under a new
name.

* `Func.exists_splitBlock` — what the cut function looks like;
* `Func.Cut.formed`, `Func.Cut.tidy` — its blocks are in shape, and it is tidy, if this holds of the
  function;
* `Func.Cut.runs_iff` — it does what the function does.
-/
import KernelCoarsening.Proofs.Execution.Simulation
import Mathlib.Data.List.Find

namespace KernelCoarsening

/-- A renaming to a new name keeps names apart. -/
theorem Operation.redirect_inj {old new b c : BlockId} (hb : b ≠ new) (hc : c ≠ new) :
    redirect old new b = redirect old new c ↔ b = c := by
  unfold redirect
  by_cases b = old <;> by_cases c = old <;> grind

namespace Func

variable {f g : Func} {b : BlockId} {phis front back : List InstId} {last : InstId}

/-- Moving instructions to another block, as far as they know about it. -/
theorem outline_setHome (xs : List InstId) (inside : ∀ i ∈ xs, i.index < f.insts.size)
    (c : BlockId) :
    ∃ g, xs.foldlM (fun f i => f.modifyInst i fun inst => { inst with block := some c }) f = .ok g ∧
      g.outline = { f.outline with
        home := fun j => if j ∈ xs then some c else f.blockOf j } := by
  induction xs generalizing f with
  | nil => exact ⟨f, rfl, by simp [outline]⟩
  | cons x xs ih =>
    obtain ⟨inst, hinst⟩ := exists_inst (inside x (by simp))
    obtain ⟨f₁, h₁, same₁⟩ := outline_modifyInst (fun inst => { inst with block := some c }) hinst
    have size : f₁.insts.size = f.insts.size := congrArg Outline.insts same₁
    have home : f₁.blockOf = Function.update f.blockOf x (some c) := congrArg Outline.home same₁
    obtain ⟨g, h₂, same₂⟩ := ih (f := f₁) fun i hi => size ▸ inside i (List.mem_cons_of_mem _ hi)
    refine ⟨g, by rw [List.foldlM_cons, h₁]; exact h₂, ?_⟩
    rw [same₂, same₁, ← line_of_inst hinst, Function.update_eq_self, home]
    simp only [outline, Outline.mk.injEq, true_and]
    funext j
    by_cases here : j = x
    · simp [here]
    · simp [here]

theorem Consistent.outline_addBlockAfter (h : f.Consistent) {before after : List BlockId}
    (layout : f.layout = before ++ b :: after) (name : String) :
    (f.addBlockAfter b name).1.outline = { f.outline with
      layout := before ++ b :: ⟨f.blocks.size⟩ :: after
      blocks := f.blocks.size + 1 } := by
  have place := findIdx?_append_cons (layout ▸ h.layout_nodup)
  have new := outline_newBlock (f := f) name
  have order : (f.addBlockAfter b name).1.layout = before ++ b :: ⟨f.blocks.size⟩ :: after := by
    show f.layout.insertIdx ((f.layout.findIdx? (· == b)).elim _ (· + 1)) _ = _
    rw [layout, place]
    exact insertIdx_append_succ before after b _
  ext1
  · rfl
  · exact order
  · exact (congrArg Outline.blocks new :)
  · rfl
  · exact (congrArg Outline.code new :)
  · rfl
  · rfl

/-! ### The cut function -/

/-- A function is another one in which a block has been cut in two: the part in front ends in a
jump to the new block, which `back` and the terminator have moved to.  Where control went from
the block, phis name the new block now. -/
structure Cut (f g : Func) (b : BlockId) (phis front back : List InstId) (last : InstId)
    (targets : List BlockId) : Prop where
  consistent : g.Consistent
  shape : f.outline.Shape b phis (front ++ back) last
  ending : f.outline.Does last fun op => op.successors = targets
  params : g.params = f.params
  layout : ∃ before after, f.layout = before ++ b :: after ∧
    g.layout = before ++ b :: ⟨f.blocks.size⟩ :: after
  blocks : g.blocks.size = f.blocks.size + 1
  insts : g.insts.size = f.insts.size + 1
  code : ∀ c, g.code c = if c = b then phis ++ (front ++ [⟨f.insts.size⟩])
    else if c = ⟨f.blocks.size⟩ then back ++ [last] else f.code c
  line : ∀ i, g.line i = if i = ⟨f.insts.size⟩ then some (.jump ⟨f.blocks.size⟩, .void)
    else (f.outline.alter (· ∈ targets.flatMap f.outline.phis)
      (·.mapIncoming (Operation.redirect b ⟨f.blocks.size⟩))).line i
  home : ∀ i, g.blockOf i = if i = ⟨f.insts.size⟩ then some b
    else if i ∈ back ++ [last] then some ⟨f.blocks.size⟩ else f.blockOf i

/-- The function whose block has been cut, before the parts are connected. -/
def cutOutline (f : Func) (b : BlockId) (front back : List InstId) (layout : List BlockId) :
    Outline :=
  { f.outline with
    layout
    blocks := f.blocks.size + 1
    code := Function.update (Function.update f.code b front) ⟨f.blocks.size⟩ back
    home := fun j => if j ∈ back then some ⟨f.blocks.size⟩ else f.blockOf j }

theorem Consistent.of_cutOutline (h : f.Consistent) {before after : List BlockId}
    (layout : f.layout = before ++ b :: after) (code : f.code b = front ++ back)
    (same : g.outline = f.cutOutline b front back (before ++ b :: ⟨f.blocks.size⟩ :: after)) :
    g.Consistent := by
  have slot : b.index < f.blocks.size := (h.mem_layout b).mp (by simp [layout])
  have other : b ≠ ⟨f.blocks.size⟩ := by
    rintro rfl
    simp at slot
  have fresh : (⟨f.blocks.size⟩ : BlockId) ∉ f.layout := by
    rw [h.mem_layout]
    simp
  have nodup := h.code_nodup b
  rw [code, List.nodup_append] at nodup
  have inBack : ∀ {i : InstId}, i ∈ back → f.blockOf i = some b := fun hi =>
    h.mem_code.mp (by rw [code]; exact List.mem_append_right _ hi)
  rw [consistent_iff, same]
  refine ⟨?_, fun c => ?_, fun c => ?_, fun c i => ?_⟩
  · show (before ++ b :: ⟨f.blocks.size⟩ :: after).Nodup
    have old := h.layout_nodup
    rw [layout] at old fresh
    rw [List.nodup_append] at old ⊢
    simp only [List.nodup_cons, List.mem_cons, List.mem_append] at old fresh ⊢
    grind
  · show c ∈ before ++ b :: ⟨f.blocks.size⟩ :: after ↔ c.index < f.blocks.size + 1
    have old := h.mem_layout c
    rw [layout] at old
    have here : c = ⟨f.blocks.size⟩ ↔ c.index = f.blocks.size := by
      cases c
      simp
    simp only [List.mem_append, List.mem_cons, here, Nat.lt_succ_iff_lt_or_eq] at old ⊢
    tauto
  · show (Function.update (Function.update f.code b front) ⟨f.blocks.size⟩ back c).Nodup
    simp only [Function.update_apply]
    split_ifs
    · exact nodup.2.1
    · exact nodup.1
    · exact h.code_nodup c
  · show i ∈ Function.update (Function.update f.code b front) ⟨f.blocks.size⟩ back c ↔
      (if i ∈ back then some ⟨f.blocks.size⟩ else f.blockOf i) = some c
    have inFront : i ∈ front → i ∉ back := fun hi hb => nodup.2.2 i hi i hb rfl
    have whole : f.blockOf i = some b ↔ i ∈ front ∨ i ∈ back := by
      rw [← h.mem_code, code, List.mem_append]
    have none : f.blockOf i ≠ some ⟨f.blocks.size⟩ := by
      intro hi
      have := slot_of_mem_code (h.mem_code.mpr hi)
      simp at this
    simp only [Function.update_apply]
    by_cases hi : i ∈ back
    · have := inBack hi
      by_cases hc : c = ⟨f.blocks.size⟩
      · simp [hi, hc]
      · have apart : i ∉ front := fun hf => inFront hf hi
        by_cases hcb : c = b
        · subst hcb
          simp [hi, hc, apart, Ne.symm hc]
        · simp [hi, hc, hcb, h.mem_code, this, Ne.symm hc, Ne.symm hcb]
    · by_cases hc : c = ⟨f.blocks.size⟩
      · simp [hi, hc, none]
      · by_cases hcb : c = b
        · subst hcb
          simp [hi, hc, whole]
        · simp [hi, hc, hcb, h.mem_code]

/-- What is left to do once the parts are there. -/
def connect (f : Func) (b tail : BlockId) : Except Fault (Func × BlockId) := do
  let f ← (← f.successors tail).foldlM (fun f c => f.renameIncoming c b tail) f
  let (f, _) ← f.append b (.jump tail) .void ""
  return (f, tail)

theorem Consistent.splitBlock_eq (h : f.Consistent) {before after : List BlockId}
    (layout : f.layout = before ++ b :: after) (code : f.code b = front ++ back) (name : String) :
    ∃ f₁ : Func, f₁.outline =
        f.cutOutline b front back (before ++ b :: ⟨f.blocks.size⟩ :: after) ∧
      f.splitBlock b front.length name = f₁.connect b ⟨f.blocks.size⟩ := by
  have slot : b.index < f.blocks.size := (h.mem_layout b).mp (by simp [layout])
  have outline₀ := h.outline_addBlockAfter layout name
  have answer₀ : (f.addBlockAfter b name).2 = ⟨f.blocks.size⟩ := rfl
  generalize hf₀ : (f.addBlockAfter b name).1 = f₀ at outline₀
  have code₀ : f₀.code = f.code := congrArg Outline.code outline₀
  have size₀ : f₀.blocks.size = f.blocks.size + 1 := congrArg Outline.blocks outline₀
  obtain ⟨block, hblock, insts⟩ := exists_block (f := f₀) (b := b) (by omega)
  rw [code₀, code] at insts
  -- the block keeps its front
  obtain ⟨f₁, h₁, outline₁⟩ := outline_modifyBlock
    (fun block => { block with insts := block.insts.take front.length }) hblock
  -- the instructions behind it learn that they move, and do
  obtain ⟨f₂, h₂, outline₂⟩ := outline_setHome (f := f₁) back
    (fun i hi => by
      rw [show f₁.insts.size = f₀.insts.size from congrArg Outline.insts outline₁,
        show f₀.insts.size = f.insts.size from congrArg Outline.insts outline₀]
      exact h.lt_of_mem_code (b := b) (by rw [code]; exact List.mem_append_right _ hi))
    ⟨f.blocks.size⟩
  have size₂ : f₂.blocks.size = f.blocks.size + 1 := by
    rw [show f₂.blocks.size = f₁.blocks.size from congrArg Outline.blocks outline₂,
      show f₁.blocks.size = f₀.blocks.size from congrArg Outline.blocks outline₁, size₀]
  obtain ⟨block₂, hblock₂, -⟩ := exists_block (f := f₂) (b := ⟨f.blocks.size⟩) (by simp [size₂])
  obtain ⟨f₃, h₃, outline₃⟩ := outline_modifyBlock
    (fun block => { block with insts := back }) hblock₂
  refine ⟨f₃, ?_, ?_⟩
  · have code₁ : f₁.code = Function.update f.code b front := by
      rw [show f₁.code = _ from congrArg Outline.code outline₁, insts, List.take_left, code₀]
    have code₂ : f₂.code = f₁.code := congrArg Outline.code outline₂
    have home₁ : f₁.blockOf = f.blockOf :=
      (congrArg Outline.home outline₁).trans (congrArg Outline.home outline₀)
    rw [outline₃, outline₂, outline₁, outline₀, code₂, code₁, home₁]
    rfl
  · have short : ¬ block.insts.length < front.length := by simp [insts]
    have moved : block.insts.drop front.length = back := by rw [insts, List.drop_left]
    unfold splitBlock connect
    simp only [hf₀, answer₀, hblock, moved, h₁, h₂, h₃, short, if_false, bind, Except.bind]

/-- The phis of a block are in its first part. -/
theorem phis_cutOutline (shape : f.outline.Shape b phis (front ++ back) last)
    {layout : List BlockId}
    (same : g.outline = f.cutOutline b (phis ++ front) (back ++ [last]) layout) {c : BlockId}
    (old : c ≠ ⟨f.blocks.size⟩) : g.outline.phis c = f.outline.phis c := by
  have line : g.outline.line = f.outline.line := by
    rw [same]
    rfl
  have kind : g.outline.isPhi = f.outline.isPhi := by
    funext i
    rw [Outline.isPhi, Outline.isPhi, line]
  have code : g.outline.code = Function.update (Function.update f.code b (phis ++ front))
    ⟨f.blocks.size⟩ (back ++ [last]) := congrArg Outline.code same
  by_cases here : c = b
  · subst here
    rw [shape.phis_eq, Outline.phis, code, Function.update_of_ne old, Function.update_self, kind]
    exact Outline.takeWhile_isPhi shape.phis fun i hi => shape.not_phi (by simp [hi])
  · rw [Outline.phis, Outline.phis, code, kind, Function.update_of_ne old,
      Function.update_of_ne here]
    rfl

/-- Connecting the parts of a block gives the cut function. -/
theorem exists_connect (formed : f.outline.Formed)
    (shape : f.outline.Shape b phis (front ++ back) last) {before after : List BlockId}
    (layout : f.layout = before ++ b :: after) {f₁ : Func}
    (same : f₁.outline = f.cutOutline b (phis ++ front) (back ++ [last])
      (before ++ b :: ⟨f.blocks.size⟩ :: after)) :
    ∃ g targets, f₁.connect b ⟨f.blocks.size⟩ = .ok (g, ⟨f.blocks.size⟩) ∧
      f.Cut g b phis front back last targets := by
  have consistent := consistent_iff.mpr formed.consistent
  have slot := slot_of_shape shape
  have code : f.code b = (phis ++ front) ++ (back ++ [last]) := by
    rw [show f.code b = _ from shape.code]
    simp
  have blocks₁ : f₁.blocks.size = f.blocks.size + 1 := congrArg Outline.blocks same
  have line₁ : f₁.outline.line = f.outline.line := by
    rw [same]
    rfl
  have code₁ : f₁.outline.code = Function.update (Function.update f.code b (phis ++ front))
    ⟨f.blocks.size⟩ (back ++ [last]) := congrArg Outline.code same
  have consistent₁ : f₁.Consistent := consistent.of_cutOutline layout code same
  -- the second part leads where the block led
  obtain ⟨op, ty, line, term⟩ := shape.last
  have shape₁ : f₁.outline.Shape ⟨f.blocks.size⟩ [] back last := by
    refine ⟨by simp [code₁], by simp, fun i hi => ?_, ⟨op, ty, by rw [line₁, line], term⟩⟩
    obtain ⟨op', ty', line', kind⟩ := shape.body i (List.mem_append_right _ hi)
    exact ⟨op', ty', by rw [line₁, line'], kind⟩
  have succs := successors_of_shape shape₁
    (operation_eq_ok_iff.mpr ⟨ty, (congrFun line₁ last).trans line⟩)
  have targets : ∀ c ∈ op.successors, c.index < f.blocks.size := by
    refine formed.targets last op ty ?_ line
    have home : f.blockOf last = some b := consistent.mem_code.mp (by simp [code])
    simp [show f.outline.home last = _ from home]
  have phis₁ : ∀ c ∈ op.successors, f₁.outline.phis c = f.outline.phis c := by
    intro c hc
    refine phis_cutOutline shape same ?_
    rintro rfl
    exact absurd (targets _ hc) (by simp)
  obtain ⟨f₂, h₂, outline₂⟩ := consistent₁.outline_renameIncoming_foldlM op.successors
    (fun c hc => by have := targets c hc; omega) b ⟨f.blocks.size⟩
  obtain ⟨g, h₃, outline₃⟩ := outline_append (f := f₂) (b := b) (.jump ⟨f.blocks.size⟩) .void ""
    (by
      rw [show f₂.blocks.size = f₁.blocks.size from congrArg Outline.blocks outline₂]
      omega)
  have line₂ : f₂.outline.line = (f.outline.alter (· ∈ op.successors.flatMap f.outline.phis)
      (·.mapIncoming (Operation.redirect b ⟨f.blocks.size⟩))).line := by
    have renamed : ∀ i, i ∈ op.successors.flatMap f₁.outline.phis ↔
        i ∈ op.successors.flatMap f.outline.phis := by
      intro i
      rw [List.flatMap_congr phis₁]
    rw [outline₂, Outline.alter_congr renamed]
    simp only [Outline.alter, line₁]
  have insts₂ : f₂.insts.size = f.insts.size := by
    rw [show f₂.insts.size = f₁.insts.size from congrArg Outline.insts outline₂,
      show f₁.insts.size = f.insts.size from congrArg Outline.insts same]
  have code₂ : f₂.code = f₁.outline.code := congrArg Outline.code outline₂
  have home₂ : f₂.blockOf = fun i => if i ∈ back ++ [last] then some ⟨f.blocks.size⟩
      else f.blockOf i := by
    rw [show f₂.blockOf = f₁.blockOf from congrArg Outline.home outline₂]
    exact congrArg Outline.home same
  refine ⟨g, op.successors, ?_, ⟨?_, shape, ⟨op, ty, line, rfl⟩, ?_, ⟨before, after, layout, ?_⟩,
    ?_, ?_, fun c => ?_, fun i => ?_, fun i => ?_⟩⟩
  · rw [connect, succs]
    simp only [bind, Except.bind, h₂, h₃]
    rfl
  · refine (consistent₁.of_alter outline₂).of_insertedAt ?_ outline₃
    exact List.perm_append_comm
  · rw [show g.params = f₂.params from congrArg Outline.params outline₃,
      show f₂.params = f₁.params from congrArg Outline.params outline₂]
    exact congrArg Outline.params same
  · rw [show g.layout = f₂.layout from congrArg Outline.layout outline₃,
      show f₂.layout = f₁.layout from congrArg Outline.layout outline₂]
    exact congrArg Outline.layout same
  · rw [show g.blocks.size = f₂.blocks.size from congrArg Outline.blocks outline₃,
      show f₂.blocks.size = f₁.blocks.size from congrArg Outline.blocks outline₂, blocks₁]
  · rw [show g.insts.size = f₂.insts.size + 1 from congrArg Outline.insts outline₃, insts₂]
  · have other : b ≠ ⟨f.blocks.size⟩ := by
      rintro rfl
      simp at slot
    rw [show g.code = _ from congrArg Outline.code outline₃]
    simp only [insertedAt, insts₂, code₂, code₁, Function.update_apply, other, if_false, if_true,
      List.append_assoc]
    by_cases here : c = b
    · simp [here]
    · simp [here]
  · rw [show g.line = _ from congrArg Outline.line outline₃]
    simp only [insertedAt, insts₂, Function.update_apply]
    rw [show f₂.line i = _ from congrFun line₂ i]
  · rw [show g.blockOf = _ from congrArg Outline.home outline₃]
    simp only [insertedAt, insts₂, home₂, Function.update_apply]

theorem exists_splitBlock (formed : f.outline.Formed)
    (shape : f.outline.Shape b phis (front ++ back) last) (name : String) :
    ∃ g targets, f.splitBlock b (phis.length + front.length) name = .ok (g, ⟨f.blocks.size⟩) ∧
      f.Cut g b phis front back last targets := by
  have consistent := consistent_iff.mpr formed.consistent
  have code : f.code b = (phis ++ front) ++ (back ++ [last]) := by
    rw [show f.code b = _ from shape.code]
    simp
  obtain ⟨before, after, layout⟩ :=
    List.append_of_mem ((consistent.mem_layout b).mpr (slot_of_shape shape))
  obtain ⟨f₁, same, answer⟩ := consistent.splitBlock_eq layout code name
  rw [List.length_append] at answer
  rw [answer]
  exact exists_connect formed shape layout same

/-! ### The cut function is in shape -/

namespace Cut

variable {targets : List BlockId} {c d : BlockId} {i : InstId}

/-- An instruction of the function does what it did, but for the names in phis. -/
theorem line_of_lt (cut : f.Cut g b phis front back last targets) (old : i.index < f.insts.size) :
    g.outline.line i = (f.outline.alter (· ∈ targets.flatMap f.outline.phis)
      (·.mapIncoming (Operation.redirect b ⟨f.blocks.size⟩))).line i := by
  have other : i ≠ ⟨f.insts.size⟩ := by
    rintro rfl
    simp at old
  rw [show g.outline.line i = _ from cut.line i, if_neg other]

theorem line_of_plain (cut : f.Cut g b phis front back last targets)
    {op : Operation} {ty : Ty} (line : f.line i = some (op, ty)) (plain : op.isPhi = false) :
    g.line i = some (op, ty) := by
  have old := line_isSome_iff.mp (Option.isSome_of_eq_some line)
  have same : op.mapIncoming (Operation.redirect b ⟨f.blocks.size⟩) = op := by
    cases op <;> simp_all [Operation.isPhi, Operation.mapIncoming]
  rw [show g.line i = _ from cut.line_of_lt old, Outline.line_alter,
    show f.outline.line i = _ from line]
  by_cases renamed : i ∈ targets.flatMap f.outline.phis <;> simp [renamed, same]

theorem line_jump (cut : f.Cut g b phis front back last targets) :
    g.outline.line ⟨f.insts.size⟩ = some (.jump ⟨f.blocks.size⟩, .void) := by
  rw [show g.outline.line _ = _ from cut.line _, if_pos rfl]

theorem does (cut : f.Cut g b phis front back last targets) {P : Operation → Prop}
    (keep : ∀ k op, P op → P (op.mapIncoming k)) (h : f.outline.Does i P) : g.outline.Does i P := by
  obtain ⟨op, ty, line, hP⟩ := h
  have old := line_isSome_iff.mp (Option.isSome_of_eq_some (show f.line i = _ from line))
  by_cases renamed : i ∈ targets.flatMap f.outline.phis
  · exact ⟨_, ty, by rw [cut.line_of_lt old, Outline.line_alter, if_pos renamed, line]; rfl,
      keep _ op hP⟩
  · exact ⟨op, ty, by rw [cut.line_of_lt old, Outline.line_alter, if_neg renamed, line], hP⟩

theorem new_ne (cut : f.Cut g b phis front back last targets) : b ≠ ⟨f.blocks.size⟩ := by
  rintro rfl
  have := slot_of_shape cut.shape
  simp at this

theorem shape_front (cut : f.Cut g b phis front back last targets) :
    g.outline.Shape b phis front ⟨f.insts.size⟩ where
  code := by rw [show g.outline.code b = _ from cut.code b, if_pos rfl]
  phis i hi := cut.does (by simp) (cut.shape.phis i hi)
  body i hi := cut.does (by simp) (cut.shape.body i (List.mem_append_left _ hi))
  last := ⟨_, _, cut.line_jump, rfl⟩

theorem shape_back (cut : f.Cut g b phis front back last targets) :
    g.outline.Shape ⟨f.blocks.size⟩ [] back last where
  code := by
    rw [show g.outline.code _ = _ from cut.code _, if_neg cut.new_ne.symm, if_pos rfl,
      List.nil_append]
  phis := by simp
  body i hi := cut.does (by simp) (cut.shape.body i (List.mem_append_right _ hi))
  last := cut.does (by simp) cut.shape.last

theorem shape_other (cut : f.Cut g b phis front back last targets) (other : c ≠ b)
    {phis' body' : List InstId} {last' : InstId} (shape : f.outline.Shape c phis' body' last') :
    g.outline.Shape c phis' body' last' where
  code := by
    have old : c ≠ ⟨f.blocks.size⟩ := by
      rintro rfl
      have := slot_of_shape shape
      simp at this
    rw [show g.outline.code c = _ from cut.code c, if_neg other, if_neg old]
    exact shape.code
  phis i hi := cut.does (by simp) (shape.phis i hi)
  body i hi := cut.does (by simp) (shape.body i hi)
  last := cut.does (by simp) shape.last

/-- A placed instruction is the new jump, or was placed before and does what it did, but for the
names in phis. -/
theorem placed_line (cut : f.Cut g b phis front back last targets) (formed : f.outline.Formed)
    {op : Operation} {ty : Ty} (placed : (g.blockOf i).isSome) (line : g.line i = some (op, ty)) :
    op = .jump ⟨f.blocks.size⟩ ∨ ∃ op', (f.blockOf i).isSome ∧ f.line i = some (op', ty) ∧
      (op = op' ∨ op = op'.mapIncoming (Operation.redirect b ⟨f.blocks.size⟩)) := by
  have consistent := consistent_iff.mpr formed.consistent
  by_cases new : i = ⟨f.insts.size⟩
  · subst new
    obtain ⟨rfl, -⟩ : _ = op ∧ _ = ty := by
      simpa [show g.line _ = _ from cut.line_jump] using line
    exact .inl rfl
  · have old : (f.blockOf i).isSome := by
      rw [cut.home i, if_neg new] at placed
      by_cases moved : i ∈ back ++ [last]
      · have : i ∈ f.code b := by
          rw [show f.code b = _ from cut.shape.code]
          simp only [List.mem_append] at moved ⊢
          tauto
        simp [consistent.mem_code.mp this]
      · simpa [moved] using placed
    refine .inr ?_
    rw [cut.line i, if_neg new, Outline.line_alter] at line
    by_cases renamed : i ∈ targets.flatMap f.outline.phis
    · rw [if_pos renamed] at line
      obtain ⟨⟨op', ty'⟩, line', same⟩ := Option.map_eq_some_iff.mp line
      obtain ⟨rfl, rfl⟩ : _ = op ∧ ty' = ty := by simpa using same
      exact ⟨op', old, line', .inr rfl⟩
    · rw [if_neg renamed] at line
      exact ⟨op, old, line, .inl rfl⟩

theorem formed (cut : f.Cut g b phis front back last targets) (formed : f.outline.Formed) :
    g.outline.Formed where
  consistent := consistent_iff.mp cut.consistent
  formed := by
    intro c inside
    by_cases here : c = b
    · exact here ▸ ⟨_, _, _, cut.shape_front⟩
    by_cases new : c = ⟨f.blocks.size⟩
    · exact new ▸ ⟨_, _, _, cut.shape_back⟩
    have old : c.index < f.blocks.size := by
      have bound : c.index < g.blocks.size := inside
      have : c.index ≠ f.blocks.size := fun same => new (by cases c; simp_all)
      have := cut.blocks
      omega
    obtain ⟨phis', body', last', shape⟩ := formed.formed c old
    exact ⟨_, _, _, cut.shape_other here shape⟩
  operands := by
    intro i op ty placed line j hj
    have still : (f.blockOf j).isSome → (g.blockOf j).isSome := by
      intro old
      rw [cut.home j]
      split_ifs
      · rfl
      · rfl
      · exact old
    rcases cut.placed_line formed placed line with rfl | ⟨op', old, line', rfl | rfl⟩
    · simp [Operation.usedInsts, Operation.operands] at hj
    · exact still (formed.operands i _ ty old line' j hj)
    · exact still (formed.operands i _ ty old line' j (by simpa [Operation.usedInsts] using hj))
  targets := by
    intro i op ty placed line t ht
    have grown : f.blocks.size < g.blocks.size := by have := cut.blocks; omega
    rcases cut.placed_line formed placed line with rfl | ⟨op', old, line', rfl | rfl⟩
    · obtain rfl : t = _ := by simpa [Operation.successors] using ht
      exact grown
    · exact Nat.lt_trans (formed.targets i _ ty old line' t ht) grown
    · exact Nat.lt_trans (formed.targets i _ ty old line' t (by simpa using ht)) grown

theorem tidy (cut : f.Cut g b phis front back last targets) (tidy : f.outline.Tidy) :
    g.outline.Tidy where
  toFormed := cut.formed tidy.toFormed
  named := by
    intro i incoming ty placed line p hp
    have grown : f.blocks.size < g.blocks.size := by have := cut.blocks; omega
    rcases cut.placed_line tidy.toFormed placed line with same | ⟨op', old, line', same | same⟩
    · simp at same
    · subst same
      exact Nat.lt_trans (tidy.named i _ ty old line' p hp) grown
    · cases op' with
      | phi incoming' =>
        obtain rfl : incoming = _ := Operation.phi.inj same
        obtain ⟨q, hq, rfl⟩ := List.mem_map.mp hp
        show (Operation.redirect b ⟨f.blocks.size⟩ q.2).index < g.blocks.size
        unfold Operation.redirect
        split
        · exact grown
        · exact Nat.lt_trans (tidy.named i _ ty old line' q hq) grown
      | _ => simp [Operation.mapIncoming] at same

/-! ### The cut function does the same -/

theorem entry (cut : f.Cut g b phis front back last targets) : g.entry = f.entry := by
  obtain ⟨before, after, old, new⟩ := cut.layout
  unfold Func.entry
  rw [old, new]
  cases before <;> rfl

/-- Where control comes from, in the function and in the cut one. -/
inductive From (f : Func) (b : BlockId) (targets : List BlockId) (d : BlockId) :
    Option BlockId → Option BlockId → Prop where
  | start : From f b targets d none none
  | block {c : BlockId} (slot : c.index < f.blocks.size) (leads : c = b → d ∈ targets) :
    From f b targets d (some c) (some (Operation.redirect b ⟨f.blocks.size⟩ c))

/-- Phis have the same values in both functions. -/
theorem phiDatum_eq (cut : f.Cut g b phis front back last targets) (tidy : f.outline.Tidy)
    {given : Surroundings} {values : Values} {source source' : Option BlockId}
    (src : Cut.From f b targets d source source') {phis' body' : List InstId} {last' : InstId}
    (shape : f.outline.Shape d phis' body' last') (hi : i ∈ phis') :
    g.phiDatum? given values source' i = f.phiDatum? given values source i := by
  obtain ⟨op, ty, line, phi⟩ := shape.phis i hi
  obtain ⟨incoming, rfl⟩ : ∃ incoming, op = .phi incoming := by
    cases op <;> simp_all [Operation.isPhi]
  have placed : (f.outline.home i).isSome := by
    have := (tidy.consistent.mem_code d i).mp (by simp [shape.code, hi])
    simp [this]
  have named := tidy.named i incoming ty placed line
  have old := line_isSome_iff.mp (Option.isSome_of_eq_some (show f.line i = _ from line))
  have line' := cut.line_of_lt old
  rw [Outline.line_alter, line] at line'
  by_cases renamed : i ∈ targets.flatMap f.outline.phis
  · -- a name that is not the block's own stands for itself, and the new one for the block
    have same : ∀ p ∈ incoming,
        (some (Operation.redirect b ⟨f.blocks.size⟩ p.2) == source') = (some p.2 == source) := by
      intro p hp
      have bound : p.2 ≠ ⟨f.blocks.size⟩ := by
        intro same
        have := named p hp
        rw [same] at this
        exact Nat.lt_irrefl _ this
      cases src with
      | start => simp
      | @block c slot _ =>
        have bound' : c ≠ ⟨f.blocks.size⟩ := by
          rintro rfl
          exact Nat.lt_irrefl _ slot
        rw [Bool.eq_iff_iff]
        simp only [beq_iff_eq, Option.some.injEq]
        exact Operation.redirect_inj bound bound'
    rw [if_pos renamed] at line'
    simp only [phiDatum?, show f.line i = _ from line, show g.line i = _ from line',
      Option.map_some, Operation.mapIncoming, List.find?_map, Option.bind_map, Function.comp_def]
    rw [List.find?_congr same]
  · rw [if_neg renamed] at line'
    have away : source' = source := by
      cases src with
      | start => rfl
      | block slot leads =>
        have : ¬ _ = b := fun here => renamed
          (List.mem_flatMap.mpr ⟨d, leads here, by rw [shape.phis_eq]; exact hi⟩)
        simp [Operation.redirect, this]
    simp only [phiDatum?, show f.line i = _ from line, show g.line i = _ from line', away]

/-- A thread of the function and one of the cut function: at the same instruction, or at the same
instruction of the front part. -/
inductive Related (f : Func) (b : BlockId) (front back : List InstId) (last : InstId) :
    ThreadState → ThreadState → Prop where
  | aligned {c : BlockId} {rest : List InstId} {values : Values} {m : Memory}
      (inside : ∀ i ∈ rest, i ∈ f.code c ∧ f.outline.Does i fun op => op.isPhi = false) :
    Related f b front back last ⟨c, rest, values, m⟩
      ⟨Operation.redirect b ⟨f.blocks.size⟩ c, rest, values, m⟩
  | first {i : InstId} {rest : List InstId} {values : Values} {m : Memory}
      (inside : ∀ j ∈ i :: rest, j ∈ front) :
    Related f b front back last ⟨b, (i :: rest) ++ (back ++ [last]), values, m⟩
      ⟨b, (i :: rest) ++ [⟨f.insts.size⟩], values, m⟩

/-- Behind the front part, the cut function goes on over the jump. -/
theorem over_jump (cut : f.Cut g b phis front back last targets) (given : Surroundings)
    {rest : List InstId} {values : Values} {m : Memory} (inside : ∀ j ∈ rest, j ∈ front) :
    ∃ n, Transition.Alike (Related f b front back last)
      (.next ⟨b, rest ++ (back ++ [last]), values, m⟩)
      (g.run given n (.next ⟨b, rest ++ [⟨f.insts.size⟩], values, m⟩)) := by
  cases rest with
  | cons i rest => exact ⟨0, .next (.first inside)⟩
  | nil =>
    refine ⟨1, ?_⟩
    have enters : (g.enter given values m (some b) ⟨f.blocks.size⟩).toOption =
        some ⟨⟨f.blocks.size⟩, back ++ [last], values, m⟩ := by
      rw [enter_of_shape cut.shape_back]
      simp [entered]
    have step : g.run given 1 (.next ⟨b, [] ++ [⟨f.insts.size⟩], values, m⟩) =
        .next ⟨Operation.redirect b ⟨f.blocks.size⟩ b, back ++ [last], values, m⟩ := by
      show g.step given ⟨b, [⟨f.insts.size⟩], values, m⟩ = _
      rw [step_of_jump rfl cut.line_jump]
      simp only [toOption_eq_some_iff.mp enters, Transition.ofExcept, Operation.redirect, if_true]
    rw [step]
    refine .next (.aligned fun i hi => ⟨?_, cut.shape.not_phi ?_⟩)
    · rw [show f.code b = _ from cut.shape.code]
      simp only [List.mem_append] at hi ⊢
      tauto
    · simp only [List.mem_append] at hi ⊢
      tauto

theorem enter_alike (cut : f.Cut g b phis front back last targets) (tidy : f.outline.Tidy)
    (given : Surroundings) {values : Values} {m : Memory} {source source' : Option BlockId}
    (src : Cut.From f b targets d source source') (slot : d.index < f.blocks.size) :
    ∃ n, Transition.Alike (Related f b front back last)
      (.ofExcept (f.enter given values m source d))
      (g.run given n (.ofExcept (g.enter given values m source' d))) := by
  obtain ⟨phis', body', last', shape⟩ := tidy.formed d slot
  have data : ∀ i ∈ phis', g.phiDatum? given values source' i =
      f.phiDatum? given values source i := fun i hi => cut.phiDatum_eq tidy src shape hi
  have same : (g.entered given values m source' d phis' []).values =
      (f.entered given values m source d phis' []).values := by
    funext j
    by_cases hj : j ∈ phis'
    · simp [entered, hj, data j hj]
    · simp [entered, hj]
  by_cases here : d = b
  · subst here
    obtain rfl : phis = phis' := cut.shape.phis_eq.symm.trans shape.phis_eq
    rcases enter_together m m cut.shape cut.shape_front
      (List.forall₂_same.mpr data) with ⟨cause, cause', h, h'⟩ | ⟨h, h'⟩
    · exact ⟨0, h ▸ h' ▸ .trap cause cause'⟩
    · rw [h, h', List.append_assoc]
      simp only [entered] at same ⊢
      rw [same]
      exact cut.over_jump given fun j hj => hj
  · rcases enter_together m m shape (cut.shape_other here shape)
      (List.forall₂_same.mpr data) with ⟨cause, cause', h, h'⟩ | ⟨h, h'⟩
    · exact ⟨0, h ▸ h' ▸ .trap cause cause'⟩
    · rw [h, h']
      refine ⟨0, .next ?_⟩
      simp only [entered] at same ⊢
      rw [same]
      have stay : d = Operation.redirect b ⟨f.blocks.size⟩ d := (if_neg here).symm
      nth_rewrite 2 [stay]
      exact .aligned fun i hi => ⟨shape.mem_of_rest hi, shape.not_phi hi⟩

/-- A placed instruction computes the same in both functions. -/
theorem execute_eq (cut : f.Cut g b phis front back last targets) (tidy : f.outline.Tidy)
    (given : Surroundings) (values : Values) (m : Memory) {op : Operation} {ty : Ty}
    (placed : i ∈ f.code c) (line : f.line i = some (op, ty)) :
    (op.execute given f values m i).toOption = (op.execute given g values m i).toOption := by
  have agree : ∀ v ∈ op.operands,
      Operation.Agree given given f g values values (·.mapInst id) v := by
    refine fun v hv => Operation.agree_mapInst rfl rfl cut.params.symm fun j same => ⟨rfl, ?_⟩
    have used : j ∈ op.usedInsts := List.mem_filterMap.mpr ⟨v, hv, by rw [same]; rfl⟩
    have home : f.outline.home i = some c := (tidy.consistent.mem_code c i).mp placed
    obtain ⟨d, hd⟩ := Option.isSome_iff_exists.mp
      (tidy.operands i op ty (by simp [home]) line j used)
    show (f.outline.line j).map _ = (g.outline.line j).map _
    rw [cut.line_of_lt (lt_of_blockOf hd), Outline.line_alter]
    by_cases renamed : j ∈ targets.flatMap f.outline.phis
    · rw [if_pos renamed, Option.map_map]
      rfl
    · rw [if_neg renamed]
  have same := Operation.execute_map m i i rfl agree
  rwa [show (fun v : Value => v.mapInst id) = id from funext Value.mapInst_id,
    Operation.mapOperands_id] at same

/-- Where both functions are at the same instruction, a step leads to related states. -/
theorem step_aligned (cut : f.Cut g b phis front back last targets) (tidy : f.outline.Tidy)
    (given : Surroundings) {values : Values} {m : Memory} {rest : List InstId}
    (inside : ∀ j ∈ i :: rest, j ∈ f.code c ∧ f.outline.Does j fun op => op.isPhi = false) :
    ∃ n, Transition.Alike (Related f b front back last) (f.step given ⟨c, i :: rest, values, m⟩)
      (g.run given n (g.step given
        ⟨Operation.redirect b ⟨f.blocks.size⟩ c, i :: rest, values, m⟩)) := by
  obtain ⟨mem, op, ty, line, plain⟩ := inside i (by simp)
  have line' := cut.line_of_plain line plain
  have slot := slot_of_mem_code mem
  have placed : (f.outline.home i).isSome := by
    have := (tidy.consistent.mem_code c i).mp mem
    simp [this]
  -- a terminator of the block that was cut is the one it ended in
  have src : ∀ d ∈ op.successors, Cut.From f b targets d (some c)
      (some (Operation.redirect b ⟨f.blocks.size⟩ c)) := by
    refine fun d hd => .block slot fun here => ?_
    subst here
    obtain ⟨op', ty', last', same⟩ := cut.ending
    have term : op.isTerminator = true := by
      cases op <;> simp_all [Operation.successors, Operation.isTerminator]
    obtain rfl := cut.shape.eq_last mem line term
    obtain ⟨rfl, -⟩ : op = op' ∧ ty = ty' := by simpa [show f.outline.line _ = _ from line] using last'
    exact same ▸ hd
  cases op with
  | jump d =>
    rw [step_of_jump rfl line, step_of_jump rfl line']
    have hd : d ∈ (Operation.jump d).successors := by simp [Operation.successors]
    exact cut.enter_alike tidy given (src d hd) (tidy.targets i _ ty placed line d hd)
  | branch v d e =>
    rw [step_of_branch rfl line, step_of_branch rfl line']
    cases condition : v.number given values with
    | error cause => exact ⟨0, .trap cause cause⟩
    | ok n =>
      have hd : (if truth n then d else e) ∈ (Operation.branch v d e).successors := by
        by_cases yes : truth n <;> simp [Operation.successors, yes]
      exact cut.enter_alike tidy given (src _ hd) (tidy.targets i _ ty placed line _ hd)
  | ret v =>
    rw [step_of_ret rfl line, step_of_ret rfl line']
    exact ⟨0, .finish m⟩
  | unreachable =>
    rw [step_of_unreachable rfl line, step_of_unreachable rfl line']
    exact ⟨0, .trap _ _⟩
  | _ =>
    rw [step_of_plain rfl line rfl, step_of_plain rfl line' rfl]
    refine alike_map (cut.execute_eq tidy given values m mem line) fun result => ?_
    exact ⟨0, .next (.aligned fun j hj => inside j (List.mem_cons_of_mem _ hj))⟩

/-- What one step does in both functions. -/
theorem step_alike (cut : f.Cut g b phis front back last targets) (tidy : f.outline.Tidy)
    (given : Surroundings) {s t : ThreadState} (related : Related f b front back last s t) :
    ∃ n, Transition.Alike (Related f b front back last) (f.step given s)
      (g.run given n (g.step given t)) := by
  cases related with
  | @aligned c rest values m inside =>
    cases rest with
    | nil => exact ⟨0, .trap _ _⟩
    | cons i rest => exact cut.step_aligned tidy given inside
  | @first i rest values m inside =>
    have body : i ∈ front ++ back := List.mem_append_left _ (inside i (by simp))
    obtain ⟨op, ty, line, plain, notTerm⟩ := cut.shape.body i body
    have mem : i ∈ f.code b := by
      rw [show f.code b = _ from cut.shape.code]
      simp only [List.mem_append] at body ⊢
      tauto
    rw [step_of_plain rfl line notTerm, step_of_plain rfl (cut.line_of_plain line plain) notTerm]
    refine alike_map (cut.execute_eq tidy given values m mem line) fun result => ?_
    exact cut.over_jump given fun j hj => inside j (List.mem_cons_of_mem _ hj)

/-- The cut function does what the function does. -/
theorem runs_iff (cut : f.Cut g b phis front back last targets) (tidy : f.outline.Tidy)
    {given : Surroundings} {m m' : Memory} : f.Runs given m m' ↔ g.Runs given m m' := by
  refine finishes_iff_of_simulation (fun s t related => cut.step_alike tidy given related) ?_
  unfold Func.begin
  rw [cut.entry]
  have nonempty : f.layout ≠ [] := by
    obtain ⟨before, after, layout, -⟩ := cut.layout
    simp [layout]
  have slot : f.entry.index < f.blocks.size := by
    refine (tidy.consistent.mem_layout f.entry).mp ?_
    show f.layout.head?.getD ⟨0⟩ ∈ f.layout
    cases layout : f.layout with
    | nil => exact absurd layout nonempty
    | cons c layout => simp
  exact cut.enter_alike tidy given .start slot

end Cut

end Func

end KernelCoarsening
