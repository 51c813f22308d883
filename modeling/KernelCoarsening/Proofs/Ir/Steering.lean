/-
Edits that keep the form of blocks.

What an operation does apart from its operands is its form: a phi keeps the blocks that it names and
a branch those that it leads to.  Where copies are placed right behind what they copy, operands are
exchanged and instructions before the end of a block are taken out, the blocks consist of the forms
that they consisted of, in their order:

* `Operation.form`, `Func.forms` — the form of an operation, and the forms of a block;
* `Operation.rank`, `Func.ranks` — where operations stand in a block;
* `Func.Steers` — what such edits keep, and `Func.Steers.leads`: control goes on as before;
* `Func.Steers.attachAfter`, `Func.Steers.erase`, … — the edits;
* `Func.exists_replaceSuccessor`, `Func.exists_renameIncoming` — edits of control flow.
-/
import KernelCoarsening.Proofs.Ir.Duplication
import KernelCoarsening.Proofs.Ir.Insertion
import KernelCoarsening.Proofs.Ir.Readings

namespace KernelCoarsening

namespace Operation

/-- An operation with nothing in the place of its operands. -/
def form (op : Operation) : Operation := op.mapOperands fun _ => .undef

@[simp] theorem form_mapOperands (k : Value → Value) (op : Operation) :
    (op.mapOperands k).form = op.form := by
  cases op with
  | phi incoming => simp [form, mapOperands]
  | call f args => simp [form, mapOperands, Function.comp_def]
  | ret v => cases v <;> simp [form, mapOperands]
  | _ => simp [form, mapOperands]

@[simp] theorem successors_form (op : Operation) : op.form.successors = op.successors :=
  successors_mapOperands _ op

@[simp] theorem isPhi_form (op : Operation) : op.form.isPhi = op.isPhi := isPhi_mapOperands _ op

@[simp] theorem isTerminator_form (op : Operation) : op.form.isTerminator = op.isTerminator :=
  isTerminator_mapOperands _ op

/-- What decides where an operation stands in a block: whether it is a phi, and whether it is a
terminator. -/
def rank (op : Operation) : Bool × Bool := (op.isPhi, op.isTerminator)

@[simp] theorem rank_form (op : Operation) : op.form.rank = op.rank := by simp [rank]

theorem mem_usedInsts {op : Operation} {j : InstId} : j ∈ op.usedInsts ↔ .inst j ∈ op.operands := by
  rw [usedInsts, List.mem_filterMap]
  constructor
  · rintro ⟨v, hv, same⟩
    cases v <;> simp_all [Value.inst?]
  · exact fun mem => ⟨_, mem, rfl⟩

end Operation

namespace Func

variable {f g h : Func} {b c : BlockId} {i j anchor : InstId} {may : BlockId → Prop}
  {before : Option (Bool × Bool) → Option (Bool × Bool) → Prop}

/-- The form of an instruction. -/
def formOf (f : Func) (i : InstId) : Option Operation := (f.line i).map (·.1.form)

/-- The forms of the instructions of a block. -/
def forms (f : Func) (b : BlockId) : List (Option Operation) := (f.code b).map f.formOf

/-- The rank of an instruction. -/
def rankOf (f : Func) (i : InstId) : Option (Bool × Bool) := (f.formOf i).map Operation.rank

/-- The ranks of the instructions of a block. -/
def ranks (f : Func) (b : BlockId) : List (Option (Bool × Bool)) :=
  (f.forms b).map (Option.map Operation.rank)

theorem formOf_of_line {op : Operation} {ty : Ty} (line : f.line i = some (op, ty)) :
    f.formOf i = some op.form := by
  simp [formOf, line]

theorem formOf_congr (same : g.line i = f.line i) : g.formOf i = f.formOf i := by
  rw [formOf, formOf, same]

/-- Where a block leads follows from the form of its last instruction. -/
theorem leads_eq : f.leads b = ((f.forms b).getLast?.join).elim [] (·.successors) := by
  rw [leads, forms, List.getLast?_map]
  cases (f.code b).getLast? with
  | none => rfl
  | some i =>
    rw [Option.bind_some, Option.map_some, Option.join_some, kind, formOf]
    cases f.line i <;> simp

theorem forms_congr (code : g.code b = f.code b) (forms : ∀ i ∈ f.code b, g.formOf i = f.formOf i) :
    g.forms b = f.forms b := by
  rw [Func.forms, code]
  exact List.map_congr_left forms

/-- A function has become another one in which each block that may change consists of forms of the
block as it was, in an order of the same kind; the last form is the last one still.  Instructions
that were there keep their form, and they stay in their block or leave it. -/
structure Steers (may : BlockId → Prop)
    (before : Option (Bool × Bool) → Option (Bool × Bool) → Prop) (f g : Func) : Prop where
  consistent : g.Consistent
  params : g.params = f.params
  layout : g.layout = f.layout
  insts : f.insts.size ≤ g.insts.size
  code : ∀ b, ¬ may b → g.code b = f.code b
  home : ∀ i b, i.index < f.insts.size → g.blockOf i = some b → f.blockOf i = some b
  formOf : ∀ i : InstId, i.index < f.insts.size → g.formOf i = f.formOf i
  mirrored : ∀ b, ∀ form ∈ g.forms b, form ∈ f.forms b
  last : ∀ b, (g.forms b).getLast? = (f.forms b).getLast?
  order : ∀ b, (f.ranks b).Pairwise before → (g.ranks b).Pairwise before

namespace Steers

theorem refl (hf : f.Consistent) : f.Steers may before f :=
  ⟨hf, rfl, rfl, Nat.le_refl _, fun _ _ => rfl, fun _ _ _ => id, fun _ _ => rfl, fun _ _ => id,
    fun _ => rfl, fun _ => id⟩

theorem trans (first : f.Steers may before g) (second : g.Steers may before h) :
    f.Steers may before h where
  consistent := second.consistent
  params := second.params.trans first.params
  layout := second.layout.trans first.layout
  insts := first.insts.trans second.insts
  code b out := (second.code b out).trans (first.code b out)
  home i b old there := first.home i b old (second.home i b (old.trans_le first.insts) there)
  formOf i old := (second.formOf i (old.trans_le first.insts)).trans (first.formOf i old)
  mirrored b form mem := first.mirrored b form (second.mirrored b form mem)
  last b := (second.last b).trans (first.last b)
  order b sorted := second.order b (first.order b sorted)

/-- More blocks may change. -/
theorem mono {more : BlockId → Prop} (steers : f.Steers may before g) (sub : ∀ b, may b → more b) :
    f.Steers more before g :=
  { steers with code := fun b out => steers.code b fun allowed => out (sub b allowed) }

variable (steers : f.Steers may before g)

include steers in
theorem leads (b : BlockId) : g.leads b = f.leads b := by
  rw [leads_eq, leads_eq, steers.last]

include steers in
theorem size_blocks (hf : f.Consistent) : g.blocks.size = f.blocks.size :=
  size_blocks_eq hf steers.consistent steers.layout

end Steers

/-- Nothing is moved, and instructions keep their form. -/
theorem steers_of_code (hf : f.Consistent) (consistent : g.Consistent) (params : g.params = f.params)
    (layout : g.layout = f.layout) (insts : f.insts.size ≤ g.insts.size) (code : g.code = f.code)
    (home : ∀ i b, i.index < f.insts.size → g.blockOf i = some b → f.blockOf i = some b)
    (formOf : ∀ i : InstId, i.index < f.insts.size → g.formOf i = f.formOf i) :
    f.Steers may before g := by
  have forms : ∀ b, g.forms b = f.forms b := fun b =>
    forms_congr (congrFun code b) fun i hi => formOf i (hf.lt_of_mem_code hi)
  exact ⟨consistent, params, layout, insts, fun b _ => congrFun code b, home, formOf,
    fun b _ mem => forms b ▸ mem, fun b => by rw [forms], fun b sorted => by
      rwa [ranks, forms]⟩

/-- Some instructions do something else that has the same form. -/
theorem steers_of_alter (hf : f.Consistent) {p : InstId → Prop} [DecidablePred p]
    {k : Operation → Operation} (form : ∀ op, (k op).form = op.form)
    (same : g.outline = f.outline.alter p k) : f.Steers may before g := by
  have home : g.blockOf = f.blockOf := congrArg Outline.home same
  refine steers_of_code hf (hf.of_alter same) (congrArg Outline.params same)
    (congrArg Outline.layout same) (congrArg Outline.insts same).ge (congrArg Outline.code same)
    (fun i b _ there => home ▸ there) fun i _ => ?_
  have line : g.line i = if p i then (f.line i).map fun line => (k line.1, line.2) else f.line i :=
    congrFun (congrArg Outline.line same) i
  rw [formOf, formOf, line]
  split
  · cases f.line i <;> simp [form]
  · rfl

section

variable {p : InstId → Prop} [DecidablePred p] {k : Operation → Operation}

theorem reads_of_alter (same : g.outline = f.outline.alter p k)
    (kept : ∀ op, (k op).operands = op.operands) : g.reads i = f.reads i := by
  have line : g.line i = _ := congrFun (congrArg Outline.line same) i
  rw [reads, reads, line, Outline.line_alter]
  split
  · cases h : f.line i <;> simp [outline, h, kept]
  · rfl

theorem rankOf_of_alter (same : g.outline = f.outline.alter p k)
    (kept : ∀ op, (k op).rank = op.rank) : g.rankOf i = f.rankOf i := by
  have line : g.line i = _ := congrFun (congrArg Outline.line same) i
  rw [rankOf, rankOf, formOf, formOf, line, Outline.line_alter]
  split
  · cases h : f.line i <;> simp [outline, h, kept]
  · rfl

end

/-- A form that is repeated right behind itself. -/
theorem pairwise_repeat {α : Type} {R : α → α → Prop} {xs ys : List α} {a : α} (refl : R a a)
    (h : (xs ++ a :: ys).Pairwise R) : (xs ++ a :: a :: ys).Pairwise R := by
  rw [List.pairwise_append, List.pairwise_cons] at h ⊢
  obtain ⟨left, ⟨head, right⟩, across⟩ := h
  refine ⟨left, ⟨List.forall_mem_cons.mpr ⟨refl, head⟩, List.pairwise_cons.mpr ⟨head, right⟩⟩,
    fun x hx y hy => across x hx y ?_⟩
  simpa using hy

/-- A new instruction is placed right behind one of its form. -/
theorem steers_of_insert (hf : f.Consistent) (consistent : g.Consistent)
    (params : g.params = f.params) (layout : g.layout = f.layout) (fresh : f.insts.size ≤ i.index)
    (size : f.insts.size ≤ g.insts.size) {xs ys : List InstId} (split : f.code b = xs ++ anchor :: ys)
    (code : g.code = Function.update f.code b (xs ++ anchor :: i :: ys))
    (home : g.blockOf = Function.update f.blockOf i (some b))
    (line : ∀ j : InstId, j.index < f.insts.size → g.line j = f.line j)
    (alike : g.formOf i = f.formOf anchor) (repeats : before (f.rankOf anchor) (f.rankOf anchor))
    (allowed : may b) : f.Steers may before g := by
  have form : ∀ c, ∀ j ∈ f.code c, g.formOf j = f.formOf j := fun c j hj =>
    formOf_congr (line j (hf.lt_of_mem_code hj))
  have inside := form b
  rw [split, List.forall_mem_append, List.forall_mem_cons] at inside
  -- the forms of the block are those that it had, with that of the anchor once more
  have here : f.forms b = xs.map f.formOf ++ f.formOf anchor :: ys.map f.formOf := by
    rw [forms, split, List.map_append, List.map_cons]
  have here' : g.forms b =
      xs.map f.formOf ++ f.formOf anchor :: f.formOf anchor :: ys.map f.formOf := by
    rw [forms, code, Function.update_self, List.map_append, List.map_cons, List.map_cons,
      List.map_congr_left inside.1, List.map_congr_left inside.2.2, inside.2.1, alike]
  have elsewhere : ∀ c, c ≠ b → g.code c = f.code c := fun c other => by
    rw [code, Function.update_of_ne other]
  have apart : ∀ c, c ≠ b → g.forms c = f.forms c := fun c other =>
    forms_congr (elsewhere c other) (form c)
  refine ⟨consistent, params, layout, size, fun c out => elsewhere c fun here => out (here ▸ allowed),
    fun j c slot there => ?_, fun j slot => formOf_congr (line j slot), fun c op mem => ?_,
    fun c => ?_, fun c sorted => ?_⟩
  · rwa [home, Function.update_of_ne] at there
    rintro rfl
    exact absurd slot (Nat.not_lt.mpr fresh)
  all_goals by_cases at_b : c = b
  · subst at_b
    simpa [here, here'] using mem
  · exact apart c at_b ▸ mem
  · subst at_b
    simp [here, here', List.getLast?_append, List.getLast?_cons]
  · rw [apart c at_b]
  · subst at_b
    rw [ranks, here, List.map_append, List.map_cons] at sorted
    rw [ranks, here', List.map_append, List.map_cons, List.map_cons]
    exact pairwise_repeat repeats sorted
  · rwa [ranks, apart c at_b]

/-- A copy of an instruction has taken the next slot, and it is placed where another one is. -/
structure CopiedBehind (f : Func) (i anchor new : InstId) (g : Func) : Prop where
  slot : new = ⟨f.insts.size⟩
  size : g.insts.size = f.insts.size + 1
  line : g.line = Function.update f.line new (f.line i)
  home : g.blockOf = Function.update f.blockOf new (f.blockOf anchor)

variable (may before) in
/-- A copy of an instruction goes right behind another one of its form, or nowhere if that one is
placed nowhere. -/
theorem steers_copyBehind (hf : f.Consistent) (slot : i.index < f.insts.size)
    (alike : f.formOf anchor = f.formOf i) (repeats : before (f.rankOf i) (f.rankOf i))
    (allowed : ∀ b, f.blockOf anchor = some b → may b) (name : String) :
    ∃ f₁ new g, f.copyInst i name = .ok (f₁, new) ∧ f₁.attachAfter anchor new = .ok g ∧
      f.Steers may before g ∧ f.CopiedBehind i anchor new g := by
  obtain ⟨inst, hi⟩ := exists_inst slot
  generalize hf₁ : (f.newInst inst.op inst.ty name).1 = f₁
  have same : f₁.outline = _ := hf₁ ▸ outline_newInst (f := f) inst.op inst.ty name
  have consistent : f₁.Consistent := hf₁ ▸ hf.newInst inst.op inst.ty name
  have code : f₁.code = f.code := congrArg Outline.code same
  have home : f₁.blockOf = f.blockOf := congrArg Outline.home same
  have size : f₁.insts.size = f.insts.size + 1 := congrArg Outline.insts same
  have lines : f₁.line = Function.update f.line ⟨f.insts.size⟩ (some (inst.op, inst.ty)) :=
    congrArg Outline.line same
  have new : f₁.line ⟨f.insts.size⟩ = f.line i := by
    rw [lines, Function.update_self, line_of_inst hi]
  have old : ∀ j : InstId, j.index < f.insts.size → f₁.line j = f.line j := by
    intro j slot
    rw [lines, Function.update_of_ne]
    rintro rfl
    exact Nat.lt_irrefl _ slot
  have copied : f.copyInst i name = .ok (f₁, ⟨f.insts.size⟩) := by
    rw [copyInst, hi, ← hf₁]
    rfl
  cases place : f.blockOf anchor with
  | none =>
    have nowhere : f.blockOf anchor = f.blockOf ⟨f.insts.size⟩ := by rw [place, blockOf_size]
    refine ⟨f₁, ⟨f.insts.size⟩, f₁, copied, attachAfter_of_unplaced (by rw [home, place]), ?_, rfl,
      size, by rw [lines, line_of_inst hi], by rw [home, nowhere, Function.update_eq_self]⟩
    exact steers_of_code hf consistent (congrArg Outline.params same) (congrArg Outline.layout same)
      (size ▸ Nat.le_succ _) code (fun j b _ there => home ▸ there)
      fun j slot => formOf_congr (old j slot)
  | some b =>
    obtain ⟨xs, ys, split⟩ := List.append_of_mem (hf.mem_code.mpr place)
    obtain ⟨op, ty, hanchor⟩ := exists_line (by simp [place] : (f.blockOf anchor).isSome)
    have alike' : op.form = inst.op.form := by
      simpa [formOf, hanchor, line_of_inst hi] using alike
    obtain ⟨g, attached, same'⟩ := consistent.outline_attachAfter
      (show f₁.code b = xs ++ anchor :: ys by rw [code, split])
      (by rw [old anchor (lt_of_blockOf place), hanchor]) (new.trans (line_of_inst hi))
      (by rw [← Operation.isPhi_form op, alike', Operation.isPhi_form]; exact id)
    have line' : g.line = f₁.line := congrArg Outline.line same'
    have home' : g.blockOf = Function.update f.blockOf ⟨f.insts.size⟩ (some b) :=
      (congrArg Outline.home same').trans (by rw [home])
    have code' : g.code = Function.update f.code b (xs ++ anchor :: ⟨f.insts.size⟩ :: ys) :=
      code ▸ congrArg Outline.code same'
    have size' : g.insts.size = f₁.insts.size := congrArg Outline.insts same'
    have form : g.formOf ⟨f.insts.size⟩ = f.formOf i := by rw [formOf, line', new, formOf]
    refine ⟨f₁, ⟨f.insts.size⟩, g, copied, attached, ?_, rfl, size'.trans size,
      by rw [line', lines, line_of_inst hi], by rw [home', place]⟩
    exact steers_of_insert hf
      (consistent.attachAfter (by rw [home, blockOf_size]) g attached)
      ((congrArg Outline.params same').trans (congrArg Outline.params same))
      ((congrArg Outline.layout same').trans (congrArg Outline.layout same)) (Nat.le_refl _)
      (by omega) split code' home' (fun j slot => (congrFun line' j).trans (old j slot))
      (form.trans alike.symm) (by rwa [rankOf, alike]) (allowed b place)

variable (before) in
/-- An instruction that is not the last one leaves its block. -/
theorem steers_erase (hf : f.Consistent) (slot : i.index < f.insts.size)
    (inner : ∀ b, f.blockOf i = some b → may b ∧ (f.code b).getLast? ≠ some i) :
    ∃ g, f.erase i = .ok g ∧ f.Steers may before g ∧
      (∀ b, (g.code b).getLast? = (f.code b).getLast?) ∧
      ∀ b j, j ∈ g.code b ↔ j ∈ f.code b ∧ j ≠ i := by
  cases place : f.blockOf i with
  | none =>
    obtain ⟨inst, hi⟩ := exists_inst slot
    have out : inst.block = none := by
      simpa [blockOf, inst_eq_ok_iff.mp hi] using place
    have away : ∀ b, i ∉ f.code b := fun b mem => by simp [hf.mem_code.mp mem] at place
    exact ⟨f, by simp [erase, hi, out, bind, Except.bind, pure, Except.pure], .refl hf,
      fun _ => rfl, fun b j => ⟨fun mem => ⟨mem, fun same => away b (same ▸ mem)⟩, And.left⟩⟩
  | some b =>
    obtain ⟨allowed, early⟩ := inner b place
    obtain ⟨g, answer, same⟩ := hf.outline_erase place
    have code : g.code = Function.update f.code b ((f.code b).filter (· != i)) :=
      congrArg Outline.code same
    have line : g.line = f.line := congrArg Outline.line same
    have home : g.blockOf = Function.update f.blockOf i none := congrArg Outline.home same
    have form : g.formOf = f.formOf := by funext j; exact formOf_congr (congrFun line j)
    have elsewhere : ∀ c, c ≠ b → g.code c = f.code c := fun c other => by
      rw [code, Function.update_of_ne other]
    -- what is left of the block keeps its order and its end
    have sub : ∀ c, (g.forms c).Sublist (f.forms c) := by
      intro c
      rw [forms, forms, form, code]
      by_cases here : c = b
      · subst here
        rw [Function.update_self]
        exact List.filter_sublist.map _
      · rw [Function.update_of_ne here]
    have last : ∀ c, (g.code c).getLast? = (f.code c).getLast? := by
      intro c
      by_cases here : c = b
      · subst here
        obtain ⟨last, hlast⟩ : ∃ last, (f.code c).getLast? = some last :=
          Option.ne_none_iff_exists'.mp fun none => by
            have := hf.mem_code.mpr place
            simp [List.getLast?_eq_none_iff.mp none] at this
        obtain ⟨xs, split⟩ := List.getLast?_eq_some_iff.mp hlast
        have other : last ≠ i := fun same => early (same ▸ hlast)
        rw [code, Function.update_self, split, List.filter_append]
        simp [other]
      · rw [elsewhere c here]
    refine ⟨g, answer, ⟨hf.of_withoutInst place same, congrArg Outline.params same,
      congrArg Outline.layout same, (congrArg Outline.insts same).ge,
      fun c out => elsewhere c fun here => out (here ▸ allowed), fun j c slot there => ?_,
      fun j _ => congrFun form j, fun c op mem => (sub c).subset mem, fun c => ?_,
      fun c sorted => sorted.sublist ((sub c).map _)⟩, last, fun c j => ?_⟩
    · by_cases here : j = i
      · simp [home, here] at there
      · rwa [home, Function.update_of_ne here] at there
    · rw [forms, forms, form, List.getLast?_map, List.getLast?_map, last]
    · by_cases here : c = b
      · subst here
        simp [code]
      · rw [elsewhere c here]
        exact ⟨fun mem => ⟨mem, fun same => hf.not_mem_code (hf.mem_code.mpr place)
          (Ne.symm here) (same ▸ mem)⟩, And.left⟩

/-! ### Edits of control flow -/

/-- The last instruction of a block comes to lead elsewhere, if it is a terminator. -/
theorem exists_replaceSuccessor (hf : f.Consistent) (slot : b.index < f.blocks.size)
    (old new : BlockId) : ∃ g, f.replaceSuccessor b old new = .ok g ∧ g.outline =
      f.outline.alter (fun i => (f.code b).getLast? = some i)
        (·.mapSuccessors (Operation.redirect old new)) := by
  obtain ⟨block, hb, insts⟩ := exists_block slot
  cases last : (f.code b).getLast? with
  | none =>
    refine ⟨f, ?_, (Outline.alter_of_not (by simp)).symm⟩
    simp [replaceSuccessor, terminator, hb, insts, last, bind, Except.bind, pure, Except.pure]
  | some t =>
    have placed := hf.mem_code.mp (List.mem_of_getLast? last)
    obtain ⟨op, ty, line⟩ := exists_line (by simp [placed] : (f.blockOf t).isSome)
    have hop : f.operation t = .ok op := operation_eq_ok_iff.mpr ⟨ty, line⟩
    cases term : op.isTerminator with
    | true =>
      obtain ⟨g, answer, same⟩ := alter_modifyOperation (f := f)
        (·.mapSuccessors (Operation.redirect old new)) (lt_of_blockOf placed)
      refine ⟨g, ?_, same.trans (Outline.alter_congr fun i => by simp [eq_comm])⟩
      simp [replaceSuccessor, terminator, hb, insts, last, hop, term, answer, bind, Except.bind, pure,
        Except.pure]
    | false =>
      refine ⟨f, ?_, ?_⟩
      · simp [replaceSuccessor, terminator, hb, insts, last, hop, term, bind, Except.bind, pure,
          Except.pure]
      · have none : op.mapSuccessors (Operation.redirect old new) = op := by
          cases op <;> simp_all [Operation.mapSuccessors, Operation.isTerminator]
        simp only [Outline.alter, outline, Outline.mk.injEq, true_and, and_true]
        funext i
        split
        · rename_i here
          obtain rfl : t = i := by simpa using here
          simp [line, none]
        · rfl

/-- A block whose last instruction leads elsewhere leads elsewhere, and no other does. -/
theorem leads_of_redirect (hf : f.Consistent) {old new : BlockId} (same : g.outline =
      f.outline.alter (fun i => (f.code b).getLast? = some i)
        (·.mapSuccessors (Operation.redirect old new))) :
    g.leads c = if c = b then (f.leads b).map (Operation.redirect old new) else f.leads c := by
  have code : g.code = f.code := congrArg Outline.code same
  have line : ∀ i, g.line i = if (f.code b).getLast? = some i then
      (f.line i).map fun line => (line.1.mapSuccessors (Operation.redirect old new), line.2)
        else f.line i := fun i => congrFun (congrArg Outline.line same) i
  by_cases here : c = b
  · subst here
    rw [if_pos rfl, leads, leads, code]
    cases last : (f.code c).getLast? with
    | none => rfl
    | some t =>
      simp only [Option.bind_some, kind, line, last, if_true]
      cases f.line t <;> simp
  · rw [if_neg here]
    refine leads_congr (congrFun code c) fun i hi => ?_
    have other : (f.code b).getLast? ≠ some i := fun last =>
      hf.not_mem_code hi here (List.mem_of_getLast? last)
    rw [line, if_neg other]

/-- Phis that name other blocks do not change where control goes. -/
theorem leads_of_rename {p : InstId → Prop} [DecidablePred p] {k : BlockId → BlockId}
    (same : g.outline = f.outline.alter p (·.mapIncoming k)) : g.leads b = f.leads b := by
  have code : g.code = f.code := congrArg Outline.code same
  have line : ∀ i, g.line i = if p i then (f.line i).map fun line => (line.1.mapIncoming k, line.2)
      else f.line i := fun i => congrFun (congrArg Outline.line same) i
  rw [leads, leads, code]
  cases (f.code b).getLast? with
  | none => rfl
  | some t =>
    simp only [Option.bind_some, kind, line]
    split
    · cases f.line t <;> simp
    · rfl

end Func

end KernelCoarsening
