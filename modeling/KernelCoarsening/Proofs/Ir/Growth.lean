/-
Edits let a function grow.

No edit takes a block out of the layout or a slot out of an arena, and none changes how the
function is called:

* `Func.Grows` — a function has become another one in this way;
* `Func.grows_place`, `Func.grows_append`, … — every edit does so.
-/
import KernelCoarsening.Ir.Copy
import KernelCoarsening.Proofs.Data.Answers

namespace KernelCoarsening

namespace Func

/-- A function has grown: it is called as before, and nothing was taken away. -/
structure Grows (f g : Func) : Prop where
  name : g.name = f.name
  params : g.params = f.params
  returnTy : g.returnTy = f.returnTy
  convention : g.convention = f.convention
  layout : f.layout.Sublist g.layout
  blocks : f.blocks.size ≤ g.blocks.size
  insts : f.insts.size ≤ g.insts.size

variable {f g h : Func}

theorem Grows.refl (f : Func) : f.Grows f :=
  ⟨rfl, rfl, rfl, rfl, List.Sublist.refl _, Nat.le_refl _, Nat.le_refl _⟩

theorem Grows.trans (hg : f.Grows g) (hh : g.Grows h) : f.Grows h where
  name := hh.name.trans hg.name
  params := hh.params.trans hg.params
  returnTy := hh.returnTy.trans hg.returnTy
  convention := hh.convention.trans hg.convention
  layout := hg.layout.trans hh.layout
  blocks := Nat.le_trans hg.blocks hh.blocks
  insts := Nat.le_trans hg.insts hh.insts

/-- A function that had a body still has one. -/
theorem Grows.isDeclaration (hg : f.Grows g) (body : f.isDeclaration = false) :
    g.isDeclaration = false := by
  unfold Func.isDeclaration at body ⊢
  rw [List.isEmpty_eq_false_iff_exists_mem] at body ⊢
  obtain ⟨b, hb⟩ := body
  exact ⟨b, hg.layout.subset hb⟩

/-- What a function grows to by an edit has grown from where the edits began. -/
theorem Grows.then {x : Except Fault Func} (hg : f.Grows g) (hx : Yields x g.Grows) :
    Yields x f.Grows :=
  hx.mono fun _ hh => hg.trans hh

/-- The same of an edit that has a result besides. -/
theorem Grows.thenWith {α : Type} {x : Except Fault (Func × α)} (hg : f.Grows g)
    (hx : Yields x fun r => g.Grows r.1) : Yields x fun r => f.Grows r.1 :=
  hx.mono fun _ hh => hg.trans hh

/-- Edits for the members of a list, one after the other. -/
theorem grows_foldlM {α : Type} {step : Func → α → Except Fault Func} {xs : List α}
    (each : ∀ g a, Yields (step g a) g.Grows) : Yields (xs.foldlM step f) f.Grows :=
  .foldlM (.refl f) fun g hg a _ => hg.then (each g a)

/-! ### Slots -/

theorem grows_modifyBlock {b : BlockId} {k : Block → Block} :
    Yields (f.modifyBlock b k) f.Grows :=
  .ask fun _ _ => .pure ⟨rfl, rfl, rfl, rfl, List.Sublist.refl _, by simp, Nat.le_refl _⟩

theorem grows_modifyInst {i : InstId} {k : Inst → Inst} : Yields (f.modifyInst i k) f.Grows :=
  .ask fun _ _ => .pure ⟨rfl, rfl, rfl, rfl, List.Sublist.refl _, Nat.le_refl _, by simp⟩

theorem grows_modifyOperation {i : InstId} {k : Operation → Operation} :
    Yields (f.modifyOperation i k) f.Grows := grows_modifyInst

theorem grows_addBlock {name : String} : f.Grows (f.addBlock name).1 :=
  ⟨rfl, rfl, rfl, rfl, List.sublist_append_left _ _, by simp [addBlock, newBlock], Nat.le_refl _⟩

theorem sublist_insertIdx {α : Type} (xs : List α) (n : Nat) (x : α) :
    xs.Sublist (xs.insertIdx n x) := by
  induction xs generalizing n with
  | nil => simp
  | cons y xs ih =>
    cases n with
    | zero => simp
    | succ n =>
      rw [List.insertIdx_succ_cons]
      exact (ih n).cons_cons y

theorem grows_addBlockAfter {anchor : BlockId} {name : String} :
    f.Grows (f.addBlockAfter anchor name).1 :=
  ⟨rfl, rfl, rfl, rfl, sublist_insertIdx _ _ _, by simp [addBlockAfter, newBlock], Nat.le_refl _⟩

theorem grows_addBlockBefore {anchor : BlockId} {name : String} :
    f.Grows (f.addBlockBefore anchor name).1 :=
  ⟨rfl, rfl, rfl, rfl, sublist_insertIdx _ _ _, by simp [addBlockBefore, newBlock], Nat.le_refl _⟩

theorem grows_newInst {op : Operation} {ty : Ty} {name : String} :
    f.Grows (f.newInst op ty name).1 :=
  ⟨rfl, rfl, rfl, rfl, List.Sublist.refl _, Nat.le_refl _, by simp [newInst]⟩

/-! ### Placement -/

theorem grows_place {b : BlockId} {n : Nat} {i : InstId} : Yields (f.place b n i) f.Grows :=
  grows_modifyBlock.bind fun _ hg => hg.then grows_modifyInst

theorem grows_append {b : BlockId} {op : Operation} {ty : Ty} {name : String} :
    Yields (f.append b op ty name) fun r => f.Grows r.1 :=
  .ask fun _ _ => (grows_newInst.then grows_place).bind fun _ hg => .pure hg

theorem grows_attachAfter {anchor i : InstId} : Yields (f.attachAfter anchor i) f.Grows := by
  refine .ask fun place _ => ?_
  match place with
  | none => exact .pure (.refl f)
  | some (b, n) =>
    refine .ask fun op _ => ?_
    split
    · refine .ask fun op' _ => ?_
      split
      · exact grows_place
      · exact .ask fun _ _ => grows_place
    · exact grows_place

theorem grows_insertAfter {anchor : InstId} {op : Operation} {ty : Ty} {name : String} :
    Yields (f.insertAfter anchor op ty name) fun r => f.Grows r.1 :=
  (grows_newInst.then grows_attachAfter).bind fun _ hg => .pure hg

theorem grows_insertBefore {anchor : InstId} {op : Operation} {ty : Ty} {name : String} :
    Yields (f.insertBefore anchor op ty name) fun r => f.Grows r.1 := by
  refine .ask fun place _ => ?_
  match place with
  | none => exact .pure grows_newInst
  | some (b, n) => exact (grows_newInst.then grows_place).bind fun _ hg => .pure hg

theorem grows_copyInst {i : InstId} {name : String} :
    Yields (f.copyInst i name) fun r => f.Grows r.1 :=
  .ask fun _ _ => .pure grows_newInst

theorem grows_erase {i : InstId} : Yields (f.erase i) f.Grows := by
  refine .ask fun inst _ => ?_
  split
  · exact .pure (.refl f)
  · exact grows_modifyInst.bind fun _ hg => hg.then grows_modifyBlock

/-! ### Rewiring -/

theorem grows_replaceUsesExcept {old : InstId} {new : Value} {keep : List InstId} :
    Yields (f.replaceUsesExcept old new keep) fun r => f.Grows r.1 := by
  refine .ask fun users _ => ?_
  refine .foldlM (r := fun r : Func × Nat => f.Grows r.1) (.refl f) fun r hr user _ => ?_
  obtain ⟨g, count⟩ := r
  dsimp only
  split
  · exact .pure hr
  · exact .ask fun _ _ => (hr.then grows_modifyOperation).bind fun _ hh => .pure hh

theorem grows_replaceUses {old : InstId} {new : Value} :
    Yields (f.replaceUses old new) fun r => f.Grows r.1 := grows_replaceUsesExcept

theorem grows_replaceSuccessor {b old new : BlockId} :
    Yields (f.replaceSuccessor b old new) f.Grows := by
  refine .ask fun term _ => ?_
  cases term with
  | none => exact .pure (.refl f)
  | some term => exact grows_modifyOperation

theorem grows_renameIncoming {b old new : BlockId} :
    Yields (f.renameIncoming b old new) f.Grows :=
  .ask fun _ _ => grows_foldlM fun _ _ => grows_modifyOperation

theorem grows_splitBlock {b : BlockId} {cut : Nat} {name : String} :
    Yields (f.splitBlock b cut name) fun r => f.Grows r.1 := by
  refine .ask fun block _ => ?_
  split
  · intro r answer
    simp [throw, throwThe, MonadExceptOf.throw, bind, Except.bind] at answer
  · refine (grows_addBlockAfter.then grows_modifyBlock).bind fun _ h₁ => ?_
    refine (h₁.then (grows_foldlM fun _ _ => grows_modifyInst)).bind fun _ h₂ => ?_
    refine (h₂.then grows_modifyBlock).bind fun _ h₃ => ?_
    refine .ask fun _ _ => ?_
    refine (h₃.then (grows_foldlM fun _ _ => grows_renameIncoming)).bind fun _ h₄ => ?_
    exact (h₄.thenWith grows_append).bind fun _ h₅ => .pure h₅

/-! ### Copies -/

theorem grows_copyInto {target : BlockId} {suffix : String} {state : Func × BlockCopy}
    {i : InstId} : Yields (copyInto target suffix state i) fun r => state.1.Grows r.1 :=
  .ask fun _ _ => grows_append.bind fun _ hg => .pure hg

theorem grows_copyBlock {suffix : String} {state : Func × BlockCopy} {b : BlockId} :
    Yields (copyBlock suffix state b) fun r => state.1.Grows r.1 := by
  refine .ask fun block _ => ?_
  exact .foldlM (r := fun r : Func × BlockCopy => state.1.Grows r.1) grows_addBlock
    fun r hr i _ => hr.thenWith grows_copyInto

theorem grows_rewireBlock {copy : BlockCopy} {b : BlockId} :
    Yields (rewireBlock copy f b) f.Grows :=
  .ask fun _ _ => grows_foldlM fun _ _ => grows_modifyOperation

theorem grows_copyBlocks {blocks : List BlockId} {suffix : String} :
    Yields (f.copyBlocks blocks suffix) fun r => f.Grows r.1 := by
  refine Yields.bind (p := fun r : Func × BlockCopy => f.Grows r.1)
    (.foldlM (.refl f) fun r hr b _ => hr.thenWith grows_copyBlock) fun r hr => ?_
  exact (hr.then (grows_foldlM fun _ _ => grows_rewireBlock)).bind fun _ hg => .pure hg

end Func

end KernelCoarsening
