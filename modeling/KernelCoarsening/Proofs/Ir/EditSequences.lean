/-
Edits, one after the other.

An edit as data names blocks and instructions of the function that it is made on.  An edit is
valid there if all of them exist; a few edits ask for a little more.

* `Edit`, `Edit.apply`, `Func.editAll` — the edits of a function, made once and in a row;
* `Edit.valid`, `Edit.lands` — the handles of an edit, and those in the operation that it brings
  along, exist;
* `Func.Consistent.editAll` — valid edits keep a function consistent;
* `Func.Consistent.answers_editAll` — no valid edit fails, if operations lead to blocks that exist.
-/
import KernelCoarsening.Proofs.Ir.Wiring

namespace KernelCoarsening

/-- An edit of a function. -/
inductive Edit where
  | addBlock (name : String)
  | addBlockAfter (anchor : BlockId) (name : String)
  | addBlockBefore (anchor : BlockId) (name : String)
  | newInst (op : Operation) (ty : Ty) (name : String)
  | append (b : BlockId) (op : Operation) (ty : Ty) (name : String)
  | insertAfter (anchor : InstId) (op : Operation) (ty : Ty) (name : String)
  | insertBefore (anchor : InstId) (op : Operation) (ty : Ty) (name : String)
  | attachAfter (anchor i : InstId)
  | copyInst (i : InstId) (name : String)
  | erase (i : InstId)
  | replaceUses (old : InstId) (new : Value)
  | replaceUsesExcept (old : InstId) (new : Value) (keep : List InstId)
  | replaceSuccessor (b old new : BlockId)
  | renameIncoming (b old new : BlockId)
  | splitBlock (b : BlockId) (cut : Nat) (name : String)
  | setName (i : InstId) (name : String)
  | setBlockName (b : BlockId) (name : String)
  | copyBlocks (blocks : List BlockId) (suffix : String)

namespace Edit

/-- The function after an edit; handles of what is new are left out. -/
def apply (f : Func) : Edit → Except Fault Func
  | .addBlock name => .ok (f.addBlock name).1
  | .addBlockAfter anchor name => .ok (f.addBlockAfter anchor name).1
  | .addBlockBefore anchor name => .ok (f.addBlockBefore anchor name).1
  | .newInst op ty name => .ok (f.newInst op ty name).1
  | .append b op ty name => (·.1) <$> f.append b op ty name
  | .insertAfter anchor op ty name => (·.1) <$> f.insertAfter anchor op ty name
  | .insertBefore anchor op ty name => (·.1) <$> f.insertBefore anchor op ty name
  | .attachAfter anchor i => f.attachAfter anchor i
  | .copyInst i name => (·.1) <$> f.copyInst i name
  | .erase i => f.erase i
  | .replaceUses old new => (·.1) <$> f.replaceUses old new
  | .replaceUsesExcept old new keep => (·.1) <$> f.replaceUsesExcept old new keep
  | .replaceSuccessor b old new => f.replaceSuccessor b old new
  | .renameIncoming b old new => f.renameIncoming b old new
  | .splitBlock b cut name => (·.1) <$> f.splitBlock b cut name
  | .setName i name => f.setName i name
  | .setBlockName b name => f.setBlockName b name
  | .copyBlocks blocks suffix => (·.1) <$> f.copyBlocks blocks suffix

/-- The blocks that an edit names. -/
def blocks : Edit → List BlockId
  | .addBlockAfter anchor _ | .addBlockBefore anchor _ => [anchor]
  | .append b .. | .splitBlock b .. | .setBlockName b _ => [b]
  | .replaceSuccessor b old new | .renameIncoming b old new => [b, old, new]
  | .copyBlocks blocks _ => blocks
  | _ => []

/-- The instructions that an edit names. -/
def insts : Edit → List InstId
  | .insertAfter anchor .. | .insertBefore anchor .. => [anchor]
  | .attachAfter anchor i => [anchor, i]
  | .copyInst i _ | .erase i | .replaceUses i _ | .setName i _ => [i]
  | .replaceUsesExcept old _ keep => old :: keep
  | _ => []

/-- The blocks that the operation of a new instruction leads to. -/
def targets : Edit → List BlockId
  | .newInst op .. | .append _ op .. | .insertAfter _ op .. | .insertBefore _ op .. => op.successors
  | _ => []

/-- What an edit asks for besides handles: only an instruction that is placed nowhere is placed,
and behind one that is placed; a block is cut within its instructions; and no block is copied
twice. -/
def fits (f : Func) : Edit → Bool
  | .attachAfter anchor i => (f.blockOf anchor).isSome && (f.blockOf i).isNone
  | .splitBlock b cut _ => cut ≤ (f.code b).length
  | .copyBlocks blocks _ => blocks.Nodup
  | _ => true

/-- What an edit names exists in a function. -/
def valid (f : Func) (e : Edit) : Bool :=
  e.blocks.all (·.index < f.blocks.size) && e.insts.all (·.index < f.insts.size) && e.fits f

/-- What a new operation leads to exists in a function. -/
def lands (f : Func) (e : Edit) : Bool := e.targets.all (·.index < f.blocks.size)

variable {f : Func} {e : Edit}

theorem valid_iff : e.valid f = true ↔ (∀ b ∈ e.blocks, b.index < f.blocks.size) ∧
    (∀ i ∈ e.insts, i.index < f.insts.size) ∧ e.fits f = true := by
  simp [valid, and_assoc]

theorem lands_iff : e.lands f = true ↔ ∀ b ∈ e.targets, b.index < f.blocks.size := by
  simp [lands]

end Edit

namespace Func

variable {f : Func} {e : Edit}

/-! ### One edit -/

theorem Consistent.apply (h : f.Consistent) (valid : e.valid f = true) :
    Yields (e.apply f) Consistent := by
  obtain ⟨slots, -, fits⟩ := Edit.valid_iff.mp valid
  cases e with
  | addBlock name => exact .pure (h.addBlock name)
  | addBlockAfter anchor name => exact .pure (h.addBlockAfter anchor name)
  | addBlockBefore anchor name => exact .pure (h.addBlockBefore anchor name)
  | newInst op ty name => exact .pure (h.newInst op ty name)
  | append => exact .map h.append
  | insertAfter => exact .map h.insertAfter
  | insertBefore => exact .map h.insertBefore
  | attachAfter anchor i =>
    obtain ⟨-, free⟩ : (f.blockOf anchor).isSome = true ∧ f.blockOf i = none := by
      simpa [Edit.fits] using fits
    exact h.attachAfter free
  | copyInst => exact .map h.copyInst
  | erase => exact h.erase
  | replaceUses => exact .map h.replaceUses
  | replaceUsesExcept => exact .map h.replaceUsesExcept
  | replaceSuccessor => exact h.replaceSuccessor
  | renameIncoming => exact h.renameIncoming
  | splitBlock b => exact .map (h.splitBlock (slots b (by simp [Edit.blocks])))
  | setName => exact h.modifyInst fun _ => rfl
  | setBlockName => exact h.modifyBlock fun _ => rfl
  | copyBlocks => exact .map h.copyBlocks

theorem Wired.apply (h : f.Wired 0) (valid : e.valid f = true) (lands : e.lands f = true) :
    Yields (e.apply f) (Wired · 0) := by
  obtain ⟨slots, -⟩ := Edit.valid_iff.mp valid
  have lands := Edit.lands_iff.mp lands
  cases e with
  | addBlock name => exact .pure ((h.newBlock name _).mono (Nat.zero_le _))
  | addBlockAfter anchor name => exact .pure ((h.newBlock name _).mono (Nat.zero_le _))
  | addBlockBefore anchor name => exact .pure ((h.newBlock name _).mono (Nat.zero_le _))
  | newInst op ty name => exact .pure (h.newInst lands ty name)
  | append => exact .map (h.append lands)
  | insertAfter => exact .map (h.insertAfter lands)
  | insertBefore => exact .map (h.insertBefore lands)
  | attachAfter => exact h.attachAfter
  | copyInst => exact .map h.copyInst
  | erase => exact h.erase
  | replaceUses => exact .map h.replaceUsesExcept
  | replaceUsesExcept => exact .map h.replaceUsesExcept
  | replaceSuccessor b old new => exact h.redirect (slots new (by simp [Edit.blocks]))
  | renameIncoming => exact h.renameIncoming
  | splitBlock => exact .map h.splitBlock
  | setName => exact h.modifyInst fun _ _ hc => .inl hc
  | setBlockName => exact h.modifyBlock
  | copyBlocks => exact .map h.copyBlocks

theorem Consistent.answers_apply (h : f.Consistent) (wired : f.Wired 0) (valid : e.valid f = true) :
    Answers (e.apply f) := by
  obtain ⟨slots, inside, fits⟩ := Edit.valid_iff.mp valid
  cases e with
  | addBlock | addBlockAfter | addBlockBefore | newInst => exact .pure
  | append b => exact .map (answers_append (slots b (by simp [Edit.blocks])))
  | insertAfter => exact .map h.answers_insertAfter
  | insertBefore => exact .map h.answers_insertBefore
  | attachAfter anchor i => exact h.answers_attachAfter (inside i (by simp [Edit.insts]))
  | copyInst i => exact .map (answers_copyInst (inside i (by simp [Edit.insts])))
  | erase i => exact h.answers_erase (inside i (by simp [Edit.insts]))
  | replaceUses => exact .map h.answers_replaceUsesExcept
  | replaceUsesExcept => exact .map h.answers_replaceUsesExcept
  | replaceSuccessor b => exact h.answers_replaceSuccessor (slots b (by simp [Edit.blocks]))
  | renameIncoming b => exact h.answers_renameIncoming (slots b (by simp [Edit.blocks]))
  | splitBlock b cut name =>
    exact .map (h.answers_splitBlock wired (slots b (by simp [Edit.blocks]))
      (by simpa [Edit.fits] using fits))
  | setName i => exact answers_modifyInst (inside i (by simp [Edit.insts]))
  | setBlockName b => exact answers_modifyBlock (slots b (by simp [Edit.blocks]))
  | copyBlocks => exact .map (h.answers_copyBlocks wired slots)

/-! ### Runs -/

/-- The function after edits that are made one after the other. -/
def editAll (f : Func) (edits : List Edit) : Except Fault Func :=
  edits.foldlM (fun f e => e.apply f) f

/-- A condition that every edit of a row meets on the function that it is made on. -/
def along (ok : Func → Edit → Bool) (f : Func) : List Edit → Bool
  | [] => true
  | e :: edits => ok f e && match e.apply f with
    | .ok g => along ok g edits
    | .error _ => true

variable {ok : Func → Edit → Bool} {edits : List Edit}

theorem along_cons : along ok f (e :: edits) = true ↔
    ok f e = true ∧ ∀ g, e.apply f = .ok g → along ok g edits = true := by
  cases answer : e.apply f with
  | ok g => simp [along, answer]
  | error fault => simp [along, answer]

theorem Consistent.editAll (h : f.Consistent) (valid : f.along Edit.valid edits = true) :
    Yields (f.editAll edits) Consistent := by
  induction edits generalizing f with
  | nil => exact .pure h
  | cons e edits ih =>
    obtain ⟨here, later⟩ := along_cons.mp valid
    intro g answer
    obtain ⟨f₁, first, rest⟩ := bind_eq_ok_iff.mp answer
    exact ih (h.apply here f₁ first) (later f₁ first) g rest

theorem Consistent.answers_editAll (h : f.Consistent) (wired : f.Wired 0)
    (valid : f.along Edit.valid edits = true)
    (lands : f.along Edit.lands edits = true) : Answers (f.editAll edits) := by
  induction edits generalizing f with
  | nil => exact .pure
  | cons e edits ih =>
    obtain ⟨here, later⟩ := along_cons.mp valid
    obtain ⟨landsHere, landsLater⟩ := along_cons.mp lands
    refine (h.answers_apply wired here).bind fun f₁ first => ?_
    exact ih (h.apply here f₁ first) (wired.apply here landsHere f₁ first) (later f₁ first)
      (landsLater f₁ first)

theorem Wired.editAll (h : f.Wired 0) (valid : f.along Edit.valid edits = true)
    (lands : f.along Edit.lands edits = true) : Yields (f.editAll edits) (Wired · 0) := by
  induction edits generalizing f with
  | nil => exact .pure h
  | cons e edits ih =>
    obtain ⟨here, later⟩ := along_cons.mp valid
    obtain ⟨landsHere, landsLater⟩ := along_cons.mp lands
    intro g answer
    obtain ⟨f₁, first, rest⟩ := bind_eq_ok_iff.mp answer
    exact ih (h.apply here landsHere f₁ first) (later f₁ first) (landsLater f₁ first) g rest

/-- The function without blocks and instructions. -/
theorem consistent_empty (name : String) (params : List Param) (returnTy : Ty) :
    (empty name params returnTy).Consistent := by
  constructor <;> simp [empty]

theorem wired_empty (name : String) (params : List Param) (returnTy : Ty) :
    (empty name params returnTy).Wired 0 :=
  ⟨Nat.zero_le _, by simp [empty, line]⟩

end Func

end KernelCoarsening
