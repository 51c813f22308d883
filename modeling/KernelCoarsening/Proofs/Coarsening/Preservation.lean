/-
What is left of a function when regions of it are repeated.

Repeating adds instructions and blocks.  Of what was there it may change two things only: the
terminator of an exiting block is led to a new block, and the phis of the block behind a region
name a new block:

* `Func.Retouched` — what may become of an instruction;
* `Func.Preserves` — a function has been kept but for this: in its blocks, new instructions stand
  behind each of the old ones, and they lead where that one led;
* `Func.Preserves.attachAfter`, `Func.Preserves.erase`, … — the edits that keep it so;
* `Func.Preserves.replaceUses` — to replace what is read keeps it so, if nothing that was there
  reads what is new (`Func.Defined`).
-/
import KernelCoarsening.Divergence.Region
import KernelCoarsening.Proofs.Flow.Loops
import KernelCoarsening.Proofs.Ir.Frame
import KernelCoarsening.Proofs.Ir.Insertion
import KernelCoarsening.Proofs.Ir.Shape

namespace KernelCoarsening

/-! ### Renamings -/

/-- A renaming of blocks makes of each block itself or a new one; those from `m` on are new. -/
def Renames (m : Nat) (k : BlockId → BlockId) : Prop := ∀ b, k b = b ∨ m ≤ (k b).index

theorem renames_id (m : Nat) : Renames m id := fun _ => .inl rfl

theorem Renames.comp {m : Nat} {k l : BlockId → BlockId} (second : Renames m l)
    (first : Renames m k) : Renames m (l ∘ k) := by
  intro b
  rw [Function.comp_apply]
  rcases second (k b) with same | new
  · rw [same]
    exact first b
  · exact .inr new

theorem renames_redirect {m : Nat} {old new : BlockId} (h : m ≤ new.index) :
    Renames m (Operation.redirect old new) := by
  intro b
  unfold Operation.redirect
  split
  · exact .inr h
  · exact .inl rfl

namespace Operation

@[simp] theorem mapSuccessors_mapSuccessors (k l : BlockId → BlockId) (op : Operation) :
    (op.mapSuccessors k).mapSuccessors l = op.mapSuccessors (l ∘ k) := by cases op <;> rfl

@[simp] theorem mapIncoming_mapIncoming (k l : BlockId → BlockId) (op : Operation) :
    (op.mapIncoming k).mapIncoming l = op.mapIncoming (l ∘ k) := by
  cases op <;> simp [mapIncoming, Function.comp_def]

/-- A phi leads nowhere, and what leads somewhere is no phi. -/
theorem mapSuccessors_mapIncoming (k l : BlockId → BlockId) (op : Operation) :
    (op.mapIncoming k).mapSuccessors l = op.mapIncoming k ∨
      (op.mapIncoming k).mapSuccessors l = op.mapSuccessors l := by
  cases op <;> simp [mapIncoming, mapSuccessors]

theorem mapIncoming_mapSuccessors (k l : BlockId → BlockId) (op : Operation) :
    (op.mapSuccessors k).mapIncoming l = op.mapSuccessors k ∨
      (op.mapSuccessors k).mapIncoming l = op.mapIncoming l := by
  cases op <;> simp [mapIncoming, mapSuccessors]

/-- An operation that does not read a value is not changed by a replacement of it. -/
theorem substitute_of_notMem {old new : Value} {op : Operation} (h : old ∉ op.operands) :
    op.substitute old new = op := by
  refine (mapOperands_congr fun v hv => ?_).trans (mapOperands_id op)
  exact if_neg fun same : v = old => h (same ▸ hv)

end Operation

namespace Func

variable {f g : Func} {regions : List Region} {b : BlockId} {i j x anchor : InstId}

/-! ### What may become of an instruction -/

/-- What may become of an instruction when regions are repeated.  The terminator of an exiting
block may lead to new blocks, and the phis of the block behind a region may name new blocks; all
else stays. -/
inductive Retouched (f : Func) (regions : List Region) (i : InstId) (op : Operation) :
    Operation → Prop
  | same : Retouched f regions i op op
  | led {r : Region} {k : BlockId → BlockId} (hr : r ∈ regions)
      (ends : f.terminator r.exiting = .ok (some i)) (renames : Renames f.blocks.size k) :
      Retouched f regions i op (op.mapSuccessors k)
  | named {r : Region} {b : BlockId} {phis : List InstId} {k : BlockId → BlockId} (hr : r ∈ regions)
      (exit : r.exit? f = .ok (some b)) (listed : f.phis b = .ok phis) (mem : i ∈ phis)
      (renames : Renames f.blocks.size k) : Retouched f regions i op (op.mapIncoming k)

namespace Retouched

variable {op op' : Operation} {k : BlockId → BlockId}

theorem mono {more : List Region} (h : f.Retouched regions i op op')
    (sub : ∀ r ∈ regions, r ∈ more) : f.Retouched more i op op' := by
  cases h with
  | same => exact .same
  | led hr ends renames => exact .led (sub _ hr) ends renames
  | named hr exit listed mem renames => exact .named (sub _ hr) exit listed mem renames

theorem lead (h : f.Retouched regions i op op') {r : Region} (hr : r ∈ regions)
    (ends : f.terminator r.exiting = .ok (some i)) (renames : Renames f.blocks.size k) :
    f.Retouched regions i op (op'.mapSuccessors k) := by
  cases h with
  | same => exact .led hr ends renames
  | led _ _ before =>
    rw [Operation.mapSuccessors_mapSuccessors]
    exact .led hr ends (renames.comp before)
  | @named r' b phis k' hr' exit listed mem before =>
    rcases op.mapSuccessors_mapIncoming k' k with same | same
    · rw [same]
      exact .named hr' exit listed mem before
    · rw [same]
      exact .led hr ends renames

theorem name (h : f.Retouched regions i op op') {r : Region} (hr : r ∈ regions)
    (exit : r.exit? f = .ok (some b)) {phis : List InstId} (listed : f.phis b = .ok phis)
    (mem : i ∈ phis) (renames : Renames f.blocks.size k) :
    f.Retouched regions i op (op'.mapIncoming k) := by
  cases h with
  | same => exact .named hr exit listed mem renames
  | @led r' k' hr' ends before =>
    rcases op.mapIncoming_mapSuccessors k' k with same | same
    · rw [same]
      exact .led hr' ends before
    · rw [same]
      exact .named hr exit listed mem renames
  | named _ _ _ _ before =>
    rw [Operation.mapIncoming_mapIncoming]
    exact .named hr exit listed mem (renames.comp before)

theorem isPhi (h : f.Retouched regions i op op') : op'.isPhi = op.isPhi := by
  cases h <;> simp

theorem isTerminator (h : f.Retouched regions i op op') : op'.isTerminator = op.isTerminator := by
  cases h <;> simp

theorem operands (h : f.Retouched regions i op op') : op'.operands = op.operands := by
  cases h <;> simp

theorem successors (h : f.Retouched regions i op op') :
    ∃ k, Renames f.blocks.size k ∧ op'.successors = op.successors.map k := by
  cases h with
  | same => exact ⟨id, renames_id _, by simp⟩
  | led _ _ renames => exact ⟨_, renames, by simp⟩
  | named => exact ⟨id, renames_id _, by simp⟩

end Retouched

/-! ### Functions that have kept another -/

/-- The last of chunks that follow each other belongs to the last chunk. -/
theorem getLast?_chunks {behind : InstId → List InstId} {code : List InstId} {y : InstId}
    (last : (code.flatMap fun x => x :: behind x).getLast? = some y) :
    ∃ x, code.getLast? = some x ∧ (y = x ∨ y ∈ behind x) := by
  rcases List.eq_nil_or_concat code with rfl | ⟨front, x, rfl⟩
  · simp at last
  · refine ⟨x, by simp, ?_⟩
    rw [List.concat_eq_append, List.flatMap_append, List.flatMap_singleton,
      List.getLast?_append_of_ne_nil _ (by simp)] at last
    exact List.mem_cons.mp (List.mem_of_getLast? last)

/-- What chunks start with is among the first members with a property, if what the chunks were
made from is. -/
theorem mem_takeWhile_chunks {behind : InstId → List InstId} {p q : InstId → Bool}
    {code : List InstId} {y : InstId} (same : ∀ x ∈ code, p x = q x)
    (out : ∀ x ∈ code, y ∉ behind x)
    (mem : y ∈ (code.flatMap fun x => x :: behind x).takeWhile p) : y ∈ code.takeWhile q := by
  induction code with
  | nil => simp at mem
  | cons x code ih =>
    rw [List.forall_mem_cons] at same out
    rw [List.flatMap_cons, List.cons_append, List.takeWhile_cons] at mem
    rw [List.takeWhile_cons, ← same.1]
    by_cases holds : p x = true
    · rw [if_pos holds, List.mem_cons] at mem ⊢
      refine mem.imp_right fun later => ih same.2 out.2 ?_
      rw [List.takeWhile_append] at later
      split at later
      · exact (List.mem_append.mp later).resolve_left out.1
      · exact absurd ((List.takeWhile_sublist _).subset later) out.1
    · simp [holds] at mem

/-- A block ends with a terminator. -/
theorem terminator_eq_some_iff : f.terminator b = .ok (some i) ↔ b.index < f.blocks.size ∧
    (f.code b).getLast? = some i ∧ ∃ op, f.operation i = .ok op ∧ op.isTerminator = true := by
  constructor
  · intro h
    obtain ⟨block, hb, h⟩ := bind_eq_ok_iff.mp h
    rw [code_of_block hb]
    cases last : block.insts.getLast? with
    | none => simp [last, pure, Except.pure] at h
    | some j =>
      simp only [last] at h
      obtain ⟨op, hop, h⟩ := bind_eq_ok_iff.mp h
      obtain ⟨term, rfl⟩ : op.isTerminator = true ∧ j = i := by simpa [pure, Except.pure] using h
      exact ⟨lt_of_block hb, rfl, op, hop, term⟩
  · rintro ⟨slot, last, op, hop, term⟩
    obtain ⟨block, hb, insts⟩ := exists_block slot
    rw [← insts] at last
    simp [terminator, hb, last, hop, term, bind, Except.bind, pure, Except.pure]

/-- A block leads to a single one: its terminator does. -/
theorem exists_terminator_of_successors {c : BlockId} (h : f.successors b = .ok [c]) :
    ∃ t op, f.terminator b = .ok (some t) ∧ f.operation t = .ok op ∧ op.successors = [c] := by
  obtain ⟨term, ends, h⟩ := bind_eq_ok_iff.mp h
  cases term with
  | none => simp [pure, Except.pure] at h
  | some t =>
    obtain ⟨op, hop, h⟩ := bind_eq_ok_iff.mp h
    exact ⟨t, op, ends, hop, by simpa [pure, Except.pure] using h⟩

/-- An instruction leads where another one led in the function before, up to new blocks. -/
def Follows (f g : Func) (x y : InstId) : Prop :=
  ∃ op op' k, f.operation x = .ok op ∧ g.operation y = .ok op' ∧ Renames f.blocks.size k ∧
    op'.successors = op.successors.map k

namespace Follows

variable {g' : Func} {x y z : InstId} (follows : f.Follows g x y)

include follows

theorem of_line (same : y.index < g.insts.size → g'.line y = g.line y) : f.Follows g' x y := by
  obtain ⟨op, op', k, hx, hy, leads⟩ := follows
  obtain ⟨ty, line⟩ := operation_eq_ok_iff.mp hy
  have line' : g'.line y = some (op', ty) := (same (lt_of_operation hy)).trans line
  exact ⟨op, op', k, hx, operation_eq_ok_iff.mpr ⟨ty, line'⟩, leads⟩

theorem of_kind (alike : g.kind z = g.kind y) : f.Follows g x z := by
  obtain ⟨op, op', k, hx, hy, renames, leads⟩ := follows
  obtain ⟨ty, line⟩ := operation_eq_ok_iff.mp hy
  have kind : g.kind z = some (op'.isPhi, op'.successors) := by rw [alike, Func.kind, line]; rfl
  obtain ⟨⟨op'', ty'⟩, line', same⟩ := Option.map_eq_some_iff.mp kind
  obtain ⟨-, succs⟩ := Prod.mk.inj same
  exact ⟨op, op'', k, hx, operation_eq_ok_iff.mpr ⟨ty', line'⟩, renames, succs.trans leads⟩

end Follows

/-- In the blocks of a function, new instructions stand behind each of the old ones, and lead
where that one led. -/
structure Chunked (f g : Func) (behind : InstId → List InstId) : Prop where
  code : ∀ b : BlockId, b.index < f.blocks.size →
    g.code b = (f.code b).flatMap fun x => x :: behind x
  new : ∀ x, (f.blockOf x).isSome → ∀ y ∈ behind x, f.insts.size ≤ y.index ∧ f.Follows g x y

/-- A function has been kept, but for new instructions and for what repeating regions asks
for. -/
structure Preserves (f : Func) (regions : List Region) (g : Func) : Prop where
  consistent : g.Consistent
  blocks : f.blocks.size ≤ g.blocks.size
  kept : ∀ (i : InstId) inst, f.insts[i.index]? = some inst → ∃ op,
    g.insts[i.index]? = some { inst with op } ∧ f.Retouched regions i inst.op op
  chunks : ∃ behind, f.Chunked g behind

theorem Consistent.preserves (h : f.Consistent) : f.Preserves regions f where
  consistent := h
  blocks := Nat.le_refl _
  kept i inst hi := ⟨inst.op, hi, .same⟩
  chunks := ⟨fun _ => [], fun b _ => by simp, by simp⟩

namespace Preserves

theorem mono {more : List Region} (h : f.Preserves regions g) (sub : ∀ r ∈ regions, r ∈ more) :
    f.Preserves more g where
  consistent := h.consistent
  blocks := h.blocks
  kept i inst hi := by
    obtain ⟨op, there, touched⟩ := h.kept i inst hi
    exact ⟨op, there, touched.mono sub⟩
  chunks := h.chunks

variable (h : f.Preserves regions g)

include h

theorem insts : f.insts.size ≤ g.insts.size := by
  by_contra less
  obtain ⟨inst, hi⟩ : ∃ inst, f.insts[g.insts.size]? = some inst :=
    ⟨_, Array.getElem?_eq_getElem (Nat.lt_of_not_le less)⟩
  obtain ⟨op, there, -⟩ := h.kept ⟨g.insts.size⟩ inst hi
  simp at there

theorem blockOf (old : i.index < f.insts.size) : g.blockOf i = f.blockOf i := by
  have hi := Array.getElem?_eq_getElem old
  obtain ⟨op, there, -⟩ := h.kept i _ hi
  simp [Func.blockOf, there, hi]

/-- An instruction that was there does what it did, but for what repeating regions asks for. -/
theorem operation (old : i.index < f.insts.size) : ∃ op op', f.operation i = .ok op ∧
    g.operation i = .ok op' ∧ f.Retouched regions i op op' := by
  have hi := Array.getElem?_eq_getElem old
  obtain ⟨op, there, touched⟩ := h.kept i _ hi
  refine ⟨_, op, ?_, ?_, touched⟩
  · exact map_eq_ok_iff.mpr ⟨_, inst_eq_ok_iff.mpr hi, rfl⟩
  · exact map_eq_ok_iff.mpr ⟨_, inst_eq_ok_iff.mpr there, rfl⟩

theorem follows_self (old : i.index < f.insts.size) : f.Follows g i i := by
  obtain ⟨op, op', hop, hop', touched⟩ := h.operation old
  obtain ⟨k, renames, leads⟩ := touched.successors
  exact ⟨op, op', k, hop, hop', renames, leads⟩

/-- An edit of a new instruction leaves what was there. -/
theorem kept_of_others {g' : Func} (new : f.insts.size ≤ i.index)
    (others : ∀ j : InstId, j ≠ i → g'.insts[j.index]? = g.insts[j.index]?) {inst : Inst}
    (hj : f.insts[j.index]? = some inst) : ∃ op, g'.insts[j.index]? = some { inst with op } ∧
      f.Retouched regions j inst.op op := by
  obtain ⟨op, there, touched⟩ := h.kept j inst hj
  have other : j ≠ i := by
    rintro rfl
    exact absurd (Array.getElem?_eq_some_iff.mp hj).1 (Nat.not_lt.mpr new)
  exact ⟨op, by rw [others j other, there], touched⟩

/-! ### Edits -/

/-- New instructions may lead to other new blocks, and instructions that were there may change as
repeating regions asks for. -/
theorem modifyOperation {k : Operation → Operation} {l : BlockId → BlockId}
    (renames : Renames f.blocks.size l) (leads : ∀ op, (k op).successors = op.successors.map l)
    (fits : ∀ op op', f.operation j = .ok op → g.operation j = .ok op' →
      f.Retouched regions j op op' → f.Retouched regions j op (k op')) :
    Yields (g.modifyOperation j k) (f.Preserves regions) := by
  intro g' answer
  obtain ⟨inst, hj, -⟩ := bind_eq_ok_iff.mp answer
  obtain ⟨g₁, answer₁, same⟩ := outline_modifyOperation k (line_of_inst hj)
  obtain rfl : g₁ = g' := by simpa [answer₁] using answer
  have slot := inst_eq_ok_iff.mp hj
  have hop : g.operation j = .ok inst.op := map_eq_ok_iff.mpr ⟨inst, hj, rfl⟩
  have self := insts_modifyInst_self g₁ answer₁
  have others := fun {i : InstId} (other : i ≠ j) => insts_modifyInst other g₁ answer₁
  obtain ⟨behind, chunked⟩ := h.chunks
  refine ⟨h.consistent.modifyOperation g₁ answer₁, ?_, fun i inst' hi => ?_, behind, ?_, ?_⟩
  · exact Nat.le_trans h.blocks (grows_modifyOperation g₁ answer₁).blocks
  · obtain ⟨op, there, touched⟩ := h.kept i inst' hi
    by_cases here : i = j
    · subst here
      obtain rfl : inst = { inst' with op } := by simpa [slot] using there
      have before : f.operation i = .ok inst'.op :=
        map_eq_ok_iff.mpr ⟨inst', inst_eq_ok_iff.mpr hi, rfl⟩
      exact ⟨k op, by simp [self, slot], fits inst'.op op before hop touched⟩
    · exact ⟨op, by rw [others here, there], touched⟩
  · intro b old
    rw [show g₁.code = g.code from congrArg Outline.code same, chunked.code b old]
  · intro x placed y hy
    obtain ⟨new, op, op', l', hx, hy', renames', leads'⟩ := chunked.new x placed y hy
    refine ⟨new, ?_⟩
    by_cases here : y = j
    · subst here
      obtain rfl : inst.op = op' := by simpa [hop] using hy'
      refine ⟨op, k inst.op, l ∘ l', hx, ?_, renames.comp renames', ?_⟩
      · exact map_eq_ok_iff.mpr ⟨_, inst_eq_ok_iff.mpr (by rw [self, slot, Option.map_some]), rfl⟩
      · rw [leads, leads', List.map_map]
    · exact ⟨op, op', l', hx, by rw [operation_of_insts (others here), hy'], renames', leads'⟩

/-- A new instruction that leads where it led may read something else. -/
theorem modifyNew {k : Operation → Operation} (new : f.insts.size ≤ j.index)
    {l : BlockId → BlockId} (renames : Renames f.blocks.size l)
    (leads : ∀ op, (k op).successors = op.successors.map l) :
    Yields (g.modifyOperation j k) (f.Preserves regions) :=
  h.modifyOperation renames leads fun _ _ before => absurd (lt_of_operation before)
    (Nat.not_lt.mpr new)

/-- Slots that are added at the end change nothing, as long as code and kinds stay. -/
theorem congr {g' : Func} (consistent : g'.Consistent) (blocks : g.blocks.size ≤ g'.blocks.size)
    (insts : ∀ i : InstId, i.index < g.insts.size → g'.insts[i.index]? = g.insts[i.index]?)
    (code : ∀ b : BlockId, b.index < f.blocks.size → g'.code b = g.code b) :
    f.Preserves regions g' := by
  obtain ⟨behind, chunked⟩ := h.chunks
  refine ⟨consistent, Nat.le_trans h.blocks blocks, fun i inst hi => ?_, behind, ?_, ?_⟩
  · obtain ⟨op, there, touched⟩ := h.kept i inst hi
    exact ⟨op, by rw [insts i (Array.getElem?_eq_some_iff.mp there).1, there], touched⟩
  · intro b old
    rw [code b old, chunked.code b old]
  · intro x placed y hy
    obtain ⟨new, follows⟩ := chunked.new x placed y hy
    exact ⟨new, follows.of_line fun slot => line_of_insts (insts y slot)⟩

theorem newInst (op : Operation) (ty : Ty) (name : String) :
    f.Preserves regions (g.newInst op ty name).1 :=
  h.congr (h.consistent.newInst op ty name) (Nat.le_refl _) (fun _ old => insts_newInst old)
    fun b _ => congrFun (congrArg Outline.code (outline_newInst (f := g) op ty name)) b

/-- A copy is new, and it is not placed. -/
theorem copyInst {name : String} : Yields (g.copyInst i name) fun r => f.Preserves regions r.1 ∧
    f.insts.size ≤ r.2.index ∧ r.1.blockOf r.2 = none := by
  refine .ask fun inst _ => .pure ⟨h.newInst _ _ _, h.insts, ?_⟩
  simp [Func.newInst, Func.blockOf]

theorem addBlock (name : String) : f.Preserves regions (g.addBlock name).1 :=
  h.congr (h.consistent.addBlock name) (by simp [Func.addBlock, newBlock]) (fun _ _ => rfl)
    fun b _ => congrFun (congrArg Outline.code (outline_newBlock (f := g) name)) b

theorem append {op : Operation} {ty : Ty} {name : String} (new : f.blocks.size ≤ b.index) :
    Yields (g.append b op ty name) fun r => f.Preserves regions r.1 := by
  intro r answer
  obtain ⟨block, hb, -⟩ := bind_eq_ok_iff.mp answer
  have inside : b.index < g.blocks.size := lt_of_block hb
  obtain ⟨g', answer', same⟩ := outline_append (f := g) op ty name inside
  obtain rfl : (g', ⟨g.insts.size⟩) = r := by simpa [answer'] using answer
  refine h.congr (h.consistent.append _ answer) (grows_append _ answer).blocks
    (fun i old => insts_append old _ answer) fun c old => ?_
  have other : c ≠ b := fun here => absurd (here ▸ old) (Nat.not_lt.mpr new)
  rw [show g'.code = _ from congrArg Outline.code same]
  exact Function.update_of_ne other _ _

/-- A new instruction finds its place behind one of its kind. -/
theorem attachAfter (new : f.insts.size ≤ i.index) (free : g.blockOf i = none)
    (alike : g.kind i = g.kind anchor) (slot : (g.kind i).isSome) :
    Yields (g.attachAfter anchor i) (f.Preserves regions) := by
  intro g' answer
  cases home : g.blockOf anchor with
  | none =>
    obtain rfl : g = g' := by simpa [attachAfter_of_unplaced home] using answer
    exact h
  | some b =>
    have placed : (g.blockOf anchor).isSome := by simp [home]
    obtain ⟨op, ty, hanchor⟩ := exists_line placed
    obtain ⟨⟨op', ty'⟩, hi⟩ := Option.isSome_iff_exists.mp (Option.isSome_map ▸ slot)
    have phis : op'.isPhi = op.isPhi := by
      simpa [kind, hi, hanchor] using congrArg (Option.map Prod.fst) alike
    obtain ⟨g₁, answer₁, adds, -⟩ := exists_attachAfter h.consistent placed free hanchor hi
      fun phi => phis ▸ phi
    obtain rfl : g₁ = g' := by simpa [answer₁] using answer
    obtain ⟨rest, chunked⟩ := h.chunks
    -- what follows the anchor is followed by the new instruction, too
    have behindAnchor : ∀ x, f.Follows g x anchor → f.Follows g₁ x i := fun x follows =>
      (follows.of_kind alike).of_line (adds.line i)
    refine ⟨adds.consistent, Nat.le_trans h.blocks (grows_attachAfter g₁ answer₁).blocks,
      fun j inst hj => h.kept_of_others new (fun _ other => insts_attachAfter other g₁ answer₁) hj,
      fun x => (if x = anchor then [i] else []) ++ (rest x).flatMap (behind anchor [i]), ?_, ?_⟩
    · intro c old
      rw [adds.code c, chunked.code c old, List.flatMap_assoc]
      refine List.flatMap_congr fun x _ => ?_
      by_cases here : x = anchor <;> simp [behind, here]
    · intro x placed' y hy
      rcases List.mem_append.mp hy with first | later
      · obtain ⟨rfl, rfl⟩ : x = anchor ∧ y = i := by
          by_cases here : x = anchor
          · exact ⟨here, by simpa [here] using first⟩
          · simp [here] at first
        exact ⟨new, behindAnchor x (h.follows_self (lt_of_placed placed'))⟩
      · obtain ⟨z, hz, hy⟩ := List.mem_flatMap.mp later
        rcases mem_behind.mp hy with rfl | ⟨rfl, here⟩
        · obtain ⟨new, kept⟩ := chunked.new x placed' y hz
          exact ⟨new, kept.of_line (adds.line y)⟩
        · obtain rfl : y = i := by simpa using here
          exact ⟨new, behindAnchor x (chunked.new x placed' z hz).2⟩

/-- New instructions may go. -/
theorem erase (hf : f.Consistent) (new : f.insts.size ≤ i.index) :
    Yields (g.erase i) (f.Preserves regions) := by
  intro g' answer
  obtain ⟨inst, hi, done⟩ := bind_eq_ok_iff.mp answer
  cases home : g.blockOf i with
  | none =>
    have unplaced : inst.block = none := by simpa [Func.blockOf, inst_eq_ok_iff.mp hi] using home
    obtain rfl : g = g' := by simpa [unplaced, pure, Except.pure] using done
    exact h
  | some b =>
    obtain ⟨g₁, answer₁, same⟩ := h.consistent.outline_erase home
    obtain rfl : g₁ = g' := by simpa [answer₁] using answer
    have code : ∀ c, g₁.code c = (g.code c).filter (· != i) := by
      intro c
      rw [show g₁.code = _ from congrArg Outline.code same]
      by_cases here : c = b
      · rw [here]
        exact Function.update_self ..
      · refine (Function.update_of_ne here _ _).trans (List.filter_eq_self.mpr fun j hj => ?_).symm
        have other : j ≠ i := by
          rintro rfl
          exact here (by simpa [home] using (h.consistent.mem_code.mp hj).symm)
        simpa using other
    obtain ⟨rest, chunked⟩ := h.chunks
    refine ⟨h.consistent.erase g₁ answer₁, Nat.le_trans h.blocks (grows_erase g₁ answer₁).blocks,
      fun j inst hj => h.kept_of_others new (fun _ other => insts_erase other g₁ answer₁) hj,
      fun x => (rest x).filter (· != i), ?_, ?_⟩
    · intro c old
      rw [code c, chunked.code c old, List.filter_flatMap]
      refine List.flatMap_congr fun x hx => ?_
      have stays : x ≠ i := fun same => absurd (same ▸ hf.lt_of_mem_code hx) (Nat.not_lt.mpr new)
      simp [stays]
    · intro x placed y hy
      obtain ⟨new, follows⟩ := chunked.new x placed y (List.mem_of_mem_filter hy)
      exact ⟨new, follows.of_line fun _ => congrFun (congrArg Outline.line same) y⟩

/-! ### Ends of blocks -/

/-- A terminator that was there ends the block that it ended. -/
theorem terminator (hf : f.Consistent) {t : InstId} (old : t.index < f.insts.size)
    (ends : g.terminator b = .ok (some t)) : f.terminator b = .ok (some t) := by
  obtain ⟨-, last, op', hop', term⟩ := terminator_eq_some_iff.mp ends
  obtain ⟨op, op'', hop, hop'', touched⟩ := h.operation old
  obtain rfl : op' = op'' := by simpa [hop'] using hop''
  have home : f.blockOf t = some b := by
    rw [← h.blockOf old]
    exact h.consistent.mem_code.mp (List.mem_of_getLast? last)
  have slot := slot_of_mem_code (hf.mem_code.mpr home)
  obtain ⟨behind, chunked⟩ := h.chunks
  rw [chunked.code b slot] at last
  obtain ⟨x, last, rfl | later⟩ := getLast?_chunks last
  · exact terminator_eq_some_iff.mpr ⟨slot, last, op, hop, touched.isTerminator ▸ term⟩
  · have placed := hf.mem_code.mp (List.mem_of_getLast? last)
    exact absurd old (Nat.not_lt.mpr (chunked.new x (by simp [placed]) t later).1)

/-- A block that leads to a single one of the old blocks has always done so. -/
theorem successors (hf : f.Consistent) {c : BlockId} (slot : b.index < f.blocks.size)
    (old : c.index < f.blocks.size) (leads : g.successors b = .ok [c]) :
    f.successors b = .ok [c] := by
  obtain ⟨t, op', ends, hop', succs⟩ := exists_terminator_of_successors leads
  obtain ⟨-, last, -⟩ := terminator_eq_some_iff.mp ends
  obtain ⟨behind, chunked⟩ := h.chunks
  rw [chunked.code b slot] at last
  obtain ⟨x, last, here⟩ := getLast?_chunks last
  have placed := hf.mem_code.mp (List.mem_of_getLast? last)
  -- what ends the block now leads where the last of the old instructions led
  have follows : f.Follows g x t := by
    rcases here with rfl | later
    · exact h.follows_self (lt_of_blockOf placed)
    · exact (chunked.new x (by simp [placed]) t later).2
  obtain ⟨op, op'', k, hop, hop'', renames, same⟩ := follows
  obtain rfl : op' = op'' := by simpa [hop'] using hop''
  obtain ⟨d, single, rfl⟩ : ∃ d, op.successors = [d] ∧ k d = c := by
    simpa [succs, List.map_eq_singleton_iff] using same.symm
  have kept : k d = d := (renames d).resolve_right (Nat.not_le.mpr old)
  have term : op.isTerminator = true := by
    by_contra plain
    cases op <;> simp_all [Operation.successors, Operation.isTerminator]
  have ends := terminator_eq_some_iff.mpr ⟨slot, last, op, hop, term⟩
  simp [Func.successors, ends, hop, single, kept, bind, Except.bind, pure, Except.pure]

/-- A phi that was there is one of the phis that its block has always started with. -/
theorem phis (hf : f.Consistent) {list : List InstId} (listed : g.phis b = .ok list)
    (mem : i ∈ list) (old : i.index < f.insts.size) :
    ∃ before, f.phis b = .ok before ∧ i ∈ before := by
  obtain ⟨block, hb, -⟩ := bind_eq_ok_iff.mp listed
  obtain rfl : g.outline.phis b = list := by
    simpa [h.consistent.phis_eq (lt_of_block hb)] using listed
  have home : f.blockOf i = some b := by
    rw [← h.blockOf old]
    exact h.consistent.mem_code.mp ((List.takeWhile_sublist _).subset mem)
  have slot := slot_of_mem_code (hf.mem_code.mpr home)
  obtain ⟨behind, chunked⟩ := h.chunks
  have mem : i ∈ (g.code b).takeWhile g.outline.isPhi := mem
  rw [chunked.code b slot] at mem
  refine ⟨_, hf.phis_eq slot, mem_takeWhile_chunks (fun x hx => ?_) (fun x hx later => ?_) mem⟩
  · obtain ⟨op, op', hop, hop', touched⟩ := h.operation (hf.lt_of_mem_code hx)
    obtain ⟨ty, line⟩ := operation_eq_ok_iff.mp hop
    obtain ⟨ty', line'⟩ := operation_eq_ok_iff.mp hop'
    simp [Outline.isPhi, show f.outline.line x = _ from line, show g.outline.line x = _ from line',
      touched.isPhi]
  · have placed := hf.mem_code.mp hx
    exact absurd old (Nat.not_lt.mpr (chunked.new x (by simp [placed]) i later).1)

/-! ### Edits of many instructions -/

/-- The terminator of a new block, or of the exiting block of a region, is led to a new block. -/
theorem replaceSuccessor (hf : f.Consistent) {old new : BlockId} (fresh : f.blocks.size ≤ new.index)
    (who : f.blocks.size ≤ b.index ∨ ∃ r ∈ regions, r.exiting = b) :
    Yields (g.replaceSuccessor b old new) (f.Preserves regions) := by
  refine .ask fun term ends => ?_
  cases term with
  | none => exact .pure h
  | some t =>
    have renames : Renames f.blocks.size (Operation.redirect old new) := renames_redirect fresh
    refine h.modifyOperation renames (fun op => by simp) fun op op' hop _ touched => ?_
    have before := h.terminator hf (lt_of_operation hop) ends
    rcases who with new | ⟨r, hr, rfl⟩
    · exact absurd (terminator_eq_some_iff.mp before).1 (Nat.not_lt.mpr new)
    · exact touched.lead hr before renames

/-- The phis of a new block name another block, or those of the block behind a region name a new
one. -/
theorem renameIncoming (hf : f.Consistent) {old new : BlockId} (who : f.blocks.size ≤ b.index ∨
      f.blocks.size ≤ new.index ∧ ∃ r ∈ regions, r.exit? f = .ok (some b)) :
    Yields (g.renameIncoming b old new) (f.Preserves regions) := by
  refine .ask fun list listed => .foldlM h fun g' h' phi hphi => ?_
  refine h'.modifyOperation (renames_id _) (fun op => by simp) fun op op' hop _ touched => ?_
  obtain ⟨before, asked, mem⟩ := h.phis hf listed hphi (lt_of_operation hop)
  rcases who with added | ⟨fresh, r, hr, exit⟩
  · obtain ⟨block, hb, -⟩ := bind_eq_ok_iff.mp asked
    exact absurd (lt_of_block hb) (Nat.not_lt.mpr added)
  · exact touched.name hr exit asked mem (renames_redirect fresh)

/-- A block that follows a region is new, or has always followed it. -/
theorem exit? (hf : f.Consistent) {r : Region} (slot : r.exiting.index < f.blocks.size)
    (exit : r.exit? g = .ok (some b)) : f.blocks.size ≤ b.index ∨ r.exit? f = .ok (some b) := by
  obtain ⟨succs, leads, exit⟩ := bind_eq_ok_iff.mp exit
  obtain rfl : succs = [b] := by
    split at exit
    · simpa [pure, Except.pure] using exit
    · simp [pure, Except.pure] at exit
  rcases Nat.lt_or_ge b.index f.blocks.size with old | new
  · refine .inr ?_
    simp [Region.exit?, h.successors hf slot old leads, bind, Except.bind, pure, Except.pure]
  · exact .inl new

end Preserves

/-- Placed instructions read only instructions that exist. -/
def Defined (f : Func) : Prop := ∀ i op, (f.blockOf i).isSome → f.operation i = .ok op →
  ∀ j ∈ op.usedInsts, j.index < f.insts.size

theorem defined_of_formed (formed : f.outline.Formed) : f.Defined := by
  intro i op placed hop j hj
  obtain ⟨ty, line⟩ := operation_eq_ok_iff.mp hop
  exact lt_of_placed (formed.operands i op ty placed line j hj)

theorem defined_of_flawless (consistent : f.Consistent) (flawless : f.firstFlaw? = .ok none) :
    f.Defined :=
  defined_of_formed (formed_of_flawless consistent flawless)

namespace Preserves

variable (h : f.Preserves regions g)

include h

/-- Nothing that was there reads a new instruction. -/
theorem replaceUses (defined : f.Defined) {old : InstId} {new : Value}
    (fresh : f.insts.size ≤ old.index) :
    Yields (g.replaceUses old new) fun r => f.Preserves regions r.1 := by
  refine .ask fun users listed => ?_
  obtain ⟨all, listed', placed⟩ := h.consistent.instructions
  obtain rfl : users = all := by simpa [listed] using listed'
  refine .foldlM (r := fun r : Func × Nat => f.Preserves regions r.1) h fun r hr user mem => ?_
  refine .ask fun op _ => ?_
  refine Yields.bind (hr.modifyOperation (renames_id _) (fun op => ?_)
    fun op op' hop _ touched => ?_) fun _ hg => .pure hg
  · simp [Operation.substitute]
  · rw [Operation.substitute_of_notMem]
    · exact touched
    · have home := (placed user).mp mem
      rw [h.blockOf (lt_of_operation hop)] at home
      rw [touched.operands]
      intro reads
      have inside := defined user op home hop old (List.mem_filterMap.mpr ⟨_, reads, rfl⟩)
      exact absurd inside (Nat.not_lt.mpr fresh)

/-- What stands in a new block is new. -/
theorem new_of_mem_code (hf : f.Consistent) (added : f.blocks.size ≤ b.index) (mem : i ∈ g.code b) :
    f.insts.size ≤ i.index := by
  by_contra less
  have home : f.blockOf i = some b := by
    rw [← h.blockOf (Nat.lt_of_not_le less)]
    exact h.consistent.mem_code.mp mem
  exact absurd (slot_of_mem_code (hf.mem_code.mpr home)) (Nat.not_lt.mpr added)

/-- The instructions that were there are in their order. -/
theorem filter_code (hf : f.Consistent) :
    (g.code b).filter (·.index < f.insts.size) = f.code b := by
  rcases Nat.lt_or_ge b.index f.blocks.size with slot | added
  · obtain ⟨behind, chunked⟩ := h.chunks
    rw [chunked.code b slot, List.filter_flatMap]
    have each : ∀ x ∈ f.code b,
        (x :: behind x).filter (·.index < f.insts.size) = [x] := by
      intro x hx
      have placed := hf.mem_code.mp hx
      have later : (behind x).filter (·.index < f.insts.size) = [] := by
        refine List.filter_eq_nil_iff.mpr fun y hy => ?_
        simpa using (chunked.new x (by simp [placed]) y hy).1
      rw [List.filter_cons_of_pos (by simpa using hf.lt_of_mem_code hx), later]
    rw [List.flatMap_congr each, List.flatMap_singleton']
  · have none : f.code b = [] := List.eq_nil_iff_forall_not_mem.mpr fun x hx =>
      absurd (slot_of_mem_code hx) (Nat.not_lt.mpr added)
    rw [none, List.filter_eq_nil_iff]
    intro x hx
    simpa using h.new_of_mem_code hf added hx

end Preserves

/-! ### Copies of blocks -/

/-- Copies of blocks are new, and so are the copies of their instructions. -/
structure Precedes (f : Func) (copy : BlockCopy) : Prop where
  mapped : ∀ b c, copy.blockMap.get? b = some c → f.blocks.size ≤ c.index
  copies : ∀ c ∈ copy.blocks, f.blocks.size ≤ c.index
  insts : ∀ i j, (i, j) ∈ copy.instMap → f.insts.size ≤ j.index

theorem Precedes.renames {copy : BlockCopy} (new : f.Precedes copy) :
    Renames f.blocks.size copy.mapBlock := by
  intro b
  unfold BlockCopy.mapBlock
  cases found : copy.blockMap.get? b with
  | none => exact .inl rfl
  | some c => exact .inr (new.mapped b c found)

namespace Preserves

theorem copyInto {state : Func × BlockCopy} (h : f.Preserves regions state.1)
    (new : f.Precedes state.2) {target : BlockId} (added : f.blocks.size ≤ target.index)
    {suffix : String} : Yields (copyInto target suffix state i) fun state =>
      f.Preserves regions state.1 ∧ f.Precedes state.2 := by
  refine .ask fun inst _ => .ask fun r answer => .pure ⟨h.append added r answer, ?_⟩
  refine ⟨new.mapped, new.copies, fun j k hk => ?_⟩
  rcases Assoc.mem_insert hk with same | hk
  · obtain ⟨rfl, rfl⟩ := Prod.mk.inj same
    rw [snd_append r answer]
    exact h.insts
  · exact new.insts j k hk

theorem copyBlock {state : Func × BlockCopy} (h : f.Preserves regions state.1)
    (new : f.Precedes state.2) {suffix : String} : Yields (copyBlock suffix state b) fun state =>
      f.Preserves regions state.1 ∧ f.Precedes state.2 := by
  refine .ask fun block _ => ?_
  refine .foldlM ⟨h.addBlock _, fun c d hd => ?_, fun c hc => ?_, new.insts⟩
    fun state' h' i _ => h'.1.copyInto h'.2 h.blocks
  · rw [Assoc.get?_insert] at hd
    split at hd
    · obtain rfl := Option.some.inj hd
      exact h.blocks
    · exact new.mapped c d hd
  · rcases List.mem_append.mp hc with hc | hc
    · exact new.copies c hc
    · obtain rfl := List.mem_singleton.mp hc
      exact h.blocks

theorem rewireBlock (h : f.Preserves regions g) (hf : f.Consistent) {copy : BlockCopy}
    (new : f.Precedes copy) (added : f.blocks.size ≤ b.index) :
    Yields (rewireBlock copy g b) (f.Preserves regions) := by
  refine .ask fun block hb => .foldlM h fun g' h' i hi => ?_
  rw [← code_of_block hb] at hi
  exact h'.modifyNew (h.new_of_mem_code hf added hi) new.renames fun op => by
    simp [BlockCopy.mapOperation]

theorem copyBlocks (h : f.Preserves regions g) (hf : f.Consistent) {blocks : List BlockId}
    {suffix : String} : Yields (g.copyBlocks blocks suffix) fun r =>
      f.Preserves regions r.1 ∧ f.Precedes r.2 := by
  refine Yields.bind (p := fun state : Func × BlockCopy => f.Preserves regions state.1 ∧
    f.Precedes state.2) (.foldlM ⟨h, ?_⟩ fun state h' b _ => h'.1.copyBlock h'.2) fun state h' => ?_
  · exact ⟨fun b c hc => by simp [Assoc.get?] at hc, by simp, by simp⟩
  · obtain ⟨h', new⟩ := h'
    refine Yields.bind (.foldlM h' fun g' h'' b hb => h''.rewireBlock hf new (new.copies b hb))
      fun _ h'' => .pure ⟨h'', new⟩

end Preserves

end Func

end KernelCoarsening
