/-
A region with an exiting block of its own does what it did.

The blocks of the region that led to the exiting block lead to a new block before it.  Each phi
of the exiting block is divided in two: one in the new block for control that comes from the
region, and one in its old place, which takes over the first.

* `Func.PhiDivision` — one phi divided in two;
* `Func.Preceded` — the function with the new block, which only leads on;
* `Func.Divided` — the function after some of the phis have been divided;
* `Func.Divided.step` — dividing one more phi;
* `Func.Divided.formed`, `Func.Divided.tidy` — when all phis have been divided, its blocks are in
  shape, and it is tidy, if this holds of the function before;
* `Func.Divided.runs_iff` — and does what it did.
-/
import KernelCoarsening.Coarsening.Extraction
import KernelCoarsening.Proofs.Coarsening.Cutting

namespace KernelCoarsening

/-- A phi that has been divided, with the two phis that took its place: one before the block, one
in the block. -/
structure Parting where
  phi : InstId
  inner : InstId
  outer : InstId

/-- What is read in place of an instruction once phis have been divided. -/
def Parting.renamed (done : List Parting) (i : InstId) : InstId :=
  ((done.find? (·.phi == i)).map (·.outer)).getD i

theorem Parting.renamed_of_notMem {done : List Parting} {i : InstId}
    (h : i ∉ done.map (·.phi)) : renamed done i = i := by
  have none : done.find? (·.phi == i) = none := by
    refine List.find?_eq_none.mpr fun p hp same => h ?_
    exact List.mem_map.mpr ⟨p, hp, by simpa using same⟩
  simp [renamed, none]

theorem Parting.renamed_concat {done : List Parting} {p : Parting}
    (new : p.phi ∉ done.map (·.phi)) (i : InstId) :
    renamed (done ++ [p]) i = if i = p.phi then p.outer else renamed done i := by
  by_cases here : i = p.phi
  · subst here
    have none : done.find? (·.phi == p.phi) = none := by
      refine List.find?_eq_none.mpr fun q hq same => new ?_
      exact List.mem_map.mpr ⟨q, hq, by simpa using same⟩
    simp [renamed, List.find?_append, none]
  · have other : (p.phi == i) = false := beq_eq_false_iff_ne.mpr (Ne.symm here)
    simp only [renamed, List.find?_append, here, if_false]
    cases done.find? (·.phi == i) <;> simp [other]

/-- What is read in place of an instruction is itself or one of the new phis. -/
theorem Parting.renamed_cases (done : List Parting) (i : InstId) :
    renamed done i = i ∧ i ∉ done.map (·.phi) ∨
      ∃ p ∈ done, p.phi = i ∧ renamed done i = p.outer := by
  cases found : done.find? (·.phi == i) with
  | none =>
    refine .inl ⟨by simp [renamed, found], fun mem => ?_⟩
    obtain ⟨p, hp, same⟩ := List.mem_map.mp mem
    exact absurd same (by simpa using List.find?_eq_none.mp found p hp)
  | some p =>
    refine .inr ⟨p, List.mem_of_find?_eq_some found, ?_, by simp [renamed, found]⟩
    simpa using List.find?_some found

theorem filter_ne_of_nodup {α : Type} [DecidableEq α] {before after : List α} {x : α}
    (nodup : (before ++ x :: after).Nodup) :
    (before ++ x :: after).filter (· != x) = before ++ after := by
  obtain ⟨-, tail, apart⟩ := List.nodup_append.mp nodup
  have front : before.filter (· != x) = before := List.filter_eq_self.mpr fun y hy => by
    simpa using apart y hy x (by simp)
  have back : after.filter (· != x) = after := List.filter_eq_self.mpr fun y hy => by
    have := (List.nodup_cons.mp tail).1
    simpa using fun same : y = x => this (same ▸ hy)
  simp [List.filter_append, front, back]

namespace Func

variable {f g : Func} {b x : BlockId} {members : List BlockId} {done : List Parting}
  {todo body : List InstId} {last : InstId} {i : InstId}

/-! ### A new block -/

theorem Consistent.outline_addBlockBefore (h : f.Consistent) {before after : List BlockId}
    (layout : f.layout = before ++ x :: after) (name : String) :
    (f.addBlockBefore x name).1.outline = { f.outline with
      layout := before ++ ⟨f.blocks.size⟩ :: x :: after
      blocks := f.blocks.size + 1 } := by
  have place := findIdx?_append_cons (layout ▸ h.layout_nodup)
  have new := outline_newBlock (f := f) name
  have order : (f.addBlockBefore x name).1.layout = before ++ ⟨f.blocks.size⟩ :: x :: after := by
    show f.layout.insertIdx ((f.layout.findIdx? (· == x)).getD _) _ = _
    rw [layout, place]
    exact insertIdx_append before (x :: after) _
  ext1
  · rfl
  · exact order
  · exact (congrArg Outline.blocks new :)
  · rfl
  · exact (congrArg Outline.code new :)
  · rfl
  · rfl

theorem Consistent.of_addBlockBefore (h : f.Consistent) {before after : List BlockId}
    (layout : f.layout = before ++ x :: after)
    (same : g.outline = { f.outline with
      layout := before ++ ⟨f.blocks.size⟩ :: x :: after
      blocks := f.blocks.size + 1 }) : g.Consistent := by
  have fresh : (⟨f.blocks.size⟩ : BlockId) ∉ f.layout := by
    rw [h.mem_layout]
    simp
  rw [consistent_iff, same]
  refine ⟨?_, fun c => ?_, h.code_nodup, fun _ _ => h.mem_code⟩
  · show (before ++ ⟨f.blocks.size⟩ :: x :: after).Nodup
    rw [List.perm_middle.nodup_iff, ← layout]
    exact List.nodup_cons.mpr ⟨fresh, h.layout_nodup⟩
  · show c ∈ before ++ ⟨f.blocks.size⟩ :: x :: after ↔ c.index < f.blocks.size + 1
    rw [List.perm_middle.mem_iff, List.mem_cons, ← layout, h.mem_layout, Nat.lt_succ_iff_lt_or_eq]
    cases c
    simp [or_comm]

/-! ### Dividing one phi -/

/-- A function in which a phi of block `x` has been divided: `inner` is the new phi of the block
`before` it, and `outer` the one in its place. -/
structure PhiDivision (g g' : Func) (before x : BlockId) (members : List BlockId)
    (ahead front rest : List InstId) (jump phi : InstId) (incoming : List (Value × BlockId))
    (ty : Ty) : Prop where
  consistent : g'.Consistent
  params : g'.params = g.params
  layout : g'.layout = g.layout
  blocks : g'.blocks.size = g.blocks.size
  insts : g'.insts.size = g.insts.size + 2
  code_before : g'.code before = ahead ++ [⟨g.insts.size⟩, jump]
  code_here : g'.code x = front ++ ⟨g.insts.size + 1⟩ :: rest
  code_other : ∀ c, c ≠ before → c ≠ x → g'.code c = g.code c
  line : ∀ i, (g.blockOf i).isSome → g'.line i =
    (g.line i).map fun line => (line.1.substitute (.inst phi) (.inst ⟨g.insts.size + 1⟩), line.2)
  inner : g'.line ⟨g.insts.size⟩ = some ((Operation.phi (incoming.filter fun p =>
    members.contains p.2)).substitute (.inst phi) (.inst ⟨g.insts.size + 1⟩), ty)
  outer : g'.line ⟨g.insts.size + 1⟩ = some ((Operation.phi ((incoming.filter fun p =>
    !members.contains p.2) ++ [(.inst ⟨g.insts.size⟩, before)])).substitute (.inst phi)
      (.inst ⟨g.insts.size + 1⟩), ty)

/-- Two instructions are put into place: one before the jump of a block, one before an instruction
of another block. -/
theorem Consistent.exists_insertTwo (h : g.Consistent) {before : BlockId} (apart : x ≠ before)
    {front rest ahead : List InstId} {jump phi : InstId} (codeE : g.code before = ahead ++ [jump])
    (codeX : g.code x = front ++ phi :: rest) (inner outer : Operation) (ty : Ty)
    (name name' : String) :
    ∃ g₁ g₂, g.insertBefore jump inner ty name = .ok (g₁, ⟨g.insts.size⟩) ∧
      g₁.insertBefore phi outer ty name' = .ok (g₂, ⟨g.insts.size + 1⟩) ∧ g₂.Consistent ∧
      g₂.outline = { g.outline with
        insts := g.insts.size + 2
        code := Function.update (Function.update g.code before
          (ahead ++ [⟨g.insts.size⟩, jump])) x (front ++ ⟨g.insts.size + 1⟩ :: phi :: rest)
        home := Function.update (Function.update g.blockOf ⟨g.insts.size⟩ (some before))
          ⟨g.insts.size + 1⟩ (some x)
        line := Function.update (Function.update g.line ⟨g.insts.size⟩ (some (inner, ty)))
          ⟨g.insts.size + 1⟩ (some (outer, ty)) } := by
  obtain ⟨g₁, h₁, same₁⟩ := h.outline_insertBefore codeE inner ty name
  have consistent₁ := h.of_insertedAt (codeE ▸ List.perm_middle) same₁
  have size₁ : g₁.insts.size = g.insts.size + 1 := congrArg Outline.insts same₁
  have code₁ : g₁.code = Function.update g.code before (ahead ++ [⟨g.insts.size⟩, jump]) :=
    congrArg Outline.code same₁
  have codeX₁ : g₁.code x = front ++ phi :: rest := by
    rw [code₁, Function.update_of_ne apart, codeX]
  obtain ⟨g₂, h₂, same₂⟩ := consistent₁.outline_insertBefore codeX₁ outer ty name'
  have consistent₂ := consistent₁.of_insertedAt (codeX₁ ▸ List.perm_middle) same₂
  rw [size₁] at h₂
  refine ⟨g₁, g₂, h₁, h₂, consistent₂, ?_⟩
  rw [same₂, insertedAt, size₁, code₁, show g₁.line = _ from congrArg Outline.line same₁,
    show g₁.blockOf = _ from congrArg Outline.home same₁, same₁]
  rfl

/-- An instruction gives way to another: the other one is read in its place, and it is taken out. -/
theorem Consistent.exists_giveWay (h : g.Consistent) {phi : InstId} (new : InstId)
    (home : g.blockOf phi = some x) :
    ∃ count g₁ g₂, g.replaceUsesExcept phi (.inst new) [] = .ok (g₁, count) ∧
      g₁.erase phi = .ok g₂ ∧ g₂.Consistent ∧ g₂.outline = { g.outline with
        code := Function.update g.code x ((g.code x).filter (· != phi))
        home := Function.update g.blockOf phi none
        line := fun i => if (g.blockOf i).isSome then (g.line i).map fun line =>
          (line.1.substitute (.inst phi) (.inst new), line.2) else g.line i } := by
  obtain ⟨g₁, count, h₁, same₁⟩ := h.outline_replaceUsesExcept phi (.inst new) []
  have consistent₁ := h.of_alter same₁
  have code₁ : g₁.code = g.code := congrArg Outline.code same₁
  have homes₁ : g₁.blockOf = g.blockOf := congrArg Outline.home same₁
  have home₁ : g₁.blockOf phi = some x := by rw [homes₁, home]
  obtain ⟨g₂, h₂, same₂⟩ := consistent₁.outline_erase home₁
  refine ⟨count, g₁, g₂, h₁, h₂, consistent₁.of_withoutInst home₁ same₂, ?_⟩
  rw [same₂, withoutInst, code₁, homes₁, same₁]
  ext1
  · rfl
  · rfl
  · rfl
  · rfl
  · rfl
  · funext i
    by_cases placed : (g.blockOf i).isSome
    · rw [Outline.line_alter, if_pos ⟨placed, List.not_mem_nil⟩]
      simp only [placed, if_true]
      rfl
    · rw [Outline.line_alter, if_neg fun both => placed both.1]
      simp only [placed]
      rfl
  · rfl

theorem Consistent.exists_dividePhi (h : g.Consistent) (members : List BlockId)
    {before : BlockId} (apart : x ≠ before)
    {front rest ahead : List InstId} {jump phi : InstId} {incoming : List (Value × BlockId)}
    {ty : Ty} (codeE : g.code before = ahead ++ [jump]) (codeX : g.code x = front ++ phi :: rest)
    (line : g.line phi = some (.phi incoming, ty)) :
    ∃ g', dividePhi members before jump g phi = .ok g' ∧
      g.PhiDivision g' before x members ahead front rest jump phi incoming ty := by
  obtain ⟨inst, hinst, hop, rfl⟩ := inst_of_line line
  obtain ⟨g₁, g₂, h₁, h₂, consistent₂, same₂⟩ := h.exists_insertTwo apart codeE codeX
    (.phi (incoming.filter fun p => members.contains p.2))
    (.phi ((incoming.filter fun p => !members.contains p.2) ++
      [(.inst ⟨g.insts.size⟩, before)])) inst.ty (suffixed inst.name ".new_exiting")
    (suffixed inst.name ".old_exiting")
  have code₂ : g₂.code = Function.update (Function.update g.code before
      (ahead ++ [⟨g.insts.size⟩, jump])) x (front ++ ⟨g.insts.size + 1⟩ :: phi :: rest) :=
    congrArg Outline.code same₂
  have home₂ : g₂.blockOf = Function.update (Function.update g.blockOf ⟨g.insts.size⟩
      (some before)) ⟨g.insts.size + 1⟩ (some x) := congrArg Outline.home same₂
  have line₂ : g₂.line = Function.update (Function.update g.line ⟨g.insts.size⟩ (some (.phi
      (incoming.filter fun p => members.contains p.2), inst.ty))) ⟨g.insts.size + 1⟩ (some (.phi
      ((incoming.filter fun p => !members.contains p.2) ++ [(.inst ⟨g.insts.size⟩, before)]),
      inst.ty)) := congrArg Outline.line same₂
  have home : g₂.blockOf phi = some x :=
    consistent₂.mem_code.mp (by rw [code₂, Function.update_self]; simp)
  obtain ⟨count, g₃, g₄, h₃, h₄, consistent₄, same₄⟩ :=
    consistent₂.exists_giveWay ⟨g.insts.size + 1⟩ home
  have code₄ : g₄.code = Function.update g₂.code x ((g₂.code x).filter (· != phi)) :=
    congrArg Outline.code same₄
  -- all placed instructions read the new phi in place of the old one
  have line₄ : ∀ i, (g₂.blockOf i).isSome → g₄.line i = (g₂.line i).map fun line =>
      (line.1.substitute (.inst phi) (.inst ⟨g.insts.size + 1⟩), line.2) := by
    intro i placed
    rw [show g₄.line i = _ from congrFun (congrArg Outline.line same₄) i]
    exact if_pos placed
  have next : (⟨g.insts.size + 1⟩ : InstId) ≠ ⟨g.insts.size⟩ := by simp
  refine ⟨g₄, ?_, consistent₄, ?_, ?_, ?_, ?_, ?_, ?_, fun c hc hx => ?_, fun i placed => ?_, ?_,
    ?_⟩
  · unfold dividePhi
    rw [hinst]
    simp only [bind, Except.bind, hop, List.partition_eq_filter_filter, Function.comp_def]
    simp only [h₁, h₂, replaceUses, h₃, h₄]
  · exact (congrArg Outline.params same₄).trans (congrArg Outline.params same₂)
  · exact (congrArg Outline.layout same₄).trans (congrArg Outline.layout same₂)
  · exact (congrArg Outline.blocks same₄).trans (congrArg Outline.blocks same₂)
  · exact (congrArg Outline.insts same₄).trans (congrArg Outline.insts same₂)
  · rw [code₄, Function.update_of_ne apart.symm, code₂, Function.update_of_ne apart.symm,
      Function.update_self]
  · have nodup := consistent₂.code_nodup x
    have split : front ++ ⟨g.insts.size + 1⟩ :: phi :: rest =
        (front ++ [⟨g.insts.size + 1⟩]) ++ phi :: rest := by simp
    rw [code₂, Function.update_self, split] at nodup
    rw [code₄, Function.update_self, code₂, Function.update_self, split, filter_ne_of_nodup nodup]
    simp
  · rw [code₄, Function.update_of_ne hx, code₂, Function.update_of_ne hx, Function.update_of_ne hc]
  · obtain ⟨c, hc⟩ := Option.isSome_iff_exists.mp placed
    have old := lt_of_blockOf hc
    have first : i ≠ ⟨g.insts.size⟩ := by
      rintro rfl
      simp at old
    have second : i ≠ ⟨g.insts.size + 1⟩ := by
      rintro rfl
      simp at old
    rw [line₄ i (by rw [home₂]; simp [first, second, hc]), line₂, Function.update_of_ne second,
      Function.update_of_ne first]
  · rw [line₄ _ (by rw [home₂]; simp), line₂, Function.update_of_ne next.symm, Function.update_self]
    rfl
  · rw [line₄ _ (by rw [home₂]; simp), line₂, Function.update_self]
    rfl

/-- What an instruction does when the blocks `members` lead to the new block where they led to
`x`. -/
def redirected (f : Func) (x : BlockId) (members : List BlockId) (i : InstId) (op : Operation) :
    Operation :=
  if (f.blockOf i).any members.contains then
    op.mapSuccessors (Operation.redirect x ⟨f.blocks.size⟩)
  else op

/-- The function after the blocks `members` have been led to a new block before `x`, and some
phis of `x` have been divided. -/
structure Divided (f g : Func) (x : BlockId) (members : List BlockId) (done : List Parting)
    (todo body : List InstId) (last : InstId) : Prop where
  consistent : g.Consistent
  shape : f.outline.Shape x (done.map (·.phi) ++ todo) body last
  params : g.params = f.params
  layout : ∃ before after, f.layout = before ++ x :: after ∧
    g.layout = before ++ ⟨f.blocks.size⟩ :: x :: after
  blocks : g.blocks.size = f.blocks.size + 1
  insts : f.insts.size < g.insts.size
  code : ∀ c, g.code c =
    if c = ⟨f.blocks.size⟩ then done.map (·.inner) ++ [⟨f.insts.size⟩]
    else if c = x then done.map (·.outer) ++ (todo ++ (body ++ [last])) else f.code c
  fresh : ∀ p ∈ done, f.insts.size < p.inner.index ∧ f.insts.size < p.outer.index
  jump : g.line ⟨f.insts.size⟩ = some (.jump x, .void)
  line : ∀ i op ty, (f.blockOf i).isSome → i ∉ done.map (·.phi) → f.line i = some (op, ty) →
    g.line i = some ((f.redirected x members i op).mapOperands (·.mapInst (Parting.renamed done)),
      ty)
  parted : ∀ p ∈ done, ∃ incoming ty, f.line p.phi = some (.phi incoming, ty) ∧
    g.line p.inner = some (.phi ((incoming.filter fun (_, b) => members.contains b).map
      fun (v, b) => (v.mapInst (Parting.renamed done), b)), ty) ∧
    g.line p.outer = some (.phi (((incoming.filter fun (_, b) => !members.contains b).map
      fun (v, b) => (v.mapInst (Parting.renamed done), b)) ++ [(.inst p.inner, ⟨f.blocks.size⟩)]),
      ty)

namespace Divided

theorem new_ne (d : f.Divided g x members done todo body last) : x ≠ ⟨f.blocks.size⟩ := by
  rintro rfl
  have := slot_of_shape d.shape
  simp at this

/-- The phis that have not been divided, and everything else, are where they were. -/
theorem home (d : f.Divided g x members done todo body last) (formed : f.outline.Formed)
    {c : BlockId} (h : f.blockOf i = some c) (kept : i ∉ done.map (·.phi)) :
    g.blockOf i = some c := by
  have consistent := consistent_iff.mpr formed.consistent
  have mem := consistent.mem_code.mpr h
  have old : c ≠ ⟨f.blocks.size⟩ := by
    rintro rfl
    have := slot_of_mem_code mem
    simp at this
  refine d.consistent.mem_code.mp ?_
  rw [d.code c, if_neg old]
  by_cases here : c = x
  · subst here
    rw [show f.code c = _ from d.shape.code] at mem
    simp only [if_true, List.mem_append] at mem ⊢
    tauto
  · simpa [here] using mem

/-- A phi that is still to be divided. -/
theorem next (d : f.Divided g x members done (i :: todo) body last) (formed : f.outline.Formed) :
    f.blockOf i = some x ∧ i ∉ done.map (·.phi) ∧ ∃ incoming ty,
      f.line i = some (.phi incoming, ty) ∧
      g.line i = some (.phi (incoming.map fun (v, b) =>
        (v.mapInst (Parting.renamed done), b)), ty) := by
  have consistent := consistent_iff.mpr formed.consistent
  have code : f.code x = (done.map (·.phi) ++ i :: todo) ++ (body ++ [last]) := d.shape.code
  have home : f.blockOf i = some x := consistent.mem_code.mp (by simp [code])
  have nodup := (List.nodup_append.mp (code ▸ consistent.code_nodup x)).1
  have kept : i ∉ done.map (·.phi) := fun hi =>
    (List.nodup_append.mp nodup).2.2 i hi i (by simp) rfl
  obtain ⟨op, ty, line, phi⟩ := d.shape.phis i (by simp)
  obtain ⟨incoming, rfl⟩ : ∃ incoming, op = .phi incoming := by
    cases op <;> simp_all [Operation.isPhi]
  refine ⟨home, kept, incoming, ty, line, ?_⟩
  have same : f.redirected x members i (.phi incoming) = .phi incoming := by
    unfold redirected
    split <;> rfl
  rw [d.line i _ ty (by simp [home]) kept line, same]
  rfl

/-- Substituting one more of the new phis. -/
theorem substitute_renamed (d : f.Divided g x members done (i :: todo) body last)
    (formed : f.outline.Formed) (inner outer : InstId) (v : Value) :
    (if v.mapInst (Parting.renamed done) = .inst i then .inst outer
      else v.mapInst (Parting.renamed done)) =
      v.mapInst (Parting.renamed (done ++ [⟨i, inner, outer⟩])) := by
  obtain ⟨home, kept, -⟩ := d.next formed
  cases v with
  | inst j =>
    simp only [Value.mapInst, Value.inst.injEq]
    rw [Parting.renamed_concat kept]
    rcases Parting.renamed_cases done j with ⟨same, -⟩ | ⟨p, hp, rfl, same⟩
    · by_cases here : j = i
      · simp [here, Parting.renamed_of_notMem kept]
      · simp [here, same]
    · have other : p.phi ≠ i := by
        rintro rfl
        exact kept (List.mem_map_of_mem hp)
      have apart : p.outer ≠ i := by
        rintro rfl
        have := (d.fresh p hp).2
        have := lt_of_blockOf home
        omega
      simp [same, other, apart]
  | _ => rfl

/-- The next phi can be divided. -/
theorem exists_division (d : f.Divided g x members done (i :: todo) body last)
    (formed : f.outline.Formed) :
    ∃ g' incoming ty, dividePhi members ⟨f.blocks.size⟩ ⟨f.insts.size⟩ g i = .ok g' ∧
      f.line i = some (.phi incoming, ty) ∧
      g.PhiDivision g' ⟨f.blocks.size⟩ x members (done.map (·.inner)) (done.map (·.outer))
        (todo ++ (body ++ [last])) ⟨f.insts.size⟩ i
        (incoming.map fun (v, b) => (v.mapInst (Parting.renamed done), b)) ty := by
  obtain ⟨-, -, incoming, ty, line, line'⟩ := d.next formed
  have codeE : g.code ⟨f.blocks.size⟩ = done.map (·.inner) ++ [⟨f.insts.size⟩] := by
    rw [d.code, if_pos rfl]
  have codeX : g.code x = done.map (·.outer) ++ i :: (todo ++ (body ++ [last])) := by
    rw [d.code, if_neg d.new_ne, if_pos rfl]
    rfl
  obtain ⟨g', answer, div⟩ := d.consistent.exists_dividePhi members d.new_ne codeE codeX line'
  exact ⟨g', incoming, ty, answer, line, div⟩

/-- Reading one more of the new phis in place of the old one is one more renaming. -/
theorem substitute_operands (d : f.Divided g x members done (i :: todo) body last)
    (formed : f.outline.Formed) (inner outer : InstId) (op : Operation) :
    (op.mapOperands (·.mapInst (Parting.renamed done))).substitute (.inst i) (.inst outer) =
      op.mapOperands (·.mapInst (Parting.renamed (done ++ [⟨i, inner, outer⟩]))) := by
  rw [Operation.substitute, Operation.mapOperands_mapOperands]
  exact congrArg (op.mapOperands ·) (funext (d.substitute_renamed formed inner outer))

/-- The entries of a phi, once more renamed. -/
theorem substitute_entries (d : f.Divided g x members done (i :: todo) body last)
    (formed : f.outline.Formed) (inner outer : InstId) (entries : List (Value × BlockId)) :
    (Operation.phi (entries.map fun (v, b) => (v.mapInst (Parting.renamed done), b))).substitute
      (.inst i) (.inst outer) = .phi (entries.map fun (v, b) =>
        (v.mapInst (Parting.renamed (done ++ [⟨i, inner, outer⟩])), b)) :=
  d.substitute_operands formed inner outer (.phi entries)

/-- The entry for the new block is a new phi, which is not renamed. -/
theorem substitute_entries_concat (d : f.Divided g x members done (i :: todo) body last)
    (formed : f.outline.Formed) (inner outer : InstId) (entries : List (Value × BlockId))
    {j : InstId} (other : j ≠ i) (b : BlockId) :
    (Operation.phi ((entries.map fun (v, b) => (v.mapInst (Parting.renamed done), b)) ++
      [(.inst j, b)])).substitute (.inst i) (.inst outer) =
        .phi ((entries.map fun (v, b) =>
          (v.mapInst (Parting.renamed (done ++ [⟨i, inner, outer⟩])), b)) ++ [(.inst j, b)]) := by
  have renamed := Operation.phi.inj (d.substitute_entries formed inner outer entries)
  simp only [Operation.substitute, Operation.mapOperands, List.map_append, List.map_singleton,
    Value.inst.injEq, other, if_false, Operation.phi.injEq, List.append_cancel_right_eq]
  exact renamed

/-- Renaming what a phi reads leaves the blocks of its entries alone. -/
theorem filter_renamed (incoming : List (Value × BlockId)) (keep : BlockId → Bool) :
    (incoming.map fun (v, b) => (v.mapInst (Parting.renamed done), b)).filter
      (fun p => keep p.2) = (incoming.filter fun p => keep p.2).map fun (v, b) =>
        (v.mapInst (Parting.renamed done), b) := by
  rw [List.filter_map]
  rfl

/-- Each half of a phi that was divided earlier reads the halves of the one divided now. -/
theorem line_halves (d : f.Divided g x members done (i :: todo) body last)
    (formed : f.outline.Formed) {g' : Func} {now : List (Value × BlockId)} {ty : Ty}
    {ahead front rest : List InstId} {jump : InstId}
    (div : g.PhiDivision g' ⟨f.blocks.size⟩ x members ahead front rest jump i now ty)
    {p : Parting} (hp : p ∈ done) :
    ∃ incoming ty', f.line p.phi = some (.phi incoming, ty') ∧
      g'.line p.inner = some (.phi ((incoming.filter fun (_, b) => members.contains b).map
        fun (v, b) => (v.mapInst (Parting.renamed
          (done ++ [⟨i, ⟨g.insts.size⟩, ⟨g.insts.size + 1⟩⟩])), b)), ty') ∧
      g'.line p.outer = some (.phi (((incoming.filter fun (_, b) => !members.contains b).map
        fun (v, b) => (v.mapInst (Parting.renamed
          (done ++ [⟨i, ⟨g.insts.size⟩, ⟨g.insts.size + 1⟩⟩])), b)) ++
            [(.inst p.inner, ⟨f.blocks.size⟩)]), ty') := by
  obtain ⟨home, -⟩ := d.next formed
  obtain ⟨incoming, ty', old, inner, outer⟩ := d.parted p hp
  have homeInner : g.blockOf p.inner = some ⟨f.blocks.size⟩ :=
    d.consistent.mem_code.mp (by rw [d.code, if_pos rfl]; simpa using .inl ⟨p, hp, rfl⟩)
  have homeOuter : g.blockOf p.outer = some x :=
    d.consistent.mem_code.mp (by
      rw [d.code, if_neg d.new_ne, if_pos rfl]; simpa using .inl ⟨p, hp, rfl⟩)
  have other : p.inner ≠ i := by
    intro same
    have := (d.fresh p hp).1
    rw [same] at this
    exact absurd this (lt_of_blockOf home).not_gt
  refine ⟨incoming, ty', old, ?_, ?_⟩
  · rw [div.line _ (by simp [homeInner]), inner, Option.map_some,
      d.substitute_entries formed ⟨g.insts.size⟩]
  · rw [div.line _ (by simp [homeOuter]), outer, Option.map_some,
      d.substitute_entries_concat formed ⟨g.insts.size⟩ _ _ other]

/-- Dividing one more phi. -/
theorem step (d : f.Divided g x members done (i :: todo) body last) (formed : f.outline.Formed) :
    ∃ g' p, dividePhi members ⟨f.blocks.size⟩ ⟨f.insts.size⟩ g i = .ok g' ∧
      f.Divided g' x members (done ++ [p]) todo body last := by
  obtain ⟨home, kept, -⟩ := d.next formed
  obtain ⟨g', incoming, ty, answer, line, div⟩ := d.exists_division formed
  have old : i.index < f.insts.size := lt_of_blockOf home
  have size := d.insts
  refine ⟨g', ⟨i, ⟨g.insts.size⟩, ⟨g.insts.size + 1⟩⟩, answer, ⟨div.consistent, ?_, ?_, ?_, ?_, ?_,
    fun c => ?_, fun p hp => ?_, ?_, fun j op ty' placed kept' hline => ?_, fun p hp => ?_⟩⟩
  · simpa using d.shape
  · rw [div.params, d.params]
  · rw [div.layout]
    exact d.layout
  · rw [div.blocks, d.blocks]
  · rw [div.insts]
    omega
  · by_cases hc : c = ⟨f.blocks.size⟩
    · simp [hc, div.code_before]
    by_cases hx : c = x
    · simp [hx, d.new_ne, div.code_here]
    · rw [div.code_other c hc hx, d.code c, if_neg hc, if_neg hx, if_neg hc, if_neg hx]
  · rcases List.mem_append.mp hp with hp | hp
    · exact d.fresh p hp
    · obtain rfl := List.mem_singleton.mp hp
      exact ⟨size, Nat.lt_succ_of_lt size⟩
  · have placed : g.blockOf ⟨f.insts.size⟩ = some ⟨f.blocks.size⟩ :=
      d.consistent.mem_code.mp (by rw [d.code, if_pos rfl]; simp)
    rw [div.line _ (by simp [placed]), d.jump]
    rfl
  · obtain ⟨other, -⟩ : j ∉ done.map (·.phi) ∧ j ≠ i := by simpa [or_imp, forall_and] using kept'
    obtain ⟨c, hc⟩ := Option.isSome_iff_exists.mp placed
    rw [div.line j (by simp [d.home formed hc other]), d.line j op ty' placed other hline,
      Option.map_some, d.substitute_operands formed ⟨g.insts.size⟩]
  · rcases List.mem_append.mp hp with hp | hp
    · exact d.line_halves formed div hp
    · obtain rfl := List.mem_singleton.mp hp
      have other : (⟨g.insts.size⟩ : InstId) ≠ i := by
        rintro rfl
        simp at old
        omega
      refine ⟨incoming, ty, line, ?_, ?_⟩
      · rw [div.inner, filter_renamed incoming (members.contains ·),
          d.substitute_entries formed ⟨g.insts.size⟩]
      · rw [div.outer, filter_renamed incoming (!members.contains ·),
          d.substitute_entries_concat formed ⟨g.insts.size⟩ _ _ other]

end Divided

/-! ### The new block that only leads on -/

/-- A function with a new block before `x` that holds one jump, which leads to `x`. -/
structure Preceded (f g : Func) (x : BlockId) : Prop where
  consistent : g.Consistent
  params : g.params = f.params
  layout : ∃ before after, f.layout = before ++ x :: after ∧
    g.layout = before ++ ⟨f.blocks.size⟩ :: x :: after
  blocks : g.blocks.size = f.blocks.size + 1
  insts : g.insts.size = f.insts.size + 1
  code : g.code = Function.update f.code ⟨f.blocks.size⟩ [⟨f.insts.size⟩]
  line : g.line = Function.update f.line ⟨f.insts.size⟩ (some (.jump x, .void))

theorem Consistent.exists_preceded (h : f.Consistent) (slot : x.index < f.blocks.size)
    (name : String) :
    ∃ g, (f.addBlockBefore x name).1.append ⟨f.blocks.size⟩ (.jump x) .void "" =
      .ok (g, ⟨f.insts.size⟩) ∧ f.Preceded g x := by
  obtain ⟨before, after, layout⟩ := List.append_of_mem ((h.mem_layout x).mpr slot)
  have same₀ := h.outline_addBlockBefore layout name
  have consistent₀ := h.of_addBlockBefore layout same₀
  generalize (f.addBlockBefore x name).1 = f₀ at same₀ consistent₀
  have insts₀ : f₀.insts.size = f.insts.size := congrArg Outline.insts same₀
  have code₀ : f₀.code = f.code := congrArg Outline.code same₀
  have blocks₀ : f₀.blocks.size = f.blocks.size + 1 := congrArg Outline.blocks same₀
  have empty : f.code ⟨f.blocks.size⟩ = [] := by simp [Func.code]
  obtain ⟨g, answer, same⟩ := outline_append (f := f₀) (b := ⟨f.blocks.size⟩) (.jump x) .void ""
    (by simp [blocks₀])
  rw [insts₀] at answer
  refine ⟨g, answer, consistent₀.of_insertedAt List.perm_append_comm same, ?_,
    ⟨before, after, layout, ?_⟩, ?_, ?_, ?_, ?_⟩
  · exact (congrArg Outline.params same).trans (congrArg Outline.params same₀)
  · exact (congrArg Outline.layout same).trans (congrArg Outline.layout same₀)
  · exact (congrArg Outline.blocks same).trans blocks₀
  · rw [show g.insts.size = f₀.insts.size + 1 from congrArg Outline.insts same, insts₀]
  · rw [show g.code = _ from congrArg Outline.code same]
    simp [insertedAt, code₀, insts₀, empty]
  · rw [show g.line = _ from congrArg Outline.line same]
    simp only [insertedAt, insts₀, show f₀.line = f.line from congrArg Outline.line same₀]

/-- A block of the function keeps its shape. -/
theorem Preceded.shape (p : f.Preceded g x) {c : BlockId} {phis : List InstId}
    (old : f.outline.Shape c phis body last) : g.outline.Shape c phis body last := by
  have does : ∀ {i : InstId} {P : Operation → Prop}, f.outline.Does i P → g.outline.Does i P := by
    rintro i P ⟨op, ty, line, hP⟩
    have lt := line_isSome_iff.mp (Option.isSome_of_eq_some (show f.line i = _ from line))
    refine ⟨op, ty, ?_, hP⟩
    rw [show g.outline.line i = _ from congrFun p.line i, Function.update_of_ne]
    · exact line
    · rintro rfl
      simp at lt
  have other : c ≠ ⟨f.blocks.size⟩ := by
    rintro rfl
    have := slot_of_shape old
    simp at this
  refine ⟨?_, fun i hi => does (old.phis i hi), fun i hi => does (old.body i hi), does old.last⟩
  rw [show g.outline.code c = _ from congrFun p.code c, Function.update_of_ne other]
  exact old.code

/-- The last instruction of a block is the last one of one of `members` if the block is one of
them. -/
theorem Consistent.mem_lasts_iff (h : f.Consistent) {c : BlockId}
    (final : (f.code c).getLast? = some i) :
    i ∈ members.filterMap (fun b => (f.code b).getLast?) ↔ c ∈ members := by
  rw [List.mem_filterMap]
  refine ⟨?_, fun hc => ⟨c, hc, final⟩⟩
  rintro ⟨b, hb, last⟩
  have inB := h.mem_code.mp (List.mem_of_getLast? last)
  have inC := h.mem_code.mp (List.mem_of_getLast? final)
  obtain rfl : b = c := by simpa [inB] using inC
  exact hb

/-- Leading the blocks `members` to the new block changes nothing but their terminators. -/
theorem Preceded.line_redirected (p : f.Preceded g x) (formed : f.outline.Formed) {op : Operation}
    {ty : Ty} (placed : (f.blockOf i).isSome) (line : f.line i = some (op, ty)) :
    (g.outline.alter (· ∈ members.filterMap fun b => (g.code b).getLast?)
      (·.mapSuccessors (Operation.redirect x ⟨f.blocks.size⟩))).line i =
        some (f.redirected x members i op, ty) := by
  obtain ⟨c, hc⟩ := Option.isSome_iff_exists.mp placed
  have mem := (consistent_iff.mpr formed.consistent).mem_code.mpr hc
  have old : i ≠ ⟨f.insts.size⟩ := by
    rintro rfl
    have := lt_of_blockOf hc
    simp at this
  rw [Outline.line_alter, show g.outline.line i = _ from congrFun p.line i,
    Function.update_of_ne old, line, redirected, hc, Option.any_some]
  by_cases term : op.isTerminator = true
  · obtain ⟨phis, body, last, shape⟩ := formed.formed c (slot_of_mem_code mem)
    obtain rfl := shape.eq_last mem line term
    have final : (g.code c).getLast? = some i := (p.shape shape).getLast?
    by_cases hm : c ∈ members <;> simp [p.consistent.mem_lasts_iff final, hm]
  · have same : op.mapSuccessors (Operation.redirect x ⟨f.blocks.size⟩) = op := by
      cases op <;> simp_all [Operation.isTerminator, Operation.mapSuccessors]
    split <;> split <;> simp [same]

namespace Divided

/-- Before the first phi is divided: the new block is there, and the region leads to it. -/
theorem exists_start (formed : f.outline.Formed) {phis : List InstId}
    (shape : f.outline.Shape x phis body last) (slots : ∀ b ∈ members, b.index < f.blocks.size)
    (name : String) :
    ∃ f₁ g, (f.addBlockBefore x name).1.append ⟨f.blocks.size⟩ (.jump x) .void "" =
        .ok (f₁, ⟨f.insts.size⟩) ∧
      members.foldlM (fun f' b => f'.replaceSuccessor b x ⟨f.blocks.size⟩) f₁ = .ok g ∧
      f.Divided g x members [] phis body last := by
  obtain ⟨f₁, h₁, p⟩ :=
    (consistent_iff.mpr formed.consistent).exists_preceded (slot_of_shape shape) name
  obtain ⟨g, h₂, same⟩ := outline_replaceSuccessor_foldlM (f := f₁) members
    (fun b hb => by
      obtain ⟨phis', body', last', old⟩ := formed.formed b (slots b hb)
      exact ⟨_, _, _, p.shape old⟩) x ⟨f.blocks.size⟩
  refine ⟨f₁, g, h₁, h₂, ⟨p.consistent.of_alter same, shape, ?_, ?_, ?_, ?_, fun c => ?_, by simp,
    ?_, fun i op ty placed _ line => ?_, by simp⟩⟩
  · exact (congrArg Outline.params same).trans p.params
  · rw [show g.layout = f₁.layout from congrArg Outline.layout same]
    exact p.layout
  · exact (congrArg Outline.blocks same).trans p.blocks
  · rw [show g.insts.size = f₁.insts.size from congrArg Outline.insts same, p.insts]
    omega
  · have new : x ≠ ⟨f.blocks.size⟩ := by
      rintro rfl
      have := slot_of_shape shape
      simp at this
    rw [show g.code = f₁.code from congrArg Outline.code same, p.code, Function.update_apply]
    by_cases here : c = x
    · subst here
      simp only [new, if_false, if_true, List.map_nil, List.nil_append]
      exact shape.code
    · simp [here]
  · -- the jump of the new block is not one of the terminators that are redirected
    have final : (f₁.code ⟨f.blocks.size⟩).getLast? = some ⟨f.insts.size⟩ := by simp [p.code]
    have outside : (⟨f.blocks.size⟩ : BlockId) ∉ members := fun hm => by simpa using slots _ hm
    rw [show g.line _ = _ from congrFun (congrArg Outline.line same) _, Outline.line_alter,
      if_neg fun h => outside ((p.consistent.mem_lasts_iff final).mp h)]
    exact (congrFun p.line _).trans (Function.update_self ..)
  · have none : (fun v : Value => v.mapInst (Parting.renamed [])) = id := funext fun v => by
      cases v <;> rfl
    rw [show g.line i = _ from congrFun (congrArg Outline.line same) i,
      p.line_redirected formed placed line, none, Operation.mapOperands_id]

/-- Dividing all phis. -/
theorem divideAll (d : f.Divided g x members done todo body last) (formed : f.outline.Formed) :
    ∃ g' done', todo.foldlM (dividePhi members ⟨f.blocks.size⟩ ⟨f.insts.size⟩) g = .ok g' ∧
      f.Divided g' x members done' [] body last := by
  induction todo generalizing g done with
  | nil => exact ⟨g, done, rfl, d⟩
  | cons i todo ih =>
    obtain ⟨g₁, p, h₁, d₁⟩ := d.step formed
    obtain ⟨g', done', h₂, d₂⟩ := ih d₁
    exact ⟨g', done', by rw [List.foldlM_cons, h₁]; exact h₂, d₂⟩

/-! ### The function with all phis divided -/

section all

variable {c : BlockId} {op : Operation} {ty : Ty}

/-- The phis that have been divided are those of the exiting block. -/
theorem phi_mem (d : f.Divided g x members done [] body last) :
    i ∈ done.map (·.phi) → i ∈ f.code x ∧ f.outline.Does i fun op => op.isPhi = true := by
  intro hi
  have hi' : i ∈ done.map (·.phi) ++ [] := by simpa using hi
  exact ⟨d.shape.mem_of_phi hi', d.shape.phis i hi'⟩

theorem line_plain (d : f.Divided g x members done todo body last) (formed : f.outline.Formed)
    (mem : i ∈ f.code c) (line : f.line i = some (op, ty)) (kept : i ∉ done.map (·.phi)) :
    g.line i = some ((f.redirected x members i op).mapOperands
      (·.mapInst (Parting.renamed done)), ty) := by
  have home := (consistent_iff.mpr formed.consistent).mem_code.mp mem
  exact d.line i op ty (by simp [home]) kept line

theorem not_divided (d : f.Divided g x members done [] body last) (line : f.line i = some (op, ty))
    (plain : op.isPhi = false) : i ∉ done.map (·.phi) := by
  intro hi
  obtain ⟨-, op', ty', line', phi⟩ := d.phi_mem hi
  obtain ⟨rfl, -⟩ : op = op' ∧ ty = ty' := by
    simpa [show f.outline.line i = _ from line] using line'
  simp [plain] at phi

theorem not_divided_of_ne (d : f.Divided g x members done [] body last) (formed : f.outline.Formed)
    (mem : i ∈ f.code c) (other : c ≠ x) : i ∉ done.map (·.phi) := by
  intro hi
  have consistent := consistent_iff.mpr formed.consistent
  have here := consistent.mem_code.mp (d.phi_mem hi).1
  have there := consistent.mem_code.mp mem
  exact other (by simpa [here] using there.symm)

/-- Kinds of instructions stay. -/
theorem does (d : f.Divided g x members done todo body last) (formed : f.outline.Formed)
    {P : Operation → Prop} (mem : i ∈ f.code c) (kept : i ∉ done.map (·.phi))
    (keep : ∀ op, P op → P ((f.redirected x members i op).mapOperands
      (·.mapInst (Parting.renamed done)))) (h : f.outline.Does i P) : g.outline.Does i P := by
  obtain ⟨op, ty, line, hP⟩ := h
  exact ⟨_, ty, d.line_plain formed mem line kept, keep op hP⟩

theorem isPhi_redirected : (f.redirected x members i op).isPhi = op.isPhi := by
  unfold redirected
  split <;> simp

theorem isTerminator_redirected :
    (f.redirected x members i op).isTerminator = op.isTerminator := by
  unfold redirected
  split <;> simp

/-- Before the first phi is divided, the exiting block looks as it did. -/
theorem shape_start (d : f.Divided g x members [] todo body last) (formed : f.outline.Formed) :
    g.outline.Shape x todo body last := by
  have mem : ∀ i ∈ todo ++ (body ++ [last]), i ∈ f.code x := fun i hi => by
    rw [show f.code x = _ from d.shape.code]
    exact hi
  refine ⟨?_, fun i hi => ?_, fun i hi => ?_, ?_⟩
  · rw [show g.outline.code x = _ from d.code x, if_neg d.new_ne, if_pos rfl]
    rfl
  · exact d.does formed (mem i (by simp [hi])) (by simp) (by simp [isPhi_redirected])
      (d.shape.phis i hi)
  · exact d.does formed (mem i (by simp [hi])) (by simp)
      (by simp [isPhi_redirected, isTerminator_redirected]) (d.shape.body i hi)
  · exact d.does formed (mem last (by simp)) (by simp) (by simp [isTerminator_redirected])
      d.shape.last

theorem shape_new (d : f.Divided g x members done [] body last) :
    g.outline.Shape ⟨f.blocks.size⟩ (done.map (·.inner)) [] ⟨f.insts.size⟩ where
  code := by rw [show g.outline.code _ = _ from d.code _, if_pos rfl, List.nil_append]
  phis i hi := by
    obtain ⟨p, hp, rfl⟩ := List.mem_map.mp hi
    obtain ⟨incoming, ty, -, inner, -⟩ := d.parted p hp
    exact ⟨_, ty, inner, rfl⟩
  body := by simp
  last := ⟨_, _, d.jump, rfl⟩

theorem shape_here (d : f.Divided g x members done [] body last) (formed : f.outline.Formed) :
    g.outline.Shape x (done.map (·.outer)) body last := by
  have mem : ∀ i ∈ body ++ [last], i ∈ f.code x := fun i hi => d.shape.mem_of_rest hi
  have kept : ∀ i ∈ body ++ [last], i ∉ done.map (·.phi) := fun i hi => by
    obtain ⟨op, ty, line, plain⟩ := d.shape.not_phi hi
    exact d.not_divided line plain
  refine ⟨?_, fun i hi => ?_, fun i hi => ?_, ?_⟩
  · rw [show g.outline.code x = _ from d.code x, if_neg d.new_ne, if_pos rfl, List.nil_append]
  · obtain ⟨p, hp, rfl⟩ := List.mem_map.mp hi
    obtain ⟨incoming, ty, -, -, outer⟩ := d.parted p hp
    exact ⟨_, ty, outer, rfl⟩
  · have hi' := List.mem_append_left [last] hi
    exact d.does formed (mem i hi') (kept i hi')
      (by simp [isPhi_redirected, isTerminator_redirected]) (d.shape.body i hi)
  · exact d.does formed (mem last (by simp)) (kept last (by simp))
      (by simp [isTerminator_redirected]) d.shape.last

theorem shape_other (d : f.Divided g x members done [] body last) (formed : f.outline.Formed)
    (other : c ≠ x) {phis' body' : List InstId} {last' : InstId}
    (shape : f.outline.Shape c phis' body' last') : g.outline.Shape c phis' body' last' := by
  have mem : ∀ i ∈ phis' ++ (body' ++ [last']), i ∈ f.code c := fun i hi => by
    rw [show f.code c = _ from shape.code]
    exact hi
  have old : c ≠ ⟨f.blocks.size⟩ := by
    rintro rfl
    have := slot_of_shape shape
    simp at this
  have keep : ∀ {P : Operation → Prop}, ∀ i ∈ phis' ++ (body' ++ [last']),
      (∀ op, P op → P ((f.redirected x members i op).mapOperands
        (·.mapInst (Parting.renamed done)))) → f.outline.Does i P → g.outline.Does i P :=
    fun i hi => d.does formed (mem i hi) (d.not_divided_of_ne formed (mem i hi) other)
  refine ⟨?_, fun i hi => keep i (by simp [hi]) (by simp [isPhi_redirected]) (shape.phis i hi),
    fun i hi => keep i (by simp [hi]) (by simp [isPhi_redirected, isTerminator_redirected])
      (shape.body i hi),
    keep last' (by simp) (by simp [isTerminator_redirected]) shape.last⟩
  rw [show g.outline.code c = _ from d.code c, if_neg old, if_neg other]
  exact shape.code

/-- What placed instructions do: the new ones lead to the exiting block or take over part of a
phi, and the others do what they did. -/
theorem placed_line (d : f.Divided g x members done [] body last) (formed : f.outline.Formed)
    (placed : (g.blockOf i).isSome) (line : g.line i = some (op, ty)) :
    op = .jump x ∨
      (∃ p ∈ done, ∃ incoming keep extra, f.line p.phi = some (.phi incoming, ty) ∧
        (extra = [] ∨ extra = [(.inst p.inner, ⟨f.blocks.size⟩)]) ∧
        op = .phi (((incoming.filter keep).map fun (v, b) =>
          (v.mapInst (Parting.renamed done), b)) ++ extra)) ∨
      ∃ op', (f.blockOf i).isSome ∧ f.line i = some (op', ty) ∧
        op = (f.redirected x members i op').mapOperands (·.mapInst (Parting.renamed done)) := by
  have consistent := consistent_iff.mpr formed.consistent
  have old : ∀ c, i ∈ f.code c → i ∉ done.map (·.phi) → ∃ op', (f.blockOf i).isSome ∧
      f.line i = some (op', ty) ∧
      op = (f.redirected x members i op').mapOperands (·.mapInst (Parting.renamed done)) := by
    intro c mem kept
    obtain ⟨⟨op', ty'⟩, line'⟩ := Option.isSome_iff_exists.mp
      (line_isSome_iff.mpr (consistent.lt_of_mem_code mem))
    have same := (d.line_plain formed mem line' kept).symm.trans line
    obtain ⟨rfl, rfl⟩ : _ = op ∧ ty' = ty := by simpa using same
    exact ⟨op', by simp [consistent.mem_code.mp mem], line', rfl⟩
  obtain ⟨c, hc⟩ := Option.isSome_iff_exists.mp placed
  have mem := d.consistent.mem_code.mpr hc
  by_cases new : c = ⟨f.blocks.size⟩
  · rw [new, show g.code _ = _ from d.shape_new.code] at mem
    simp only [List.nil_append, List.mem_append, List.mem_map, List.mem_singleton] at mem
    rcases mem with ⟨p, hp, rfl⟩ | rfl
    · obtain ⟨incoming, ty', phi, inner, -⟩ := d.parted p hp
      obtain ⟨rfl, rfl⟩ : _ = op ∧ ty' = ty := by simpa using inner.symm.trans line
      exact .inr (.inl ⟨p, hp, incoming, _, [], phi, .inl rfl, by rw [List.append_nil]⟩)
    · obtain ⟨rfl, -⟩ : _ = op ∧ _ = ty := by simpa using d.jump.symm.trans line
      exact .inl rfl
  by_cases here : c = x
  · rw [here, show g.code x = _ from (d.shape_here formed).code, List.mem_append] at mem
    rcases mem with mem | mem
    · obtain ⟨p, hp, rfl⟩ := List.mem_map.mp mem
      obtain ⟨incoming, ty', phi, -, outer⟩ := d.parted p hp
      obtain ⟨rfl, rfl⟩ : _ = op ∧ ty' = ty := by simpa using outer.symm.trans line
      exact .inr (.inl ⟨p, hp, incoming, _, _, phi, .inr rfl, rfl⟩)
    · obtain ⟨op', ty', line', plain⟩ := d.shape.not_phi mem
      exact .inr (.inr (old x (d.shape.mem_of_rest mem) (d.not_divided line' plain)))
  · rw [d.code c, if_neg new, if_neg here] at mem
    exact .inr (.inr (old c mem (d.not_divided_of_ne formed mem here)))

theorem placed_renamed (d : f.Divided g x members done [] body last) (formed : f.outline.Formed)
    (placed : (f.blockOf i).isSome) : (g.blockOf (Parting.renamed done i)).isSome := by
  rcases Parting.renamed_cases done i with ⟨same, kept⟩ | ⟨p, hp, -, same⟩
  · obtain ⟨c, hc⟩ := Option.isSome_iff_exists.mp placed
    simp [same, d.home formed hc kept]
  · have mem : p.outer ∈ g.code x := (d.shape_here formed).mem_of_phi (List.mem_map_of_mem hp)
    simp [same, d.consistent.mem_code.mp mem]

theorem operands_redirected : (f.redirected x members i op).operands = op.operands := by
  unfold redirected
  split <;> simp

theorem shape_of_lt (d : f.Divided g x members done [] body last) (formed : f.outline.Formed)
    (inside : c.index < g.blocks.size) : ∃ phis body last, g.outline.Shape c phis body last := by
  by_cases new : c = ⟨f.blocks.size⟩
  · exact new ▸ ⟨_, _, _, d.shape_new⟩
  by_cases here : c = x
  · exact here ▸ ⟨_, _, _, d.shape_here formed⟩
  have old : c.index < f.blocks.size := by
    have : c.index ≠ f.blocks.size := fun same => new (by cases c; simp_all)
    have := d.blocks
    omega
  obtain ⟨phis', body', last', shape⟩ := formed.formed c old
  exact ⟨_, _, _, d.shape_other formed here shape⟩

theorem home_phi (d : f.Divided g x members done [] body last) (formed : f.outline.Formed)
    {p : Parting} (hp : p ∈ done) : (f.outline.home p.phi).isSome := by
  have := (consistent_iff.mpr formed.consistent).mem_code.mp
    (d.phi_mem (List.mem_map_of_mem hp)).1
  simp [show f.outline.home _ = _ from this]

theorem operands_placed (d : f.Divided g x members done [] body last) (formed : f.outline.Formed)
    (placed : (g.blockOf i).isSome) (line : g.line i = some (op, ty)) {j : InstId}
    (hj : j ∈ op.usedInsts) : (g.blockOf j).isSome := by
  rcases d.placed_line formed placed line with rfl |
    ⟨p, hp, incoming, keep, extra, phi, more, rfl⟩ | ⟨op', old, line', rfl⟩
  · simp [Operation.usedInsts, Operation.operands] at hj
  · simp only [Operation.usedInsts, Operation.operands, List.map_append, List.map_map,
      List.filterMap_append, List.mem_append] at hj
    rcases hj with hj | hj
    · have part : j ∈ ((Operation.phi (incoming.filter keep)).mapOperands
          (·.mapInst (Parting.renamed done))).usedInsts := by
        simpa [Operation.usedInsts, Operation.operands, Operation.mapOperands] using hj
      obtain ⟨i, hi, rfl⟩ := Operation.mem_usedInsts_mapInst.mp part
      refine d.placed_renamed formed (formed.operands p.phi _ ty (d.home_phi formed hp) phi i ?_)
      simp only [Operation.usedInsts, Operation.operands, List.mem_filterMap, List.mem_map,
        List.mem_filter] at hi ⊢
      obtain ⟨v, ⟨q, ⟨hq, -⟩, rfl⟩, hi⟩ := hi
      exact ⟨_, ⟨q, hq, rfl⟩, hi⟩
    · rcases more with rfl | rfl
      · simp at hj
      · obtain rfl : j = p.inner := by simpa [Value.inst?] using hj
        have mem : p.inner ∈ g.code ⟨f.blocks.size⟩ :=
          d.shape_new.mem_of_phi (List.mem_map_of_mem hp)
        simp [d.consistent.mem_code.mp mem]
  · obtain ⟨i', hi', rfl⟩ := Operation.mem_usedInsts_mapInst.mp hj
    rw [Operation.usedInsts, operands_redirected] at hi'
    exact d.placed_renamed formed (formed.operands i op' ty old line' i' hi')

theorem targets_exist (d : f.Divided g x members done [] body last) (formed : f.outline.Formed)
    (placed : (g.blockOf i).isSome) (line : g.line i = some (op, ty)) {t : BlockId}
    (ht : t ∈ op.successors) : t.index < g.blocks.size := by
  have grown : f.blocks.size < g.blocks.size := by have := d.blocks; omega
  rcases d.placed_line formed placed line with rfl |
    ⟨p, hp, incoming, keep, extra, phi, more, rfl⟩ | ⟨op', old, line', rfl⟩
  · obtain rfl : t = x := by simpa [Operation.successors] using ht
    exact Nat.lt_trans (slot_of_shape d.shape) grown
  · simp [Operation.successors] at ht
  · rw [Operation.successors_mapOperands, redirected] at ht
    have bound : ∀ t ∈ op'.successors, t.index < g.blocks.size := fun t ht =>
      Nat.lt_trans (formed.targets i op' ty old line' t ht) grown
    split at ht
    · rw [Operation.successors_mapSuccessors] at ht
      obtain ⟨t', ht', rfl⟩ := List.mem_map.mp ht
      unfold Operation.redirect
      split
      · exact grown
      · exact bound t' ht'
    · exact bound t ht

theorem formed (d : f.Divided g x members done [] body last) (formed : f.outline.Formed) :
    g.outline.Formed where
  consistent := consistent_iff.mp d.consistent
  formed _ inside := d.shape_of_lt formed inside
  operands _ _ _ placed line _ hj := d.operands_placed formed placed line hj
  targets _ _ _ placed line _ ht := d.targets_exist formed placed line ht

theorem named_exist (d : f.Divided g x members done [] body last) (tidy : f.outline.Tidy)
    {incoming : List (Value × BlockId)} (placed : (g.blockOf i).isSome)
    (line : g.line i = some (.phi incoming, ty)) {q : Value × BlockId} (hq : q ∈ incoming) :
    q.2.index < g.blocks.size := by
  have grown : f.blocks.size < g.blocks.size := by have := d.blocks; omega
  rcases d.placed_line tidy.toFormed placed line with same |
    ⟨p, hp, old, keep, extra, phi, more, same⟩ | ⟨op', old, line', same⟩
  · simp at same
  · obtain rfl := Operation.phi.inj same
    rcases List.mem_append.mp hq with hq | hq
    · obtain ⟨r, hr, rfl⟩ := List.mem_map.mp hq
      exact Nat.lt_trans (tidy.named p.phi old ty (d.home_phi tidy.toFormed hp) phi r
        (List.mem_filter.mp hr).1) grown
    · rcases more with rfl | rfl
      · simp at hq
      · obtain rfl := List.mem_singleton.mp hq
        exact grown
  · have phi : op'.isPhi = true := by
      rw [← isPhi_redirected, ← Operation.isPhi_mapOperands, ← same]
      rfl
    obtain ⟨incoming', rfl⟩ : ∃ incoming', op' = .phi incoming' := by
      cases op' <;> simp_all [Operation.isPhi]
    have keep : f.redirected x members i (.phi incoming') = .phi incoming' := by
      unfold redirected
      split <;> rfl
    rw [keep] at same
    obtain rfl := Operation.phi.inj same
    obtain ⟨r, hr, rfl⟩ := List.mem_map.mp hq
    exact Nat.lt_trans (tidy.named i incoming' ty old line' r hr) grown

theorem tidy (d : f.Divided g x members done [] body last) (tidy : f.outline.Tidy) :
    g.outline.Tidy where
  toFormed := d.formed tidy.toFormed
  named _ _ _ placed line _ hq := d.named_exist tidy placed line hq

/-! ### It does the same -/

variable {given : Surroundings} {values values' : Values} {m : Memory}

/-- The values of two threads: what is read in place of an instruction has its value. -/
def SameValues (f : Func) (done : List Parting) (values values' : Values) : Prop :=
  ∀ i, (f.blockOf i).isSome → values i = values' (Parting.renamed done i)

/-- A thread of the function and one of the divided function. -/
structure Related (f : Func) (done : List Parting) (s t : ThreadState) : Prop where
  block : t.block = s.block
  rest : t.rest = s.rest
  memory : t.memory = s.memory
  values : SameValues f done s.values t.values
  inside : ∀ i ∈ s.rest, i ∈ f.code s.block ∧ f.outline.Does i fun op => op.isPhi = false

/-- An entry of a phi has the same value for both threads. -/
theorem entry_eq (given : Surroundings) (tidy : f.outline.Tidy)
    (same : SameValues f done values values') {incoming : List (Value × BlockId)}
    (placed : (f.blockOf i).isSome)
    (line : f.line i = some (.phi incoming, ty)) (source : Option BlockId)
    (keep : Value × BlockId → Bool)
    (kept : ∀ p ∈ incoming, (some p.2 == source) = true → keep p = true) :
    (((incoming.filter keep).map fun (v, b) => (v.mapInst (Parting.renamed done), b)).find?
        (some ·.2 == source)).bind (fun p => (p.1.datum given values').toOption) =
      (incoming.find? (some ·.2 == source)).bind fun p => (p.1.datum given values).toOption := by
  have chosen : (incoming.filter keep).find? (some ·.2 == source) =
      incoming.find? (some ·.2 == source) := by
    rw [List.find?_filter]
    refine List.find?_congr fun p hp => ?_
    by_cases yes : (some p.2 == source) = true
    · simp [yes, kept p hp yes]
    · simp [yes]
  rw [List.find?_map, Option.bind_map, ← chosen]
  show (((incoming.filter keep).find? (some ·.2 == source)).bind _) = _
  cases found : (incoming.filter keep).find? (some ·.2 == source) with
  | none => rfl
  | some p =>
    have mem := (List.mem_filter.mp (List.mem_of_find?_eq_some found)).1
    refine (Value.datum_mapInst rfl rfl fun j read => same j ?_).symm
    refine tidy.operands i _ ty placed line j (List.mem_filterMap.mpr ⟨p.1, ?_, by rw [read]; rfl⟩)
    exact List.mem_map_of_mem mem

/-- A phi that has not been divided has the same value for both threads. -/
theorem phiDatum_other (d : f.Divided g x members done [] body last) (tidy : f.outline.Tidy)
    (same : SameValues f done values values') {source : Option BlockId} (other : c ≠ x)
    (mem : i ∈ f.code c) (phi : f.outline.Does i fun op => op.isPhi = true) :
    g.phiDatum? given values' source i = f.phiDatum? given values source i := by
  obtain ⟨op, ty, line, phi⟩ := phi
  obtain ⟨incoming, rfl⟩ : ∃ incoming, op = .phi incoming := by
    cases op <;> simp_all [Operation.isPhi]
  have home := (consistent_iff.mpr tidy.consistent).mem_code.mp mem
  have line' := d.line_plain tidy.toFormed mem line (d.not_divided_of_ne tidy.toFormed mem other)
  have keep : f.redirected x members i (.phi incoming) = .phi incoming := by
    unfold redirected
    split <;> rfl
  rw [keep] at line'
  have := entry_eq given tidy same (by simp [home]) line source
    (fun _ => true) (by simp)
  rw [List.filter_true] at this
  simpa only [phiDatum?, show f.line i = _ from line, line', Operation.mapOperands] using this

/-- Control that comes from outside the region finds the value of a phi in its second half, and
control that comes from the region finds it in the first. -/
theorem phiDatum_parted (given : Surroundings) (d : f.Divided g x members done [] body last)
    (tidy : f.outline.Tidy)
    (same : SameValues f done values values') {p : Parting} (hp : p ∈ done) (c : BlockId)
    (slot : c.index < f.blocks.size) :
    g.phiDatum? given values' (some c) (if c ∈ members then p.inner else p.outer) =
      f.phiDatum? given values (some c) p.phi := by
  obtain ⟨incoming, ty, phi, inner, outer⟩ := d.parted p hp
  have home := (consistent_iff.mpr tidy.consistent).mem_code.mp
    (d.phi_mem (List.mem_map_of_mem hp)).1
  by_cases inside : c ∈ members
  · have := entry_eq given tidy same (by simp [home]) phi (some c)
      (fun q => members.contains q.2) (fun q _ from' => by
        obtain rfl : q.2 = c := by simpa using from'
        simpa using inside)
    simpa only [inside, if_true, phiDatum?, phi, inner] using this
  · have := entry_eq given tidy same (by simp [home]) phi (some c)
      (fun q => !members.contains q.2) (fun q _ from' => by
        obtain rfl : q.2 = c := by simpa using from'
        simpa using inside)
    have old : (⟨f.blocks.size⟩ : BlockId) ≠ c := by
      rintro rfl
      simp at slot
    simp only [inside, if_false, phiDatum?, phi, outer, List.find?_append]
    rw [List.find?_cons_of_neg (by simpa using old), List.find?_nil, Option.or_none]
    exact this

theorem renamed_phi (d : f.Divided g x members done [] body last) (tidy : f.outline.Tidy)
    {p : Parting} (hp : p ∈ done) : Parting.renamed done p.phi = p.outer := by
  have code : f.code x = (done.map (·.phi) ++ []) ++ (body ++ [last]) := d.shape.code
  have nodup := (List.nodup_append.mp
    (code ▸ (consistent_iff.mpr tidy.consistent).code_nodup x)).1
  rw [List.append_nil] at nodup
  rcases Parting.renamed_cases done p.phi with ⟨-, none⟩ | ⟨q, hq, same, outer⟩
  · exact absurd (List.mem_map_of_mem hp) none
  · rw [outer, List.inj_on_of_nodup_map nodup hq hp same]

/-- An instruction that is placed keeps its value where the new phis take theirs. -/
theorem renamed_notMem (d : f.Divided g x members done [] body last) {c : BlockId}
    (hc : f.blockOf i = some c) (kept : i ∉ done.map (·.phi)) :
    Parting.renamed done i = i ∧ i ∉ done.map (·.inner) ∧ i ∉ done.map (·.outer) := by
  have old := lt_of_blockOf hc
  refine ⟨Parting.renamed_of_notMem kept, fun hi => ?_, fun hi => ?_⟩
  · obtain ⟨p, hp, rfl⟩ := List.mem_map.mp hi
    have := (d.fresh p hp).1
    omega
  · obtain ⟨p, hp, rfl⟩ := List.mem_map.mp hi
    have := (d.fresh p hp).2
    omega

theorem related_entered {phis phis' body' : List InstId} {last' : InstId}
    {source source' : Option BlockId} (shape : f.outline.Shape c phis body' last')
    (same : SameValues f done (f.entered given values m source c phis []).values
      (g.entered given values' m source' c phis' []).values) :
    Related f done (f.entered given values m source c phis (body' ++ [last']))
      (g.entered given values' m source' c phis' (body' ++ [last'])) where
  block := rfl
  rest := rfl
  memory := rfl
  values := same
  inside _ hi := ⟨shape.mem_of_rest hi, shape.not_phi hi⟩

/-- Entering a block other than the exiting one. -/
theorem enter_other (d : f.Divided g x members done [] body last) (tidy : f.outline.Tidy)
    (same : SameValues f done values values') (source : Option BlockId) (other : c ≠ x)
    (slot : c.index < f.blocks.size) :
    ∃ n, Transition.Alike (Related f done) (.ofExcept (f.enter given values m source c))
      (g.run given n (.ofExcept (g.enter given values' m source c))) := by
  obtain ⟨phis, body', last', shape⟩ := tidy.formed c slot
  have mem : ∀ i ∈ phis, i ∈ f.code c := fun i hi => shape.mem_of_phi hi
  have data : ∀ i ∈ phis, g.phiDatum? given values' source i = f.phiDatum? given values source i :=
    fun i hi => d.phiDatum_other tidy same other (mem i hi) (shape.phis i hi)
  rcases enter_together m m shape (d.shape_other tidy.toFormed other shape)
    (List.forall₂_same.mpr data) with ⟨cause, cause', h, h'⟩ | ⟨h, h'⟩
  · exact ⟨0, h ▸ h' ▸ .trap cause cause'⟩
  · rw [h, h']
    refine ⟨0, .next (related_entered shape fun i placed => ?_)⟩
    obtain ⟨c', hc'⟩ := Option.isSome_iff_exists.mp placed
    simp only [entered]
    rcases Parting.renamed_cases done i with ⟨keep, -⟩ | ⟨p, hp, rfl, keep⟩
    · by_cases hi : i ∈ phis
      · rw [keep, if_pos hi, if_pos hi, data i hi]
      · rw [keep, if_neg hi, if_neg hi, same i placed, keep]
    · have away : p.phi ∉ phis := fun hi =>
        d.not_divided_of_ne tidy.toFormed (mem _ hi) other (List.mem_map_of_mem hp)
      have fresh : p.outer ∉ phis := fun hi => by
        have := (d.fresh p hp).2
        have := (consistent_iff.mpr tidy.consistent).lt_of_mem_code (mem _ hi)
        omega
      rw [keep, if_neg away, if_neg fresh, same _ placed, keep]

theorem shape_phis (d : f.Divided g x members done [] body last) :
    f.outline.Shape x (done.map (·.phi)) body last := by
  simpa using d.shape

/-- Entering the exiting block from outside the region. -/
theorem enter_outside (d : f.Divided g x members done [] body last) (tidy : f.outline.Tidy)
    (same : SameValues f done values values') (outside : c ∉ members)
    (slot : c.index < f.blocks.size) :
    ∃ n, Transition.Alike (Related f done) (.ofExcept (f.enter given values m (some c) x))
      (g.run given n (.ofExcept (g.enter given values' m (some c) x))) := by
  have data : ∀ p ∈ done, g.phiDatum? given values' (some c) p.outer =
      f.phiDatum? given values (some c) p.phi := fun p hp => by
    simpa [outside] using d.phiDatum_parted given tidy same hp c slot
  rcases enter_together m m d.shape_phis (d.shape_here tidy.toFormed)
    (List.forall₂_map_left_iff.mpr (List.forall₂_map_right_iff.mpr (List.forall₂_same.mpr data)))
    with ⟨cause, cause', h, h'⟩ | ⟨h, h'⟩
  · exact ⟨0, h ▸ h' ▸ .trap cause cause'⟩
  · rw [h, h']
    refine ⟨0, .next (related_entered d.shape_phis fun i placed => ?_)⟩
    obtain ⟨c', hc'⟩ := Option.isSome_iff_exists.mp placed
    simp only [entered]
    by_cases hi : i ∈ done.map (·.phi)
    · obtain ⟨p, hp, rfl⟩ := List.mem_map.mp hi
      rw [d.renamed_phi tidy hp, if_pos hi, if_pos (List.mem_map_of_mem hp), data p hp]
    · obtain ⟨keep, -, away⟩ := d.renamed_notMem hc' hi
      rw [keep, if_neg hi, if_neg away, same i placed, keep]

/-- Behind the new block, the second half of a phi takes over the first. -/
theorem phiDatum_outer (d : f.Divided g x members done [] body last) (tidy : f.outline.Tidy)
    {p : Parting} (hp : p ∈ done) :
    g.phiDatum? given values (some ⟨f.blocks.size⟩) p.outer = values p.inner := by
  obtain ⟨incoming, ty, phi, -, outer⟩ := d.parted p hp
  have home := (consistent_iff.mpr tidy.consistent).mem_code.mp
    (d.phi_mem (List.mem_map_of_mem hp)).1
  have named := tidy.named p.phi incoming ty (by simp [show f.outline.home _ = _ from home]) phi
  have none : ((incoming.filter fun (_, b) => !members.contains b).map
      fun (v, b) => (v.mapInst (Parting.renamed done), b)).find?
        (some ·.2 == some ⟨f.blocks.size⟩) = none := by
    rw [List.find?_eq_none]
    intro q hq same
    obtain ⟨r, hr, rfl⟩ := List.mem_map.mp hq
    have old := named r (List.mem_filter.mp hr).1
    obtain new : r.2 = ⟨f.blocks.size⟩ := by simpa using same
    rw [new] at old
    exact Nat.lt_irrefl _ old
  simp only [phiDatum?, outer, List.find?_append, none, Option.none_or, List.find?_cons_of_pos,
    beq_self_eq_true, Option.bind_some, Value.datum]
  cases values p.inner <;> rfl

/-- Entering the exiting block from the region, or at the start: control passes the new block. -/
theorem enter_through (d : f.Divided g x members done [] body last) (tidy : f.outline.Tidy)
    (same : SameValues f done values values') {source : Option BlockId}
    (data : ∀ p ∈ done, g.phiDatum? given values' source p.inner =
      f.phiDatum? given values source p.phi) :
    ∃ n, Transition.Alike (Related f done) (.ofExcept (f.enter given values m source x))
      (g.run given n (.ofExcept (g.enter given values' m source ⟨f.blocks.size⟩))) := by
  rcases enter_together m m d.shape_phis d.shape_new
    (List.forall₂_map_left_iff.mpr (List.forall₂_map_right_iff.mpr (List.forall₂_same.mpr data)))
    with ⟨cause, cause', h, h'⟩ | ⟨h, h'⟩
  · exact ⟨0, h ▸ h' ▸ .trap cause cause'⟩
  · have taken : ∀ p ∈ done, (g.entered given values' m source ⟨f.blocks.size⟩
        (done.map (·.inner)) []).values p.inner = f.phiDatum? given values source p.phi := by
      intro p hp
      simp only [entered]
      rw [if_pos (List.mem_map_of_mem hp), data p hp]
    -- one more step leads from the new block to the exiting one
    have step : g.step given (g.entered given values' m source ⟨f.blocks.size⟩
        (done.map (·.inner)) ([] ++ [⟨f.insts.size⟩])) = .ofExcept (g.enter given
          (g.entered given values' m source ⟨f.blocks.size⟩ (done.map (·.inner)) []).values m
          (some ⟨f.blocks.size⟩) x) := step_of_jump rfl d.jump
    have again : ∀ p ∈ done, g.phiDatum? given (g.entered given values' m source ⟨f.blocks.size⟩
        (done.map (·.inner)) []).values (some ⟨f.blocks.size⟩) p.outer =
          f.phiDatum? given values source p.phi := fun p hp =>
      (d.phiDatum_outer tidy hp).trans (taken p hp)
    rcases enter_together m m d.shape_phis (d.shape_here tidy.toFormed)
      (List.forall₂_map_left_iff.mpr (List.forall₂_map_right_iff.mpr (List.forall₂_same.mpr again)))
      with ⟨cause, cause', no, -⟩ | ⟨-, h''⟩
    · simp [h] at no
    · refine ⟨1, ?_⟩
      rw [h, h', run_one, step, h'']
      refine .next (related_entered d.shape_phis fun i placed => ?_)
      obtain ⟨c', hc'⟩ := Option.isSome_iff_exists.mp placed
      by_cases hi : i ∈ done.map (·.phi)
      · obtain ⟨p, hp, rfl⟩ := List.mem_map.mp hi
        show (if _ then _ else _) = if _ then _ else _
        rw [d.renamed_phi tidy hp, if_pos hi, if_pos (List.mem_map_of_mem hp), again p hp]
      · obtain ⟨keep, away, away'⟩ := d.renamed_notMem hc' hi
        show (if _ then _ else _) = if _ then _ else if _ then _ else _
        rw [keep, if_neg hi, if_neg away', if_neg away, same i placed, keep]

/-- A placed instruction that is no phi computes the same for both threads. -/
theorem execute_eq (d : f.Divided g x members done [] body last) (tidy : f.outline.Tidy)
    (same : SameValues f done values values') (mem : i ∈ f.code c)
    (line : f.line i = some (op, ty)) :
    (op.execute given f values m i).toOption =
      ((op.mapOperands (·.mapInst (Parting.renamed done))).execute given g values'
        m i).toOption := by
  have consistent := consistent_iff.mpr tidy.consistent
  refine Operation.execute_map m i i rfl fun v hv => ?_
  refine Operation.agree_mapInst rfl rfl d.params.symm fun j read => ?_
  have used : j ∈ op.usedInsts := List.mem_filterMap.mpr ⟨v, hv, by rw [read]; rfl⟩
  have placed : (f.blockOf j).isSome := tidy.operands i op ty
    (by simp [show f.outline.home _ = _ from consistent.mem_code.mp mem]) line j used
  refine ⟨same j placed, ?_⟩
  obtain ⟨c', hc'⟩ := Option.isSome_iff_exists.mp placed
  obtain ⟨⟨op', ty'⟩, line'⟩ :=
    Option.isSome_iff_exists.mp (line_isSome_iff.mpr (lt_of_blockOf hc'))
  by_cases hj : j ∈ done.map (·.phi)
  · obtain ⟨p, hp, rfl⟩ := List.mem_map.mp hj
    obtain ⟨incoming, ty'', phi, -, outer⟩ := d.parted p hp
    rw [d.renamed_phi tidy hp, phi, outer]
    rfl
  · rw [Parting.renamed_of_notMem hj, d.line j op' ty' placed hj line', line']
    rfl

/-- Going from one block to another. -/
theorem enter_target (given : Surroundings) (d : f.Divided g x members done [] body last)
    (tidy : f.outline.Tidy)
    (same : SameValues f done values values') {c t : BlockId} (slot : c.index < f.blocks.size)
    (slot' : t.index < f.blocks.size) :
    ∃ n, Transition.Alike (Related f done) (.ofExcept (f.enter given values m (some c) t))
      (g.run given n (.ofExcept (g.enter given values' m (some c)
        (if c ∈ members then Operation.redirect x ⟨f.blocks.size⟩ t else t)))) := by
  by_cases here : t = x
  · subst here
    by_cases inside : c ∈ members
    · rw [if_pos inside, Operation.redirect, if_pos rfl]
      refine d.enter_through tidy same fun p hp => ?_
      simpa [inside] using d.phiDatum_parted given tidy same hp c slot
    · rw [if_neg inside]
      exact d.enter_outside tidy same inside slot
  · have stay : (if c ∈ members then Operation.redirect x ⟨f.blocks.size⟩ t else t) = t := by
      simp [Operation.redirect, here]
    rw [stay]
    exact d.enter_other tidy same (some c) here slot'

/-- Where a terminator leads. -/
theorem redirected_eq (home : f.blockOf i = some c) : f.redirected x members i op =
    op.mapSuccessors fun t =>
      if c ∈ members then Operation.redirect x ⟨f.blocks.size⟩ t else t := by
  unfold redirected
  rw [home, Option.any_some]
  by_cases inside : c ∈ members
  · simp [inside]
  · cases op <;> simp [inside, Operation.mapSuccessors]

/-- A branch goes to the same block for both threads, or fails for both. -/
theorem branch_alike (d : f.Divided g x members done [] body last) (tidy : f.outline.Tidy)
    (same : SameValues f done values values') {v : Value} {t e : BlockId} (mem : i ∈ f.code c)
    (line : f.line i = some (.branch v t e, ty)) :
    ∃ n, Transition.Alike (Related f done)
      (.ofExcept (do
        let n ← v.number given values
        f.enter given values m (some c) (if truth n then t else e)))
      (g.run given n (.ofExcept (do
        let n ← (v.mapInst (Parting.renamed done)).number given values'
        g.enter given values' m (some c) (if truth n
          then if c ∈ members then Operation.redirect x ⟨f.blocks.size⟩ t else t
          else if c ∈ members then Operation.redirect x ⟨f.blocks.size⟩ e else e)))) := by
  have home := (consistent_iff.mpr tidy.consistent).mem_code.mp mem
  have placed : (f.outline.home i).isSome := by simp [show f.outline.home _ = _ from home]
  have condition : (v.number given values).toOption =
      ((v.mapInst (Parting.renamed done)).number given values').toOption := by
    simp only [Value.number, toOption_bind]
    rw [Value.datum_mapInst rfl rfl fun j read => same j ?_]
    refine tidy.operands i _ ty placed line j ?_
    simp [Operation.usedInsts, Operation.operands, read, Value.inst?]
  cases known : v.number given values with
  | error cause =>
    rw [known] at condition
    cases known' : (v.mapInst (Parting.renamed done)).number given values' with
    | error cause' => exact ⟨0, .trap cause cause'⟩
    | ok n => simp [known'] at condition
  | ok n =>
    rw [known] at condition
    rw [toOption_eq_some_iff.mp condition.symm]
    have chosen := d.enter_target (m := m) given tidy same (slot_of_mem_code mem)
      (tidy.targets i _ ty placed line (if truth n then t else e) (by
        by_cases yes : truth n <;> simp [Operation.successors, yes]))
    by_cases yes : truth n
    · simpa only [yes, bind, Except.bind, if_true] using chosen
    · simpa only [yes, bind, Except.bind, Bool.false_eq_true, if_false] using chosen

/-- What one step does for both threads. -/
theorem step_alike (d : f.Divided g x members done [] body last) (tidy : f.outline.Tidy)
    {s t : ThreadState} (related : Related f done s t) :
    ∃ n, Transition.Alike (Related f done) (f.step given s) (g.run given n (g.step given t)) := by
  obtain ⟨c, rest, values, m⟩ := s
  obtain ⟨c', rest', values', m'⟩ := t
  obtain ⟨rfl, rfl, rfl, same, inside⟩ := related
  dsimp only at same inside
  cases rest' with
  | nil => exact ⟨0, .trap _ _⟩
  | cons i rest =>
    obtain ⟨mem, op, ty, line, plain⟩ := inside i (by simp)
    have home := (consistent_iff.mpr tidy.consistent).mem_code.mp mem
    have line' := d.line_plain tidy.toFormed mem line (d.not_divided line plain)
    rw [redirected_eq home] at line'
    cases op with
    | jump t =>
      rw [step_of_jump rfl line, step_of_jump rfl line']
      refine d.enter_target given tidy same (slot_of_mem_code mem)
        (tidy.targets i _ ty ?_ line t ?_)
      · simp [show f.outline.home _ = _ from home]
      · simp [Operation.successors]
    | branch v t e =>
      rw [step_of_branch rfl line, step_of_branch rfl line']
      exact d.branch_alike tidy same mem line
    | ret v =>
      rw [step_of_ret rfl line, step_of_ret rfl line']
      exact ⟨0, .finish m'⟩
    | unreachable =>
      rw [step_of_unreachable rfl line, step_of_unreachable rfl line']
      exact ⟨0, .trap _ _⟩
    | phi incoming => simp [Operation.isPhi] at plain
    | _ =>
      rw [step_of_plain rfl line rfl, step_of_plain rfl line' rfl]
      refine alike_map (d.execute_eq tidy same mem line) fun result => ⟨0, .next ?_⟩
      refine ⟨rfl, rfl, rfl, fun j placed => ?_, fun j hj => inside j (List.mem_cons_of_mem _ hj)⟩
      -- the instruction keeps its name, and no other is renamed to it
      obtain ⟨keep, -, fresh⟩ := d.renamed_notMem home (d.not_divided line plain)
      have apart : Parting.renamed done j = i ↔ j = i := by
        rcases Parting.renamed_cases done j with ⟨own, -⟩ | ⟨p, hp, rfl, own⟩
        · rw [own]
        · rw [own]
          refine iff_of_false (fun eq => fresh (eq ▸ List.mem_map_of_mem hp)) fun eq => ?_
          exact d.not_divided line plain (eq ▸ List.mem_map_of_mem hp)
      by_cases here : j = i
      · simp [computed, Values.set, here, keep]
      · simp [computed, Values.set, here, apart, same j placed]

/-- The function with an exiting block of its own does what it did. -/
theorem runs_iff (d : f.Divided g x members done [] body last) (tidy : f.outline.Tidy)
    {m' : Memory} : f.Runs given m m' ↔ g.Runs given m m' := by
  refine finishes_iff_of_simulation (fun s t related => d.step_alike tidy related) ?_
  have same : SameValues f done (fun _ => none) fun _ => none := fun _ _ => rfl
  obtain ⟨before, after, layout, layout'⟩ := d.layout
  unfold Func.begin Func.entry
  rw [layout, layout']
  cases before with
  | nil =>
    -- the function starts at the exiting block: none of its phis has a value, new or old
    exact d.enter_through tidy same fun p _ => (phiDatum_none _).trans (phiDatum_none _).symm
  | cons b before =>
    have nodup : (b :: before ++ x :: after).Nodup :=
      layout ▸ (consistent_iff.mpr tidy.consistent).layout_nodup
    have other : b ≠ x := by
      rintro rfl
      simp at nodup
    refine d.enter_other tidy same none other ((tidy.consistent.mem_layout b).mp ?_)
    show b ∈ f.layout
    simp [layout]

end all

end Divided

end Func

end KernelCoarsening
