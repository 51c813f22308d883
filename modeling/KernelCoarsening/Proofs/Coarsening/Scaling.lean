/-
Reads of the place in the launch, after scaling.

Behind every read of an extent or an identity, scaling computes what the read stands for in the
logical launch, and the readers of the read now read that:

* `Func.Expands` — a function with more instructions, in which some are read in place of others;
* `Func.exists_scaleExtent`, `Func.exists_scaleIdentity` — what becomes of one read;
* `Func.exists_scaleGrid` — what becomes of all reads.
-/
import KernelCoarsening.Coarsening.GridScaling
import KernelCoarsening.Proofs.Execution.Simulation
import KernelCoarsening.Proofs.Ir.Insertion

namespace KernelCoarsening

namespace Func

variable {f g h : Func} {i j x y anchor : InstId} {op : Operation} {ty : Ty}

/-- Instructions that are placed behind the last of those that were placed before. -/
theorem Adds.chain (hf : f.Consistent) (placed : (f.blockOf anchor).isSome)
    (before : List InstId) {new : List InstId} {last : InstId}
    (first : f.Adds g (behind anchor (before ++ [last]))) (second : g.Adds h (behind last new)) :
    f.Adds h (behind anchor (before ++ last :: new)) := by
  have code : ∀ b, (g.code b).filter (fun _ => true) =
      (f.code b).flatMap (behind anchor (before ++ [last])) := fun b => by
    rw [List.filter_true, first.code]
  refine (first.trans second).congr hf fun y hy => ?_
  by_cases here : y = anchor
  · subst here
    have nodup := nodup_chunk hf first.consistent code hy
    rw [behind_self, ← List.cons_append] at nodup ⊢
    rw [flatMap_behind nodup, behind_self]
    simp
  · have other : y ≠ last := by
      rintro rfl
      refine here (eq_of_mem_chunk hf first.consistent code hy placed (x := y) ?_ ?_)
      · simp [mem_behind]
      · simp
    rw [behind_of_ne here, behind_of_ne here]
    simp [behind_of_ne other]

/-- A function in which instructions are followed by new ones, and some are read in place of
others.  What the new ones read is the instruction before them, or new. -/
structure Expands (f g : Func) (news : InstId → List (InstId × Operation × Ty))
    (rename : InstId → InstId) : Prop where
  consistent : g.Consistent
  params : g.params = f.params
  layout : g.layout = f.layout
  size : f.insts.size ≤ g.insts.size
  code : ∀ b, g.code b = (f.code b).flatMap fun i => i :: (news i).map (·.1)
  line : ∀ i, (f.blockOf i).isSome → g.line i = (f.line i).map fun line =>
    (line.1.mapOperands (·.mapInst rename), line.2)
  origin : ∀ i, news i ≠ [] → (f.blockOf i).isSome
  new : ∀ i, ∀ l ∈ news i, f.insts.size ≤ l.1.index ∧ g.line l.1 = some l.2 ∧
    ∀ j ∈ l.2.1.usedInsts, j = i ∨ f.insts.size ≤ j.index
  renamed : ∀ i, rename i = i ∨ f.insts.size ≤ (rename i).index

/-- New instructions behind one instruction only. -/
def only (i : InstId) (new : List (InstId × Operation × Ty)) :
    InstId → List (InstId × Operation × Ty) :=
  Function.update (fun _ => []) i new

theorem only_eq_behind {new : List (InstId × Operation × Ty)} :
    (fun j => j :: (only i new j).map (·.1)) = behind i (new.map (·.1)) := by
  funext j
  by_cases here : j = i
  · subst here
    simp [only]
  · simp [only, here, behind_of_ne here]

namespace Expands

variable {news : InstId → List (InstId × Operation × Ty)} {rename : InstId → InstId}
  {new : List (InstId × Operation × Ty)}

theorem refl (hf : f.Consistent) : f.Expands f (fun _ => []) id where
  consistent := hf
  params := rfl
  layout := rfl
  size := Nat.le_refl _
  code b := by simp
  line i _ := by
    cases f.line i with
    | none => rfl
    | some line => rw [Option.map_some, Operation.mapInst_of_same (by simp)]
  origin := by simp
  new := by simp
  renamed _ := .inl rfl

theorem isSome_blockOf (hf : f.Consistent) (expands : f.Expands g news rename) :
    (g.blockOf x).isSome ↔ ∃ i, (f.blockOf i).isSome ∧ x ∈ i :: (news i).map (·.1) :=
  isSome_blockOf_iff hf expands.consistent expands.code

theorem line_of_placed (expands : f.Expands g news rename) (placed : (f.blockOf i).isSome)
    (line : f.line i = some (op, ty)) :
    g.line i = some (op.mapOperands (·.mapInst rename), ty) := by
  rw [expands.line i placed, line]
  rfl

/-- One more instruction is expanded. -/
theorem one (hf : f.Consistent) (first : f.Expands g news rename) (placed : (f.blockOf i).isSome)
    (idle : news i = []) (same : rename i = i)
    (second : g.Expands h (only i new) (Function.update id i y)) :
    f.Expands h (Function.update news i new) (Function.update rename i y) := by
  have old := lt_of_placed placed
  have news_ne : ∀ j, ∀ l ∈ news j, l.1 ≠ i := by
    rintro j l hl rfl
    have := (first.new j l hl).1
    omega
  -- the instruction is read as itself where it was, and elsewhere only new ones are
  have rename_ne : ∀ j, j ≠ i → rename j ≠ i := by
    rintro j other rfl
    rcases first.renamed j with self | fresh
    · exact other self.symm
    · omega
  refine ⟨second.consistent, second.params.trans first.params, second.layout.trans first.layout,
    first.size.trans second.size, fun b => ?_, fun j hj => ?_, fun j some => ?_,
    fun j l hl => ?_, fun j => ?_⟩
  · rw [second.code, only_eq_behind, first.code, List.flatMap_assoc]
    refine List.flatMap_congr fun j _ => ?_
    by_cases here : j = i
    · subst here
      simp [idle]
    · rw [Function.update_of_ne here]
      refine flatMap_behind_of_notMem fun mem => ?_
      rcases List.mem_cons.mp mem with same | mem
      · exact here same.symm
      · obtain ⟨l, hl, same⟩ := List.mem_map.mp mem
        exact news_ne j l hl same
  · have placedG : (g.blockOf j).isSome :=
      (first.isSome_blockOf hf).mpr ⟨j, hj, by simp⟩
    rw [second.line j placedG, first.line j hj, Option.map_map]
    congr 1
    funext line
    simp only [Function.comp_apply, Operation.mapOperands_mapOperands, Value.mapInst_mapInst]
    congr 2
    funext v
    congr 1
    funext k
    by_cases here : k = i
    · simp [here, same]
    · simp [Function.update_of_ne here, Function.update_of_ne (rename_ne k here)]
  · by_cases here : j = i
    · exact here ▸ placed
    · exact first.origin j (by simpa [Function.update_of_ne here] using some)
  · by_cases here : j = i
    · subst here
      rw [Function.update_self] at hl
      obtain ⟨fresh, line, uses⟩ := second.new j l (by simpa [only] using hl)
      have := first.size
      exact ⟨by omega, line, fun k hk => (uses k hk).imp_right fun fresh => by omega⟩
    · rw [Function.update_of_ne here] at hl
      obtain ⟨fresh, line, uses⟩ := first.new j l hl
      refine ⟨fresh, ?_, uses⟩
      -- the chunk of another instruction does not read this one
      have placedG : (g.blockOf l.1).isSome := (first.isSome_blockOf hf).mpr
        ⟨j, first.origin j (List.ne_nil_of_mem hl), List.mem_cons_of_mem _ (List.mem_map_of_mem hl)⟩
      rw [second.line l.1 placedG, line, Option.map_some, Operation.mapInst_of_same fun k hk => ?_]
      have other : k ≠ i := by
        rintro rfl
        rcases uses k hk with rfl | fresh
        · exact here rfl
        · omega
      simp [Function.update_of_ne other]
  · by_cases here : j = i
    · subst here
      have own := second.renamed j
      rw [Function.update_self] at own ⊢
      exact own.imp_right fun fresh => first.size.trans fresh
    · rw [Function.update_of_ne here]
      exact first.renamed j

/-- The readers of an instruction read a new one that was placed behind it. -/
theorem of_adds (hf : f.Consistent) (placed : (f.blockOf i).isSome)
    (new : List (InstId × Operation × Ty)) (adds : f.Adds g (behind i (new.map (·.1))))
    (keep : List InstId)
    (fresh : ∀ x ∈ keep, f.insts.size ≤ x.index) (target : f.insts.size ≤ y.index)
    (lines : ∀ l ∈ new, f.insts.size ≤ l.1.index ∧ g.line l.1 = some l.2 ∧
      (l.1 ∈ keep ∨ i ∉ l.2.1.usedInsts) ∧ ∀ j ∈ l.2.1.usedInsts, j = i ∨ f.insts.size ≤ j.index) :
    ∃ h uses, g.replaceUsesExcept i (.inst y) keep = .ok (h, uses) ∧
      h.insts.size = g.insts.size ∧ f.Expands h (only i new) (Function.update id i y) := by
  obtain ⟨h, uses, answer, same⟩ := adds.consistent.outline_replaceUsesExcept i (.inst y) keep
  have line : ∀ x, h.line x = if (g.blockOf x).isSome ∧ x ∉ keep then
      (g.line x).map fun line => (line.1.substitute (.inst i) (.inst y), line.2) else g.line x :=
    fun x => congrFun (congrArg Outline.line same) x
  have rename : ∀ op : Operation, op.substitute (.inst i) (.inst y) =
      op.mapOperands (·.mapInst (Function.update id i y)) := fun op => by
    rw [Operation.substitute_inst]
    refine Operation.mapInst_congr fun j _ => ?_
    by_cases here : j = i <;> simp [here]
  refine ⟨h, uses, answer, congrArg Outline.insts same, adds.consistent.of_alter same,
    (congrArg Outline.params same).trans adds.params,
    (congrArg Outline.layout same).trans adds.layout,
    adds.size.trans (congrArg Outline.insts same).ge, fun b => ?_, fun j hj => ?_, fun j some => ?_,
    fun j l hl => ?_, fun j => ?_⟩
  · rw [only_eq_behind, ← adds.code]
    exact congrFun (congrArg Outline.code same) b
  · have old := lt_of_placed hj
    have placedG : (g.blockOf j).isSome := (adds.isSome_blockOf hf).mpr ⟨j, hj, by simp [mem_behind]⟩
    have out : j ∉ keep := fun mem => by
      have := fresh j mem
      omega
    rw [line, if_pos ⟨placedG, out⟩, adds.line j old]
    simp only [rename]
  · by_cases here : j = i
    · exact here ▸ placed
    · simp [only, Function.update_of_ne here] at some
  · by_cases here : j = i
    · subst here
      obtain ⟨freshL, lineL, kept, uses⟩ := lines l (by simpa [only] using hl)
      refine ⟨freshL, ?_, uses⟩
      rw [line]
      split
      · rename_i changed
        have unread := kept.resolve_left changed.2
        rw [lineL, Option.map_some, rename, Operation.mapInst_of_same fun k hk => ?_]
        have other : k ≠ j := by
          rintro rfl
          exact unread hk
        simp [Function.update_of_ne other]
      · exact lineL
    · simp [only, Function.update_of_ne here] at hl
  · by_cases here : j = i
    · exact .inr (by simpa [here] using target)
    · exact .inl (by simp [Function.update_of_ne here])

/-- More instructions are placed behind the last of the new ones. -/
theorem adds (hf : f.Consistent) (expands : f.Expands g (only i new) rename)
    (placed : (f.blockOf i).isSome) {last : InstId × Operation × Ty}
    (ends : new.getLast? = some last) {more : List (InstId × Operation × Ty)}
    (adds : g.Adds h (behind last.1 (more.map (·.1))))
    (lines : ∀ l ∈ more, f.insts.size ≤ l.1.index ∧ h.line l.1 = some l.2 ∧
      ∀ j ∈ l.2.1.usedInsts, j = i ∨ f.insts.size ≤ j.index) :
    f.Expands h (only i (new ++ more)) rename := by
  have old : ∀ {x : InstId}, (g.blockOf x).isSome → h.line x = g.line x := fun home =>
    adds.line _ (lt_of_placed home)
  have placedG : ∀ {j x : InstId}, (f.blockOf j).isSome → x ∈ j :: (only i new j).map (·.1) →
      (g.blockOf x).isSome := fun hj hx => (expands.isSome_blockOf hf).mpr ⟨_, hj, hx⟩
  obtain ⟨before, rfl⟩ := List.getLast?_eq_some_iff.mp ends
  have code : ∀ b, (g.code b).filter (fun _ => true) =
      (f.code b).flatMap fun j => j :: (only i (before ++ [last]) j).map (·.1) := fun b => by
    rw [List.filter_true, expands.code]
  refine ⟨adds.consistent, adds.params.trans expands.params, adds.layout.trans expands.layout,
    expands.size.trans adds.size, fun b => ?_, fun j hj => ?_, fun j some => ?_, fun j l hl => ?_,
    expands.renamed⟩
  · rw [adds.code, expands.code, List.flatMap_assoc]
    refine List.flatMap_congr fun j hj => ?_
    have hj := Option.isSome_of_eq_some (hf.mem_code.mp hj)
    by_cases here : j = i
    · subst here
      have nodup := nodup_chunk hf expands.consistent code hj
      simp only [only, Function.update_self, List.map_append, List.map_cons, List.map_nil,
        ← List.cons_append] at nodup ⊢
      rw [flatMap_behind nodup]
      simp
    · have apart : last.1 ∉ j :: (only i (before ++ [last]) j).map (·.1) := fun mem =>
        here (eq_of_mem_chunk hf expands.consistent code hj placed mem (by simp [only]))
      rw [flatMap_behind_of_notMem apart]
      simp [only, Function.update_of_ne here]
  · rw [old (placedG hj (by simp)), expands.line j hj]
  · by_cases here : j = i
    · exact here ▸ placed
    · simp [only, Function.update_of_ne here] at some
  · by_cases here : j = i
    · subst here
      rw [only, Function.update_self, List.mem_append] at hl
      rcases hl with hl | hl
      · obtain ⟨fresh, line, uses⟩ := expands.new j l (by simpa [only] using hl)
        refine ⟨fresh, (old (placedG placed ?_)).trans line, uses⟩
        simp only [only, Function.update_self]
        exact List.mem_cons_of_mem _ (List.mem_map_of_mem hl)
      · exact lines l hl
    · simp [only, Function.update_of_ne here] at hl

end Expands

/-! ### Extents -/

/-- An extent, multiplied. -/
def extentLines (factor : Nat) (i : InstId) (ty : Ty) (n : Nat) : List (InstId × Operation × Ty) :=
  [(⟨n⟩, .binary .mul (.inst i) (.ofNat factor), ty)]

theorem exists_scaleExtent (hf : f.Consistent) (placed : (f.blockOf i).isSome)
    (line : f.line i = some (op, ty)) (plain : op.isPhi = false) (factor : Nat) :
    ∃ g, scaleExtent factor f i = .ok g ∧ f.Expands g (only i (extentLines factor i ty f.insts.size))
      (Function.update id i ⟨f.insts.size⟩) := by
  obtain ⟨inst, hinst, rfl, rfl⟩ := inst_of_line line
  obtain ⟨f₁, inserted, adds, -, line₁, -⟩ := exists_insertAfter hf placed line
    (.binary .mul (.inst i) (.ofNat factor)) inst.ty (suffixed inst.name ".scaled") (by simp [plain])
  obtain ⟨g, uses, replaced, -, expands⟩ := Expands.of_adds hf placed
    (extentLines factor i inst.ty f.insts.size) adds [⟨f.insts.size⟩] (by simp)
    (y := ⟨f.insts.size⟩) (Nat.le_refl _) (by
      simp [extentLines, line₁, Operation.usedInsts, Operation.operands, Value.inst?, Value.ofNat])
  refine ⟨g, ?_, expands⟩
  simp [scaleExtent, hinst, inserted, replaced, bind, Except.bind, pure, Except.pure]

/-! ### Identities -/

/-- The identities of the other threads, as sums with the first. -/
def siblingLines (base : InstId) (ty : Ty) (stride n k count : Nat) :
    List (InstId × Operation × Ty) :=
  (List.range count).map fun m => (⟨n + m⟩, .binary .add (.inst base)
    (.const (Int64.ofNat (k + m) * Int64.ofNat stride)), ty)

theorem siblingLines_succ (base : InstId) (ty : Ty) (stride n k count : Nat) :
    siblingLines base ty stride n k (count + 1) =
      (⟨n⟩, .binary .add (.inst base) (.const (Int64.ofNat k * Int64.ofNat stride)), ty) ::
        siblingLines base ty stride (n + 1) (k + 1) count := by
  simp [siblingLines, List.range_succ_eq_map, Function.comp_def, Nat.add_assoc, Nat.add_comm 1]

theorem exists_addSiblings (base : InstId) {op' : Operation} {ty' : Ty} (hf : f.Consistent)
    (placed : (f.blockOf anchor).isSome) (line : f.line anchor = some (op', ty'))
    (plain : op'.isPhi = false) (ty : Ty) (name : String) (stride k count : Nat) :
    ∃ g, addSiblings base ty name stride f anchor k count =
        .ok (g, (siblingLines base ty stride f.insts.size k count).map (·.1)) ∧
      f.Adds g (behind anchor ((siblingLines base ty stride f.insts.size k count).map (·.1))) ∧
      ∀ l ∈ siblingLines base ty stride f.insts.size k count, g.line l.1 = some l.2 := by
  induction count generalizing f anchor k op' ty' with
  | zero =>
    refine ⟨f, rfl, (Adds.refl hf).congr hf fun i _ => ?_, by simp [siblingLines]⟩
    by_cases here : i = anchor <;> simp [behind, here, siblingLines]
  | succ count ih =>
    obtain ⟨f₁, inserted, adds₁, size₁, line₁, placed₁⟩ := exists_insertAfter hf placed line
      (.binary .add (.inst base) (.const (Int64.ofNat k * Int64.ofNat stride))) ty
      (suffixed name (".cf" ++ toString (k + 1))) (by simp [plain])
    obtain ⟨g, rest, adds, lines⟩ := ih adds₁.consistent placed₁ line₁ rfl (k + 1)
    rw [size₁] at rest adds lines
    rw [siblingLines_succ]
    refine ⟨g, ?_, adds₁.chain hf placed [] adds, fun l hl => ?_⟩
    · simp only [addSiblings, inserted, rest, bind, Except.bind, pure, Except.pure, List.map_cons]
    · rcases List.mem_cons.mp hl with rfl | hl
      · rw [adds.line _ (by rw [size₁]; exact Nat.lt_succ_self _), line₁]
      · exact lines l hl

/-- The first logical identity, computed from the physical one. -/
def baseLines (c : CoarseningParams) (i : InstId) (ty : Ty) (n : Nat) :
    List (InstId × Operation × Ty) :=
  [(⟨n⟩, .binary .udiv (.inst i) (.ofNat c.stride), ty),
    (⟨n + 1⟩, .binary .mul (.inst ⟨n⟩) (.const (Int64.ofNat c.factor * Int64.ofNat c.stride)), ty),
    (⟨n + 2⟩, .binary .urem (.inst i) (.ofNat c.stride), ty),
    (⟨n + 3⟩, .binary .add (.inst ⟨n + 1⟩) (.inst ⟨n + 2⟩), ty)]

/-- The logical identities, computed from the physical one. -/
def identityLines (c : CoarseningParams) (i : InstId) (ty : Ty) (n : Nat) :
    List (InstId × Operation × Ty) :=
  baseLines c i ty n ++ siblingLines ⟨n + 3⟩ ty c.stride (n + 4) 1 (c.factor - 1)

/-- The replicas of the first logical identity. -/
def siblingsAt (c : CoarseningParams) (n : Nat) : List InstId :=
  (List.range (c.factor - 1)).map fun m => ⟨n + 4 + m⟩

/-- The first logical identity is computed behind a read. -/
theorem exists_insertBase (hf : f.Consistent) (placed : (f.blockOf i).isSome)
    (line : f.line i = some (op, ty)) (plain : op.isPhi = false) (c : CoarseningParams)
    (name : String) :
    ∃ f₁ f₂ f₃ f₄,
      f.insertAfter i (.binary .udiv (.inst i) (.ofNat c.stride)) ty (suffixed name ".div") =
        .ok (f₁, ⟨f.insts.size⟩) ∧
      f₁.insertAfter ⟨f.insts.size⟩ (.binary .mul (.inst ⟨f.insts.size⟩)
        (.const (Int64.ofNat c.factor * Int64.ofNat c.stride))) ty (suffixed name ".mul") =
        .ok (f₂, ⟨f.insts.size + 1⟩) ∧
      f₂.insertAfter ⟨f.insts.size + 1⟩ (.binary .urem (.inst i) (.ofNat c.stride)) ty
        (suffixed name ".rem") = .ok (f₃, ⟨f.insts.size + 2⟩) ∧
      f₃.insertAfter ⟨f.insts.size + 2⟩ (.binary .add (.inst ⟨f.insts.size + 1⟩)
        (.inst ⟨f.insts.size + 2⟩)) ty (suffixed name ".base") = .ok (f₄, ⟨f.insts.size + 3⟩) ∧
      f.Adds f₄ (behind i ((baseLines c i ty f.insts.size).map (·.1))) ∧
      f₄.insts.size = f.insts.size + 4 ∧
      ∀ l ∈ baseLines c i ty f.insts.size, f₄.line l.1 = some l.2 := by
  obtain ⟨f₁, h₁, adds₁, size₁, line₁, placed₁⟩ := exists_insertAfter hf placed line
    (.binary .udiv (.inst i) (.ofNat c.stride)) ty (suffixed name ".div") (by simp [plain])
  obtain ⟨f₂, h₂, adds₂, size₂, line₂, placed₂⟩ := exists_insertAfter adds₁.consistent placed₁ line₁
    (.binary .mul (.inst ⟨f.insts.size⟩) (.const (Int64.ofNat c.factor * Int64.ofNat c.stride))) ty
    (suffixed name ".mul") (by simp [Operation.isPhi])
  rw [size₁] at h₂ adds₂ size₂ line₂ placed₂
  obtain ⟨f₃, h₃, adds₃, size₃, line₃, placed₃⟩ := exists_insertAfter adds₂.consistent placed₂ line₂
    (.binary .urem (.inst i) (.ofNat c.stride)) ty (suffixed name ".rem") (by simp [Operation.isPhi])
  rw [size₂] at h₃ adds₃ size₃ line₃ placed₃
  obtain ⟨f₄, h₄, adds₄, size₄, line₄, placed₄⟩ := exists_insertAfter adds₃.consistent placed₃ line₃
    (.binary .add (.inst ⟨f.insts.size + 1⟩) (.inst ⟨f.insts.size + 2⟩)) ty
    (suffixed name ".base") (by simp [Operation.isPhi])
  rw [size₃] at h₄ adds₄ size₄ line₄ placed₄
  refine ⟨f₁, f₂, f₃, f₄, h₁, h₂, h₃, h₄, ?_, size₄, ?_⟩
  · exact ((adds₁.chain hf placed [] adds₂).chain hf placed [_] adds₃).chain hf placed [_, _] adds₄
  · simp only [baseLines, List.mem_cons, List.not_mem_nil, or_false, forall_eq_or_imp, forall_eq]
    refine ⟨?_, ?_, ?_, line₄⟩
    · rw [adds₄.line _ (by simp; omega), adds₃.line _ (by simp; omega), adds₂.line _ (by simp; omega),
        line₁]
    · rw [adds₄.line _ (by simp; omega), adds₃.line _ (by simp; omega), line₂]
    · rw [adds₄.line _ (by simp; omega), line₃]

theorem exists_scaleIdentity (hf : f.Consistent) (placed : (f.blockOf i).isSome)
    (line : f.line i = some (op, ty)) (plain : op.isPhi = false) (c : CoarseningParams) :
    ∃ g, scaleIdentity c.factor c.stride f i =
        .ok (g, ⟨f.insts.size + 3⟩, siblingsAt c f.insts.size) ∧
      f.Expands g (only i (identityLines c i ty f.insts.size))
        (Function.update id i ⟨f.insts.size + 3⟩) := by
  obtain ⟨inst, hinst, rfl, rfl⟩ := inst_of_line line
  have old := lt_of_placed placed
  have first : i ≠ ⟨f.insts.size⟩ := by
    rintro rfl
    exact absurd old (by simp)
  have later : ∀ k, i ≠ ⟨f.insts.size + k⟩ := by
    rintro k rfl
    exact absurd old (by simp)
  obtain ⟨f₁, f₂, f₃, f₄, h₁, h₂, h₃, h₄, added, size, lines⟩ :=
    exists_insertBase hf placed line plain c inst.name
  -- the quotient and the remainder go on reading the physical identity
  obtain ⟨f₅, uses, h₅, size₅, expands⟩ := Expands.of_adds hf placed _ added
    [⟨f.insts.size⟩, ⟨f.insts.size + 2⟩] (by simp) (y := ⟨f.insts.size + 3⟩) (by simp) (fun l hl => by
      have line := lines l hl
      simp only [baseLines, List.mem_cons, List.not_mem_nil, or_false] at hl
      rcases hl with rfl | rfl | rfl | rfl
      all_goals
        refine ⟨by simp, line, ?_, ?_⟩ <;>
        simp [Operation.usedInsts, Operation.operands, Value.inst?, Value.ofNat, first, later])
  have last : (baseLines c i inst.ty f.insts.size).getLast? =
      some (⟨f.insts.size + 3⟩, .binary .add (.inst ⟨f.insts.size + 1⟩) (.inst ⟨f.insts.size + 2⟩),
        inst.ty) := rfl
  have mem := List.mem_of_getLast? last
  obtain ⟨-, lineBase, -⟩ := expands.new i _ (by simpa [only] using mem)
  have placedBase := (expands.isSome_blockOf hf).mpr ⟨i, placed, List.mem_cons_of_mem _
    (List.mem_map_of_mem (by simpa [only] using mem))⟩
  obtain ⟨g, h₆, adds, siblings⟩ := exists_addSiblings ⟨f.insts.size + 3⟩ expands.consistent
    placedBase lineBase rfl inst.ty inst.name c.stride 1 (c.factor - 1)
  rw [size₅, size] at h₆ adds siblings
  refine ⟨g, ?_, expands.adds hf placed last adds fun l hl => ?_⟩
  · simp only [scaleIdentity, hinst, h₁, h₂, h₃, h₄, h₅, h₆, bind, Except.bind, pure, Except.pure,
      siblingsAt]
    simp [siblingLines]
  · obtain ⟨m, hm, rfl⟩ := List.mem_map.mp hl
    refine ⟨by simp; omega, siblings _ hl, ?_⟩
    simp [Operation.usedInsts, Operation.operands, Value.inst?]

/-! ### All reads -/

/-- Two new keys get the same replicas. -/
theorem get?_insert_both {map : ReplicaMap} (hi : map.get? i = none) (hx : map.get? x = none)
    (distinct : i ≠ x) (list : List InstId) (j : InstId) :
    ((map.insert x list).insert i list).get? j =
      if i = j ∨ x = j then some list else map.get? j := by
  simp only [ReplicaMap.get?_insert, hi, hx, if_neg distinct.symm, Option.getD_none]
  by_cases here : i = j <;> by_cases there : x = j <;> simp [here, there]

/-- A function of which some reads have been scaled; `map` knows the replicas of the first logical
identities. -/
structure Scaled (f g : Func) (c : CoarseningParams) (extents identities : List InstId)
    (map : ReplicaMap) (news : InstId → List (InstId × Operation × Ty))
    (rename : InstId → InstId) : Prop where
  expands : f.Expands g news rename
  idle : ∀ i, i ∉ extents → i ∉ identities → news i = [] ∧ rename i = i
  extent : ∀ i ∈ extents, ∀ op ty, f.line i = some (op, ty) →
    ∃ n, news i = extentLines c.factor i ty n ∧ rename i = ⟨n⟩
  identity : ∀ i ∈ identities, ∀ op ty, f.line i = some (op, ty) →
    ∃ n, news i = identityLines c i ty n ∧ rename i = ⟨n + 3⟩ ∧
      map.get? i = some (siblingsAt c n) ∧ map.get? ⟨n + 3⟩ = some (siblingsAt c n)
  known : ∀ j, (map.get? j).isSome →
    j.index < g.insts.size ∧ ∃ i ∈ identities, j = i ∨ j = rename i

namespace Scaled

variable {c : CoarseningParams} {extents identities : List InstId} {map : ReplicaMap}
  {news : InstId → List (InstId × Operation × Ty)} {rename : InstId → InstId}

theorem refl (hf : f.Consistent) (c : CoarseningParams) :
    f.Scaled f c [] [] .empty (fun _ => []) id :=
  ⟨.refl hf, fun _ _ _ => ⟨rfl, rfl⟩, by simp, by simp,
    by simp [ReplicaMap.empty, ReplicaMap.get?, Assoc.get?]⟩

/-- A read that has not been scaled has no replicas yet. -/
theorem get?_eq_none (scaled : f.Scaled g c extents identities map news rename)
    (placed : (f.blockOf i).isSome) (other : i ∉ identities) : map.get? i = none := by
  have old := lt_of_placed placed
  by_contra found
  obtain ⟨-, j, hj, rfl | rfl⟩ := scaled.known i (Option.isSome_iff_ne_none.mpr found)
  · exact other hj
  · rcases scaled.expands.renamed j with self | fresh
    · exact other (self.symm ▸ hj)
    · omega

/-- An instruction is not touched, or it is followed by what is computed from it. -/
theorem news_cases (scaled : f.Scaled g c extents identities map news rename)
    (placed : (f.blockOf i).isSome) : news i = [] ∧ rename i = i ∨
      (∃ ty n, news i = extentLines c.factor i ty n ∧ rename i = ⟨n⟩) ∨
      ∃ ty n, news i = identityLines c i ty n ∧ rename i = ⟨n + 3⟩ := by
  obtain ⟨op, ty, line⟩ := exists_line placed
  by_cases extent : i ∈ extents
  · obtain ⟨n, lines, renamed⟩ := scaled.extent i extent op ty line
    exact .inr (.inl ⟨ty, n, lines, renamed⟩)
  by_cases identity : i ∈ identities
  · obtain ⟨n, lines, renamed, -⟩ := scaled.identity i identity op ty line
    exact .inr (.inr ⟨ty, n, lines, renamed⟩)
  exact .inl (scaled.idle i extent identity)

/-- What is read in place of an instruction is the instruction, or it was placed behind it. -/
theorem rename_mem (scaled : f.Scaled g c extents identities map news rename)
    (placed : (f.blockOf i).isSome) : rename i ∈ i :: (news i).map (·.1) := by
  obtain ⟨-, renamed⟩ | ⟨ty, n, lines, renamed⟩ | ⟨ty, n, lines, renamed⟩ := scaled.news_cases placed
  · simp [renamed]
  · simp [lines, renamed, extentLines]
  · simp [lines, renamed, identityLines, baseLines]

/-- Nothing else is read in its place. -/
theorem eq_of_rename (hf : f.Consistent)
    (scaled : f.Scaled g c extents identities map news rename) (hi : (f.blockOf i).isSome)
    (hj : (f.blockOf j).isSome) (mem : rename j ∈ i :: (news i).map (·.1)) : j = i :=
  eq_of_mem_chunk hf scaled.expands.consistent (p := fun _ => true)
    (fun b => by rw [List.filter_true, scaled.expands.code]) hj hi (scaled.rename_mem hj) mem

/-- What is computed from an instruction reads the instruction, or what is computed before. -/
theorem reads_chunk (scaled : f.Scaled g c extents identities map news rename)
    (placed : (f.blockOf i).isSome) {l : InstId × Operation × Ty} (hl : l ∈ news i)
    (used : j ∈ l.2.1.usedInsts) : j ∈ i :: (news i).map (·.1) := by
  obtain ⟨none, -⟩ | ⟨ty, n, lines, -⟩ | ⟨ty, n, lines, -⟩ := scaled.news_cases placed
  · simp [none] at hl
  · obtain rfl : l = _ := by simpa [lines, extentLines] using hl
    simp_all [Operation.usedInsts, Operation.operands, Value.inst?, Value.ofNat]
  · rw [lines] at hl ⊢
    simp only [identityLines, baseLines, siblingLines, List.mem_append, List.mem_cons,
      List.not_mem_nil, or_false, List.mem_map, List.mem_range] at hl
    rcases hl with (rfl | rfl | rfl | rfl) | ⟨m, -, rfl⟩
    all_goals
      simp only [Operation.usedInsts, Operation.operands, List.filterMap_cons, Value.inst?,
        Value.ofNat, List.filterMap_nil, List.mem_cons, List.not_mem_nil, or_false] at used
    · simp [used]
    · simp [used, identityLines, baseLines]
    · simp [used]
    · rcases used with rfl | rfl <;> simp [identityLines, baseLines]
    · simp [used, identityLines, baseLines]

/-- A read is still what it was. -/
theorem line_read (hf : f.Consistent) (scaled : f.Scaled g c extents identities map news rename)
    (placed : (f.blockOf i).isSome) (line : f.line i = some (op, ty)) (plain : op.isPhi = false) :
    (g.blockOf i).isSome ∧ ∃ op', g.line i = some (op', ty) ∧ op'.isPhi = false := by
  refine ⟨(scaled.expands.isSome_blockOf hf).mpr ⟨i, placed, by simp⟩,
    op.mapOperands (·.mapInst rename), scaled.expands.line_of_placed placed line, ?_⟩
  simpa using plain

/-- One more extent is scaled. -/
theorem exists_scaleExtent (hf : f.Consistent)
    (scaled : f.Scaled g c extents identities map news rename) (placed : (f.blockOf i).isSome)
    (plain : f.outline.Does i fun op => op.isPhi = false) (new : i ∉ extents)
    (other : i ∉ identities) :
    ∃ h news' rename', Func.scaleExtent c.factor g i = .ok h ∧
      f.Scaled h c (i :: extents) identities map news' rename' := by
  obtain ⟨op, ty, line, plain⟩ := plain
  replace line : f.line i = some (op, ty) := line
  obtain ⟨idle, same⟩ := scaled.idle i new other
  obtain ⟨placedG, op', lineG, plainG⟩ := scaled.line_read hf placed line plain
  obtain ⟨h, answer, expands⟩ :=
    Func.exists_scaleExtent scaled.expands.consistent placedG lineG plainG c.factor
  refine ⟨h, _, _, answer, scaled.expands.one hf placed idle same expands, fun j hj hj' => ?_,
    fun j hj => ?_, fun j hj => ?_, fun j hj => ?_⟩
  · rw [List.mem_cons, not_or] at hj
    simpa [hj.1] using scaled.idle j hj.2 hj'
  · rintro op₁ ty₁ line₁
    by_cases here : j = i
    · subst here
      obtain ⟨-, rfl⟩ : op = op₁ ∧ ty = ty₁ := by simpa [line] using line₁
      exact ⟨g.insts.size, by simp⟩
    · simpa [here] using scaled.extent j ((List.mem_cons.mp hj).resolve_left here) op₁ ty₁ line₁
  · have here : j ≠ i := fun here => other (here ▸ hj)
    simpa [here] using scaled.identity j hj
  · obtain ⟨lt, k, hk, found⟩ := scaled.known j hj
    have here : k ≠ i := fun here => other (here ▸ hk)
    exact ⟨lt.trans_le expands.size, k, hk, by simpa [here] using found⟩

/-- One more identity is scaled. -/
theorem exists_scaleIdentity (hf : f.Consistent)
    (scaled : f.Scaled g c extents identities map news rename) (placed : (f.blockOf i).isSome)
    (plain : f.outline.Does i fun op => op.isPhi = false) (new : i ∉ identities)
    (other : i ∉ extents) :
    ∃ h base siblings news' rename',
      Func.scaleIdentity c.factor c.stride g i = .ok (h, base, siblings) ∧
      f.Scaled h c extents (i :: identities) ((map.insert base siblings).insert i siblings)
        news' rename' := by
  obtain ⟨op, ty, line, plain⟩ := plain
  replace line : f.line i = some (op, ty) := line
  obtain ⟨idle, same⟩ := scaled.idle i other new
  obtain ⟨placedG, op', lineG, plainG⟩ := scaled.line_read hf placed line plain
  obtain ⟨h, answer, expands⟩ :=
    Func.exists_scaleIdentity scaled.expands.consistent placedG lineG plainG c
  have old := lt_of_placed placedG
  have distinct : i ≠ ⟨g.insts.size + 3⟩ := by
    rintro rfl
    exact absurd old (by simp)
  have bare : map.get? ⟨g.insts.size + 3⟩ = none := by
    by_contra found
    have := (scaled.known _ (Option.isSome_iff_ne_none.mpr found)).1
    exact absurd this (by simp)
  have none := scaled.get?_eq_none placed new
  have get := get?_insert_both none bare distinct (siblingsAt c g.insts.size)
  have ofMap : ∀ j list, map.get? j = some list → ((map.insert ⟨g.insts.size + 3⟩
      (siblingsAt c g.insts.size)).insert i (siblingsAt c g.insts.size)).get? j = some list := by
    intro j list found
    rw [get, if_neg, found]
    rintro (rfl | rfl)
    · simp [none] at found
    · simp [bare] at found
  have placedH : (h.blockOf ⟨g.insts.size + 3⟩).isSome := by
    refine (expands.isSome_blockOf scaled.expands.consistent).mpr ⟨i, placedG, ?_⟩
    simp [only, identityLines, baseLines]
  refine ⟨h, _, _, _, _, answer, scaled.expands.one hf placed idle same expands,
    fun j hj hj' => ?_, fun j hj => ?_, fun j hj => ?_, fun j hj => ?_⟩
  · rw [List.mem_cons, not_or] at hj'
    simpa [hj'.1] using scaled.idle j hj hj'.2
  · have here : j ≠ i := fun here => other (here ▸ hj)
    simpa [here] using scaled.extent j hj
  · rintro op₁ ty₁ line₁
    by_cases here : j = i
    · subst here
      obtain ⟨-, rfl⟩ : op = op₁ ∧ ty = ty₁ := by simpa [line] using line₁
      exact ⟨g.insts.size, by simp [get]⟩
    · obtain ⟨n, lines, renamed, first, base⟩ :=
        scaled.identity j ((List.mem_cons.mp hj).resolve_left here) op₁ ty₁ line₁
      refine ⟨n, by simpa [here] using lines, by simpa [here] using renamed, ofMap _ _ first,
        ofMap _ _ base⟩
  · rw [get] at hj
    split at hj
    · rename_i here
      rcases here with rfl | rfl
      · exact ⟨old.trans_le expands.size, i, by simp⟩
      · exact ⟨lt_of_placed placedH, i, by simp⟩
    · obtain ⟨lt, k, hk, found⟩ := scaled.known j hj
      have here : k ≠ i := fun here => new (here ▸ hk)
      exact ⟨lt.trans_le expands.size, k, List.mem_cons_of_mem _ hk, by simpa [here] using found⟩

theorem exists_foldlM_scaleExtent (hf : f.Consistent) (reads : List InstId)
    (scaled : f.Scaled g c extents identities map news rename) (nodup : reads.Nodup)
    (placed : ∀ i ∈ reads, (f.blockOf i).isSome)
    (plain : ∀ i ∈ reads, f.outline.Does i fun op => op.isPhi = false)
    (new : ∀ i ∈ reads, i ∉ extents) (other : ∀ i ∈ reads, i ∉ identities) :
    ∃ h news' rename', reads.foldlM (Func.scaleExtent c.factor) g = .ok h ∧
      f.Scaled h c (reads.reverse ++ extents) identities map news' rename' := by
  induction reads generalizing g extents news rename with
  | nil => exact ⟨g, news, rename, rfl, scaled⟩
  | cons i rest ih =>
    rw [List.nodup_cons] at nodup
    simp only [List.forall_mem_cons] at placed plain new other
    obtain ⟨g₁, news₁, rename₁, answer, scaled⟩ :=
      scaled.exists_scaleExtent hf placed.1 plain.1 new.1 other.1
    obtain ⟨h, news', rename', answers, scaled⟩ := ih scaled nodup.2 placed.2 plain.2
      (fun j hj => by
        rw [List.mem_cons, not_or]
        exact ⟨fun here => nodup.1 (here ▸ hj), new.2 j hj⟩) other.2
    refine ⟨h, news', rename', ?_, by simpa using scaled⟩
    rw [List.foldlM_cons, answer]
    exact answers

theorem exists_scaleIdentities (hf : f.Consistent) (reads : List InstId)
    (scaled : f.Scaled g c extents identities map news rename) (nodup : reads.Nodup)
    (placed : ∀ i ∈ reads, (f.blockOf i).isSome)
    (plain : ∀ i ∈ reads, f.outline.Does i fun op => op.isPhi = false)
    (new : ∀ i ∈ reads, i ∉ identities) (other : ∀ i ∈ reads, i ∉ extents) :
    ∃ h map' news' rename', Func.scaleIdentities c.factor c.stride g map reads = .ok (h, map') ∧
      f.Scaled h c extents (reads.reverse ++ identities) map' news' rename' := by
  induction reads generalizing g identities map news rename with
  | nil => exact ⟨g, map, news, rename, rfl, scaled⟩
  | cons i rest ih =>
    rw [List.nodup_cons] at nodup
    simp only [List.forall_mem_cons] at placed plain new other
    obtain ⟨g₁, base, siblings, news₁, rename₁, answer, scaled⟩ :=
      scaled.exists_scaleIdentity hf placed.1 plain.1 new.1 other.1
    obtain ⟨h, map', news', rename', answers, scaled⟩ := ih scaled nodup.2 placed.2 plain.2
      (fun j hj => by
        rw [List.mem_cons, not_or]
        exact ⟨fun here => nodup.1 (here ▸ hj), new.2 j hj⟩) other.2
    refine ⟨h, map', news', rename', ?_, by simpa using scaled⟩
    simp only [scaleIdentities, answer]
    exact answers

end Scaled

/-- Placed reads of the place in the launch can be scaled. -/
theorem exists_scaleGrid (hf : f.Consistent) (grid : GridReads) (c : CoarseningParams)
    (valid : c.error? = none) (nodup : grid.all.Nodup)
    (placed : ∀ i ∈ grid.all, (f.blockOf i).isSome)
    (plain : ∀ i ∈ grid.all, f.outline.Does i fun op => op.isPhi = false) :
    ∃ g map news rename, f.scaleGrid grid c = .ok (.ok (g, map)) ∧
      f.Scaled g c (grid.extents c.level c.dim).reverse (grid.identities c.level c.dim).reverse
        map news rename := by
  have within : ∀ r, (grid.along r c.dim).Sublist grid.all := fun r =>
    List.Sublist.map _ List.filter_sublist
  have ofReads : ∀ r, ∀ i ∈ grid.along r c.dim, (i, r, c.dim) ∈ grid.reads := by
    intro r i hi
    obtain ⟨⟨j, r', d⟩, hj, rfl⟩ := List.mem_map.mp hi
    obtain ⟨mem, same⟩ := List.mem_filter.mp hj
    simp only [beq_iff_eq, Prod.mk.injEq] at same
    obtain ⟨rfl, rfl⟩ := same
    exact mem
  -- a read reads one register only
  have apart : ∀ i ∈ grid.identities c.level c.dim, i ∉ grid.extents c.level c.dim := by
    intro i hi hi'
    have same := List.inj_on_of_nodup_map nodup (ofReads _ i hi) (ofReads _ i hi') rfl
    cases hl : c.level <;> simp [hl, Level.identity, Level.extent] at same
  obtain ⟨g, news, rename, extents, scaled⟩ := (Scaled.refl hf c).exists_foldlM_scaleExtent hf
    (grid.extents c.level c.dim) (nodup.sublist (within _))
    (fun i hi => placed i ((within _).subset hi)) (fun i hi => plain i ((within _).subset hi))
    (by simp) (by simp)
  obtain ⟨h, map, news', rename', identities, scaled⟩ := scaled.exists_scaleIdentities hf
    (grid.identities c.level c.dim) (nodup.sublist (within _))
    (fun i hi => placed i ((within _).subset hi)) (fun i hi => plain i ((within _).subset hi))
    (by simp) (fun i hi => by simpa using apart i hi)
  refine ⟨h, map, news', rename', ?_, by simpa using scaled⟩
  simp only [scaleGrid, valid, extents, identities, bind, Except.bind, pure, Except.pure]

end Func

end KernelCoarsening
