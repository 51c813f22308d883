/-
The order in which instructions stand in a block.

A block is in shape if its phis come first and its only terminator comes last.  This can be seen from
the ranks of its instructions, which edits that keep the form of blocks keep in their order:

* `Func.Orderly`, `Func.Consistent.exists_shape_iff` — a block is in shape if its ranks are in order;
* `Func.Steers.orderly`, `Func.Steers.names` — a block stays in order, and its phis name what phis of
  the block named;
* `Func.namesOf_of_alter` — phis that come to name other blocks.
-/
import KernelCoarsening.Proofs.Flow.Matching
import KernelCoarsening.Proofs.Ir.Steering

namespace KernelCoarsening

namespace Func

variable {f g : Func} {b : BlockId} {i : InstId} {may : BlockId → Prop}

/-- Ranks in the order of a block: nothing follows a terminator, and a phi follows phis only. -/
def RankedBefore (r r' : Option (Bool × Bool)) : Prop :=
  r.any (·.2) = false ∧ (r'.any (·.1) = true → r.any (·.1) = true)

/-- The instructions of a block are in order, and the last one is a terminator. -/
structure Orderly (f : Func) (b : BlockId) : Prop where
  sorted : (f.ranks b).Pairwise RankedBefore
  ends : (f.ranks b).getLast?.join.any (·.2) = true

theorem ranks_eq : f.ranks b = (f.code b).map f.rankOf := by
  rw [ranks, forms, List.map_map]
  rfl

theorem rankOf_of_line {op : Operation} {ty : Ty} (line : f.line i = some (op, ty)) :
    f.rankOf i = some op.rank := by
  rw [rankOf, formOf_of_line line, Option.map_some, Operation.rank_form]

theorem rankOf_of_does {P : Operation → Prop} (h : f.outline.Does i P) :
    ∃ op, f.rankOf i = some op.rank ∧ P op := by
  obtain ⟨op, ty, line, hP⟩ := h
  exact ⟨op, rankOf_of_line line, hP⟩

/-- The rank of an instruction tells whether it is a phi. -/
theorem any_rankOf : (f.rankOf i).any (·.1) = f.outline.isPhi i := by
  have line : f.outline.line i = f.line i := rfl
  rw [Outline.isPhi, line, rankOf, formOf]
  cases f.line i <;> simp [Operation.rank]

theorem orderly_of_shape {phis body : List InstId} {last : InstId}
    (h : f.outline.Shape b phis body last) : f.Orderly b := by
  have code : f.code b = phis ++ (body ++ [last]) := h.code
  have phi : ∀ i ∈ phis, f.rankOf i = some (true, false) := by
    intro i hi
    obtain ⟨op, rank, phi⟩ := rankOf_of_does (h.phis i hi)
    rw [rank, Operation.rank, phi]
    cases op <;> simp_all [Operation.isPhi, Operation.isTerminator]
  have plain : ∀ i ∈ body, f.rankOf i = some (false, false) := by
    intro i hi
    obtain ⟨op, rank, phi, term⟩ := rankOf_of_does (h.body i hi)
    rw [rank, Operation.rank, phi, term]
  obtain ⟨op, rank, term⟩ := rankOf_of_does h.last
  have final : f.rankOf last = some (false, true) := by
    rw [rank, Operation.rank, term, Operation.not_isPhi_of_isTerminator term]
  constructor
  · rw [ranks_eq, code, List.pairwise_map, List.pairwise_append, List.pairwise_append]
    refine ⟨List.pairwise_of_forall_mem_list fun i hi j _ => ?_,
      ⟨List.pairwise_of_forall_mem_list fun i hi j hj => ?_, List.pairwise_singleton _ _,
        fun i hi j hj => ?_⟩, fun i hi j _ => ?_⟩
    · simp [RankedBefore, phi i hi]
    · simp [RankedBefore, plain i hi, plain j hj]
    · obtain rfl : j = last := by simpa using hj
      simp [RankedBefore, plain i hi, final]
    · simp [RankedBefore, phi i hi]
  · simp [ranks_eq, code, ← List.append_assoc, final]

theorem Consistent.exists_shape_iff (hf : f.Consistent) :
    (∃ phis body last, f.outline.Shape b phis body last) ↔ f.Orderly b := by
  refine ⟨fun ⟨_, _, _, shape⟩ => orderly_of_shape shape, fun ⟨sorted, ends⟩ => ?_⟩
  rw [ranks_eq] at sorted ends
  have does : ∀ i ∈ f.code b, ∃ op ty, f.line i = some (op, ty) ∧ f.rankOf i = some op.rank := by
    intro i hi
    obtain ⟨op, ty, line⟩ := exists_line (by simp [hf.mem_code.mp hi] : (f.blockOf i).isSome)
    exact ⟨op, ty, line, rankOf_of_line line⟩
  obtain ⟨last, hlast⟩ : ∃ last, (f.code b).getLast? = some last := by
    cases h : (f.code b).getLast? with
    | none => simp [List.getLast?_map, h] at ends
    | some last => exact ⟨last, rfl⟩
  obtain ⟨front, code⟩ := List.getLast?_eq_some_iff.mp hlast
  rw [code] at does
  rw [code, List.pairwise_map, List.pairwise_append] at sorted
  obtain ⟨sorted, -, early⟩ := sorted
  rw [List.forall_mem_append, List.forall_mem_singleton] at does
  obtain ⟨front_does, op, ty, line, rank⟩ := does
  have term : op.isTerminator = true := by
    simpa [List.getLast?_map, hlast, rank, Operation.rank] using ends
  refine ⟨front.takeWhile f.outline.isPhi, front.dropWhile f.outline.isPhi, last, ?_, fun i hi => ?_,
    fun i hi => ?_, op, ty, line, term⟩
  · rw [← List.append_assoc, List.takeWhile_append_dropWhile]
    exact code
  · obtain ⟨op, ty, line, -⟩ := front_does i (List.takeWhile_subset _ hi)
    have phi := List.mem_takeWhile_imp hi
    exact ⟨op, ty, line, by simpa [Outline.isPhi, show f.outline.line i = _ from line] using phi⟩
  · obtain ⟨op, ty, line, rank⟩ := front_does i ((List.dropWhile_sublist _).subset hi)
    have before := early i ((List.dropWhile_sublist _).subset hi) last (List.mem_singleton_self _)
    refine ⟨op, ty, line, ?_, by simpa [RankedBefore, rank, Operation.rank] using before.1⟩
    -- the first one that is no phi is followed by no phi
    have rest := sorted.sublist (List.dropWhile_sublist f.outline.isPhi)
    cases drop : front.dropWhile f.outline.isPhi with
    | nil => simp [drop] at hi
    | cons j rest' =>
      have first : f.outline.isPhi j = false := by
        have := List.head?_dropWhile_not f.outline.isPhi front
        simpa [drop] using this
      rw [drop] at hi rest
      have kind : f.outline.isPhi i = op.isPhi := by
        simp [Outline.isPhi, show f.outline.line i = _ from line]
      rw [← kind, ← Bool.not_eq_true]
      rcases List.mem_cons.mp hi with rfl | hi
      · simp [first]
      · have follows := ((List.pairwise_cons.mp rest).1 i hi).2
        rw [any_rankOf, any_rankOf, first] at follows
        exact fun phi => absurd (follows phi) (by simp)

theorem namesOf_eq : f.namesOf i = (f.formOf i).bind (·.names?) := by
  rw [namesOf, formOf]
  cases f.line i <;> simp [Operation.form]

namespace Steers

theorem orderly (steers : f.Steers may RankedBefore g) (orderly : f.Orderly b) : g.Orderly b where
  sorted := steers.order b orderly.sorted
  ends := by
    have last := orderly.ends
    rw [ranks, List.getLast?_map] at last ⊢
    rwa [steers.last]

/-- No phi names other blocks than a phi of the block named. -/
theorem names {before : Option (Bool × Bool) → Option (Bool × Bool) → Prop}
    {names : List BlockId} (steers : f.Steers may before g) (named : g.Names b names) :
    f.Names b names := by
  obtain ⟨i, inside, named⟩ := named
  obtain ⟨j, hj, same⟩ := List.mem_map.mp (steers.mirrored b _ (List.mem_map_of_mem inside))
  exact ⟨j, hj, by rw [namesOf_eq, same, ← namesOf_eq, named]⟩

end Steers

/-- A block whose instructions have the ranks of those of a block in order is in order. -/
theorem Orderly.of_map {c : BlockId} {m : InstId → InstId} (orderly : f.Orderly b)
    (code : g.code c = (f.code b).map m) (rankOf : ∀ i ∈ f.code b, g.rankOf (m i) = f.rankOf i) :
    g.Orderly c := by
  have same : g.ranks c = f.ranks b := by
    rw [ranks_eq, ranks_eq, code, List.map_map]
    exact List.map_congr_left rankOf
  exact ⟨same ▸ orderly.sorted, same ▸ orderly.ends⟩

/-- Some phis come to name other blocks. -/
theorem namesOf_of_alter {p : InstId → Prop} [DecidablePred p] {k : Operation → Operation}
    {r : BlockId → BlockId} (same : g.outline = f.outline.alter p k)
    (renames : ∀ op, (k op).names? = op.names?.map (List.map r)) :
    g.namesOf i = if p i then (f.namesOf i).map (List.map r) else f.namesOf i := by
  have line : g.line i = _ := congrFun (congrArg Outline.line same) i
  rw [namesOf, namesOf, line, Outline.line_alter]
  split
  · cases h : f.line i <;> simp [outline, h, renames]
  · rfl

end Func

end KernelCoarsening
