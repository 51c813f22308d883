/-
Divergence that does not reach control flow.

If no branch is divergent, an instruction is divergent for one of three reasons: it reads the
merged identity, it reads something divergent, or it accesses a shared global that something
divergent accesses.  There are no regions then, and all that is divergent lies outside them.

* `Func.spread_induction` — what holds of everything that follows from members of a set holds of
  the set;
* `Func.mem_along` — the reads of a register are the placed calls of its accessor;
* `Func.instructions_eq_flatMap` — the listing of the divergent instructions, block by block;
* `Func.Straight` — all blocks can be reached, and no branch is divergent;
* `Func.Straight.reason` — why an instruction is divergent;
* `Func.Straight.mem_outermostInstructions` — what is repeated in place.
-/
import KernelCoarsening.Proofs.Divergence.Accesses
import KernelCoarsening.Proofs.Divergence.Spread
import KernelCoarsening.Proofs.Ir.Shape

namespace KernelCoarsening

namespace Func

variable {f : Func} {selector : DimensionSelector} {shared : List GlobalId} {level : Level}
  {dim : Dimension} {found : DivergentFunc} {ops : List (InstId × Operation)}
  {accesses : List (InstId × GlobalId)} {i : InstId}

/-! ### Where divergence comes from -/

theorem mem_spread {follow : InstId → Except Fault (List InstId)} {set stack result : List InstId}
    (h : f.spread follow set stack = .ok result) (hi : i ∈ set ∨ i ∈ stack) : i ∈ result := by
  induction set, stack using Func.spread.induct f follow with
  | case1 set =>
    obtain rfl : set = result := by simpa [spread] using h
    simpa using hi
  | case2 set j rest old ih =>
    rw [spread, dif_pos old] at h
    refine ih h ?_
    rcases hi with hi | hi
    · exact .inl hi
    · rcases List.mem_cons.mp hi with rfl | hi
      · exact .inl old
      · exact .inr hi
  | case3 set j rest new slot more hm ih =>
    rw [spread, dif_neg new, dif_pos slot, hm] at h
    refine ih h ?_
    simp only [List.mem_cons, List.mem_append] at hi ⊢
    tauto
  | case4 set j rest new slot fault hm =>
    rw [spread, dif_neg new, dif_pos slot, hm] at h
    simp at h
  | case5 set j rest new slot =>
    rw [spread, dif_neg new, dif_neg slot] at h
    simp at h

/-- A property of the set and the stack, and of everything that follows from a member of the
result, is one of the result. -/
theorem spread_induction {follow : InstId → Except Fault (List InstId)}
    {set stack result : List InstId} {P : InstId → Prop}
    (h : f.spread follow set stack = .ok result) (known : ∀ i, i ∈ set ∨ i ∈ stack → P i)
    (next : ∀ i ∈ result, P i → ∀ more, follow i = .ok more → ∀ j ∈ more, P j) :
    ∀ i ∈ result, P i := by
  -- along the recursion of the search: it only pushes what follows from the member it has taken
  induction set, stack using Func.spread.induct f follow with
  | case1 set =>
    obtain rfl : set = result := by simpa [spread] using h
    exact fun i hi => known i (.inl hi)
  | case2 set j rest old ih =>
    rw [spread, dif_pos old] at h
    exact ih h fun i hi => known i (hi.imp_right fun hi => List.mem_cons_of_mem _ hi)
  | case3 set j rest new slot more hm ih =>
    rw [spread, dif_neg new, dif_pos slot, hm] at h
    refine ih h fun i hi => ?_
    rcases hi with hi | hi
    · rcases List.mem_cons.mp hi with rfl | hi
      · exact known i (.inr (by simp))
      · exact known i (.inl hi)
    · rcases List.mem_append.mp hi with hi | hi
      · exact next j (mem_spread h (.inl (by simp))) (known j (.inr (by simp))) more hm i hi
      · exact known i (.inr (List.mem_cons_of_mem _ hi))
  | case4 set j rest new slot fault hm =>
    rw [spread, dif_neg new, dif_pos slot, hm] at h
    simp at h
  | case5 set j rest new slot =>
    rw [spread, dif_neg new, dif_neg slot] at h
    simp at h

/-- A search finds instructions that exist. -/
theorem lt_of_mem_spread {follow : InstId → Except Fault (List InstId)}
    {set stack result : List InstId} (h : f.spread follow set stack = .ok result)
    (known : ∀ i ∈ set, i.index < f.insts.size) : ∀ i ∈ result, i.index < f.insts.size := by
  induction set, stack using Func.spread.induct f follow with
  | case1 set =>
    obtain rfl : set = result := by simpa [spread] using h
    exact known
  | case2 set j rest old ih =>
    rw [spread, dif_pos old] at h
    exact ih h known
  | case3 set j rest new slot more hm ih =>
    rw [spread, dif_neg new, dif_pos slot, hm] at h
    exact ih h (List.forall_mem_cons.mpr ⟨slot, known⟩)
  | case4 set j rest new slot fault hm =>
    rw [spread, dif_neg new, dif_pos slot, hm] at h
    simp at h
  | case5 set j rest new slot =>
    rw [spread, dif_neg new, dif_neg slot] at h
    simp at h

/-- From an instruction that is no branch follow its readers, and accesses. -/
theorem mem_of_divergentWith {flow : Flow} {more : List InstId} {op : Operation}
    (h : f.divergentWith flow ops accesses i = .ok more) (hop : f.operation i = .ok op)
    (plain : op.isBranch = false) {j : InstId} (hj : j ∈ more) :
    j ∈ readersOf ops i ∨ j ∈ accesses.map (·.1) := by
  unfold divergentWith at h
  simp only [hop, plain, bind_eq_ok_iff, Except.ok.injEq, exists_eq_left'] at h
  obtain ⟨joined, none, root, -, h⟩ := h
  obtain rfl := Except.ok.inj none
  obtain rfl := Except.ok.inj h
  simp only [List.append_nil, List.mem_append] at hj
  refine hj.imp_right fun hj => ?_
  cases root with
  | none => simp at hj
  | some g =>
    obtain ⟨p, hp, rfl⟩ := List.mem_map.mp hj
    exact List.mem_map_of_mem (List.mem_filter.mp hp).1

/-! ### Reads of registers -/

/-- The reads of a register are the placed calls of its accessor. -/
theorem mem_along (consistent : f.Consistent) {grid : GridReads}
    (h : f.gridReads selector = .ok grid) (included : selector.includes dim) {r : Register} :
    i ∈ grid.along r dim ↔ (f.blockOf i).isSome ∧
      f.outline.Does i fun op => op.callee?.bind Register.ofAccessor? = some (r, dim) := by
  obtain ⟨ops, listing, rfl⟩ := map_eq_ok_iff.mp h
  simp only [GridReads.along, GridReads.ofOperations, List.mem_map, List.mem_filter,
    List.mem_filterMap]
  constructor
  · rintro ⟨⟨i, register, d⟩, ⟨⟨⟨j, op⟩, hj, read⟩, same⟩, rfl⟩
    obtain ⟨⟨b, hb⟩, hop⟩ := (mem_operations consistent listing).mp hj
    obtain ⟨ty, line⟩ := operation_eq_ok_iff.mp hop
    obtain ⟨rfl, rfl⟩ : register = r ∧ d = dim := by simpa using same
    simp only [Option.bind_eq_bind, Option.bind_eq_some_iff, Option.ite_none_right_eq_some,
      Option.some.injEq, Prod.mk.injEq] at read
    obtain ⟨callee, hcallee, ⟨register', d'⟩, accessor, -, rfl, rfl, rfl⟩ := read
    exact ⟨by simp [hb], op, ty, line, by simp [hcallee, accessor]⟩
  · rintro ⟨placed, op, ty, line, read⟩
    have listed := (mem_operations consistent listing).mpr
      ⟨Option.isSome_iff_exists.mp placed, operation_eq_ok_iff.mpr ⟨ty, line⟩⟩
    obtain ⟨callee, hcallee, accessor⟩ := Option.bind_eq_some_iff.mp read
    exact ⟨(i, r, dim), ⟨⟨(i, op), listed, by simp [hcallee, accessor, included]⟩, by simp⟩, rfl⟩

/-- Every read is one of a register. -/
theorem mem_all_reads {grid : GridReads} (h : f.gridReads (.only dim) = .ok grid) :
    i ∈ grid.all ↔ ∃ r, i ∈ grid.along r dim := by
  obtain ⟨ops, -, rfl⟩ := map_eq_ok_iff.mp h
  constructor
  · intro hi
    obtain ⟨⟨i, r, d⟩, hread, rfl⟩ := List.mem_map.mp hi
    obtain ⟨⟨j, op⟩, -, read⟩ := List.mem_filterMap.mp hread
    simp only [Option.bind_eq_bind, Option.bind_eq_some_iff, Option.ite_none_right_eq_some,
      Option.some.injEq, Prod.mk.injEq] at read
    obtain ⟨_, _, ⟨r', d'⟩, _, included, -, rfl, rfl⟩ := read
    obtain rfl : dim = d' := by simpa [DimensionSelector.includes] using included
    exact ⟨r', List.mem_map.mpr ⟨_, List.mem_filter.mpr ⟨hread, by simp⟩, rfl⟩⟩
  · rintro ⟨r, hi⟩
    exact (List.Sublist.map _ List.filter_sublist).subset hi

theorem sublist_map_fst_filterMap {α β γ : Type} {k : α × β → Option (α × γ)}
    (keep : ∀ p q, k p = some q → q.1 = p.1) {xs : List (α × β)} :
    ((xs.filterMap k).map (·.1)).Sublist (xs.map (·.1)) := by
  induction xs with
  | nil => simp
  | cons p xs ih =>
    cases hk : k p with
    | none => simpa [hk] using ih.cons p.1
    | some q => simpa [hk, keep p q hk] using ih

theorem map_fst_operations (h : f.operations = .ok ops) :
    ops.map (·.1) = f.layout.flatMap f.code := by
  obtain ⟨all, listed, answers⟩ := bind_eq_ok_iff.mp h
  rw [← instructions_eq listed, ← List.flatMap_singleton' all, ← List.flatMap_pure_eq_map]
  refine flatMap_of_mapM_eq_ok answers fun i p answer => ?_
  obtain ⟨op, -, answer⟩ := bind_eq_ok_iff.mp answer
  obtain rfl := Except.ok.inj answer
  rfl

theorem nodup_reads (consistent : f.Consistent) {grid : GridReads}
    (h : f.gridReads selector = .ok grid) : grid.all.Nodup := by
  obtain ⟨ops, listing, rfl⟩ := map_eq_ok_iff.mp h
  have nodup := nodup_flatMap_code consistent consistent.layout_nodup
  rw [← map_fst_operations listing] at nodup
  refine nodup.sublist (sublist_map_fst_filterMap fun p q read => ?_)
  simp only [Option.bind_eq_bind, Option.bind_eq_some_iff, Option.ite_none_right_eq_some,
    Option.some.injEq] at read
  obtain ⟨_, _, _, _, -, rfl⟩ := read
  rfl

/-! ### The listing -/

/-- The listing of an analysis goes through the blocks that control can come to, each once, in the
order of their code. -/
theorem instructions_eq_flatMap {d : Divergence}
    (placed : ∃ order listed, f.reversePostorder = .ok order ∧ (order.mapM fun b => do
        return ((← f.block b).insts.filter d.set.contains).map (·, b)) = .ok listed ∧
      d.placed = listed.flatten) :
    ∃ order, f.reversePostorder = .ok order ∧ order.Nodup ∧
      d.instructions = order.flatMap fun b => (f.code b).filter d.isDivergent := by
  obtain ⟨order, listed, postorder, answers, placed⟩ := placed
  refine ⟨order, postorder, ?_, ?_⟩
  · obtain ⟨g, -, answer⟩ := bind_eq_ok_iff.mp postorder
    obtain rfl := Except.ok.inj answer
    split
    · exact List.nodup_nil
    · exact (g.nodup_reversePostorder _).map fun a b same => by simpa using same
  · rw [Divergence.instructions, placed, List.map_flatten, ← List.flatMap_def]
    refine flatMap_of_mapM_eq_ok answers fun b row answer => ?_
    obtain ⟨block, hb, answer⟩ := bind_eq_ok_iff.mp answer
    obtain rfl := Except.ok.inj answer
    rw [show d.isDivergent = d.set.contains from rfl, code_of_block hb, List.map_map]
    exact List.map_id _

/-- The listing has each instruction once. -/
theorem nodup_instructions (consistent : f.Consistent) {d : Divergence}
    (placed : ∃ order listed, f.reversePostorder = .ok order ∧ (order.mapM fun b => do
        return ((← f.block b).insts.filter d.set.contains).map (·, b)) = .ok listed ∧
      d.placed = listed.flatten) : d.instructions.Nodup := by
  obtain ⟨order, -, nodup, listing⟩ := instructions_eq_flatMap placed
  rw [listing, ← List.filter_flatMap]
  exact (nodup_flatMap_code consistent nodup).filter _

/-- What is repeated in place is repeated once. -/
theorem Analyzed.nodup_outermostInstructions
    (a : f.Analyzed selector level dim found ops accesses) (consistent : f.Consistent) :
    found.divergence.outermostInstructions.Nodup :=
  (nodup_instructions consistent a.placed).filter _

/-! ### Functions without divergent branches -/

/-- All blocks of a function can be reached, and no branch is divergent. -/
structure Straight (f : Func) (level : Level) (dim : Dimension) (found : DivergentFunc)
    (ops : List (InstId × Operation)) (accesses : List (InstId × GlobalId)) : Prop where
  consistent : f.Consistent
  analyzed : f.Analyzed (.only dim) level dim found ops accesses
  accesses : ∀ p ∈ accesses, (f.blockOf p.1).isSome ∧
    f.outline.Does p.1 fun op => op.address?.isSome
  reached : ∀ b ∈ f.layout, found.flow.graph.Reaches f.entry.index b.index
  branches : found.divergence.branches = []

namespace Straight

variable (straight : f.Straight level dim found ops accesses)
include straight

theorem mem_placed {b : BlockId} : (i, b) ∈ found.divergence.placed ↔
    f.blockOf i = some b ∧ i ∈ found.divergence.set := by
  rw [straight.analyzed.mem_placed straight.consistent]
  refine ⟨fun h => h.2.2, fun h => ⟨straight.consistent.isDeclaration_of_blockOf h.1, ?_, h⟩⟩
  have slot := slot_of_mem_code (straight.consistent.mem_code.mpr h.1)
  exact straight.reached b ((straight.consistent.mem_layout b).mpr slot)

theorem not_isBranch (divergent : i ∈ found.divergence.set) (placed : (f.blockOf i).isSome)
    {op : Operation} (hop : f.operation i = .ok op) : op.isBranch = false := by
  obtain ⟨b, hb⟩ := Option.isSome_iff_exists.mp placed
  obtain ⟨body, reached, -⟩ := (straight.analyzed.mem_placed straight.consistent).mp
    (straight.mem_placed.mpr ⟨hb, divergent⟩)
  by_contra branch
  have mem := (straight.analyzed.mem_branches straight.consistent).mpr
    ⟨body, b, op, reached, hb, divergent, hop, by simpa using branch⟩
  simp [straight.branches] at mem

/-- A divergent instruction is placed, and it reads the merged identity, or it reads something, or
it accesses memory. -/
theorem reason : ∀ i ∈ found.divergence.set, (f.blockOf i).isSome ∧
    (i ∈ found.grid.identities level dim ∨
      f.outline.Does i fun op => op.usedInsts ≠ [] ∨ op.address?.isSome) := by
  refine spread_induction straight.analyzed.set (fun i hi => ?_)
    fun i divergent known more hm j hj => ?_
  · have read : i ∈ found.grid.identities level dim := by simpa using hi
    exact ⟨((mem_along straight.consistent straight.analyzed.grid
      (by simp [DimensionSelector.includes])).mp read).1, .inl read⟩
  · obtain ⟨inst, hinst⟩ := exists_inst (lt_of_placed known.1)
    have hop : f.operation i = .ok inst.op := operation_eq_ok_iff.mpr ⟨inst.ty, line_of_inst hinst⟩
    rcases mem_of_divergentWith hm hop (straight.not_isBranch divergent known.1 hop) hj with hj | hj
    · obtain ⟨op, listed, reads⟩ := mem_readersOf.mp hj
      obtain ⟨placed, hop⟩ := (mem_operations straight.consistent straight.analyzed.listing).mp listed
      obtain ⟨ty, line⟩ := operation_eq_ok_iff.mp hop
      exact ⟨Option.isSome_iff_exists.mpr placed, .inr ⟨op, ty, line, .inl (List.ne_nil_of_mem reads)⟩⟩
    · obtain ⟨p, hp, rfl⟩ := List.mem_map.mp hj
      obtain ⟨placed, does⟩ := straight.accesses p hp
      exact ⟨placed, .inr (does.mono fun _ => .inr)⟩

theorem regions : found.divergence.regions = [] := by
  obtain ⟨regions, made, kept⟩ := straight.analyzed.discovered
  rw [straight.branches] at made
  obtain rfl : [] = regions := by simpa [Region.ofBranches] using made
  rw [kept]
  rfl

theorem outermostRegions : found.divergence.outermostRegions = [] := by
  rw [Divergence.outermostRegions, straight.regions]
  rfl

/-- All divergent instructions lie outside regions. -/
theorem mem_outermostInstructions : i ∈ found.divergence.outermostInstructions ↔
    i ∈ found.divergence.set ∧ i ∉ found.grid.all := by
  simp only [Divergence.outermostInstructions, Divergence.instructions, straight.regions,
    straight.analyzed.reads, List.mem_filter, List.mem_map]
  constructor
  · rintro ⟨⟨⟨i, b⟩, hi, rfl⟩, kept⟩
    exact ⟨(straight.mem_placed.mp hi).2, fun read => by simp [read] at kept⟩
  · rintro ⟨divergent, other⟩
    obtain ⟨b, hb⟩ := Option.isSome_iff_exists.mp (straight.reason i divergent).1
    have mem := straight.mem_placed.mpr ⟨hb, divergent⟩
    have found : (found.divergence.blockOf? i).isSome := by
      simp only [Divergence.blockOf?, Option.isSome_map, List.find?_isSome, List.mem_reverse]
      exact ⟨(i, b), mem, by simp⟩
    obtain ⟨b', hb'⟩ := Option.isSome_iff_exists.mp found
    exact ⟨⟨(i, b), mem, rfl⟩, by simp [other, hb']⟩

end Straight

end Func

end KernelCoarsening
