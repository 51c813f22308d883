/-
Cutting a block cannot be seen from the other blocks.

When a block is cut in two, its instructions are spread over the two parts in their order, and the
blocks that were there reach, dominate and post-dominate each other as they did, also where control
does not come.  The function has no flaws afterwards unless a phi had an entry for the block that is
new, which no check reports while that block is not there:

* `Func.dominates_dominators_iff`, `Func.dominates_postDominators_iff` — what the trees answer, said
  with ways of control;
* `Func.SameStanding`, `Func.Cut.sameStanding` — two blocks stand to each other after a cut as before;
* `Func.Unnamed`, `Func.Cut.flawless_iff` — phis have no entry for the block that is to come, and
  this is what it takes;
* `Func.splitBlock_transparent` — all of it for the function that a cut leaves;
* `not_flawless_namedEarly` — a phi that had named the new block.
-/
import KernelCoarsening.Proofs.Coarsening.WellFormedness

namespace KernelCoarsening

open Operation (redirect)

namespace Func

variable {f g : Func} {b c x y : BlockId} {graph before after : Graph}

/-! ### What the trees answer -/

/-- The graph turned round, with a node behind the ends that control comes to. -/
def turned (f : Func) (graph : Graph) : Graph :=
  graph.exitGraph (graph.ends (graph.reversePostorder f.entry.index)) Graph.ends_lt

section

variable (hf : f.Consistent) (hg : f.graph = .ok graph)

include hf hg

theorem isEnd_iff : graph.IsEnd b.index ↔ f.leads b = [] := by
  rw [Graph.IsEnd, List.eq_nil_iff_forall_not_mem, List.eq_nil_iff_forall_not_mem]
  constructor
  · exact fun none c edge => none c.index ((hf.mem_next hg).mpr edge)
  · exact fun none v edge => none ⟨v⟩ ((hf.mem_next hg).mp edge)

/-- Ways to an end that do not come to a block are paths of the graph that avoid it. -/
theorem ends_iff_before {P : BlockId → Prop} : f.Ends (· ≠ x) P y ↔
    ∃ e : BlockId, graph.IsEnd e.index ∧ P e ∧ graph.Before x.index y.index e.index :=
  exists_congr fun _ => and_congr (isEnd_iff hf hg).symm
    (and_congr_right fun _ => (avoids_iff hf hg).symm)

theorem postDominates_iff :
    graph.PostDominates x.index y.index ↔ ¬ f.Ends (· ≠ x) (fun _ => True) y := by
  rw [ends_iff_before hf hg]
  constructor
  · rintro post ⟨e, isEnd, -, nodes, p, away⟩
    exact away (post e.index nodes isEnd p)
  · intro none v nodes isEnd p
    by_contra away
    exact none ⟨⟨v⟩, isEnd, trivial, nodes, p, away⟩

variable (body : f.isDeclaration = false)

include body

/-- The dominator tree answers for all blocks: one that control does not come to has only itself
above it. -/
theorem dominates_dominators_iff :
    (f.dominators graph).dominates x y ↔ x = y ∨ f.Comes y ∧ f.Governs x y := by
  have entry := entry_lt_size hf body hg
  have comes : graph.Reaches f.entry.index y.index ↔ f.Comes y := reaches_iff_goes hf hg
  by_cases reached : graph.Reaches f.entry.index y.index
  · rw [dominates_dominators entry body reached, governs_iff hf hg]
    constructor
    · exact fun above => .inr ⟨comes.mp reached, above⟩
    · rintro (rfl | ⟨-, above⟩)
      · exact fun above => above.2 rfl
      · exact above
  · have lost := comes.not.mp reached
    simp [DominatorTree.dominates, dominators, body,
      Graph.mem_ancestors_parents_of_not_reaches entry reached, BlockId.index_inj, lost]

theorem mem_ends_iff : b.index ∈ graph.ends (graph.reversePostorder f.entry.index) ↔
    graph.IsEnd b.index ∧ f.Comes b := by
  have entry := entry_lt_size hf body hg
  have comes : graph.Reaches f.entry.index b.index ↔ f.Comes b := reaches_iff_goes hf hg
  rw [Graph.mem_ends, Graph.mem_reversePostorder entry, comes]
  constructor
  · rintro ⟨-, here, isEnd⟩
    exact ⟨isEnd, here⟩
  · rintro ⟨isEnd, here⟩
    exact ⟨(comes.mpr here).lt_size entry, here, isEnd⟩

/-- The node behind the ends reaches what has a way to an end that control comes to. -/
theorem reaches_turned_iff (hy : y.index < graph.size) :
    (f.turned graph).Reaches graph.size y.index ↔ f.Ends (fun _ => True) f.Comes y := by
  rw [turned, Graph.reaches_behind_iff hy]
  constructor
  · rintro ⟨e, he, reach⟩
    obtain ⟨isEnd, comes⟩ := (mem_ends_iff hf hg body (b := ⟨e⟩)).mp he
    have goes := (reaches_iff_goes hf hg (c := ⟨e⟩)).mp reach
    exact ⟨⟨e⟩, (isEnd_iff hf hg).mp isEnd, comes, goes_iff_way.mp goes, trivial⟩
  · rintro ⟨e, none, comes, way, -⟩
    have isEnd := (isEnd_iff hf hg).mpr none
    exact ⟨e.index, (mem_ends_iff hf hg body).mpr ⟨isEnd, comes⟩,
      (reaches_iff_goes hf hg).mpr way.goes⟩

theorem dominates_turned_iff (hx : x.index ≠ graph.size) (hy : y.index < graph.size) :
    (f.turned graph).Dominates graph.size x.index y.index ↔ ¬ f.Ends (· ≠ x) f.Comes y := by
  rw [turned, Graph.dominates_behind_iff hy hx, ends_iff_before hf hg]
  constructor
  · rintro all ⟨e, isEnd, comes, nodes, p, away⟩
    exact away (all e.index ((mem_ends_iff hf hg body).mpr ⟨isEnd, comes⟩) nodes p)
  · intro none e he nodes p
    obtain ⟨isEnd, comes⟩ := (mem_ends_iff hf hg body (b := ⟨e⟩)).mp he
    by_contra away
    exact none ⟨⟨e⟩, isEnd, comes, nodes, p, away⟩

/-- The post-dominator tree answers for all blocks: above one are those on all its ways to an end
that control comes to, if there is such a way, and otherwise only itself. -/
theorem dominates_postDominators_iff (hx : x.index ≠ graph.size) (hy : y.index < graph.size) :
    (f.postDominators graph).dominates x y ↔
      x = y ∨ f.Ends (fun _ => True) f.Comes y ∧ ¬ f.Ends (· ≠ x) f.Comes y := by
  have valid : graph.size < (f.turned graph).size := by simp [turned]
  rw [PostDominatorTree.dominates, decide_eq_true_eq, parents_postDominators body,
    ← reaches_turned_iff hf hg body hy, ← dominates_turned_iff hf hg body hx hy, ← turned]
  by_cases reached : (f.turned graph).Reaches graph.size y.index
  · rw [Graph.mem_ancestors_parents valid reached]
    constructor
    · exact fun above => .inr ⟨reached, above⟩
    · rintro (rfl | ⟨-, above⟩)
      · exact .refl _ _ _
      · exact above
  · rw [Graph.mem_ancestors_parents_of_not_reaches valid reached, BlockId.index_inj]
    simp [reached]

end

/-! ### Before and after a cut -/

/-- In two functions, one block reaches, dominates and post-dominates another alike, over all paths
and in the trees. -/
structure SameStanding (f g : Func) (before after : Graph) (x y : BlockId) : Prop where
  reaches : after.Reaches x.index y.index ↔ before.Reaches x.index y.index
  governs : after.Dominates g.entry.index x.index y.index ↔
    before.Dominates f.entry.index x.index y.index
  dominates : (g.dominators after).dominates x y = (f.dominators before).dominates x y
  meets : after.PostDominates x.index y.index ↔ before.PostDominates x.index y.index
  postDominates : (g.postDominators after).dominates x y = (f.postDominators before).dominates x y

/-- If control comes to `b`, phis that control comes to have an entry for the next new block only
where that block would lead if `b` were cut. -/
def Unnamed (f : Func) (b : BlockId) : Prop :=
  f.Comes b → ∀ c names, f.Names c names → f.Comes c → ⟨f.blocks.size⟩ ∈ names → c ∈ f.leads b

/-- Phis that name blocks of the function only leave the next one unnamed. -/
theorem unnamed_of_tidy (tidy : f.outline.Tidy) (b : BlockId) : f.Unnamed b :=
  fun _ _ _ named _ new => absurd new (not_mem_names tidy named)

namespace Cut

variable {phis front back : List InstId} {last : InstId} {targets names : List BlockId}
  (cut : f.Cut g b phis front back last targets) (formed : f.outline.Formed)

include cut formed

/-- Phis are still there after the cut. -/
theorem names_of (named : f.Names c names) :
    g.Names c (if c ∈ f.leads b then names.map (redirect b ⟨f.blocks.size⟩) else names) := by
  obtain ⟨i, mem, incoming, ty, line, rfl⟩ := names_iff.mp named
  have phi : f.outline.Does i fun op => op.isPhi = true := ⟨_, ty, line, rfl⟩
  have still : i ∈ g.code c := by
    rw [cut.code, if_neg ((cut.severs formed).ne_of_names named)]
    split
    · rename_i here
      subst here
      have inside := cut.shape.mem_phis.mpr ⟨mem, Outline.isPhi_of_does phi⟩
      exact List.mem_append_left _ (cut.shape.phis_eq ▸ inside)
    · exact mem
  have line' := cut.line_of_lt (line_isSome_iff.mp (Option.isSome_of_eq_some line))
  rw [Outline.line_alter, show f.outline.line i = _ from line] at line'
  refine names_iff.mpr ⟨i, still, ?_⟩
  by_cases edge : c ∈ f.leads b
  · rw [if_pos ((cut.mem_renamed_iff formed mem phi).mpr edge)] at line'
    exact ⟨_, ty, line', by simp [edge, Function.comp_def]⟩
  · rw [if_neg ((cut.mem_renamed_iff formed mem phi).not.mpr edge)] at line'
    exact ⟨_, ty, line', by simp [edge]⟩

theorem linked : g.Linked := linked_of_formed (cut.formed formed)

/-- A cut leaves a function without flaws exactly if the block that comes next is unnamed. -/
theorem flawless_iff (flawless : f.firstFlaw? = .ok none) :
    g.firstFlaw? = .ok none ↔ f.Unnamed b := by
  have consistent := consistent_iff.mpr formed.consistent
  obtain ⟨before, hf⟩ := (linked_of_formed formed).answers_graph
  obtain ⟨after, hg⟩ := (cut.linked formed).answers_graph
  have phis := (matches_iff consistent hf).mp ((Func.flawless_iff consistent hf).mp flawless).2
  rw [Func.flawless_iff cut.consistent hg, and_iff_right (cut.formed formed),
    matches_iff cut.consistent hg,
    (cut.severs formed).matches_iff phis fun _ _ named => cut.names_of formed named]
  rfl

/-- Blocks that were there stand to each other as they did: their ways pass the new block where they
went over the jump, and what they pass besides is the same. -/
theorem sameStanding (hf : f.graph = .ok before) (hg : g.graph = .ok after)
    (hx : x.index < f.blocks.size) (hy : y.index < f.blocks.size) :
    f.SameStanding g before after x y := by
  have consistent := consistent_iff.mpr formed.consistent
  have severs := cut.severs formed
  have inserts := severs.inserts
  have old : ∀ {z : BlockId}, z.index < f.blocks.size → z ≠ ⟨f.blocks.size⟩ := by
    rintro z hz rfl
    exact Nat.lt_irrefl _ hz
  have slot := slot_of_shape cut.shape
  have bodyF := consistent.isDeclaration_of_slot slot
  have bodyG := cut.consistent.isDeclaration_of_slot (b := b) (by rw [cut.blocks]; omega)
  have sizeF := size_graph hf
  have sizeG := (size_graph hg).trans cut.blocks
  have comes : ∀ e, e ≠ (⟨f.blocks.size⟩ : BlockId) → (g.Comes e ↔ f.Comes e) :=
    fun _ => inserts.comes_iff
  constructor
  · rw [reaches_iff_goes cut.consistent hg, reaches_iff_goes consistent hf]
    exact inserts.goes_iff (old hx) (old hy)
  · rw [governs_iff cut.consistent hg, governs_iff consistent hf]
    exact inserts.governs_iff (old hx) (old hy)
  · rw [Bool.eq_iff_iff, dominates_dominators_iff cut.consistent hg bodyG,
      dominates_dominators_iff consistent hf bodyF, comes y (old hy),
      inserts.governs_iff (old hx) (old hy)]
  · rw [postDominates_iff cut.consistent hg, postDominates_iff consistent hf]
    exact not_congr (severs.ends_iff (old hx).symm (old hy) (fun _ _ => .rfl) .rfl)
  · rw [Bool.eq_iff_iff, dominates_postDominators_iff cut.consistent hg bodyG (by omega) (by omega),
      dominates_postDominators_iff consistent hf bodyF (by omega) (by omega),
      severs.ends_iff trivial (old hy) comes severs.comes_new_iff,
      severs.ends_iff (old hx).symm (old hy) comes severs.comes_new_iff]

end Cut

/-! ### The cut function -/

/-- The instructions of a block are spread over two: the first ones stay in front of a jump, and the
others are what the jump leads to. -/
structure Parts (f g : Func) (b tail : BlockId) (cut : Nat) : Prop where
  whole : (g.code b).dropLast ++ g.code tail = f.code b
  length : (g.code b).length = cut + 1
  jump : ∃ i, (g.code b).getLast? = some i ∧ g.operation i = .ok (.jump tail)
  same : ∀ i ∈ f.code b, ∀ op, f.operation i = .ok op → op.isPhi = false → g.operation i = .ok op

theorem Cut.parts {phis front back : List InstId} {last : InstId} {targets : List BlockId}
    (cut : f.Cut g b phis front back last targets) :
    f.Parts g b ⟨f.blocks.size⟩ (phis.length + front.length) := by
  have code : f.code b = phis ++ ((front ++ back) ++ [last]) := cut.shape.code
  have here : g.code b = (phis ++ front) ++ [⟨f.insts.size⟩] := by
    rw [cut.code, if_pos rfl, List.append_assoc]
  have there : g.code ⟨f.blocks.size⟩ = back ++ [last] := by
    rw [cut.code, if_neg cut.new_ne.symm, if_pos rfl]
  constructor
  · rw [here, there, code, List.dropLast_concat]
    simp
  · rw [here, List.length_append, List.length_append, List.length_singleton]
  · exact ⟨⟨f.insts.size⟩, by rw [here, List.getLast?_concat],
      operation_eq_ok_iff.mpr ⟨_, cut.line_jump⟩⟩
  · intro i _ op does plain
    obtain ⟨ty, line⟩ := operation_eq_ok_iff.mp does
    exact operation_eq_ok_iff.mpr ⟨ty, cut.line_of_plain line plain⟩

/-- A block may be cut anywhere behind its phis.  The function stays consistent, it has no flaws
exactly if the new block was unnamed, the instructions of the block are spread over it and the new
one, and blocks that were there stand to each other as they did. -/
theorem splitBlock_transparent (consistent : f.Consistent) (flawless : f.firstFlaw? = .ok none)
    {first cut : Nat} (phis : f.firstNonPhi b = .ok first) (behind : first ≤ cut)
    (within : cut < (f.code b).length) (name : String) :
    ∃ g before after, f.splitBlock b cut name = .ok (g, ⟨f.blocks.size⟩) ∧ g.Consistent ∧
      (g.firstFlaw? = .ok none ↔ f.Unnamed b) ∧ f.Parts g b ⟨f.blocks.size⟩ cut ∧
      f.graph = .ok before ∧ g.graph = .ok after ∧
      ∀ x ∈ f.blockIds, ∀ y ∈ f.blockIds, f.SameStanding g before after x y := by
  have formed := formed_of_flawless consistent flawless
  obtain ⟨i, mem⟩ := List.exists_mem_of_length_pos (Nat.zero_lt_of_lt within)
  obtain ⟨ahead, body, last, shape⟩ := formed.formed b (slot_of_mem_code mem)
  obtain rfl : ahead.length = first := by
    have counted : f.firstNonPhi b = .ok ahead.length :=
      bind_eq_ok_iff.mpr ⟨ahead, phis_of_shape shape, rfl⟩
    exact Except.ok.inj (counted.symm.trans phis)
  -- the cut comes after some of the body, perhaps none of it
  obtain ⟨front, back, rfl, rfl⟩ : ∃ front back, body = front ++ back ∧
      cut = ahead.length + front.length := by
    refine ⟨body.take (cut - ahead.length), body.drop (cut - ahead.length),
      (List.take_append_drop _ _).symm, ?_⟩
    rw [show f.code b = _ from shape.code] at within
    simp only [List.length_append, List.length_singleton] at within
    rw [List.length_take_of_le (by omega)]
    omega
  obtain ⟨g, targets, answer, cut⟩ := exists_splitBlock formed shape name
  obtain ⟨before, hf⟩ := (linked_of_formed formed).answers_graph
  obtain ⟨after, hg⟩ := (cut.linked formed).answers_graph
  refine ⟨g, before, after, answer, cut.consistent, cut.flawless_iff formed flawless, cut.parts,
    hf, hg, fun x hx y hy => ?_⟩
  exact cut.sameStanding formed hf hg (mem_blockIds.mp hx) (mem_blockIds.mp hy)

end Func

/-! ### A block that is named early -/

/-- A loop of one block.  The phi behind it may have entries for blocks that are not there. -/
def turning (stale : List (Value × BlockId)) : Func := .assemble "turning" [] [
  ("entry", [⟨.jump ⟨1⟩, .void, ""⟩]),
  ("loop", [
    ⟨.phi [(.const 0, ⟨0⟩), (.inst ⟨2⟩, ⟨1⟩)], .i32, "i"⟩,
    ⟨.binary .add (.inst ⟨1⟩) (.const 1), .i32, "next"⟩,
    ⟨.compare .slt (.inst ⟨2⟩) (.const 4), .i1, "c"⟩,
    ⟨.branch (.inst ⟨3⟩) ⟨1⟩ ⟨2⟩, .void, ""⟩]),
  ("exit", [
    ⟨.phi ((.inst ⟨2⟩, ⟨1⟩) :: stale), .i32, "last"⟩,
    ⟨.ret none, .void, ""⟩])]

theorem named_turning : ∀ i incoming, (turning []).isLive i →
    (turning []).operation i = .ok (.phi incoming) →
      ∀ p ∈ incoming, p.2.index < (turning []).blocks.size := by
  rintro ⟨n⟩ incoming - phi
  have bound : n < 7 := by
    obtain ⟨inst, hinst, -⟩ := map_eq_ok_iff.mp phi
    exact Func.line_isSome_iff.mp (by rw [Func.line_of_inst hinst]; rfl)
  interval_cases n <;> cases phi <;> decide

/-- The loop, which leads to itself, is cut in its body.  No flaw comes up, and its first part is
still above the exit. -/
theorem turningSplit_transparent : ∃ g before after,
    (turning []).splitBlock ⟨1⟩ 2 "tail" = .ok (g, ⟨3⟩) ∧ g.firstFlaw? = .ok none ∧
      (turning []).Parts g ⟨1⟩ ⟨3⟩ 2 ∧ (turning []).SameStanding g before after ⟨1⟩ ⟨2⟩ ∧
      (g.dominators after).dominates ⟨1⟩ ⟨2⟩ = true := by
  have consistent : (turning []).Consistent := Func.consistent_assemble ..
  have flawless : (turning []).firstFlaw? = .ok none := by cbv
  have unnamed := Func.unnamed_of_tidy
    (Func.tidy_of_flawless consistent flawless named_turning) ⟨1⟩
  have phis : (turning []).firstNonPhi ⟨1⟩ = .ok 1 := by cbv
  have within : 2 < ((turning []).code ⟨1⟩).length := by decide
  obtain ⟨g, before, after, answer, -, none, parts, hf, -, same⟩ :=
    Func.splitBlock_transparent consistent flawless phis (by decide) within "tail"
  have loop := same ⟨1⟩ (by decide) ⟨2⟩ (by decide)
  refine ⟨g, before, after, answer, none.mpr unnamed, parts, loop, loop.dominates.trans ?_⟩
  have old : (turning []).graph.map (fun graph =>
      ((turning []).dominators graph).dominates ⟨1⟩ ⟨2⟩) = .ok true := by cbv
  rw [hf] at old
  exact Except.ok.inj old

/-- An entry for a block 3 that is not there is no flaw.  When the entry block is cut, its second
part becomes block 3, and it does not lead to the phi. -/
theorem not_flawless_namedEarly :
    (turning [(.const 7, ⟨3⟩)]).Consistent ∧ (turning [(.const 7, ⟨3⟩)]).firstFlaw? = .ok none ∧
      (turning [(.const 7, ⟨3⟩)]).firstNonPhi ⟨0⟩ = .ok 0 ∧
      0 < ((turning [(.const 7, ⟨3⟩)]).code ⟨0⟩).length ∧
      (do
        let (g, _) ← (turning [(.const 7, ⟨3⟩)]).splitBlock ⟨0⟩ 0 "tail"
        g.firstFlaw?) = .ok (some (.phiPredecessorMismatch "turning" "exit" "last")) :=
  ⟨Func.consistent_assemble .., by cbv, by cbv, by decide, by cbv⟩

end KernelCoarsening
