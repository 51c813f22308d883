/-
Dominator and post-dominator trees say exactly what holds of all paths.

The two trees that are built from the graph of a function decide dominance and name the nearest
block that dominates:

* `Func.dominators_exact` — the dominator tree holds the blocks on all paths from the entry, and
  a parent is the nearest of them;
* `Func.postDominators_exact` — the post-dominator tree holds the blocks on all paths to an end,
  and a parent is the one that all these paths meet first.
-/
import KernelCoarsening.Proofs.Flow.Loops
import KernelCoarsening.Proofs.Ir.Assembly
import Mathlib

namespace KernelCoarsening

namespace Graph

variable {g : Graph} {a b e v : Nat} {nodes : List Nat}

/-! ### What is met first -/

/-- A path up to the first time that it passes a node. -/
theorem Path.upTo {u x : Nat} (p : g.Path u v nodes) (hx : x ∈ nodes) :
    g.Path u x (nodes.take (nodes.idxOf x + 1)) := by
  induction p with
  | stay v =>
    obtain rfl : x = v := by simpa using hx
    simpa using Path.stay x
  | @go u w v nodes edge rest ih =>
    by_cases same : u = x
    · subst same
      simpa using Path.stay u
    · have later : x ∈ nodes := by simpa [Ne.symm same] using hx
      rw [List.idxOf_cons_ne _ same, List.take_succ_cons]
      exact .go edge (ih later)

/-- The first of the other nodes that all ways from a node to an end have in common: every such
way meets it before it meets any other of them. -/
structure FirstCommon (g : Graph) (b e : Nat) : Prop where
  other : e ≠ b
  post : g.PostDominates e b
  first : ∀ a, a ≠ b → g.PostDominates a b → ∀ v nodes, g.IsEnd v → g.Path b v nodes →
    nodes.idxOf e ≤ nodes.idxOf a

theorem MeetsAt.idxOf_le (h : g.MeetsAt b e) (other : a ≠ b) (post : g.PostDominates a b)
    (isEnd : g.IsEnd v) (p : g.Path b v nodes) : nodes.idxOf e ≤ nodes.idxOf a := by
  by_contra late
  have different : a ≠ e := by
    rintro rfl
    exact late (Nat.le_refl _)
  -- a way to an end that leaves at `a` and avoids `e` behind it
  obtain ⟨w, way, endW, fromA, avoids⟩ : ∃ w way, g.IsEnd w ∧ g.Path a w way ∧ e ∉ way := by
    by_contra all
    push Not at all
    exact different ((h.first a other post).antisymm all (post.canEnd h.finish))
  have front := p.upTo (post v nodes isEnd p)
  have met := h.post w _ endW (front.append fromA)
  rcases List.mem_append.mp met with early | behind
  · have before := (List.mem_take_iff_idxOf_lt (h.post v nodes isEnd p)).mp early
    omega
  · exact avoids (List.mem_of_mem_tail behind)

theorem FirstCommon.post_of_post (h : g.FirstCommon b e) (finish : g.CanEnd b) (other : a ≠ b)
    (post : g.PostDominates a b) : g.PostDominates a e := by
  intro v behind isEnd q
  by_cases same : a = e
  · exact same ▸ q.first_mem
  -- the way up to `e` has not met `a` yet, so `a` lies behind
  obtain ⟨w, endW, nodes, p⟩ := finish
  have front := p.upTo (h.post w nodes endW p)
  rcases List.mem_append.mp (post v _ isEnd (front.append q)) with early | late
  · have mem := post w nodes endW p
    have before := (List.mem_take_iff_idxOf_lt mem).mp early
    have notAfter := h.first a other post w nodes endW p
    have level : nodes.idxOf a = nodes.idxOf e := by omega
    exact absurd ((List.idxOf_inj mem).mp level) same
  · exact List.mem_of_mem_tail late

/-- The ways to an end meet again at the first node that they have in common. -/
theorem meetsAt_iff (finish : g.CanEnd b) : g.MeetsAt b e ↔ g.FirstCommon b e := by
  constructor
  · intro h
    exact ⟨h.other, h.post, fun a other post v nodes isEnd p => h.idxOf_le other post isEnd p⟩
  · intro h
    exact ⟨h.other, finish, h.post, fun a other post => h.post_of_post finish other post⟩

end Graph

namespace Func

variable {f : Func} {g : Graph}

/-! ### Trees -/

/-- The dominator tree of a function is exact: a block dominates itself and every block that the
entry reaches on ways which all pass it, and the parent of a block is the nearest of its strict
dominators.  Only the entry and blocks that it does not reach have no parent. -/
theorem dominators_exact (targets : f.Targeted) (body : f.isDeclaration = false)
    (entry : f.entry ∈ f.blockIds) :
    ∃ g, f.graph = .ok g ∧ (∀ b c, c.index ∈ g.next b.index ↔ f.LeadsTo b c) ∧ ∀ b : BlockId,
      (∀ a : BlockId, (f.dominators g).dominates a b ↔ a = b ∨
        g.Reaches f.entry.index b.index ∧ g.Dominates f.entry.index a.index b.index) ∧
      (∀ d : BlockId, (f.dominators g).parent? b = some d ↔
        g.Reaches f.entry.index b.index ∧ g.Nearest f.entry.index d.index b.index) ∧
      ((f.dominators g).parent? b = none ↔ b = f.entry ∨ ¬g.Reaches f.entry.index b.index) := by
  obtain ⟨g, hg, edges⟩ := exists_graph targets
  have inside : f.entry.index < g.size := by
    rw [size_graph hg]
    exact mem_blockIds.mp entry
  have parents : (f.dominators g).parents = g.parents f.entry.index := by simp [dominators, body]
  refine ⟨g, hg, edges, fun b => ⟨fun a => ?_, fun d => ?_, ?_⟩⟩
  · by_cases reached : g.Reaches f.entry.index b.index
    · rw [dominates_dominators inside body reached]
      constructor
      · intro dom
        exact .inr ⟨reached, dom⟩
      · rintro (rfl | ⟨-, dom⟩)
        · exact .refl g _ _
        · exact dom
    · simp only [DominatorTree.dominates, decide_eq_true_eq, parents,
        Graph.mem_ancestors_parents_of_not_reaches inside reached, BlockId.index_inj, reached,
        false_and, or_false]
  · rw [← Graph.above?_parents_eq_some_iff inside, DominatorTree.parent?, parents]
    cases d
    simp
  · rw [← BlockId.index_inj, ← Graph.above?_parents_eq_none_iff inside, DominatorTree.parent?,
      parents]
    simp

/-- A function with a loop that is entered at two blocks, a block where control stays for ever and
one that it never comes to. -/
def tangle : Func := assemble "tangle" [⟨"c", .i1⟩] [
  ("entry", [⟨.branch (.arg 0) ⟨1⟩ ⟨2⟩, .void, ""⟩]),
  ("left", [⟨.branch (.arg 0) ⟨2⟩ ⟨3⟩, .void, ""⟩]),
  ("right", [⟨.branch (.arg 0) ⟨1⟩ ⟨3⟩, .void, ""⟩]),
  ("join", [⟨.branch (.arg 0) ⟨4⟩ ⟨5⟩, .void, ""⟩]),
  ("done", [⟨.ret none, .void, ""⟩]),
  ("spin", [⟨.jump ⟨5⟩, .void, ""⟩]),
  ("lost", [⟨.jump ⟨3⟩, .void, ""⟩])]

/-- The graph of the function. -/
def tangleGraph : Graph where
  succs := #[[1, 2], [2, 3], [1, 3], [4, 5], [], [5], [3]]
  closed := by decide

/-- Neither block of the loop dominates what follows it; the entry is the nearest. -/
theorem nearest_tangle : tangle.graph = .ok tangleGraph ∧ tangleGraph.Nearest 0 0 3 := by
  have hg : tangle.graph = .ok tangleGraph := by cbv
  obtain ⟨g, hg', -, exact⟩ := dominators_exact (f := tangle) (by decide) rfl (by decide)
  obtain rfl : tangleGraph = g := by simpa [hg] using hg'
  have parent : (tangle.dominators tangleGraph).parent? ⟨3⟩ = some ⟨0⟩ := by cbv
  exact ⟨hg, (((exact ⟨3⟩).2.1 ⟨0⟩).mp parent).2⟩

/-- A block that control can end from has a parent if its ways to an end have another block in
common: the node behind all ends is not the nearest then. -/
theorem isSome_parent?_postDominators (inside : f.entry.index < g.size)
    (body : f.isDeclaration = false) {b : BlockId} (reached : g.Reaches f.entry.index b.index)
    (finish : g.CanEnd b.index) {a : Nat} (other : a ≠ b.index)
    (post : g.PostDominates a b.index) : ((f.postDominators g).parent? b).isSome := by
  have some := Graph.above?_parents_isSome (by simp)
    ((Graph.reaches_exit_iff inside reached).mpr finish) (reached.lt_size inside).ne
  obtain ⟨p, hp⟩ := Option.isSome_iff_exists.mp some
  have near := ((Graph.above?_parents_eq_some_iff (by simp)).mp hp).2
  have realA : a ≠ g.size := ((post.reaches reached finish).lt_size inside).ne
  have real : p ≠ g.size := by
    rintro rfl
    have dom := near.below a other ((Graph.dominates_exit_iff inside reached realA).mpr post)
    exact realA (by simpa using dom _ (.stay _))
  have behind : (f.postDominators g).exit = g.size := rfl
  simp [PostDominatorTree.parent?, parents_postDominators body, hp, behind, real]

/-- The post-dominator tree of a function is exact.  For a block that control comes to and can
end from, it holds the blocks on all ways to an end, and the parent is the one that these ways
meet first, if they have one in common.  A block from which control cannot end has only itself. -/
theorem postDominators_exact (targets : f.Targeted)
    (entry : f.isDeclaration = false → f.entry ∈ f.blockIds) :
    ∃ g, f.graph = .ok g ∧ (∀ b c, c.index ∈ g.next b.index ↔ f.LeadsTo b c) ∧ ∀ b : BlockId,
      (f.isDeclaration = false → g.Reaches f.entry.index b.index → g.CanEnd b.index →
        (∀ a ∈ f.blockIds, (f.postDominators g).dominates a b ↔ g.PostDominates a.index b.index) ∧
        (((f.postDominators g).parent? b).isSome ↔
          ∃ e ∈ f.blockIds, e ≠ b ∧ g.PostDominates e.index b.index) ∧
        ∀ e, (f.postDominators g).parent? b = some e ↔ g.FirstCommon b.index e.index) ∧
      (¬g.CanEnd b.index →
        (∀ a, (f.postDominators g).dominates a b ↔ a = b) ∧
        (f.postDominators g).parent? b = none) := by
  obtain ⟨g, hg, edges⟩ := exists_graph targets
  refine ⟨g, hg, edges, fun b => ⟨fun body reached finish => ?_, fun stuck => ?_⟩⟩
  · have inside : f.entry.index < g.size := by
      rw [size_graph hg]
      exact mem_blockIds.mp (entry body)
    have parent := fun e => (parent?_postDominators_iff (b := b) (e := e) inside body reached).trans
      (Graph.meetsAt_iff finish)
    refine ⟨fun a ha => ?_, ⟨fun some => ?_, ?_⟩, parent⟩
    · have real : a.index ≠ g.size := by
        rw [size_graph hg]
        exact (mem_blockIds.mp ha).ne
      rw [← Graph.dominates_exit_iff inside reached real, PostDominatorTree.dominates,
        decide_eq_true_eq, parents_postDominators body]
      exact Graph.mem_ancestors_parents (by simp)
        ((Graph.reaches_exit_iff inside reached).mpr finish)
    · obtain ⟨e, he⟩ := Option.isSome_iff_exists.mp some
      have common := (parent e).mp he
      have real := (common.post.reaches reached finish).lt_size inside
      rw [size_graph hg] at real
      exact ⟨e, mem_blockIds.mpr real, BlockId.index_inj.not.mp common.other, common.post⟩
    · rintro ⟨e, -, other, post⟩
      exact isSome_parent?_postDominators inside body reached finish
        (BlockId.index_inj.not.mpr other) post
  · -- control that cannot end does not come to the node behind all ends either
    have unreached := Graph.not_reaches_exit (if f.isDeclaration then [] else
      g.reversePostorder f.entry.index) stuck
    constructor
    · intro a
      rw [PostDominatorTree.dominates, decide_eq_true_eq, ← BlockId.index_inj]
      exact Graph.mem_ancestors_parents_of_not_reaches (by simp) unreached
    · have none := (Graph.above?_parents_eq_none_iff (by simp)).mpr (.inr unreached)
      simp [PostDominatorTree.parent?, postDominators, none]

/-- The ways through the loop meet again behind it, and control that stays for ever in a block
meets nothing else. -/
theorem firstCommon_tangle : tangle.graph = .ok tangleGraph ∧ tangleGraph.FirstCommon 1 3 ∧
    (tangle.postDominators tangleGraph).parent? ⟨5⟩ = none := by
  have hg : tangle.graph = .ok tangleGraph := by cbv
  obtain ⟨g, hg', -, exact⟩ := postDominators_exact (f := tangle) (by decide) (by decide)
  obtain rfl : tangleGraph = g := by simpa [hg] using hg'
  have reached : tangleGraph.Reaches 0 1 := ⟨[0, 1], .go (by decide) (.stay 1)⟩
  have finish : tangleGraph.CanEnd 1 :=
    ⟨4, rfl, [1, 3, 4], .go (by decide) (.go (by decide) (.stay 4))⟩
  have stuck : ¬tangleGraph.CanEnd 5 := by
    rintro ⟨v, isEnd, nodes, p⟩
    generalize same : 5 = u at p
    induction p with
    | stay v =>
      subst same
      simp [Graph.IsEnd, Graph.next, tangleGraph] at isEnd
    | @go _ w _ _ edge rest ih =>
      subst same
      obtain rfl : w = 5 := by simpa [Graph.next, tangleGraph] using edge
      exact ih isEnd rfl
  have parent : (tangle.postDominators tangleGraph).parent? ⟨1⟩ = some ⟨3⟩ := by cbv
  exact ⟨hg, (((exact ⟨1⟩).1 rfl reached finish).2.2 ⟨3⟩).mp parent, ((exact ⟨5⟩).2 stuck).2⟩

end Func

end KernelCoarsening
