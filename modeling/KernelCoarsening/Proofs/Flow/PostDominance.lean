/-
The post-dominator tree is right.

Post-dominators are dominators of the graph turned round, seen from a node behind all ends.
A path of one graph, read backwards, is a path of the other, so what is known of dominators
carries over:

* `Graph.reaches_behind_iff`, `Graph.dominates_behind_iff` — what the node behind some ends reaches
  and what dominates from there;
* `Graph.reaches_exit_iff`, `Graph.dominates_exit_iff` — the same with all ends that control comes to;
* `Func.parent?_postDominators_iff` — the parent of a block is the first block that all ways
  from it to an end have in common;
* `Graph.PostDominates.antisymm` — two blocks that can end do not post-dominate each other.
-/
import KernelCoarsening.Proofs.Flow.Dominance

namespace KernelCoarsening

namespace Graph

variable {g : Graph} {ends : List Nat} {valid : ∀ v ∈ ends, v < g.size}

/-- A way from a node comes to an end. -/
def CanEnd (g : Graph) (u : Nat) : Prop := ∃ v, g.IsEnd v ∧ g.Reaches u v

/-! ### Post-dominance -/

theorem Reaches.canEnd {u v : Nat} (h : g.Reaches u v) (finish : g.CanEnd v) : g.CanEnd u := by
  obtain ⟨w, hw, reach⟩ := finish
  exact ⟨w, hw, h.trans reach⟩

theorem PostDominates.refl (g : Graph) (v : Nat) : g.PostDominates v v :=
  fun _ _ _ p => p.first_mem

theorem PostDominates.trans {a b c : Nat} (h : g.PostDominates a b) (h' : g.PostDominates b c) :
    g.PostDominates a c := by
  intro v nodes hv p
  obtain ⟨behind, q, suffix⟩ := p.suffix (h' v nodes hv p)
  exact suffix.subset (h v behind hv q)

/-- What post-dominates a node post-dominates every node that can be reached from it on a way
which avoids the former. -/
theorem PostDominates.of_path {a u v : Nat} {nodes : List Nat} (h : g.PostDominates a u)
    (p : g.Path u v nodes) (avoids : a ∉ nodes) : g.PostDominates a v := by
  intro w more hw q
  have mem := h w _ hw (p.append q)
  rcases List.mem_append.mp mem with mem | mem
  · exact absurd mem avoids
  · exact List.mem_of_mem_tail mem

/-- Two nodes do not post-dominate each other: on a shortest way from one to an end, the other
does not come first again. -/
theorem PostDominates.antisymm {a b : Nat} (h : g.PostDominates a b) (h' : g.PostDominates b a)
    (finish : g.CanEnd a) : a = b := by
  obtain ⟨v, hv, nodes, p⟩ := finish
  obtain ⟨short, q, nodup, _⟩ := p.shorten
  obtain ⟨behind, q', suffix⟩ := q.suffix (h' v short hv q)
  have mem := h v behind hv q'
  cases q with
  | stay =>
    have only : b ∈ [a] := suffix.subset q'.first_mem
    exact (List.mem_singleton.mp only).symm
  | go edge rest =>
    rcases List.suffix_cons_iff.mp suffix with rfl | suffix
    · cases q' <;> rfl
    · exact absurd (suffix.subset mem) (List.nodup_cons.mp nodup).1

/-- The ways from a node to an end meet again at another node, and not before it. -/
structure MeetsAt (g : Graph) (h e : Nat) : Prop where
  other : e ≠ h
  finish : g.CanEnd h
  post : g.PostDominates e h
  first : ∀ a, a ≠ h → g.PostDominates a h → g.PostDominates a e

/-- Control can end where the ways have met. -/
theorem PostDominates.canEnd {a b : Nat} (h : g.PostDominates a b) (finish : g.CanEnd b) :
    g.CanEnd a := by
  obtain ⟨v, hv, nodes, p⟩ := finish
  obtain ⟨_, behind, _, q, _⟩ := p.split (h v nodes hv p)
  exact ⟨v, hv, behind, q⟩

/-! ### The graph turned round -/

theorem next_exitGraph {v : Nat} (inside : v < g.size) :
    (g.exitGraph ends valid).next v = g.inverse.next v := by
  have inside' : v < g.inverse.succs.size := by
    rw [show g.inverse.succs.size = g.size from size_inverse g]
    exact inside
  simp [exitGraph, next, Array.getElem?_push, inside', Nat.ne_of_lt inside']

theorem next_exitGraph_size : (g.exitGraph ends valid).next g.size = ends := by
  have same : g.inverse.succs.size = g.size := size_inverse g
  have last : (g.inverse.succs.push ends)[g.size]? = some ends := by
    rw [← same]
    exact Array.getElem?_push_size
  simp [exitGraph, next, last]

@[simp] theorem size_exitGraph : (g.exitGraph ends valid).size = g.size + 1 := by
  have same : g.inverse.succs.size = g.size := size_inverse g
  simp [exitGraph, size, same]

theorem mem_ends {reachable : List Nat} {v : Nat} :
    v ∈ g.ends reachable ↔ v < g.size ∧ v ∈ reachable ∧ g.IsEnd v := by
  simp [ends, IsEnd]

/-- A path between blocks, read backwards. -/
theorem Path.of_exitGraph {u v : Nat} {nodes : List Nat}
    (p : (g.exitGraph ends valid).Path u v nodes) (inside : u < g.size) :
    g.Path v u nodes.reverse := by
  induction p with
  | stay v => exact .stay v
  | @go u w v nodes edge rest ih =>
    rw [next_exitGraph inside, mem_inverse_next] at edge
    have before : w < g.size := by
      by_contra outside
      have none : g.succs[w]? = none := Array.getElem?_eq_none (by simpa [size] using outside)
      simp [next, none] at edge
    simpa using (ih before).append (.go edge (.stay u))

theorem Path.exitGraph {u v : Nat} {nodes : List Nat} (p : g.Path u v nodes) :
    (g.exitGraph ends valid).Path v u nodes.reverse := by
  induction p with
  | stay v => exact .stay v
  | @go u w v nodes edge rest ih =>
    have back : u ∈ (g.exitGraph ends valid).next w := by
      rw [next_exitGraph (next_lt edge), mem_inverse_next]
      exact edge
    simpa using ih.append (.go back (.stay u))

/-- The ways from the node behind all ends start with an end. -/
theorem Path.from_exit {v : Nat} {nodes : List Nat}
    (p : (g.exitGraph ends valid).Path g.size v nodes) (inside : v < g.size) :
    ∃ e ∈ ends, ∃ way, g.Path v e way ∧ nodes = g.size :: way.reverse := by
  cases p with
  | stay => omega
  | @go _ e _ nodes edge rest =>
    rw [next_exitGraph_size] at edge
    exact ⟨e, edge, nodes.reverse, rest.of_exitGraph (valid e edge), by simp⟩

theorem Path.behind_exit {u e : Nat} {nodes : List Nat} (p : g.Path u e nodes) (he : e ∈ ends) :
    (g.exitGraph ends valid).Path g.size u (g.size :: nodes.reverse) :=
  .go (by rw [next_exitGraph_size]; exact he) p.exitGraph

theorem reaches_behind_iff {b : Nat} (inside : b < g.size) :
    (g.exitGraph ends valid).Reaches g.size b ↔ ∃ e ∈ ends, g.Reaches b e := by
  constructor
  · rintro ⟨nodes, p⟩
    obtain ⟨e, he, way, toEnd, -⟩ := p.from_exit inside
    exact ⟨e, he, way, toEnd⟩
  · rintro ⟨e, he, nodes, p⟩
    exact ⟨_, p.behind_exit he⟩

theorem dominates_behind_iff {a b : Nat} (inside : b < g.size) (real : a ≠ g.size) :
    (g.exitGraph ends valid).Dominates g.size a b ↔
      ∀ e ∈ ends, ∀ nodes, g.Path b e nodes → a ∈ nodes := by
  constructor
  · intro dom e he nodes p
    simpa [real] using dom _ (p.behind_exit he)
  · intro all nodes p
    obtain ⟨e, he, way, toEnd, rfl⟩ := p.from_exit inside
    simp [all e he way toEnd]

/-! ### Ways from the node behind all ends -/

/-- The node behind all ends reaches only nodes that control can end from. -/
theorem not_reaches_exit (reachable : List Nat) {b : Nat} (stuck : ¬g.CanEnd b) :
    ¬(g.exitGraph (g.ends reachable) ends_lt).Reaches g.size b := by
  rintro ⟨nodes, p⟩
  have inside : b < g.size := by
    by_contra outside
    have none : g.succs[b]? = none := Array.getElem?_eq_none (by simpa [size] using outside)
    exact stuck ⟨b, by simp [IsEnd, next, none], .refl g b⟩
  obtain ⟨e, he, way, toEnd, -⟩ := p.from_exit inside
  exact stuck ⟨e, (mem_ends.mp he).2.2, way, toEnd⟩

section

variable {root a b p : Nat} (inside : root < g.size) (reached : g.Reaches root b)
include inside reached

/-- An end that control can come to is one of the ends that the additional node leads to. -/
theorem mem_ends_of_reaches {v : Nat} (way : g.Reaches b v) (isEnd : g.IsEnd v) :
    v ∈ g.ends (g.reversePostorder root) := by
  have whole := reached.trans way
  exact mem_ends.mpr ⟨whole.lt_size inside, (mem_reversePostorder inside).mpr whole, isEnd⟩

theorem reaches_exit_iff :
    (g.exitGraph (g.ends (g.reversePostorder root)) ends_lt).Reaches g.size b ↔ g.CanEnd b := by
  rw [reaches_behind_iff (reached.lt_size inside)]
  constructor
  · rintro ⟨e, he, way⟩
    exact ⟨e, (mem_ends.mp he).2.2, way⟩
  · rintro ⟨v, isEnd, way⟩
    exact ⟨v, mem_ends_of_reaches inside reached way isEnd, way⟩

/-- Dominance from the node behind all ends is post-dominance. -/
theorem dominates_exit_iff (real : a ≠ g.size) :
    (g.exitGraph (g.ends (g.reversePostorder root)) ends_lt).Dominates g.size a b ↔
      g.PostDominates a b := by
  rw [dominates_behind_iff (reached.lt_size inside) real]
  constructor
  · intro all v nodes isEnd p
    exact all v (mem_ends_of_reaches inside reached ⟨nodes, p⟩ isEnd) nodes p
  · intro post e he nodes p
    exact post e nodes (mem_ends.mp he).2.2 p

omit inside in
/-- Control can come to a node that lies on all ways to an end. -/
theorem PostDominates.reaches (post : g.PostDominates p b) (finish : g.CanEnd b) :
    g.Reaches root p := by
  obtain ⟨v, isEnd, nodes, way⟩ := finish
  obtain ⟨before, -, front, -⟩ := way.split (post v nodes isEnd way)
  exact reached.trans ⟨before, front⟩

/-- The nearest node above a node in the turned graph is where its ways to an end meet. -/
theorem nearest_exit_iff (real : p ≠ g.size) :
    ((g.exitGraph (g.ends (g.reversePostorder root)) ends_lt).Reaches g.size b ∧
      (g.exitGraph (g.ends (g.reversePostorder root)) ends_lt).Nearest g.size p b) ↔
      g.MeetsAt b p := by
  rw [reaches_exit_iff inside reached]
  constructor
  · rintro ⟨finish, near⟩
    have post := (dominates_exit_iff inside reached real).mp near.dominates
    have reachedP := post.reaches reached finish
    refine ⟨near.other, finish, post, fun a other postA => ?_⟩
    have realA : a ≠ g.size := ((postA.reaches reached finish).lt_size inside).ne
    exact (dominates_exit_iff inside reachedP realA).mp
      (near.below a other ((dominates_exit_iff inside reached realA).mpr postA))
  · intro meets
    have reachedP := meets.post.reaches reached meets.finish
    refine ⟨meets.finish, meets.other, (dominates_exit_iff inside reached real).mpr meets.post, ?_⟩
    intro a other dom
    by_cases realA : a = g.size
    · exact realA ▸ dominates_root _ _ _
    · exact (dominates_exit_iff inside reachedP realA).mpr
        (meets.first a other ((dominates_exit_iff inside reached realA).mp dom))

end

end Graph

namespace Func

variable {f : Func} {g : Graph}

theorem parents_postDominators (body : f.isDeclaration = false) :
    (f.postDominators g).parents =
      (g.exitGraph (g.ends (g.reversePostorder f.entry.index)) Graph.ends_lt).parents g.size := by
  simp [postDominators, body]

/-- The parent of a block that control can come to is the first block that all its ways to an
end have in common. -/
theorem parent?_postDominators_iff {b e : BlockId} (entry : f.entry.index < g.size)
    (body : f.isDeclaration = false) (reached : g.Reaches f.entry.index b.index) :
    (f.postDominators g).parent? b = some e ↔ g.MeetsAt b.index e.index := by
  have behind : (f.postDominators g).exit = g.size := rfl
  have first : (f.postDominators g).parent? b = some e ↔
      ((f.postDominators g).parents.above? b.index = some e.index ∧ e.index ≠ g.size) := by
    cases e
    simp [PostDominatorTree.parent?, Option.filter_eq_some_iff, behind]
  rw [first, parents_postDominators body, Graph.above?_parents_eq_some_iff (by simp)]
  constructor
  · rintro ⟨near, real⟩
    exact (Graph.nearest_exit_iff entry reached real).mp near
  · intro meets
    have real := ((meets.post.reaches reached meets.finish).lt_size entry).ne
    exact ⟨(Graph.nearest_exit_iff entry reached real).mpr meets, real⟩

/-- The blocks above a block in the post-dominator tree are those on all its ways to an end. -/
theorem dominates_postDominators {a b : BlockId} (entry : f.entry.index < g.size)
    (body : f.isDeclaration = false) (reached : g.Reaches f.entry.index b.index)
    (finish : g.CanEnd b.index) (slot : a.index < g.size) :
    (f.postDominators g).dominates a b ↔ g.PostDominates a.index b.index := by
  rw [PostDominatorTree.dominates, decide_eq_true_eq, parents_postDominators body,
    ← Graph.dominates_exit_iff entry reached slot.ne]
  exact Graph.mem_ancestors_parents (by simp) ((Graph.reaches_exit_iff entry reached).mpr finish)

end Func

end KernelCoarsening
