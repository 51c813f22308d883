/-
The table of immediate dominators is right.

Every pass over the nodes in reverse postorder makes the chains of the table say more.
A step of a path *retreats* if it does not lead to a later node of the order.  The proof
keeps two bounds on the chain of a node:

* from below, at all times: it holds every dominator of the node
  (`ParentTable.Sound`, a statement about one link of the chain at a time);
* from above, after `k` passes: it holds only nodes that no path with fewer than `k`
  retreating steps avoids (`ParentTable.Tight`).

A path without repetition has fewer steps than the graph has nodes, so the passes that are
made suffice for both bounds to meet:

* `Graph.mem_ancestors_parents` — the chain of a node holds its dominators and nothing else;
* `Graph.above?_parents_eq_some_iff` — the first link leads to the nearest of them.
-/
import Mathlib.Data.List.Perm.Subperm
import Mathlib.Tactic.Common
import Mathlib.Tactic.Linarith
import KernelCoarsening.Flow.Dominance
import KernelCoarsening.Proofs.Flow.DepthFirst

namespace KernelCoarsening

namespace Graph

variable {g : Graph} {root : Nat}

theorem mem_sources {u v : Nat} : u ∈ g.sources v ↔ v ∈ g.next u := by
  simp only [sources, List.mem_flatMap, List.mem_range, List.mem_filterMap,
    Option.ite_none_right_eq_some, Option.some.injEq]
  constructor
  · rintro ⟨w, _, x, hx, rfl, rfl⟩
    exact hx
  · intro h
    refine ⟨u, ?_, v, h, rfl, rfl⟩
    by_contra outside
    have none : g.succs[u]? = none := Array.getElem?_eq_none (by simpa [size] using outside)
    simp [next, none] at h

theorem mem_inverse_next {u v : Nat} : u ∈ g.inverse.next v ↔ v ∈ g.next u := by
  by_cases valid : v < g.size
  · have same : g.inverse.next v = g.sources v := by simp [inverse, next, valid]
    rw [same, mem_sources]
  · have outside : ¬v ∈ g.next u := fun h => valid (next_lt h)
    simp [inverse, next, valid] at outside ⊢
    exact outside

@[simp] theorem size_inverse (g : Graph) : g.inverse.size = g.size := by
  simp [inverse, size]

theorem Dominates.of_edge {a u v : Nat} (h : g.Dominates root a v) (other : a ≠ v)
    (edge : v ∈ g.next u) : g.Dominates root a u := by
  intro nodes p
  have mem := h _ (p.append (.go edge (.stay v)))
  simpa [other] using mem

/-! ### Trails -/

/-- A path from the root, its nodes last first, with the number of its retreating steps. -/
inductive Trail (g : Graph) (root : Nat) (order : Nat → Nat) : Nat → Nat → List Nat → Prop where
  | start : Trail g root order root 0 [root]
  | advance {u v k : Nat} {nodes : List Nat} (edge : v ∈ g.next u) (forward : order u < order v)
    (before : Trail g root order u k nodes) : Trail g root order v k (v :: nodes)
  | retreat {u v k : Nat} {nodes : List Nat} (edge : v ∈ g.next u)
    (before : Trail g root order u k nodes) : Trail g root order v (k + 1) (v :: nodes)

variable {order : Nat → Nat}

theorem Trail.last_mem {v k : Nat} {nodes : List Nat} (h : g.Trail root order v k nodes) :
    v ∈ nodes := by
  cases h <;> simp

theorem Trail.reaches {v k : Nat} {nodes : List Nat} (h : g.Trail root order v k nodes) :
    g.Reaches root v := by
  induction h with
  | start => exact .refl g root
  | advance edge _ _ ih => exact ih.trans ⟨_, .go edge (.stay _)⟩
  | retreat edge _ ih => exact ih.trans ⟨_, .go edge (.stay _)⟩

/-- A trail can be cut at any of its nodes. -/
theorem Trail.cut {v k x : Nat} {nodes : List Nat} (h : g.Trail root order v k nodes)
    (hx : x ∈ nodes) :
    ∃ j part, g.Trail root order x j part ∧ j ≤ k ∧ ∀ y ∈ part, y ∈ nodes := by
  induction h with
  | start =>
    obtain rfl : x = root := by simpa using hx
    exact ⟨0, [x], .start, Nat.le_refl 0, fun y hy => hy⟩
  | advance edge forward before ih =>
    rcases List.mem_cons.mp hx with rfl | hx
    · exact ⟨_, _, .advance edge forward before, Nat.le_refl _, fun y hy => hy⟩
    · obtain ⟨j, part, trail, le, sub⟩ := ih hx
      exact ⟨j, part, trail, le, fun y hy => List.mem_cons_of_mem _ (sub y hy)⟩
  | retreat edge before ih =>
    rcases List.mem_cons.mp hx with rfl | hx
    · exact ⟨_, _, .retreat edge before, Nat.le_refl _, fun y hy => hy⟩
    · obtain ⟨j, part, trail, le, sub⟩ := ih hx
      exact ⟨j, part, trail, by omega, fun y hy => List.mem_cons_of_mem _ (sub y hy)⟩

/-- A trail that is continued by a path retreats at most once for each step of it. -/
theorem Trail.extend {u v k : Nat} {nodes more : List Nat} (h : g.Trail root order u k nodes)
    (p : g.Path u v more) :
    ∃ j, g.Trail root order v j (more.tail.reverse ++ nodes) ∧ j + 1 ≤ k + more.length := by
  induction p generalizing k nodes with
  | stay v => exact ⟨k, by simpa using h, by simp⟩
  | go edge rest ih =>
    obtain ⟨j, trail, le⟩ := ih (.retreat edge h)
    refine ⟨j, ?_, by simp only [List.length_cons]; omega⟩
    cases rest <;> simpa using trail

/-- A path from a node that a path passes to its end. -/
theorem Path.suffix {u v x : Nat} {nodes : List Nat} (p : g.Path u v nodes) (hx : x ∈ nodes) :
    ∃ behind, g.Path x v behind ∧ behind <:+ nodes := by
  induction p with
  | stay v =>
    obtain rfl : x = v := by simpa using hx
    exact ⟨[x], .stay x, List.suffix_refl _⟩
  | go edge rest ih =>
    rename_i u v w nodes
    rcases List.mem_cons.mp hx with rfl | hx
    · exact ⟨x :: nodes, .go edge rest, List.suffix_refl _⟩
    · obtain ⟨behind, q, suffix⟩ := ih hx
      exact ⟨behind, q, suffix.trans (List.suffix_cons u nodes)⟩

/-- A path can be shortened until it passes no node twice. -/
theorem Path.shorten {u v : Nat} {nodes : List Nat} (p : g.Path u v nodes) :
    ∃ short, g.Path u v short ∧ short.Nodup ∧ ∀ x ∈ short, x ∈ nodes := by
  induction p with
  | stay v => exact ⟨[v], .stay v, by simp, fun x hx => hx⟩
  | go edge rest ih =>
    rename_i u v w nodes
    obtain ⟨short, q, nodup, sub⟩ := ih
    by_cases mem : u ∈ short
    · obtain ⟨behind, q', suffix⟩ := q.suffix mem
      refine ⟨behind, q', nodup.sublist suffix.sublist, fun x hx => ?_⟩
      exact List.mem_cons_of_mem _ (sub x (suffix.subset hx))
    · refine ⟨u :: short, .go edge q, List.nodup_cons.mpr ⟨mem, nodup⟩, ?_⟩
      intro x hx
      rcases List.mem_cons.mp hx with rfl | hx
      · simp
      · exact List.mem_cons_of_mem _ (sub x hx)

theorem Path.lt_size {u v : Nat} {nodes : List Nat} (p : g.Path u v nodes) (valid : u < g.size) :
    ∀ x ∈ nodes, x < g.size := by
  induction p with
  | stay v => simpa using valid
  | go edge rest ih =>
    intro x hx
    rcases List.mem_cons.mp hx with rfl | hx
    · exact valid
    · exact ih (next_lt edge) x hx

theorem Reaches.lt_size {u v : Nat} (h : g.Reaches u v) (valid : u < g.size) : v < g.size := by
  obtain ⟨nodes, p⟩ := h
  exact p.lt_size valid v p.last_mem

theorem length_le_of_nodup_lt {nodes : List Nat} {n : Nat} (nodup : nodes.Nodup)
    (bound : ∀ x ∈ nodes, x < n) : nodes.length ≤ n := by
  have sub : nodes ⊆ List.range n := fun x hx => List.mem_range.mpr (bound x hx)
  simpa using (List.subperm_of_subset nodup sub).length_le

/-- A node lies on every trail to another that retreats fewer than `k` times. -/
def Forced (g : Graph) (root : Nat) (order : Nat → Nat) (k v a : Nat) : Prop :=
  ∀ j nodes, j < k → g.Trail root order v j nodes → a ∈ nodes

/-- Trails that retreat seldom are enough to find the dominators. -/
theorem Forced.dominates {k v a : Nat} (h : g.Forced root order k v a) (valid : root < g.size)
    (enough : g.size ≤ k) : g.Dominates root a v := by
  intro nodes p
  obtain ⟨short, q, nodup, sub⟩ := p.shorten
  obtain ⟨j, trail, le⟩ := (@Trail.start g root order).extend q
  have bound := length_le_of_nodup_lt nodup (q.lt_size valid)
  have mem := h j _ (by omega) trail
  apply sub
  cases q with
  | stay v => simpa using mem
  | go edge rest => simpa [or_comm] using mem

/-- A dominator comes first in reverse postorder: it lies on the path that only goes to later
nodes. -/
theorem Dominates.rank_le {a v : Nat} (valid : root < g.size)
    (h : g.Dominates root a v) (hv : v ∈ g.reversePostorder root) :
    g.rank root a ≤ g.rank root v := by
  suffices ∃ nodes, g.Path root v nodes ∧ ∀ x ∈ nodes,
      g.rank root x ≤ g.rank root v by
    obtain ⟨nodes, p, le⟩ := this
    exact le a (h nodes p)
  clear h
  induction n : g.rank root v using Nat.strongRecOn generalizing v with
  | _ n ih =>
    by_cases other : v = root
    · subst other
      exact ⟨[v], .stay v, by simp [n]⟩
    · obtain ⟨u, hu, edge, lt⟩ := exists_source_before valid hv other
      obtain ⟨nodes, p, le⟩ := ih _ (n ▸ lt) hu rfl
      refine ⟨_, p.append (.go edge (.stay v)), fun x hx => ?_⟩
      rcases List.mem_append.mp hx with hx | hx
      · have := le x hx
        omega
      · obtain rfl : x = v := by simpa using hx
        omega

end Graph

/-! ### Chains -/

namespace ParentTable

/-- A node lies on the chain of another. -/
inductive Above (t : ParentTable) (a : Nat) : Nat → Prop where
  | self : Above t a a
  | step {v p : Nat} (parent : t.parent v = some p) (other : p ≠ v) (above : Above t a p) :
    Above t a v

theorem Above.trans {t : ParentTable} {a b c : Nat} (h : t.Above a b) (h' : t.Above b c) :
    t.Above a c := by
  induction h' with
  | self => exact h
  | step parent other _ ih => exact .step parent other ih

/-- What holds of the table at all times: its entries are reachable nodes, a link goes to an
earlier node that has an entry, and no dominator lies between the two ends of a link. -/
structure Sound (g : Graph) (root : Nat) (t : ParentTable) : Prop where
  size : t.size = g.size
  top : t.parent root = some root
  mem : ∀ v p, t.parent v = some p → v ∈ g.reversePostorder root
  earlier : ∀ v p, t.parent v = some p → v ≠ root →
    g.rank root p < g.rank root v
  filled : ∀ v p, t.parent v = some p → (t.parent p).isSome
  nearest : ∀ v p, t.parent v = some p → v ≠ root →
    ∀ a, a ≠ v → g.Dominates root a v → g.Dominates root a p

variable {g : Graph} {root : Nat} {t : ParentTable}

theorem Sound.mem_of_isSome (h : t.Sound g root) {v : Nat} (some : (t.parent v).isSome) :
    v ∈ g.reversePostorder root := by
  obtain ⟨p, hp⟩ := Option.isSome_iff_exists.mp some
  exact h.mem v p hp

section

variable (valid : root < g.size)
include valid

theorem Sound.above_of_dominates (h : t.Sound g root) {a v : Nat} (some : (t.parent v).isSome)
    (dom : g.Dominates root a v) : t.Above a v := by
  induction n : g.rank root v using Nat.strongRecOn generalizing v with
  | _ n ih =>
    by_cases same : a = v
    · exact same ▸ .self
    · obtain ⟨p, hp⟩ := Option.isSome_iff_exists.mp some
      have other : v ≠ root := by
        rintro rfl
        exact same (by simpa using dom [v] (.stay v))
      have lt := h.earlier v p hp other
      refine .step hp (by rintro rfl; omega) ?_
      exact ih _ (n ▸ lt) (h.filled v p hp) (h.nearest v p hp other a same dom) rfl

/-- Where two chains meet. -/
structure Meets (g : Graph) (root : Nat) (t : ParentTable) (m : Nat) (nodes : List Nat) : Prop where
  filled : (t.parent m).isSome
  above : ∀ u ∈ nodes, t.Above m u
  dominated : ∀ d, (∀ u ∈ nodes, g.Dominates root d u) → g.Dominates root d m

theorem Sound.meets_meet (h : t.Sound g root) {a b : Nat} (ha : (t.parent a).isSome)
    (hb : (t.parent b).isSome) :
    t.Meets g root (t.meet (g.rank root) a b) [a, b] := by
  -- walking up from the later of two nodes passes no common dominator
  have up : ∀ {x y p : Nat}, t.parent x = some p → (t.parent y).isSome → g.rank root y < g.rank root x →
      g.rank root p < g.rank root x ∧ p ≠ x ∧ ∀ d, g.Dominates root d x → g.Dominates root d y →
        g.Dominates root d p := by
    intro x y p hp hy lt
    have other : x ≠ root := by
      rintro rfl
      have := Graph.rank_root valid
      omega
    have less := h.earlier x p hp other
    refine ⟨less, by rintro rfl; omega, fun d hdx hdy => ?_⟩
    have le := hdy.rank_le valid (h.mem_of_isSome hy)
    exact h.nearest x p hp other d (by rintro rfl; omega) hdx
  induction a, b using ParentTable.meet.induct t (g.rank root) with
  | case1 a =>
    rw [meet, if_pos rfl]
    exact ⟨ha, by simpa using .self, fun d hd => hd a (by simp)⟩
  | case2 a b ne lt p hp less ih =>
    rw [meet, if_neg ne, if_pos lt, hp]
    simp only [less, dite_true]
    obtain ⟨_, other, pass⟩ := up hp hb lt
    obtain ⟨filled, above, dominated⟩ := ih (h.filled a p hp) hb
    refine ⟨filled, ?_, fun d hd => dominated d ?_⟩
    · simp only [List.mem_cons, List.not_mem_nil, or_false, forall_eq_or_imp, forall_eq] at above ⊢
      exact ⟨.step hp other above.1, above.2⟩
    · simp only [List.mem_cons, List.not_mem_nil, or_false, forall_eq_or_imp, forall_eq] at hd ⊢
      exact ⟨pass d hd.1 hd.2, hd.2⟩
  | case3 a b ne lt p hp less => exact absurd (up hp hb lt).1 less
  | case4 a b ne lt none => simp [none] at ha
  | case5 a b ne le lt p hp less ih =>
    rw [meet, if_neg ne, if_neg le, if_pos lt, hp]
    simp only [less, dite_true]
    obtain ⟨_, other, pass⟩ := up hp ha lt
    obtain ⟨filled, above, dominated⟩ := ih ha (h.filled b p hp)
    refine ⟨filled, ?_, fun d hd => dominated d ?_⟩
    · simp only [List.mem_cons, List.not_mem_nil, or_false, forall_eq_or_imp, forall_eq] at above ⊢
      exact ⟨above.1, .step hp other above.2⟩
    · simp only [List.mem_cons, List.not_mem_nil, or_false, forall_eq_or_imp, forall_eq] at hd ⊢
      exact ⟨hd.1, pass d hd.2 hd.1⟩
  | case6 a b ne le lt p hp less => exact absurd (up hp ha lt).1 less
  | case7 a b ne le lt none => simp [none] at hb
  | case8 a b ne le ge =>
    refine absurd ?_ ne
    have same : g.rank root a = g.rank root b := by omega
    exact (Graph.rank_inj (h.mem_of_isSome ha)).mp same

/-- The candidate of a node lies on the chains of all its predecessors that have an entry. -/
theorem Sound.meets_foldl (h : t.Sound g root) {nodes rest : List Nat} {m : Nat}
    (hm : t.Meets g root m nodes) (hrest : ∀ u ∈ rest, (t.parent u).isSome) :
    t.Meets g root (rest.foldl (fun acc p => t.meet (g.rank root) p acc) m)
      (nodes ++ rest) := by
  induction rest generalizing nodes m with
  | nil => simpa using hm
  | cons u rest ih =>
    have both := h.meets_meet valid (hrest u (by simp)) hm.filled
    have next : t.Meets g root (t.meet (g.rank root) u m) (nodes ++ [u]) := by
      refine ⟨both.filled, fun x hx => ?_, fun d hd => both.dominated d fun x hx => ?_⟩
      · rcases List.mem_append.mp hx with hx | hx
        · exact (both.above m (by simp)).trans (hm.above x hx)
        · obtain rfl : x = u := by simpa using hx
          exact both.above x (by simp)
      · rcases List.mem_cons.mp hx with rfl | hx
        · exact hd x (by simp)
        · obtain rfl : x = m := by simpa using hx
          exact hm.dominated d fun y hy => hd y (by simp [hy])
    simpa using ih next fun x hx => hrest x (by simp [hx])

/-- Chains of nodes that have an entry meet. -/
theorem Sound.meets_sources (h : t.Sound g root) {first : Nat} {rest : List Nat}
    (somes : ∀ u ∈ first :: rest, (t.parent u).isSome) :
    t.Meets g root (rest.foldl (fun acc p => t.meet (g.rank root) p acc) first)
      (first :: rest) := by
  have alone : t.Meets g root first [first] :=
    ⟨somes first (by simp), by simpa using .self, fun d hd => hd first (by simp)⟩
  exact h.meets_foldl valid alone fun u hu => somes u (by simp [hu])

/-! ### Passes -/

theorem Sound.rank_le (h : t.Sound g root) {a v : Nat} (above : t.Above a v) :
    g.rank root a ≤ g.rank root v := by
  induction above with
  | self => exact Nat.le_refl _
  | @step v p hp other _ ih =>
    have inner : v ≠ root := by
      rintro rfl
      exact other (by simpa [h.top] using hp.symm)
    have := h.earlier v p hp inner
    omega

omit valid in
theorem parent_set {v m : Nat} (inside : v < t.size) (x : Nat) :
    parent (t.setIfInBounds v (some m)) x = if x = v then some m else t.parent x := by
  unfold parent
  by_cases same : x = v
  · subst same
    simp [inside]
  · simp [same, Array.getElem?_setIfInBounds_ne (Ne.symm same)]

omit valid in
/-- A chain in the changed table is one of the old table, or it passes the changed link. -/
theorem above_set {v m a w : Nat} (inside : v < t.size)
    (above : Above (t.setIfInBounds v (some m)) a w) :
    t.Above a w ∨ t.Above v w ∧ Above (t.setIfInBounds v (some m)) a v := by
  induction above with
  | self => exact .inl .self
  | @step w p hp other rest ih =>
    by_cases same : w = v
    · subst same
      exact .inr ⟨.self, .step hp other rest⟩
    · rw [parent_set inside, if_neg same] at hp
      rcases ih with old | ⟨below, new⟩
      · exact .inl (.step hp other old)
      · exact .inr ⟨.step hp other below, new⟩

/-- The nodes in front of `n` have been updated in the pass that makes the bound `k` to
`k + 1`. -/
structure Passing (g : Graph) (root : Nat) (t : ParentTable) (k n : Nat) : Prop where
  sound : t.Sound g root
  filled : ∀ u ∈ g.reversePostorder root, g.rank root u < n → (t.parent u).isSome
  full : 0 < k → ∀ u ∈ g.reversePostorder root, (t.parent u).isSome
  fresh : ∀ u a, (t.parent u).isSome → g.rank root u < n → t.Above a u →
    g.Forced root (g.rank root) (k + 1) u a
  stale : ∀ u a, (t.parent u).isSome → t.Above a u → g.Forced root (g.rank root) k u a

/-- A link to where the chains of the predecessors meet keeps the table sound. -/
theorem Sound.set (h : t.Sound g root) {v m : Nat} {sources : List Nat}
    (hv : v ∈ g.reversePostorder root) (inner : v ≠ root)
    (edges : ∀ u ∈ sources, v ∈ g.next u) (hm : t.Meets g root m sources)
    (less : g.rank root m < g.rank root v) : Sound g root (t.setIfInBounds v (some m)) := by
  have inside : v < t.size := by
    rw [h.size]
    exact ((Graph.mem_reversePostorder valid).mp hv).lt_size valid
  have entry := @parent_set t v m inside
  refine ⟨by simpa using h.size, ?_, ?_, ?_, ?_, ?_⟩
  · rw [entry, if_neg (Ne.symm inner)]
    exact h.top
  · intro x p hp
    rw [entry] at hp
    split at hp
    · rename_i same
      exact same ▸ hv
    · exact h.mem x p hp
  · intro x p hp other
    rw [entry] at hp
    split at hp
    · rename_i same
      obtain rfl : m = p := by simpa using hp
      exact same ▸ less
    · exact h.earlier x p hp other
  · intro x p hp
    -- the parent had a link before, so that it has one now even if it is `v` itself
    have old : (t.parent p).isSome := by
      rw [entry] at hp
      split at hp
      · obtain rfl : m = p := by simpa using hp
        exact hm.filled
      · exact h.filled x p hp
    rw [entry]
    split
    · rfl
    · exact old
  · intro x p hp other d ne dom
    rw [entry] at hp
    split at hp
    · rename_i same
      subst same
      obtain rfl : m = p := by simpa using hp
      -- what dominates `v` dominates its predecessors, and so it lies above where they meet
      exact hm.dominated d fun u hu => dom.of_edge ne (edges u hu)
    · exact h.nearest x p hp other d ne dom

/-- Every trail to an updated node passes what lies above it: the last step of the trail comes
from a predecessor, whose chain holds the new parent. -/
theorem Passing.forced_set {k v m a : Nat} {sources : List Nat}
    (h : t.Passing g root k (g.rank root v)) (inner : v ≠ root)
    (complete : ∀ u, v ∈ g.next u → (t.parent u).isSome → u ∈ sources)
    (hm : t.Meets g root m sources) (above : t.Above a m) :
    g.Forced root (g.rank root) (k + 1) v a := by
  intro j nodes lt trail
  cases trail with
  | start => exact absurd rfl inner
  | advance edge forward before =>
    -- an earlier node has been updated in this pass already
    rename_i u nodes
    have reached : u ∈ g.reversePostorder root := by
      rw [Graph.mem_reversePostorder valid]
      exact before.reaches
    have some := h.filled u reached forward
    have higher := above.trans (hm.above u (complete u edge some))
    exact List.mem_cons_of_mem _ (h.fresh u a some forward higher j nodes lt before)
  | retreat edge before =>
    -- a later node has not, but the trail to it has one step back less
    rename_i u j nodes
    have reached : u ∈ g.reversePostorder root := by
      rw [Graph.mem_reversePostorder valid]
      exact before.reaches
    have some := h.full (by omega) u reached
    have higher := above.trans (hm.above u (complete u edge some))
    exact List.mem_cons_of_mem _ (h.stale u a some higher j nodes (by omega) before)

theorem Passing.set {k v m : Nat} {sources : List Nat}
    (h : t.Passing g root k (g.rank root v)) (hv : v ∈ g.reversePostorder root) (inner : v ≠ root)
    (edges : ∀ u ∈ sources, v ∈ g.next u)
    (complete : ∀ u, v ∈ g.next u → (t.parent u).isSome → u ∈ sources)
    (hm : t.Meets g root m sources) (less : g.rank root m < g.rank root v) :
    Passing g root (t.setIfInBounds v (some m)) k (g.rank root v + 1) := by
  have inside : v < t.size := by
    rw [h.sound.size]
    exact ((Graph.mem_reversePostorder valid).mp hv).lt_size valid
  have entry := @parent_set t v m inside
  -- the chain from `m` up does not come to `v`, so that it is the old one
  have low : ∀ {a x : Nat}, g.rank root x < g.rank root v →
      Above (t.setIfInBounds v (some m)) a x → t.Above a x := by
    intro a x lt above
    rcases above_set inside above with old | ⟨below, -⟩
    · exact old
    · have := h.sound.rank_le valid below
      omega
  have top : ∀ a, Above (t.setIfInBounds v (some m)) a v →
      g.Forced root (g.rank root) (k + 1) v a := by
    intro a above
    cases above with
    | self => exact fun j nodes _ trail => trail.last_mem
    | step hp other rest =>
      obtain rfl : m = _ := by simpa [entry] using hp
      exact h.forced_set valid inner complete hm (low less rest)
  have some : ∀ {u : Nat}, u ≠ v → (parent (t.setIfInBounds v (some m)) u).isSome →
      (t.parent u).isSome := by
    intro u ne hu
    simpa [entry, ne] using hu
  refine ⟨h.sound.set valid hv inner edges hm less, ?_, ?_, ?_, ?_⟩
  · intro u hu lt
    rw [entry]
    split
    · rfl
    · rename_i ne
      have := (Graph.rank_inj hu).not.mpr ne
      exact h.filled u hu (by omega)
  · intro pos u hu
    rw [entry]
    split
    · rfl
    · exact h.full pos u hu
  · intro u a hu lt above
    by_cases same : u = v
    · subst same
      exact top a above
    · have old := some same hu
      have := (Graph.rank_inj (h.sound.mem_of_isSome old)).not.mpr same
      exact h.fresh u a old (by omega) (low (by omega) above)
  · intro u a hu above j nodes lt trail
    by_cases same : u = v
    · subst same
      exact top a above j nodes (by omega) trail
    · rcases above_set inside above with old | ⟨below, new⟩
      · exact h.stale u a (some same hu) old j nodes lt trail
      · have pass := h.stale u v (some same hu) below j nodes lt trail
        obtain ⟨i, part, cut, le, sub⟩ := trail.cut pass
        exact sub a (top a new i part (by omega) cut)

theorem Passing.update {k v : Nat} (h : t.Passing g root k (g.rank root v))
    (hv : v ∈ g.reversePostorder root) (inner : v ≠ root) :
    Passing g root (t.update g.inverse (g.rank root) v) k (g.rank root v + 1) := by
  have edges : ∀ u ∈ (g.inverse.next v).filter fun p => (t.parent p).isSome, v ∈ g.next u := by
    intro u hu
    exact Graph.mem_inverse_next.mp (List.mem_filter.mp hu).1
  have complete : ∀ u, v ∈ g.next u → (t.parent u).isSome →
      u ∈ (g.inverse.next v).filter fun p => (t.parent p).isSome := by
    intro u edge some
    exact List.mem_filter.mpr ⟨Graph.mem_inverse_next.mpr edge, some⟩
  -- a predecessor comes earlier in the order, so that the list is not empty
  obtain ⟨early, he, edge, lt⟩ := Graph.exists_source_before valid hv inner
  have present := complete early edge (h.filled early he lt)
  unfold ParentTable.update
  split
  · rename_i nothing
    simp [nothing] at present
  · rename_i first rest shape
    have somes : ∀ u ∈ first :: rest, (t.parent u).isSome := by
      intro u hu
      rw [← shape] at hu
      exact (List.mem_filter.mp hu).2
    have meets := h.sound.meets_sources valid somes
    rw [shape] at edges complete present
    refine h.set valid hv inner edges complete meets ?_
    have := h.sound.rank_le valid (meets.above early present)
    omega

/-- One node further in a pass. -/
theorem Passing.next {k v : Nat} {before rest : List Nat}
    (whole : g.reversePostorder root = before ++ v :: rest) (started : root ∈ before)
    (h : t.Passing g root k before.length) :
    Passing g root (t.update g.inverse (g.rank root) v) k (before ++ [v]).length := by
  have nodup := g.nodup_reversePostorder root
  rw [whole] at nodup
  have fresh : v ∉ before := fun hb => (List.nodup_append.mp nodup).2.2 v hb v (by simp) rfl
  have here : g.rank root v = before.length := by
    rw [Graph.rank, whole, List.idxOf_append_of_notMem fresh, List.idxOf_cons_self]
    rfl
  have step := (here ▸ h).update valid (by simp [whole]) (by rintro rfl; exact fresh started)
  rw [List.length_append, List.length_singleton, ← here]
  exact step

theorem Passing.foldl {k : Nat} {before nodes rest : List Nat}
    (whole : g.reversePostorder root = before ++ (nodes ++ rest)) (started : root ∈ before)
    (h : t.Passing g root k before.length) :
    Passing g root (nodes.foldl (ParentTable.update g.inverse (g.rank root)) t) k
      (before ++ nodes).length := by
  induction nodes generalizing before t with
  | nil => simpa using h
  | cons v nodes ih =>
    have further := h.next valid (by simpa using whole) started
    have all := ih (by simpa using whole) (by simp [started]) further
    simpa using all

/-! ### All passes -/

/-- The chains of a table hold only nodes that every trail with fewer than `k` retreating
steps passes. -/
structure Tight (g : Graph) (root : Nat) (t : ParentTable) (k : Nat) : Prop where
  sound : t.Sound g root
  full : 0 < k → ∀ u ∈ g.reversePostorder root, (t.parent u).isSome
  forced : ∀ u a, (t.parent u).isSome → t.Above a u → g.Forced root (g.rank root) k u a

/-- A pass starts with the root done. -/
theorem Tight.passing {k : Nat} (h : t.Tight g root k) : t.Passing g root k [root].length := by
  have first : ∀ u, u ∈ g.reversePostorder root → g.rank root u < 1 → u = root := by
    intro u hu lt
    have zero := Graph.rank_root valid
    exact (Graph.rank_inj hu).mp (by omega)
  refine ⟨h.sound, ?_, h.full, ?_, h.forced⟩
  · intro u hu lt
    rw [first u hu lt, h.sound.top]
    rfl
  · intro u a some lt above
    obtain rfl := first u (h.sound.mem_of_isSome some) lt
    cases above with
    | self => exact fun j nodes _ trail => trail.last_mem
    | step hp other _ => exact absurd (by simpa [h.sound.top] using hp.symm) other

omit valid in
/-- A pass that is through has the bound of one retreating step more. -/
theorem Passing.tight {k : Nat} (h : t.Passing g root k (g.reversePostorder root).length) :
    t.Tight g root (k + 1) := by
  refine ⟨h.sound, fun _ u hu => ?_, fun u a some above => ?_⟩
  · exact h.filled u hu (List.idxOf_lt_length_of_mem hu)
  · have hu := h.sound.mem_of_isSome some
    exact h.fresh u a some (List.idxOf_lt_length_of_mem hu) above

theorem Tight.pass {k : Nat} (h : t.Tight g root k) :
    Tight g root (t.pass g.inverse (g.rank root) (g.reversePostorder root).tail) (k + 1) := by
  obtain ⟨rest, whole⟩ := List.head?_eq_some_iff.mp (Graph.head_reversePostorder valid)
  have split : g.reversePostorder root = [root] ++ (rest ++ []) := by simpa using whole
  have done := (h.passing valid).foldl valid split (by simp)
  rw [List.singleton_append, ← whole] at done
  rw [ParentTable.pass, whole, List.tail_cons]
  exact done.tight

theorem Tight.settle {k : Nat} (h : t.Tight g root k) (fuel : Nat) :
    Tight g root
      (ParentTable.settle (ParentTable.pass g.inverse (g.rank root) (g.reversePostorder root).tail)
        fuel t) (k + fuel) := by
  induction fuel generalizing t k with
  | zero => exact h
  | succ fuel ih =>
    rw [ParentTable.settle, Bool.cond_eq_ite]
    split
    · rename_i same
      have still := eq_of_beq same
      -- a table that a pass leaves alone has every bound
      have more : ∀ n, t.Tight g root (k + n) := by
        intro n
        induction n with
        | zero => exact h
        | succ n ih => exact still ▸ ih.pass valid
      exact more (fuel + 1)
    · rw [Nat.add_comm fuel 1, ← Nat.add_assoc]
      exact ih (h.pass valid)

theorem tight_start : Tight g root
    ((Array.replicate g.size none : ParentTable).setIfInBounds root (some root)) 0 := by
  have empty : ∀ x, parent (Array.replicate g.size none) x = none := by
    intro x
    unfold parent
    by_cases inside : x < g.size <;> simp [inside]
  have entry : ∀ x, parent ((Array.replicate g.size none).setIfInBounds root (some root)) x
      = if x = root then some root else none := by
    intro x
    rw [parent_set (by simpa using valid), empty]
  have only : ∀ v p, parent ((Array.replicate g.size none).setIfInBounds root (some root)) v
      = some p → v = root ∧ p = root := by
    intro v p hp
    rw [entry] at hp
    split at hp
    · rename_i same
      exact ⟨same, by simpa using hp.symm⟩
    · simp at hp
  refine ⟨⟨by simp, by simp [entry], ?_, ?_, ?_, ?_⟩, by omega, ?_⟩
  · intro v p hp
    rw [(only v p hp).1]
    exact List.mem_of_head? (Graph.head_reversePostorder valid)
  · intro v p hp other
    exact absurd (only v p hp).1 other
  · intro v p hp
    rw [(only v p hp).2, entry, if_pos rfl]
    rfl
  · intro v p hp other
    exact absurd (only v p hp).1 other
  · intro u a _ _ j nodes lt
    omega

/-- A chain is found completely if there is fuel for every earlier node. -/
theorem Sound.mem_chain (h : t.Sound g root) {a v fuel : Nat} (enough : g.rank root v ≤ fuel) :
    a ∈ t.chain fuel v ↔ t.Above a v := by
  -- a chain ends at a node that is its own parent or has none
  have ends : ∀ {x : Nat}, (∀ p, t.parent x = some p → p = x) → (a ∈ [x] ↔ t.Above a x) := by
    intro x last
    rw [List.mem_singleton]
    constructor
    · rintro rfl
      exact .self
    · intro above
      cases above with
      | self => rfl
      | step hp other _ => exact absurd (last _ hp) other
  induction fuel generalizing v with
  | zero =>
    rw [chain]
    apply ends
    intro p hp
    by_cases inner : v = root
    · subst inner
      simpa [h.top] using hp.symm
    · have := h.earlier v p hp inner
      omega
  | succ fuel ih =>
    rw [chain]
    split
    · rename_i p hp
      split
      · rename_i same
        exact ends fun q hq => by simpa [hp, same] using hq.symm
      · rename_i other
        have inner : v ≠ root := by
          rintro rfl
          exact other (by simpa [h.top] using hp.symm)
        have less := h.earlier v p hp inner
        have above_p : a ∈ t.chain fuel p ↔ t.Above a p := ih (by omega)
        rw [List.mem_cons, above_p]
        constructor
        · rintro (rfl | above)
          · exact .self
          · exact .step hp other above
        · intro above
          cases above with
          | self => exact .inl rfl
          | step hq _ above =>
            obtain rfl : p = _ := by simpa [hp] using hq
            exact .inr above
    · rename_i none
      exact ends fun p hp => by simp [none] at hp

end

end ParentTable

/-! ### The table of a graph -/

namespace Graph

variable {g : Graph} {root : Nat}

theorem tight_parents (valid : root < g.size) :
    (g.parents root).Tight g root (g.size * g.size + 1) := by
  have settled := (ParentTable.tight_start valid).settle valid (g.size * g.size + 1)
  rw [Nat.zero_add] at settled
  exact settled

theorem parent_parents_isSome (valid : root < g.size) {v : Nat} :
    ((g.parents root).parent v).isSome ↔ g.Reaches root v := by
  have tight := tight_parents valid
  rw [← mem_reversePostorder valid]
  exact ⟨tight.sound.mem_of_isSome, tight.full (by omega) v⟩

theorem above_parents (valid : root < g.size) {a v : Nat} (reached : g.Reaches root v) :
    (g.parents root).Above a v ↔ g.Dominates root a v := by
  have tight := tight_parents valid
  have some := (parent_parents_isSome valid).mpr reached
  constructor
  · intro above
    have enough : g.size ≤ g.size * g.size + 1 := by nlinarith
    exact (tight.forced v a some above).dominates valid enough
  · exact tight.sound.above_of_dominates valid some

/-- A chain is read to its end. -/
theorem mem_ancestors_parents_iff_above (valid : root < g.size) {a v : Nat} :
    a ∈ (g.parents root).ancestors v ↔ (g.parents root).Above a v := by
  have tight := tight_parents valid
  have bound := length_le_of_nodup_lt (g.nodup_reversePostorder root) fun x hx =>
    ((mem_reversePostorder valid).mp hx).lt_size valid
  have enough : g.rank root v ≤ (g.parents root).size := by
    have le : g.rank root v ≤ (g.reversePostorder root).length := List.idxOf_le_length
    rw [tight.sound.size]
    omega
  rw [ParentTable.ancestors, tight.sound.mem_chain valid enough]

/-- The chain of a reachable node holds its dominators and nothing else. -/
theorem mem_ancestors_parents (valid : root < g.size) {a v : Nat} (reached : g.Reaches root v) :
    a ∈ (g.parents root).ancestors v ↔ g.Dominates root a v := by
  rw [mem_ancestors_parents_iff_above valid, above_parents valid reached]

/-- The chain of an unreachable node holds only that node. -/
theorem mem_ancestors_parents_of_not_reaches (valid : root < g.size) {a v : Nat}
    (unreached : ¬g.Reaches root v) : a ∈ (g.parents root).ancestors v ↔ a = v := by
  have none : (g.parents root).parent v = none := by
    rw [← Option.not_isSome_iff_eq_none, parent_parents_isSome valid]
    exact unreached
  unfold ParentTable.ancestors
  cases (g.parents root).size <;> simp [ParentTable.chain, none]

/-- The first link of a chain leads to the nearest strict dominator. -/
theorem above?_parents_eq_some (valid : root < g.size) {v p : Nat}
    (h : (g.parents root).above? v = some p) :
    p ≠ v ∧ g.Reaches root v ∧ g.Dominates root p v ∧
      ∀ a, a ≠ v → g.Dominates root a v → g.Dominates root a p := by
  have tight := tight_parents valid
  obtain ⟨hp, other⟩ : (g.parents root).parent v = some p ∧ p ≠ v := by
    simpa [ParentTable.above?, Option.filter_eq_some_iff] using h
  have inner : v ≠ root := by
    rintro rfl
    exact other (by simpa [tight.sound.top] using hp.symm)
  have reached : g.Reaches root v := (parent_parents_isSome valid).mp (by simp [hp])
  refine ⟨other, reached, ?_, tight.sound.nearest v p hp inner⟩
  rw [← above_parents valid reached]
  exact .step hp other .self

/-- Every reachable node but the root has a nearest strict dominator. -/
theorem above?_parents_isSome (valid : root < g.size) {v : Nat} (reached : g.Reaches root v)
    (inner : v ≠ root) : ((g.parents root).above? v).isSome := by
  have tight := tight_parents valid
  obtain ⟨p, hp⟩ := Option.isSome_iff_exists.mp ((parent_parents_isSome valid).mpr reached)
  have less := tight.sound.earlier v p hp inner
  have other : p ≠ v := by
    rintro rfl
    omega
  simp [ParentTable.above?, hp, other]

/-! ### Nearest dominators -/

/-- A strict dominator of a node that all its other strict dominators dominate. -/
structure Nearest (g : Graph) (root d v : Nat) : Prop where
  other : d ≠ v
  dominates : g.Dominates root d v
  below : ∀ a, a ≠ v → g.Dominates root a v → g.Dominates root a d

/-- Two nodes do not dominate each other: on a shortest path to one, the other does not come
first again. -/
theorem Dominates.antisymm {a b : Nat} (h : g.Dominates root a b) (h' : g.Dominates root b a)
    (reached : g.Reaches root a) : a = b := by
  obtain ⟨nodes, p⟩ := reached
  obtain ⟨short, q, nodup, -⟩ := p.shorten
  obtain ⟨before, behind, front, back, rfl⟩ := q.split (h' short q)
  have early : a ∈ before := h before front
  cases back with
  | stay => rfl
  | go edge rest =>
    have late : a ∈ (b :: _).tail := rest.last_mem
    exact absurd late (List.disjoint_of_nodup_append nodup early)

/-- There is at most one nearest strict dominator. -/
theorem Nearest.unique {d e v : Nat} (h : g.Nearest root d v) (h' : g.Nearest root e v)
    (reached : g.Reaches root v) : d = e := by
  have reachedD : g.Reaches root d := by
    obtain ⟨nodes, p⟩ := reached
    obtain ⟨before, -, front, -⟩ := p.split (h.dominates nodes p)
    exact ⟨before, front⟩
  exact (h'.below d h.other h.dominates).antisymm (h.below e h'.other h'.dominates) reachedD

theorem Nearest.ne_root {d v : Nat} (h : g.Nearest root d v) : v ≠ root := by
  rintro rfl
  have only := h.dominates _ (.stay v)
  exact h.other (by simpa using only)

/-- The first link of a chain leads to the nearest strict dominator, and there is no other. -/
theorem above?_parents_eq_some_iff (valid : root < g.size) {d v : Nat} :
    (g.parents root).above? v = some d ↔ g.Reaches root v ∧ g.Nearest root d v := by
  constructor
  · intro h
    obtain ⟨other, reached, dom, below⟩ := above?_parents_eq_some valid h
    exact ⟨reached, other, dom, below⟩
  · rintro ⟨reached, near⟩
    obtain ⟨e, he⟩ := Option.isSome_iff_exists.mp (above?_parents_isSome valid reached near.ne_root)
    obtain ⟨other, -, dom, below⟩ := above?_parents_eq_some valid he
    rw [he, near.unique ⟨other, dom, below⟩ reached]

/-- Only the root and the nodes that cannot be reached have no link. -/
theorem above?_parents_eq_none_iff (valid : root < g.size) {v : Nat} :
    (g.parents root).above? v = none ↔ v = root ∨ ¬g.Reaches root v := by
  constructor
  · intro none
    by_contra both
    push Not at both
    have some := above?_parents_isSome valid both.2 both.1
    simp [none] at some
  · intro h
    rw [Option.eq_none_iff_forall_ne_some]
    intro d hd
    obtain ⟨reached, near⟩ := (above?_parents_eq_some_iff valid).mp hd
    exact h.elim near.ne_root fun unreached => unreached reached

end Graph

end KernelCoarsening
