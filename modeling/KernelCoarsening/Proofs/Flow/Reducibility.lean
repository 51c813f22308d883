/-
Graphs whose cycles are entered at one node.

A graph is reducible if some node of every cycle dominates all nodes of the cycle.

* `Graph.Dominates.total` — of two dominators of a node one dominates the other;
* `Graph.Reducible.closed` — what holds of cycles holds of all ways that come back to where they
  start;
* `Graph.Reducible.of_order` — a graph is reducible if its nodes have an order in which only edges
  to dominators lead back.
-/
import KernelCoarsening.Proofs.Flow.Loops
import Mathlib.Data.List.MinMax

namespace KernelCoarsening

namespace Graph

variable {g : Graph} {root u v x : Nat}

/-- An edge comes from a node. -/
theorem source_lt (edge : v ∈ g.next u) : u < g.size := by
  by_contra outside
  have none : g.succs[u]? = none := Array.getElem?_eq_none (by simpa [size] using outside)
  simp [next, none] at edge

/-- A path that is written as two parts is cut where they meet. -/
theorem Path.cut {front back : List Nat} {x : Nat} (p : g.Path u v (front ++ x :: back)) :
    g.Path u x (front ++ [x]) ∧ g.Path x v (x :: back) := by
  induction front generalizing u with
  | nil =>
    cases p with
    | stay => exact ⟨.stay _, .stay _⟩
    | go edge rest => exact ⟨.stay _, .go edge rest⟩
  | cons y front ih =>
    generalize hn : y :: front ++ x :: back = nodes at p
    cases p with
    | stay => simp at hn
    | go edge rest =>
      obtain ⟨rfl, rfl⟩ := List.cons_eq_cons.mp hn
      exact ⟨.go edge (ih rest).1, (ih rest).2⟩

/-- A path that is not at its end at once comes to it along an edge. -/
theorem Path.last_edge {nodes : List Nat} (p : g.Path u v (nodes ++ [x])) (goes : nodes ≠ []) :
    ∃ w, g.Path u w nodes ∧ v ∈ g.next w := by
  induction nodes generalizing u with
  | nil => exact absurd rfl goes
  | cons y nodes ih =>
    generalize hn : y :: nodes ++ [x] = all at p
    cases p with
    | stay => simp at hn
    | go edge rest =>
      obtain ⟨rfl, rfl⟩ := List.cons_eq_cons.mp hn
      by_cases short : nodes = []
      · subst short
        cases rest with
        | stay => exact ⟨y, .stay y, edge⟩
        | go _ rest => cases rest
      · obtain ⟨w, way, last⟩ := ih rest short
        exact ⟨w, .go edge way, last⟩

/-- Of two dominators of a node one dominates the other: otherwise a way to each of them avoids
the other, and on a shortest way to the node each would come behind the other. -/
theorem Dominates.total {a b : Nat} (ha : g.Dominates root a x) (hb : g.Dominates root b x)
    (reached : g.Reaches root x) : g.Dominates root a b ∨ g.Dominates root b a := by
  by_contra neither
  obtain ⟨notA, notB⟩ := not_or.mp neither
  obtain ⟨toB, pB, avoidsA⟩ : ∃ nodes, g.Path root b nodes ∧ a ∉ nodes := by
    simpa [Dominates] using notA
  obtain ⟨toA, pA, avoidsB⟩ : ∃ nodes, g.Path root a nodes ∧ b ∉ nodes := by
    simpa [Dominates] using notB
  have other : a ≠ b := fun same => notA (same ▸ .refl g root a)
  obtain ⟨nodes, p⟩ := reached
  obtain ⟨short, p, nodup, -⟩ := p.shorten
  obtain ⟨behind, q, suffix⟩ := p.suffix (hb short p)
  have later : a ∈ behind := by
    rcases List.mem_append.mp (ha _ (pB.append q)) with mem | mem
    · exact absurd mem avoidsA
    · exact List.mem_of_mem_tail mem
  obtain ⟨last, q', suffix'⟩ := q.suffix later
  have again : b ∈ last := by
    rcases List.mem_append.mp (hb _ (pA.append q')) with mem | mem
    · exact absurd mem avoidsB
    · exact List.mem_of_mem_tail mem
  cases q with
  | stay => exact other (List.mem_singleton.mp later)
  | go edge rest =>
    have fresh := (List.nodup_cons.mp (nodup.sublist suffix.sublist)).1
    rcases List.suffix_cons_iff.mp suffix' with rfl | within
    · cases q' <;> exact other rfl
    · exact fresh (within.subset again)

/-- Some node of every cycle dominates all nodes of the cycle. -/
def Reducible (g : Graph) (root : Nat) : Prop :=
  ∀ v nodes, g.Path v v (v :: nodes) → nodes ≠ [] → nodes.Nodup →
    ∃ d ∈ nodes, ∀ x ∈ nodes, g.Dominates root d x

/-- A list that is not free of repetition passes one of its members twice. -/
theorem exists_repeated {nodes : List Nat} (h : ¬ nodes.Nodup) :
    ∃ front x mid back, nodes = front ++ x :: mid ++ x :: back := by
  induction nodes with
  | nil => simp at h
  | cons y nodes ih =>
    by_cases mem : y ∈ nodes
    · obtain ⟨mid, back, rfl⟩ := List.append_of_mem mem
      exact ⟨[], y, mid, back, rfl⟩
    · obtain ⟨front, x, mid, back, rfl⟩ := ih fun nodup => h (List.nodup_cons.mpr ⟨mem, nodup⟩)
      exact ⟨y :: front, x, mid, back, rfl⟩

/-- Some node of every way that comes back to where it starts dominates all nodes of the way: the
way is made of cycles, and where two of them meet, the dominator of one dominates that of the
other. -/
theorem Reducible.closed (reducible : g.Reducible root) (reached : g.Reaches root v)
    {nodes : List Nat} (p : g.Path v v (v :: nodes)) (goes : nodes ≠ []) :
    ∃ d ∈ nodes, ∀ x ∈ nodes, g.Dominates root d x := by
  induction n : nodes.length using Nat.strongRecOn generalizing v nodes with
  | _ n ih =>
    by_cases nodup : nodes.Nodup
    · exact reducible v nodes p goes nodup
    · obtain ⟨front, x, mid, back, rfl⟩ := exists_repeated nodup
      simp only [List.length_append, List.length_cons] at n
      have whole : g.Path v v ((v :: front) ++ x :: (mid ++ x :: back)) := by simpa using p
      obtain ⟨first, rest⟩ := whole.cut
      have rest : g.Path x v ((x :: mid) ++ x :: back) := by simpa using rest
      obtain ⟨inner, last⟩ := rest.cut
      have inner : g.Path x x (x :: (mid ++ [x])) := inner
      have reachedX : g.Reaches root x := reached.trans ⟨_, first⟩
      have outer : g.Path v v (v :: (front ++ x :: back)) := by simpa using first.append last
      obtain ⟨c, hc, domC⟩ := ih (mid.length + 1) (by omega) reachedX
        inner (by simp) (by simp)
      obtain ⟨d, hd, domD⟩ := ih (front.length + (back.length + 1)) (by omega) reached
        outer (by simp) (by simp)
      have domCX := domC x (by simp)
      have domDX := domD x (by simp)
      rcases domCX.total domDX reachedX with up | up
      · refine ⟨c, by simp at hc ⊢; tauto, fun y hy => ?_⟩
        by_cases inside : y ∈ mid ++ [x]
        · exact domC y inside
        · exact up.trans (domD y (by simp at hy inside ⊢; tauto))
      · refine ⟨d, by simp at hd ⊢; tauto, fun y hy => ?_⟩
        by_cases outside : y ∈ front ++ x :: back
        · exact domD y outside
        · exact up.trans (domC y (by simp at hy outside ⊢; tauto))

/-- What dominates the end of a path on which it does not lie before the end dominates all its
nodes. -/
theorem Dominates.along {d : Nat} {nodes : List Nat} (p : g.Path u v nodes) (h : g.Dominates root d v)
    (free : d ∉ nodes.tail) : ∀ y ∈ nodes, g.Dominates root d y := by
  induction p with
  | stay v => simpa using h
  | @go u v w nodes edge rest ih =>
    have free : d ∉ nodes := free
    have onward := ih h fun mem => free (List.mem_of_mem_tail mem)
    intro y hy
    rcases List.mem_cons.mp hy with rfl | hy
    · refine (onward v rest.first_mem).of_edge ?_ edge
      rintro rfl
      exact free rest.first_mem
    · exact onward y hy

/-- A graph is reducible if its nodes have an order in which every edge leads to a later node or
to a dominator of the node that it comes from: the first node of a cycle dominates the cycle. -/
theorem Reducible.of_order (order : Nat → Nat)
    (h : ∀ u v, v ∈ g.next u → order u < order v ∨ g.Dominates root v u) : g.Reducible root := by
  intro v nodes p goes nodup
  obtain ⟨d, least⟩ : ∃ d, d ∈ nodes.argmin order :=
    Option.ne_none_iff_exists'.mp fun none => goes (List.argmin_eq_none.mp none)
  have hd : d ∈ nodes := List.argmin_mem least
  have first : ∀ y ∈ nodes, order d ≤ order y := fun y hy =>
    List.le_of_mem_argmin hy least
  -- the cycle, read from its first node on
  obtain ⟨front, back, rfl⟩ := List.append_of_mem hd
  have p : g.Path v v ((v :: front) ++ d :: back) := p
  obtain ⟨start, rest⟩ := p.cut
  have round : g.Path d d ((d :: (back ++ front)) ++ [d]) := by simpa using rest.append start
  obtain ⟨w, way, edge⟩ := round.last_edge (by simp)
  have fresh : d ∉ back ++ front := by
    have := (List.nodup_middle.mp nodup)
    simp only [List.nodup_cons, List.mem_append] at this ⊢
    tauto
  have mem : ∀ y, y ∈ d :: (back ++ front) ↔ y ∈ front ++ d :: back := by
    intro y
    simp only [List.mem_cons, List.mem_append]
    tauto
  have top : g.Dominates root d w := by
    refine (h w d edge).resolve_left fun less => ?_
    have := first w ((mem w).mp way.last_mem)
    omega
  exact ⟨d, hd, fun y hy => top.along way fresh y ((mem y).mpr hy)⟩

/-- Control can end from all nodes if each of them is an end or leads to a later one. -/
theorem canEnd_of_forward (h : ∀ u < g.size, g.next u = [] ∨ ∃ v ∈ g.next u, u < v)
    (inside : u < g.size) : g.CanEnd u := by
  induction n : g.size - u using Nat.strongRecOn generalizing u with
  | _ n ih =>
    rcases h u inside with isEnd | ⟨v, edge, later⟩
    · exact ⟨u, isEnd, .refl g u⟩
    · have lt := next_lt edge
      have step : g.Reaches u v := ⟨_, .go edge (.stay v)⟩
      exact step.canEnd (ih (g.size - v) (by omega) lt rfl)

/-- A reducible graph all nodes of which lie on ways from the root to an end. -/
structure Orderly (g : Graph) (root : Nat) : Prop where
  reducible : g.Reducible root
  reached : ∀ v < g.size, g.Reaches root v
  finish : ∀ v < g.size, g.CanEnd v

end Graph

/-- The graph of a function is orderly if all blocks can be reached, only edges to dominators lead
back, and all blocks but the ends lead forward. -/
theorem Func.orderly_of_edges {f : Func} {g : Graph} (entry : f.entry.index < g.size)
    (body : f.isDeclaration = false) (reached : ∀ u < g.size, (f.dominators g).isReachable ⟨u⟩)
    (back : ∀ u < g.size, ∀ v ∈ g.next u, u < v ∨ (f.dominators g).dominates ⟨v⟩ ⟨u⟩)
    (forward : ∀ u < g.size, g.next u = [] ∨ ∃ v ∈ g.next u, u < v) :
    g.Orderly f.entry.index := by
  have reached := fun u inside => (isReachable_dominators entry body).mp (reached u inside)
  refine ⟨.of_order id fun u v edge => ?_, reached, fun u => Graph.canEnd_of_forward forward⟩
  have inside := Graph.source_lt edge
  exact (back u inside v edge).imp id
    (dominates_dominators (b := ⟨u⟩) entry body (reached u inside)).mp

end KernelCoarsening
