/-
The loops of a function are its natural loops.

The body of a loop is grown against the edges from the sources of the closing edges, so it
holds the blocks that lead to such a source without passing the header:

* `Graph.mem_grow` — what growing finds;
* `Func.naturalLoop_of_mem_loops` — a loop of the forest is entered at its header only, and
  every block of it leads back to the header inside the loop;
* `Graph.NaturalLoop.before_iff` — if all ways out of a loop lead to one block, the loop is
  what comes before that block.
-/
import KernelCoarsening.Flow.Loops
import KernelCoarsening.Proofs.Flow.FunctionGraph

namespace KernelCoarsening

/-! ### Growing -/

namespace Graph

variable {g : Graph} {header : Nat} {latches body stack : List Nat}

/-- What holds while a body is grown from the latches of a header. -/
structure Growing (g : Graph) (header : Nat) (latches body stack : List Nat) : Prop where
  sound : ∀ v, v ∈ body ∨ v ∈ stack → v = header ∨ ∃ t ∈ latches, g.Before header t v
  closed : ∀ v ∈ body, v ≠ header → ∀ w ∈ g.next v, w ∈ body ∨ w ∈ stack
  head : header ∈ body
  started : ∀ t ∈ latches, t ∈ body ∨ t ∈ stack
  inside : ∀ v ∈ stack, v < g.size

theorem Growing.result (h : g.Growing header latches body stack) :
    g.Growing header latches (g.grow body stack) [] := by
  induction body, stack using Graph.grow.induct g with
  | case1 body =>
    rw [grow]
    exact h
  | case2 body v rest new ih =>
    rw [grow, dif_pos new]
    have other : v ≠ header := fun same => new.1 (same ▸ h.head)
    obtain ⟨t, ht, before⟩ := (h.sound v (.inr (by simp))).resolve_left other
    refine ih ⟨fun w hw => ?_, fun w hw ne x hx => ?_, by simp [h.head], fun t ht => ?_, ?_⟩
    · by_cases edge : w ∈ g.next v
      · by_cases same : w = header
        · exact .inl same
        · exact .inr ⟨t, ht, before.step edge same⟩
      · refine h.sound w ?_
        simp only [List.mem_cons, List.mem_append, edge, false_or] at hw ⊢
        tauto
    · by_cases same : w = v
      · subst same
        exact .inr (List.mem_append_left _ hx)
      · have old : w ∈ body := by simpa [same] using hw
        have := h.closed w old ne x hx
        simp only [List.mem_cons, List.mem_append] at this ⊢
        tauto
    · have := h.started t ht
      simp only [List.mem_cons, List.mem_append] at this ⊢
      tauto
    · intro w hw
      rcases List.mem_append.mp hw with hw | hw
      · exact next_lt hw
      · exact h.inside w (by simp [hw])
  | case3 body v rest old ih =>
    rw [grow, dif_neg old]
    have known : v ∈ body := by
      by_contra fresh
      exact old ⟨fresh, h.inside v (by simp)⟩
    -- the node on top of the stack is in the body already, so nothing is lost with it
    have drop : ∀ {w : Nat}, w ∈ body ∨ w ∈ v :: rest → w ∈ body ∨ w ∈ rest := by
      rintro w (hw | hw)
      · exact .inl hw
      · rcases List.mem_cons.mp hw with rfl | hw
        · exact .inl known
        · exact .inr hw
    refine ih ⟨fun w hw => h.sound w ?_, fun w hw ne x hx => drop (h.closed w hw ne x hx), h.head,
      fun t ht => drop (h.started t ht), fun w hw => h.inside w (List.mem_cons_of_mem _ hw)⟩
    rcases hw with hw | hw
    · exact .inl hw
    · exact .inr (List.mem_cons_of_mem _ hw)

/-- Growing finds the header and what can be reached from a latch without passing it. -/
theorem mem_grow (valid : ∀ t ∈ latches, t < g.size) {v : Nat} :
    v ∈ g.grow [header] latches ↔ v = header ∨ ∃ t ∈ latches, g.Before header t v := by
  have first : g.Growing header latches [header] latches := by
    refine ⟨fun v hv => ?_, by simp, by simp, fun t ht => .inr ht, valid⟩
    by_cases same : v = header
    · exact .inl same
    · have latch : v ∈ latches := by simpa [same] using hv
      exact .inr ⟨v, latch, .refl same⟩
  have done := first.result
  constructor
  · intro hv
    exact done.sound v (.inl hv)
  · rintro (rfl | ⟨t, ht, nodes, p, avoids⟩)
    · exact done.head
    · have begin : t ∈ g.grow [header] latches := by simpa using done.started t ht
      clear ht
      induction p with
      | stay v => exact begin
      | @go u w v nodes edge rest ih =>
        have free : header ≠ u ∧ header ∉ nodes := by simpa using avoids
        refine ih free.2 ?_
        simpa using done.closed u begin (Ne.symm free.1) w edge

/-! ### Natural loops -/

/-- A set of nodes is a natural loop: it is entered at the header only, and every node of it
leads back to the header inside. -/
structure NaturalLoop (g : Graph) (root header : Nat) (inside : Nat → Prop) : Prop where
  head : inside header
  reached : ∀ {v}, inside v → g.Reaches root v
  dominates : ∀ {v}, inside v → g.Dominates root header v
  back : ∀ {v}, inside v → ∃ nodes, g.Path v header nodes ∧ ∀ x ∈ nodes, inside x
  closed : ∀ {u v}, g.Reaches root u → v ∈ g.next u → inside v → v ≠ header → inside u

variable {root : Nat}

/-- The header with the nodes that lead to a latch without passing it are a natural loop. -/
theorem naturalLoop_of_latches (some : latches ≠ [])
    (closing : ∀ t ∈ latches, g.Reaches root t ∧ header ∈ g.next t ∧ g.Dominates root header t) :
    g.NaturalLoop root header fun v =>
      v = header ∨ g.Reaches root v ∧ ∃ t ∈ latches, g.Before header v t where
  head := .inl rfl
  reached := by
    rintro v (rfl | ⟨reached, -⟩)
    · obtain ⟨t, ht⟩ := List.exists_mem_of_ne_nil latches some
      obtain ⟨reached, edge, -⟩ := closing t ht
      exact reached.trans ⟨_, .go edge (.stay _)⟩
    · exact reached
  dominates := by
    rintro v (rfl | ⟨-, t, ht, nodes, p, avoids⟩) front q
    · exact q.last_mem
    · -- a way to `v` goes on to the latch, and the header is not on the rest of it
      rcases List.mem_append.mp ((closing t ht).2.2 _ (q.append p)) with mem | mem
      · exact mem
      · exact absurd (List.mem_of_mem_tail mem) avoids
  back := by
    rintro v (rfl | ⟨reached, t, ht, nodes, p, avoids⟩)
    · exact ⟨_, .stay _, by simp⟩
    · refine ⟨_, p.append (.go (closing t ht).2.1 (.stay header)), fun x hx => ?_⟩
      rcases List.mem_append.mp hx with hx | hx
      · obtain ⟨before, behind, front, rest, rfl⟩ := p.split hx
        refine .inr ⟨reached.trans ⟨before, front⟩, t, ht, behind, rest, fun mem => ?_⟩
        -- the way on from `x` is a part of the way from `v`, which avoids the header
        cases rest with
        | stay =>
          have same : header = t := by simpa using mem
          exact avoids (List.mem_append_left _ (same ▸ front.last_mem))
        | go edge rest =>
          rcases List.mem_cons.mp mem with rfl | mem
          · exact avoids (List.mem_append_left _ front.last_mem)
          · exact avoids (List.mem_append_right _ mem)
      · exact .inl (by simpa using hx)
  closed := by
    rintro u v reached edge (rfl | ⟨-, t, ht, nodes, p, avoids⟩) other
    · exact absurd rfl other
    · by_cases same : u = header
      · exact .inl same
      · exact .inr ⟨reached, t, ht, _, .go edge p, by simp [Ne.symm same, avoids]⟩

namespace NaturalLoop

variable {inside : Nat → Prop} {u v exit : Nat} {nodes : List Nat}

/-- A way from outside into a loop passes its header. -/
theorem header_mem (h : g.NaturalLoop root header inside) (reached : g.Reaches root u)
    (outside : ¬ inside u) (p : g.Path u v nodes) (hv : inside v) : header ∈ nodes := by
  induction p with
  | stay v => exact absurd hv outside
  | @go u w v nodes edge rest ih =>
    by_cases hw : inside w
    · by_cases same : w = header
      · exact List.mem_cons_of_mem _ (same ▸ rest.first_mem)
      · exact absurd (h.closed reached edge hw same) outside
    · exact List.mem_cons_of_mem _ (ih (reached.trans ⟨_, .go edge (.stay w)⟩) hw hv)

/-- A way that avoids the only exit of a loop stays inside. -/
theorem stays (leave : ∀ x, inside x → ∀ y ∈ g.next x, inside y ∨ y = exit) (hu : inside u)
    (p : g.Path u v nodes) (avoids : exit ∉ nodes) : inside v := by
  induction p with
  | stay v => exact hu
  | @go u w v nodes edge rest ih =>
    have free : exit ≠ u ∧ exit ∉ nodes := by simpa using avoids
    rcases leave u hu w edge with hw | rfl
    · exact ih hw free.2
    · exact absurd rest.first_mem free.2

/-- Behind the last time that a way into a loop passes the header, it stays inside. -/
theorem path_inside (h : g.NaturalLoop root header inside) (reached : g.Reaches root u)
    (p : g.Path u v nodes) (hit : header ∈ nodes) (hv : inside v) :
    ∃ behind, g.Path header v behind ∧ ∀ x ∈ behind, inside x := by
  induction p with
  | stay v =>
    obtain rfl : header = v := by simpa using hit
    exact ⟨_, .stay _, by simpa using hv⟩
  | @go u w v nodes edge rest ih =>
    have reachedW : g.Reaches root w := reached.trans ⟨_, .go edge (.stay w)⟩
    by_cases later : header ∈ nodes
    · exact ih reachedW later hv
    · obtain rfl : header = u := by simpa [later] using hit
      refine ⟨_, .go edge rest, fun x hx => ?_⟩
      rcases List.mem_cons.mp hx with rfl | hx
      · exact h.head
      · -- otherwise the rest of the way would pass the header again
        by_contra outside
        obtain ⟨before, behind, front, back, rfl⟩ := rest.split hx
        have again := h.header_mem (reachedW.trans ⟨_, front⟩) outside back hv
        cases back with
        | stay => exact outside hv
        | go edge' back' =>
          rcases List.mem_cons.mp again with rfl | again
          · exact outside h.head
          · exact later (List.mem_append_right _ again)

/-- A loop with one exit is what comes before the exit. -/
theorem before_iff (h : g.NaturalLoop root header inside) (out : ¬ inside exit)
    (leave : ∀ x, inside x → ∀ y ∈ g.next x, inside y ∨ y = exit) :
    g.Before exit header v ↔ inside v := by
  constructor
  · rintro ⟨nodes, p, avoids⟩
    exact stays leave h.head p avoids
  · intro hv
    obtain ⟨nodes, p⟩ := h.reached hv
    obtain ⟨behind, q, within⟩ := h.path_inside (.refl g root) p (h.dominates hv nodes p) hv
    exact ⟨behind, q, fun mem => out (within _ mem)⟩

end NaturalLoop

end Graph

/-! ### The forest -/

namespace Assoc

variable {κ ν : Type} [DecidableEq κ]

theorem mem_of_get? {m : Assoc κ ν} {key : κ} {value : ν} (h : m.get? key = some value) :
    (key, value) ∈ m := by
  induction m with
  | nil => simp [get?] at h
  | cons entry rest ih =>
    obtain ⟨k, v⟩ := entry
    rw [get?] at h
    split at h
    · rename_i same
      obtain rfl : v = value := by simpa using h
      simp [same]
    · exact List.mem_cons_of_mem _ (ih h)

theorem mem_insert {m : Assoc κ ν} {key k : κ} {value v : ν} (h : (k, v) ∈ m.insert key value) :
    (k, v) = (key, value) ∨ (k, v) ∈ m := by
  induction m with
  | nil =>
    rw [insert] at h
    exact .inl (List.mem_singleton.mp h)
  | cons entry rest ih =>
    obtain ⟨k', v'⟩ := entry
    rw [insert] at h
    split at h
    · rcases List.mem_cons.mp h with h | h
      · exact .inl h
      · exact .inr (List.mem_cons_of_mem _ h)
    · rcases List.mem_cons.mp h with h | h
      · exact .inr (by simp [h])
      · rcases ih h with h | h
        · exact .inl h
        · exact .inr (List.mem_cons_of_mem _ h)

end Assoc

theorem Graph.mem_next_keepReachable {g : Graph} {dom : DominatorTree} {u v : Nat} :
    v ∈ (g.keepReachable dom).next u ↔ v ∈ g.next u ∧ dom.isReachable ⟨v⟩ := by
  unfold Graph.keepReachable Graph.next
  by_cases inside : u < g.succs.size
  · simp [inside]
  · simp [inside]

namespace LoopForest

/-- A loop is one of a list, but for its place in the forest. -/
def Stems (bare : List Loop) (lp : Loop) : Prop :=
  ∃ old ∈ bare, lp.header = old.header ∧ lp.blocks = old.blocks ∧ lp.latches = old.latches

theorem stems_add {bare forest : List Loop} {new : Loop} (hf : ∀ lp ∈ forest, Stems bare lp)
    (hn : new ∈ bare) : ∀ lp ∈ add forest new, Stems bare lp := by
  intro lp hlp
  rw [add] at hlp
  split at hlp
  · rcases List.mem_append.mp hlp with hlp | hlp
    · exact hf lp hlp
    · obtain rfl := List.mem_singleton.mp hlp
      exact ⟨new, hn, rfl, rfl, rfl⟩
  · rcases List.mem_append.mp hlp with hlp | hlp
    · exact hf lp hlp
    · obtain rfl := List.mem_singleton.mp hlp
      exact ⟨lp, hn, rfl, rfl, rfl⟩

theorem stems_foldl {bare more forest : List Loop} (hf : ∀ lp ∈ forest, Stems bare lp)
    (hm : ∀ lp ∈ more, lp ∈ bare) : ∀ lp ∈ more.foldl add forest, Stems bare lp := by
  induction more generalizing forest with
  | nil => exact hf
  | cons new more ih =>
    exact ih (stems_add hf (hm new (by simp))) fun lp hlp => hm lp (List.mem_cons_of_mem _ hlp)

end LoopForest

namespace Func

variable {f : Func} {g : Graph}

theorem isReachable_dominators (entry : f.entry.index < g.size) (body : f.isDeclaration = false)
    {b : BlockId} : (f.dominators g).isReachable b ↔ g.Reaches f.entry.index b.index := by
  simp only [DominatorTree.isReachable, dominators, body, Bool.false_eq_true, if_false]
  exact Graph.parent_parents_isSome entry

theorem dominates_dominators (entry : f.entry.index < g.size) (body : f.isDeclaration = false)
    {a b : BlockId} (reached : g.Reaches f.entry.index b.index) :
    (f.dominators g).dominates a b ↔ g.Dominates f.entry.index a.index b.index := by
  simp only [DominatorTree.dominates, dominators, body, Bool.false_eq_true, if_false,
    decide_eq_true_eq]
  exact Graph.mem_ancestors_parents entry reached

/-- A reachable block leads to a block that dominates it. -/
structure Closes (f : Func) (g : Graph) (t h : BlockId) : Prop where
  reached : g.Reaches f.entry.index t.index
  edge : h.index ∈ g.next t.index
  dominated : g.Dominates f.entry.index h.index t.index

/-- The edges that close loops, with their targets in front. -/
def closingEdges (g : Graph) (dom : DominatorTree) (tails : List Nat) : List (Nat × Nat) :=
  tails.flatMap fun tail =>
    if dom.isReachable ⟨tail⟩ then
      ((g.next tail).filter fun head => dom.dominates ⟨head⟩ ⟨tail⟩).map (·, tail)
    else []

theorem mem_closingEdges (entry : f.entry.index < g.size) (body : f.isDeclaration = false)
    {tails : List Nat} {h t : Nat} : (h, t) ∈ closingEdges g (f.dominators g) tails ↔
      t ∈ tails ∧ f.Closes g ⟨t⟩ ⟨h⟩ := by
  simp only [closingEdges, List.mem_flatMap]
  constructor
  · rintro ⟨tail, ht, edge⟩
    split at edge
    · rename_i reachable
      obtain ⟨head, hh, same⟩ := List.mem_map.mp edge
      obtain ⟨rfl, rfl⟩ := Prod.mk.injEq .. ▸ same
      obtain ⟨next, dom⟩ := List.mem_filter.mp hh
      have reached : g.Reaches f.entry.index tail := (isReachable_dominators entry body).mp reachable
      exact ⟨ht, reached, next, (dominates_dominators entry body reached).mp dom⟩
    · simp at edge
  · rintro ⟨ht, reached, next, dom⟩
    refine ⟨t, ht, ?_⟩
    rw [if_pos ((isReachable_dominators entry body).mpr reached)]
    refine List.mem_map.mpr ⟨h, List.mem_filter.mpr ⟨next, ?_⟩, rfl⟩
    exact (dominates_dominators entry body reached).mpr dom

/-- The latches of a header are the reachable sources of edges to it that it dominates. -/
theorem mem_latches (entry : f.entry.index < g.size) (body : f.isDeclaration = false)
    {tails latches : List Nat} {header : Nat}
    (h : (header, latches) ∈ g.latches (f.dominators g) tails) :
    latches ≠ [] ∧ ∀ t ∈ latches, g.Reaches f.entry.index t ∧ header ∈ g.next t ∧
      g.Dominates f.entry.index header t := by
  -- every entry of the map lists edges that have been looked at
  have listed : ∀ (edges all : List (Nat × Nat)) (m : Assoc Nat (List Nat)),
      (∀ e ∈ edges, e ∈ all) →
      (∀ k ts, (k, ts) ∈ m → ts ≠ [] ∧ ∀ t ∈ ts, (k, t) ∈ all) →
      ∀ k ts, (k, ts) ∈ edges.foldl (fun m edge =>
        m.insert edge.1 ((m.get? edge.1).getD [] ++ [edge.2])) m →
      ts ≠ [] ∧ ∀ t ∈ ts, (k, t) ∈ all := by
    intro edges all
    induction edges with
    | nil => exact fun m _ hm => hm
    | cons e edges ih =>
      intro m sub hm
      refine ih _ (fun e' he' => sub e' (List.mem_cons_of_mem _ he')) fun k ts hk => ?_
      rcases Assoc.mem_insert hk with same | old
      · obtain ⟨rfl, rfl⟩ := Prod.mk.injEq .. ▸ same
        refine ⟨by simp, fun t ht => ?_⟩
        rcases List.mem_append.mp ht with ht | ht
        · cases known : m.get? e.1 with
          | none => simp [known] at ht
          | some old => exact (hm e.1 old (Assoc.mem_of_get? known)).2 t (by simpa [known] using ht)
        · obtain rfl := List.mem_singleton.mp ht
          exact sub e (by simp)
      · exact hm k ts old
  obtain ⟨some, sub⟩ := listed (closingEdges g (f.dominators g) tails) _ [] (fun _ he => he)
    (by simp) header latches h
  refine ⟨some, fun t ht => ?_⟩
  obtain ⟨-, closes⟩ := (mem_closingEdges entry body).mp (sub t ht)
  exact ⟨closes.reached, closes.edge, closes.dominated⟩

/-- A way against the edges between reachable blocks is a way from a reachable block, read
backwards. -/
theorem before_keepReachable_iff (entry : f.entry.index < g.size) (body : f.isDeclaration = false)
    {stop t v : Nat} (reached : g.Reaches f.entry.index t) :
    (g.inverse.keepReachable (f.dominators g)).Before stop t v ↔
      g.Reaches f.entry.index v ∧ g.Before stop v t := by
  constructor
  · rintro ⟨nodes, p, avoids⟩
    induction p with
    | stay v => exact ⟨reached, [v], .stay v, avoids⟩
    | @go t w v nodes edge rest ih =>
      have free : stop ≠ t ∧ stop ∉ nodes := by simpa using avoids
      obtain ⟨edge, reachable⟩ := Graph.mem_next_keepReachable.mp edge
      obtain ⟨reachedV, before⟩ := ih ((isReachable_dominators entry body).mp reachable) free.2
      exact ⟨reachedV, before.step (Graph.mem_inverse_next.mp edge) (Ne.symm free.1)⟩
  · rintro ⟨reachedV, nodes, p, avoids⟩
    induction p with
    | stay v => exact ⟨[v], .stay v, avoids⟩
    | @go v w t nodes edge rest ih =>
      have free : stop ≠ v ∧ stop ∉ nodes := by simpa using avoids
      have before := ih reached (reachedV.trans ⟨_, .go edge (.stay w)⟩) free.2
      refine before.step (Graph.mem_next_keepReachable.mpr ⟨Graph.mem_inverse_next.mpr edge, ?_⟩)
        (Ne.symm free.1)
      exact (isReachable_dominators entry body).mpr reachedV

section

variable (entry : f.entry.index < g.size) (body : f.isDeclaration = false) {latches : List Nat}
  {header : Nat} (some : latches ≠ []) (closing : ∀ t ∈ latches,
    g.Reaches f.entry.index t ∧ header ∈ g.next t ∧ g.Dominates f.entry.index header t)

include entry body some closing

/-- Growing against the edges between reachable blocks finds what leads to a latch without passing
the header. -/
theorem mem_natural {v : Nat} : (⟨v⟩ : BlockId) ∈
    (Loop.natural g (g.inverse.keepReachable (f.dominators g)) header latches).blocks ↔
      v = header ∨ g.Reaches f.entry.index v ∧ ∃ t ∈ latches, g.Before header v t := by
  have loop := Graph.naturalLoop_of_latches some closing
  have size : (g.inverse.keepReachable (f.dominators g)).size = g.size := by
    simpa [Graph.keepReachable, Graph.size] using Graph.size_inverse g
  have valid : ∀ t ∈ latches, t < (g.inverse.keepReachable (f.dominators g)).size :=
    fun t ht => size ▸ (closing t ht).1.lt_size entry
  have cover : v ∈ (g.inverse.keepReachable (f.dominators g)).grow [header] latches ↔
      (v = header ∨ g.Reaches f.entry.index v ∧ ∃ t ∈ latches, g.Before header v t) := by
    rw [Graph.mem_grow valid]
    constructor
    · rintro (rfl | ⟨t, ht, before⟩)
      · exact .inl rfl
      · obtain ⟨reached, before⟩ := (before_keepReachable_iff entry body (closing t ht).1).mp before
        exact .inr ⟨reached, t, ht, before⟩
    · rintro (rfl | ⟨reached, t, ht, before⟩)
      · exact .inl rfl
      · have before := (before_keepReachable_iff entry body (closing t ht).1).mpr ⟨reached, before⟩
        exact .inr ⟨t, ht, before⟩
  simp only [Loop.natural, List.mem_map, List.mem_filter, List.mem_range, decide_eq_true_eq,
    BlockId.mk.injEq, exists_eq_right]
  rw [cover]
  exact ⟨fun h => h.2, fun h => ⟨(loop.reached h).lt_size entry, h⟩⟩

/-- Growing against the edges between reachable blocks finds a natural loop. -/
theorem naturalLoop_natural :
    g.NaturalLoop f.entry.index header fun v => (⟨v⟩ : BlockId) ∈
      (Loop.natural g (g.inverse.keepReachable (f.dominators g)) header latches).blocks := by
  simpa only [mem_natural entry body some closing] using Graph.naturalLoop_of_latches some closing

end

/-- A loop of the forest comes from a header and its latches. -/
theorem exists_latches {dom : DominatorTree} {lp : Loop} (h : lp ∈ (f.loops g dom).loops) :
    ∃ header latches, (header, latches) ∈ g.latches dom (f.layout.map (·.index)) ∧
      lp.header = ⟨header⟩ ∧ lp.latches = latches.map BlockId.mk ∧
      lp.blocks = (Loop.natural g (g.inverse.keepReachable dom) header latches).blocks := by
  have stems : LoopForest.Stems ((g.latches dom (f.layout.map (·.index))).map fun entry =>
      Loop.natural g (g.inverse.keepReachable dom) entry.1 entry.2) lp := by
    unfold loops at h
    exact LoopForest.stems_foldl (by simp) (fun lp hlp => List.mem_mergeSort.mp hlp) lp h
  obtain ⟨old, hold, header, blocks, latches⟩ := stems
  obtain ⟨⟨head, tails⟩, found, rfl⟩ := List.mem_map.mp hold
  exact ⟨head, tails, found, header, latches, blocks⟩

/-- A loop of the forest is a natural loop. -/
theorem naturalLoop_of_mem_loops (entry : f.entry.index < g.size)
    (body : f.isDeclaration = false) {lp : Loop}
    (h : lp ∈ (f.loops g (f.dominators g)).loops) :
    g.NaturalLoop f.entry.index lp.header.index fun v => (⟨v⟩ : BlockId) ∈ lp.blocks := by
  obtain ⟨header, latches, found, head, -, blocks⟩ := exists_latches h
  obtain ⟨some, closing⟩ := mem_latches entry body found
  rw [head, blocks]
  exact naturalLoop_natural entry body some closing

/-- The header and the latches of a loop are blocks. -/
theorem lt_of_mem_loops (entry : f.entry.index < g.size) (body : f.isDeclaration = false)
    {lp : Loop} (h : lp ∈ (f.loops g (f.dominators g)).loops) :
    lp.header.index < g.size ∧ ∀ t ∈ lp.latches, t.index < g.size := by
  obtain ⟨header, latches, found, head, tails, -⟩ := exists_latches h
  obtain ⟨some, closing⟩ := mem_latches entry body found
  obtain ⟨first, hfirst⟩ := List.exists_mem_of_ne_nil latches some
  rw [head, tails]
  refine ⟨Graph.next_lt (closing first hfirst).2.1, fun t ht => ?_⟩
  obtain ⟨tail, htail, rfl⟩ := List.mem_map.mp ht
  exact (closing tail htail).1.lt_size entry

end Func

end KernelCoarsening
