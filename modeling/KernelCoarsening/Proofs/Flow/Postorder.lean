/-
Reverse postorder: dominators come first, and edges that go back close cycles.

A depth-first search keeps on its stack a way from the root to the node that it is at.  When a node is
finished, all that it leads to has been seen: what is finished already comes behind it in the order, and
what is still on the stack lies on the way to it.  So an edge to an earlier node of the order, or to the
node itself, leads to a node from which there is a way back:

* `Graph.Threaded` — what holds of the stack and of the finished nodes at every step of a search;
* `Graph.reaches_of_rank_le` — an edge that does not go on in the order lies on a cycle;
* `Func.reversePostorder_exact` — which blocks the order lists, and where.
-/
import KernelCoarsening.Proofs.Flow.Exactness

namespace KernelCoarsening

namespace Graph

variable {g : Graph} {root u v : Nat} {seen done : List Nat} {stack rest : List (Nat × List Nat)}

/-- Every node of a list leads only to nodes behind it and to nodes that it can be reached from. -/
def Returning (g : Graph) : List Nat → Prop
  | [] => True
  | u :: behind => (∀ w ∈ g.next u, w ∈ behind ∨ g.Reaches w u) ∧ Returning g behind

theorem Returning.split {before behind : List Nat} (h : g.Returning (before ++ u :: behind)) :
    ∀ w ∈ g.next u, w ∈ behind ∨ g.Reaches w u := by
  induction before with
  | nil => exact h.1
  | cons x before ih => exact ih h.2

/-! ### Searches -/

/-- The nodes of a stack lie on one way, the deepest last, and the finished nodes lead only behind
them in the order or back. -/
structure Threaded (g : Graph) (stack : List (Nat × List Nat)) (done : List Nat) : Prop where
  linked : (stack.map (·.1)).Pairwise fun deep high => g.Reaches high deep
  returning : g.Returning done

/-- The last node of the stack is finished: what it leads to is finished too or lies below it on the
stack. -/
theorem Threaded.finish (h : g.Threaded ((u, []) :: rest) done)
    (s : g.Searched root seen ((u, []) :: rest) done) : g.Threaded rest (u :: done) := by
  have below := (List.pairwise_cons.mp h.linked).1
  refine ⟨(List.pairwise_cons.mp h.linked).2, fun w hw => ?_, h.returning⟩
  have old : w ∈ seen := by simpa using s.next_stack u [] (by simp) w hw
  rw [s.mem_seen, pending, List.mem_append, List.mem_reverse] at old
  rcases old with pending | finished
  · rcases List.mem_cons.mp pending with rfl | lower
    · exact .inr (.refl g w)
    · exact .inr (below w lower)
  · exact .inl finished

/-- A successor is seen for the first time: there is a way to it from all nodes of the stack. -/
theorem Threaded.enter {vs : List Nat} (h : g.Threaded ((u, v :: vs) :: rest) done)
    (edge : v ∈ g.next u) : g.Threaded ((v, g.next v) :: (u, vs) :: rest) done := by
  have step : g.Reaches u v := ⟨[u, v], .go edge (.stay v)⟩
  have below := (List.pairwise_cons.mp h.linked).1
  refine ⟨List.pairwise_cons.mpr ⟨fun w hw => ?_, h.linked⟩, h.returning⟩
  rcases List.mem_cons.mp hw with rfl | lower
  · exact step
  · exact (below w lower).trans step

/-- A search keeps what holds of it until its stack is empty. -/
theorem Threaded.result (h : g.Threaded stack done) (s : g.Searched root seen stack done) :
    g.Returning (g.search seen stack done) := by
  induction seen, stack, done using Graph.search.induct g with
  | case1 seen done =>
    rw [search]
    exact h.returning
  | case2 seen done u rest ih =>
    rw [search]
    exact ih (h.finish s) s.finish
  | case3 seen done u v vs rest new ih =>
    rw [search, dif_pos new]
    exact ih (h.enter (s.rest_stack u (v :: vs) (by simp) v (by simp))) (s.enter new.1)
  | case4 seen done u v vs rest old ih =>
    rw [search, dif_neg old]
    have edge : v ∈ g.next u := s.rest_stack u (v :: vs) (by simp) v (by simp)
    exact ih ⟨h.linked, h.returning⟩ (s.skip (by simpa [next_lt edge] using old))

/-! ### Orders -/

theorem returning_reversePostorder (valid : root < g.size) :
    g.Returning (g.reversePostorder root) := by
  rw [reversePostorder, if_pos valid]
  exact Threaded.result ⟨by simp, trivial⟩ (.start root)

/-- An edge that does not lead to a later node of the order lies on a cycle. -/
theorem reaches_of_rank_le (valid : root < g.size) (listed : u ∈ g.reversePostorder root)
    (edge : v ∈ g.next u) (le : g.rank root v ≤ g.rank root u) : g.Reaches v u := by
  have returning := g.returning_reversePostorder valid
  have nodup := g.nodup_reversePostorder root
  unfold rank at le
  obtain ⟨before, behind, whole⟩ := List.append_of_mem listed
  rw [whole] at returning nodup le
  refine (returning.split v edge).resolve_left fun later => ?_
  -- what comes behind `u` has a greater place
  obtain ⟨-, alone, apart⟩ := List.nodup_append.mp nodup
  have freshU : u ∉ before := fun mem => apart u mem u (by simp) rfl
  have freshV : v ∉ before := fun mem => apart v mem v (by simp [later]) rfl
  have other : u ≠ v := fun same => (List.nodup_cons.mp alone).1 (same ▸ later)
  rw [List.idxOf_append_of_notMem freshU, List.idxOf_append_of_notMem freshV,
    List.idxOf_cons_self, List.idxOf_cons_ne _ other] at le
  omega

/-- What is no node leads nowhere. -/
theorem Reaches.eq_of_outside (h : g.Reaches u v) (outside : ¬ u < g.size) : v = u := by
  obtain ⟨nodes, p⟩ := h
  cases p with
  | stay => rfl
  | go edge rest =>
    rw [next, Array.getD_eq_getD_getElem?, Array.getElem?_eq_none (Nat.le_of_not_lt outside)] at edge
    simp at edge

end Graph

namespace Func

variable {f : Func}

theorem idxOf_map_mk (nodes : List Nat) (b : BlockId) :
    (nodes.map BlockId.mk).idxOf b = nodes.idxOf b.index := by
  induction nodes with
  | nil => rfl
  | cons v nodes ih =>
    by_cases same : v = b.index
    · subst same
      simp
    · have other : BlockId.mk v ≠ b := fun eq => same (congrArg BlockId.index eq)
      rw [List.map_cons, List.idxOf_cons_ne _ other, List.idxOf_cons_ne _ same, ih]

/-- The blocks in reverse postorder are those that control can come to, each once and the entry first.
A block comes behind its strict dominators, and if an edge leads to a block that does not come later,
then there is a way back from there. -/
theorem reversePostorder_exact (targets : f.Targeted) :
    ∃ g order, f.graph = .ok g ∧ (∀ b c, c.index ∈ g.next b.index ↔ f.LeadsTo b c) ∧
      f.reversePostorder = .ok order ∧ order.Nodup ∧
      (∀ b, b ∈ order ↔
        f.isDeclaration = false ∧ b ∈ f.blockIds ∧ g.Reaches f.entry.index b.index) ∧
      (f.isDeclaration = false → f.entry ∈ f.blockIds → order.head? = some f.entry) ∧
      (∀ a ∈ order, ∀ b ∈ order, a ≠ b → g.Dominates f.entry.index a.index b.index →
        order.idxOf a < order.idxOf b) ∧
      ∀ u ∈ order, ∀ v ∈ order, f.LeadsTo u v → order.idxOf v ≤ order.idxOf u →
        g.Reaches v.index u.index := by
  obtain ⟨g, hg, edges⟩ := exists_graph targets
  have size := size_graph hg
  have listing : f.reversePostorder = .ok (if f.isDeclaration then [] else
      (g.reversePostorder f.entry.index).map BlockId.mk) := by
    simp [reversePostorder, hg, bind, Except.bind, pure, Except.pure]
  refine ⟨g, _, hg, edges, listing, ?_⟩
  cases body : f.isDeclaration with
  | true => simp
  | false =>
    simp only [Bool.false_eq_true, if_false, true_and]
    have listed : ∀ b : BlockId, b ∈ (g.reversePostorder f.entry.index).map BlockId.mk ↔
        b.index ∈ g.reversePostorder f.entry.index := by
      intro b
      constructor
      · intro hb
        obtain ⟨v, hv, rfl⟩ := List.mem_map.mp hb
        exact hv
      · exact fun hb => List.mem_map.mpr ⟨b.index, hb, rfl⟩
    simp only [listed, idxOf_map_mk]
    have once := (g.nodup_reversePostorder f.entry.index).map
      (f := BlockId.mk) fun _ _ same => congrArg BlockId.index same
    by_cases entry : f.entry.index < g.size
    · refine ⟨once, fun b => ?_, fun _ _ => ?_, fun a ha b hb other dom => ?_,
        fun u hu v hv leads le => ?_⟩
      · rw [Graph.mem_reversePostorder entry, mem_blockIds, ← size]
        exact ⟨fun reached => ⟨reached.lt_size entry, reached⟩, fun h => h.2⟩
      · rw [List.head?_map, Graph.head_reversePostorder entry]
        rfl
      · have le : g.rank f.entry.index a.index ≤ g.rank f.entry.index b.index :=
          dom.rank_le entry hb
        have apart : g.rank f.entry.index a.index ≠ g.rank f.entry.index b.index :=
          fun same => other (BlockId.index_inj.mp ((Graph.rank_inj ha).mp same))
        exact Nat.lt_of_le_of_ne le apart
      · exact Graph.reaches_of_rank_le entry hu ((edges u v).mpr leads) le
    · -- a handle that names no block leads nowhere, and there is nothing to list
      have none : g.reversePostorder f.entry.index = [] := by
        rw [Graph.reversePostorder, if_neg entry]
      have outside : f.entry ∉ f.blockIds := by
        rwa [mem_blockIds, ← size]
      have lost : ∀ b ∈ f.blockIds, ¬ g.Reaches f.entry.index b.index := by
        intro b hb reached
        exact outside (BlockId.index_inj.mp (reached.eq_of_outside entry) ▸ hb)
      simp only [none, List.map_nil, List.not_mem_nil, false_iff, not_and, false_implies,
        implies_true, and_true, outside, List.nodup_nil, true_and]
      exact lost

/-- In a loop that is entered at two blocks, control comes from the later block back to the earlier
one, and so there is a way from that one on to the later. -/
theorem reversePostorder_tangle : tangle.Targeted ∧
    tangle.reversePostorder = .ok [⟨0⟩, ⟨1⟩, ⟨2⟩, ⟨3⟩, ⟨5⟩, ⟨4⟩] ∧ tangle.LeadsTo ⟨2⟩ ⟨1⟩ ∧
    ∃ g, tangle.graph = .ok g ∧ g.Reaches 1 2 ∧ ¬ g.Reaches 0 6 := by
  have targets : tangle.Targeted := by decide
  have order : tangle.reversePostorder = .ok [⟨0⟩, ⟨1⟩, ⟨2⟩, ⟨3⟩, ⟨5⟩, ⟨4⟩] := by cbv
  have leads : tangle.LeadsTo ⟨2⟩ ⟨1⟩ := ⟨[⟨1⟩, ⟨3⟩], by cbv, by simp⟩
  obtain ⟨g, listed, hg, -, answer, -, mem, -, -, back⟩ := reversePostorder_exact targets
  obtain rfl := Except.ok.inj (order.symm.trans answer)
  refine ⟨targets, order, leads, g, hg, back ⟨2⟩ (by decide) ⟨1⟩ (by decide) leads (by decide), ?_⟩
  intro reached
  have listed := (mem ⟨6⟩).mpr ⟨rfl, by decide, reached⟩
  simp at listed

end Func

end KernelCoarsening
