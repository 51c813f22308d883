/-
The control-flow graph of a function, and what can be reached in it.

* `Func.exists_graph` — it exists if all blocks lead to blocks that exist;
* `Func.mem_next_graph` — its edges are the successors of blocks;
* `Func.mem_reachableUntil` — a search that does not go beyond a block finds the blocks before
  it, and the block itself if it is reached.
-/
import KernelCoarsening.Proofs.Data.Answers
import KernelCoarsening.Proofs.Flow.PostDominance

namespace KernelCoarsening

theorem BlockId.index_inj {a b : BlockId} : a.index = b.index ↔ a = b := by
  cases a
  cases b
  simp

namespace Func

variable {f : Func} {g : Graph}

theorem mem_blockIds {b : BlockId} : b ∈ f.blockIds ↔ b.index < f.blocks.size := by
  simp only [blockIds, List.mem_map, List.mem_range]
  constructor
  · rintro ⟨n, lt, rfl⟩
    exact lt
  · intro lt
    exact ⟨b.index, lt, rfl⟩

theorem Consistent.mem_layout_iff (h : f.Consistent) (b : BlockId) :
    b ∈ f.layout ↔ b ∈ f.blockIds :=
  (h.mem_layout b).trans mem_blockIds.symm

/-! ### Edges -/

theorem graph_eq_ok (h : f.graph = .ok g) :
    ∃ succs : List (List Nat), f.blockIds.mapM (fun b => (do
      return ((← f.successors b).map BlockId.index).eraseDups : Except Fault (List Nat)))
        = .ok succs ∧ g.succs = succs.toArray := by
  unfold graph at h
  rw [bind_eq_ok_iff] at h
  obtain ⟨succs, hs, h⟩ := h
  refine ⟨succs, hs, ?_⟩
  unfold Graph.ofLists at h
  split at h
  · rename_i g' hg
    split at hg
    · obtain rfl : _ = g' := by simpa using hg
      obtain rfl : _ = g := by simpa [pure, Except.pure] using h
      rfl
    · simp at hg
  · simp [throw, throwThe, MonadExceptOf.throw] at h

theorem size_graph (h : f.graph = .ok g) : g.size = f.blocks.size := by
  obtain ⟨succs, hs, shape⟩ := graph_eq_ok h
  have same := (mapM_eq_ok_iff.mp hs).length_eq
  simp only [Graph.size, shape, List.size_toArray]
  simpa [blockIds] using same.symm

/-- The successors of a block of the function. -/
theorem successors_graph (h : f.graph = .ok g) {b : BlockId} (inside : b.index < g.size) :
    ∃ succs, f.successors b = .ok succs ∧ g.next b.index = (succs.map (·.index)).eraseDups := by
  obtain ⟨all, hs, shape⟩ := graph_eq_ok h
  have each := mapM_eq_ok_iff.mp hs
  have here : b.index < f.blockIds.length := by
    simpa [blockIds, ← size_graph h] using inside
  have there : b.index < all.length := each.length_eq ▸ here
  have step := each.get here there
  have handle : f.blockIds.get ⟨b.index, here⟩ = b := by simp [blockIds]
  rw [handle, bind_eq_ok_iff] at step
  obtain ⟨succs, found, answer⟩ := step
  refine ⟨succs, found, ?_⟩
  have answer : (succs.map (·.index)).eraseDups = all[b.index] := by
    simpa [pure, Except.pure] using answer
  simp [Graph.next, shape, answer, there]

theorem mem_next_graph (h : f.graph = .ok g) {b c : BlockId} {succs : List BlockId}
    (found : f.successors b = .ok succs) (inside : b.index < g.size) :
    c.index ∈ g.next b.index ↔ c ∈ succs := by
  obtain ⟨succs', found', next⟩ := successors_graph h inside
  obtain rfl : succs' = succs := by simpa [found'] using found
  rw [next, List.mem_eraseDups, List.mem_map]
  constructor
  · rintro ⟨x, hx, same⟩
    obtain rfl : x = c := BlockId.index_inj.mp same
    exact hx
  · intro hc
    exact ⟨c, hc, rfl⟩

/-- The graph has one edge for all edges between two blocks. -/
theorem nodup_next_graph (h : f.graph = .ok g) (v : Nat) : (g.next v).Nodup := by
  by_cases inside : v < g.size
  · obtain ⟨succs, -, next⟩ := successors_graph h (b := ⟨v⟩) inside
    rw [next]
    exact nodup_eraseDups _
  · rw [Graph.next, Array.getD_eq_getD_getElem?, Array.getElem?_eq_none (Nat.le_of_not_lt inside)]
    exact .nil

/-- Control goes from a block to another. -/
def LeadsTo (f : Func) (b c : BlockId) : Prop := ∃ succs, f.successors b = .ok succs ∧ c ∈ succs

/-- The terminators of all blocks lead to blocks that exist. -/
def Targeted (f : Func) : Prop :=
  ∀ b ∈ f.blockIds, ∃ succs, f.successors b = .ok succs ∧ ∀ c ∈ succs, c ∈ f.blockIds

instance (f : Func) : Decidable f.Targeted :=
  decidable_of_iff (f.blockIds.all fun b => match f.successors b with
    | .ok succs => succs.all (· ∈ f.blockIds)
    | .error _ => false) <| by
    rw [List.all_eq_true]
    refine forall₂_congr fun b _ => ?_
    cases f.successors b <;> simp

/-- A function whose blocks lead to blocks that exist has a graph with their edges. -/
theorem exists_graph (targets : f.Targeted) :
    ∃ g, f.graph = .ok g ∧ ∀ b c, c.index ∈ g.next b.index ↔ f.LeadsTo b c := by
  obtain ⟨all, hall⟩ := exists_mapM_eq_ok
    (fun b => (do return ((← f.successors b).map BlockId.index).eraseDups :
      Except Fault (List Nat))) f.blockIds fun b hb => by
    obtain ⟨succs, hs, -⟩ := targets b hb
    exact ⟨_, bind_eq_ok_iff.mpr ⟨succs, hs, rfl⟩⟩
  have size : all.length = f.blocks.size := by
    simpa [blockIds] using (mapM_eq_ok_iff.mp hall).length_eq.symm
  have closed : ∀ next ∈ all.toArray, ∀ v ∈ next, v < all.toArray.size := by
    intro next hnext v hv
    obtain ⟨b, hb, answer⟩ := (mem_of_mapM_eq_ok hall).mp (by simpa using hnext)
    obtain ⟨succs, hs, valid⟩ := targets b hb
    obtain rfl : (succs.map BlockId.index).eraseDups = next := by
      simpa [hs, bind, Except.bind, pure, Except.pure] using answer
    obtain ⟨c, hc, rfl⟩ := List.mem_map.mp (List.mem_eraseDups.mp hv)
    rw [List.size_toArray, size]
    exact mem_blockIds.mp (valid c hc)
  have hg : f.graph = .ok ⟨all.toArray, closed⟩ := by
    rw [graph, bind_eq_ok_iff]
    refine ⟨all, hall, ?_⟩
    simp only [Graph.ofLists, dif_pos closed]
    rfl
  refine ⟨_, hg, fun b c => ?_⟩
  by_cases inside : b.index < f.blocks.size
  · obtain ⟨succs, hs, -⟩ := targets b (mem_blockIds.mpr inside)
    rw [mem_next_graph hg hs (by rwa [size_graph hg])]
    simp [LeadsTo, hs]
  · have outside : f.successors b = .error (.noBlock b) := by
      have none : f.blocks[b.index]? = none := Array.getElem?_eq_none (by omega)
      simp [successors, terminator, block, none, bind, Except.bind]
    have none : all[b.index]? = none := List.getElem?_eq_none (by omega)
    simp [LeadsTo, outside, Graph.next, none]

/-- Functions with the same blocks, which lead to the same blocks, have the same graph. -/
theorem graph_congr {f' : Func} (size : f'.blocks.size = f.blocks.size)
    (succs : ∀ b ∈ f.blockIds, f'.successors b = f.successors b) : f'.graph = f.graph := by
  have ids : f'.blockIds = f.blockIds := by rw [blockIds, blockIds, size]
  have rows : ∀ (bs : List BlockId), (∀ b ∈ bs, f'.successors b = f.successors b) →
      bs.mapM (fun b => (do return ((← f'.successors b).map BlockId.index).eraseDups :
        Except Fault (List Nat))) =
      bs.mapM fun b => do return ((← f.successors b).map BlockId.index).eraseDups := by
    intro bs
    induction bs with
    | nil => exact fun _ => rfl
    | cons b bs ih =>
      intro same
      rw [List.forall_mem_cons] at same
      rw [List.mapM_cons, List.mapM_cons, same.1, ih same.2]
  rw [graph, graph, ids, rows f.blockIds succs]

theorem entry_lt_size (consistent : f.Consistent) (body : f.isDeclaration = false)
    (h : f.graph = .ok g) : f.entry.index < g.size := by
  rw [size_graph h, ← consistent.mem_layout]
  unfold isDeclaration at body
  unfold entry
  cases hl : f.layout with
  | nil => simp [hl] at body
  | cons b rest => simp

/-- The blocks in reverse postorder are those that control can come to. -/
theorem mem_reversePostorder (consistent : f.Consistent) (hg : f.graph = .ok g)
    {order : List BlockId} (h : f.reversePostorder = .ok order) {b : BlockId} :
    b ∈ order ↔ f.isDeclaration = false ∧ g.Reaches f.entry.index b.index := by
  have shape : (if f.isDeclaration then [] else
      (g.reversePostorder f.entry.index).map BlockId.mk) = order := by
    simpa [reversePostorder, hg, bind, Except.bind, pure, Except.pure] using h
  cases body : f.isDeclaration with
  | true => simp [← shape, body]
  | false =>
    have entry := entry_lt_size consistent body hg
    rw [← Graph.mem_reversePostorder entry, ← shape]
    simp only [body, Bool.false_eq_true, if_false, List.mem_map, true_and]
    constructor
    · rintro ⟨v, hv, rfl⟩
      exact hv
    · intro hb
      exact ⟨b.index, hb, rfl⟩

end Func

/-! ### What comes before a node -/

namespace Graph

variable {g : Graph} {stop u v w : Nat}

/-- A node can be reached from another on a way that avoids a third. -/
def Before (g : Graph) (stop u v : Nat) : Prop := ∃ nodes, g.Path u v nodes ∧ stop ∉ nodes

theorem Before.refl (other : u ≠ stop) : g.Before stop u u :=
  ⟨[u], .stay u, by simpa using Ne.symm other⟩

theorem Before.trans (h : g.Before stop u v) (h' : g.Before stop v w) : g.Before stop u w := by
  obtain ⟨before, p, hp⟩ := h
  obtain ⟨behind, q, hq⟩ := h'
  refine ⟨_, p.append q, fun mem => ?_⟩
  rcases List.mem_append.mp mem with mem | mem
  · exact hp mem
  · exact hq (List.mem_of_mem_tail mem)

theorem Before.step (h : g.Before stop u v) (edge : w ∈ g.next v) (other : w ≠ stop) :
    g.Before stop u w := by
  refine h.trans ⟨[v, w], .go edge (.stay w), ?_⟩
  obtain ⟨nodes, p, hp⟩ := h
  have : v ≠ stop := fun same => hp (same ▸ p.last_mem)
  simp [Ne.symm this, Ne.symm other]

theorem Before.reaches (h : g.Before stop u v) : g.Reaches u v :=
  let ⟨nodes, p, _⟩ := h
  ⟨nodes, p⟩

theorem Before.ne (h : g.Before stop u v) : v ≠ stop := by
  obtain ⟨nodes, p, hp⟩ := h
  rintro rfl
  exact hp p.last_mem

theorem Before.ne_start (h : g.Before stop u v) : u ≠ stop := by
  obtain ⟨nodes, p, hp⟩ := h
  rintro rfl
  exact hp p.first_mem

/-- Every node of a way that avoids a node comes before it. -/
theorem Before.of_mem {nodes : List Nat} {x : Nat} (p : g.Path u v nodes) (avoids : stop ∉ nodes)
    (hx : x ∈ nodes) : g.Before stop u x := by
  obtain ⟨before, behind, front, _, rfl⟩ := p.split hx
  exact ⟨before, front, fun mem => avoids (List.mem_append_left _ mem)⟩

theorem PostDominates.of_before (h : g.PostDominates stop u) (b : g.Before stop u v) :
    g.PostDominates stop v := by
  obtain ⟨nodes, p, avoids⟩ := b
  exact h.of_path p avoids

end Graph

/-! ### Searches that stop at a block -/

namespace Func

variable {f : Func} {g : Graph} {start stop : BlockId}

/-- A block comes before another on ways from a third, or it is the other at their end. -/
def Until (g : Graph) (stop start b : BlockId) : Prop :=
  g.Before stop.index start.index b.index ∨
    b = stop ∧ ∃ u, g.Before stop.index start.index u ∧ stop.index ∈ g.next u

/-- What holds of a search that does not go beyond a block. -/
structure Reaching (g : Graph) (stop start : BlockId) (found stack : List BlockId) : Prop where
  sound : ∀ b, b ∈ found ∨ b ∈ stack → Until g stop start b
  closed : ∀ b ∈ found, b ≠ stop → ∀ c : BlockId, c.index ∈ g.next b.index → c ∈ found ∨ c ∈ stack
  started : start ∈ found ∨ start ∈ stack

/-- The next block has been found before. -/
theorem Reaching.skip {found rest : List BlockId} {b : BlockId}
    (h : Reaching g stop start found (b :: rest)) (old : b ∈ found) :
    Reaching g stop start found rest := by
  have still : ∀ c, c ∈ found ∨ c ∈ b :: rest → c ∈ found ∨ c ∈ rest := by
    rintro c (hc | hc)
    · exact .inl hc
    · rcases List.mem_cons.mp hc with rfl | hc
      · exact .inl old
      · exact .inr hc
  refine ⟨fun c hc => ?_, fun c hc other d hd => still d (h.closed c hc other d hd),
    still start h.started⟩
  exact h.sound c (hc.imp id (List.mem_cons_of_mem _))

/-- The next block is the one at which the search stops. -/
theorem Reaching.halt {found rest : List BlockId}
    (h : Reaching g stop start found (stop :: rest)) :
    Reaching g stop start (stop :: found) rest := by
  have same : ∀ c, c ∈ stop :: found ∨ c ∈ rest ↔ c ∈ found ∨ c ∈ stop :: rest := by
    intro c
    simp only [List.mem_cons]
    tauto
  refine ⟨fun c hc => h.sound c ((same c).mp hc), fun c hc other d hd => ?_,
    (same start).mpr h.started⟩
  have old : c ∈ found := by simpa [other] using hc
  exact (same d).mpr (h.closed c old other d hd)

/-- The next block is new, and the search goes on with its successors. -/
theorem Reaching.enter {found rest succs : List BlockId} {b : BlockId} (hg : f.graph = .ok g)
    (h : Reaching g stop start found (b :: rest)) (other : b ≠ stop) (inside : b.index < g.size)
    (hs : f.successors b = .ok succs) :
    Reaching g stop start (b :: found) (succs.filter (· ∉ b :: found) ++ rest) := by
  have before : g.Before stop.index start.index b.index := by
    rcases h.sound b (.inr (by simp)) with before | ⟨same, _⟩
    · exact before
    · exact absurd same other
  have still : ∀ c, c ∈ succs ∨ c ∈ found ∨ c ∈ b :: rest →
      c ∈ b :: found ∨ c ∈ succs.filter (· ∉ b :: found) ++ rest := by
    intro c hc
    simp only [List.mem_cons, List.mem_append, List.mem_filter, decide_eq_true_eq] at hc ⊢
    tauto
  refine ⟨fun c hc => ?_, fun c hc last d hd => ?_, still start (.inr h.started)⟩
  · by_cases lead : c ∈ succs
    · have edge := (mem_next_graph hg hs inside).mpr lead
      by_cases same : c = stop
      · exact .inr ⟨same, b.index, before, same ▸ edge⟩
      · exact .inl (before.step edge (BlockId.index_inj.not.mpr same))
    · refine h.sound c ?_
      simp only [List.mem_cons, List.mem_append, List.mem_filter, lead, false_and, false_or] at hc ⊢
      tauto
  · by_cases same : c = b
    · subst same
      exact still d (.inl ((mem_next_graph hg hs inside).mp hd))
    · have old : c ∈ found := by simpa [same] using hc
      exact still d (.inr (h.closed c old last d hd))

/-- A search keeps what holds of it until its stack is empty. -/
theorem Reaching.result {found stack bs : List BlockId} (hg : f.graph = .ok g)
    (h : Reaching g stop start found stack) (hr : f.reach stop found stack = .ok bs) :
    Reaching g stop start bs [] := by
  induction found, stack using Func.reach.induct f stop with
  | case1 found =>
    obtain rfl : found = bs := by simpa [reach] using hr
    exact h
  | case2 found b rest old ih =>
    rw [reach, dif_pos old] at hr
    exact ih (h.skip old) hr
  | case3 found rest new ih =>
    rw [reach, dif_neg new, dif_pos rfl] at hr
    exact ih h.halt hr
  | case4 found b rest new last slot succs hs ih =>
    rw [reach, dif_neg new, dif_neg last, dif_pos slot, hs] at hr
    have inside : b.index < g.size := by
      rw [size_graph hg]
      exact mem_blockIds.mp slot
    exact ih (h.enter hg last inside hs) hr
  | case5 found b rest new last slot fault hs =>
    rw [reach, dif_neg new, dif_neg last, dif_pos slot, hs] at hr
    simp at hr
  | case6 found b rest new last slot =>
    rw [reach, dif_neg new, dif_neg last, dif_neg slot] at hr
    simp at hr

/-- The blocks found are those before the stopping block, and that block if a way comes to it. -/
theorem mem_reachableUntil (hg : f.graph = .ok g) (other : start ≠ stop) {bs : List BlockId}
    (h : f.reachableUntil start stop = .ok bs) {b : BlockId} :
    b ∈ bs ↔ Until g stop start b := by
  have apart : start.index ≠ stop.index := BlockId.index_inj.not.mpr other
  obtain ⟨found, hf, rfl⟩ : ∃ found, f.reach stop [] [start] = .ok found ∧ found.reverse = bs := by
    unfold reachableUntil at h
    cases hf : f.reach stop [] [start] with
    | error fault => simp [hf, Functor.map, Except.map] at h
    | ok found => exact ⟨found, rfl, by simpa [hf, Functor.map, Except.map] using h⟩
  have first : Reaching g stop start [] [start] := by
    refine ⟨fun b hb => ?_, by simp, by simp⟩
    obtain rfl : b = start := by simpa using hb
    exact .inl (.refl apart)
  have done := first.result hg hf
  have inner : ∀ {v : Nat}, g.Before stop.index start.index v → (⟨v⟩ : BlockId) ∈ found := by
    rintro v ⟨nodes, p, avoids⟩
    have begin : start ∈ found := by simpa using done.started
    generalize hs : start.index = s at p
    have begin : (⟨s⟩ : BlockId) ∈ found := hs ▸ begin
    clear hs
    induction p with
    | stay v => exact begin
    | @go u w v nodes edge rest ih =>
      have free : stop.index ≠ u ∧ stop.index ∉ nodes := by simpa using avoids
      refine ih free.2 ?_
      have := done.closed ⟨u⟩ begin (fun same => free.1 (by rw [← same])) ⟨w⟩ edge
      simpa using this
  rw [List.mem_reverse]
  constructor
  · intro hb
    exact done.sound b (.inl hb)
  · rintro (before | ⟨rfl, u, before, edge⟩)
    · exact inner before
    · have := done.closed ⟨u⟩ (inner before) (fun same => before.ne (by rw [← same])) b edge
      simpa using this

end Func

end KernelCoarsening
