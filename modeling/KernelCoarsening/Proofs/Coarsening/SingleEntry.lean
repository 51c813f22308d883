/-
Where regions that can be repeated are entered.

The bounds of a region are accepted if its header dominates its exiting block, which
post-dominates the header, and one block outside leads to the header.  In a reducible function
this leaves one way into the interior: a block behind the region can lead back into it.

* `Graph.Between.dominated` — unless the block before the region lies behind its header as well, the
  header dominates the region;
* `Region.singleEntry_iff` — the header dominates its region and is the only way in exactly if
  nothing behind the header leads back into the region, but to the entry;
* `Region.outermost_disjoint` — outermost regions whose headers do not dominate the blocks before
  them have no block in common;
* `not_singleEntry_lateHeader`, `not_disjoint_sharedTail` — regions that are accepted and behind
  which a loop goes on can be entered in the middle, and can overlap.
-/
import KernelCoarsening.Proofs.Coarsening.Scoping
import KernelCoarsening.Proofs.Divergence.Nesting
import KernelCoarsening.Proofs.Flow.Reducibility

namespace KernelCoarsening

namespace Graph

variable {g : Graph} {root h e p u v b : Nat} {nodes : List Nat}

/-- A node comes before another on ways from a third, or it is the other. -/
def Between (g : Graph) (h e v : Nat) : Prop := g.Before e h v ∨ v = e

namespace Between

/-- A way that starts between two nodes and goes on beyond them passes the second. -/
theorem path_out (i : g.Between h e u) (p : g.Path u v nodes) (out : ¬ g.Between h e v) :
    e ∈ nodes := by
  by_contra avoids
  rcases i with before | rfl
  · exact out (.inl (before.trans ⟨nodes, p, avoids⟩))
  · exact avoids p.first_mem

/-- What lies between two nodes is reached from the first on a way between them. -/
theorem path (i : g.Between h e v) (reaches : g.Reaches h e) :
    ∃ nodes, g.Path h v nodes ∧ ∀ x ∈ nodes, g.Between h e x := by
  rcases i with ⟨nodes, p, avoids⟩ | rfl
  · exact ⟨nodes, p, fun x hx => .inl (.of_mem p avoids hx)⟩
  · obtain ⟨nodes, p⟩ := reaches
    obtain ⟨short, p, nodup, -⟩ := p.shorten
    refine ⟨short, p, fun x hx => ?_⟩
    by_cases last : x = v
    · exact .inr last
    · obtain ⟨before, behind, front, back, rfl⟩ := p.split hx
      -- the way comes to its end behind this node, and only once
      have later : v ∈ behind.tail := by
        cases back with
        | stay => exact absurd rfl last
        | go edge rest => exact rest.last_mem
      exact .inl ⟨before, front, fun mem => List.disjoint_of_nodup_append nodup mem later⟩

end Between

/-- What dominates the end of a way, and is not on it from another node on, dominates that
node. -/
theorem Dominates.before (dom : g.Dominates root h v) (i : g.Before h u v) :
    g.Dominates root h u := by
  intro nodes p
  obtain ⟨more, q, avoids⟩ := i
  rcases List.mem_append.mp (dom _ (p.append q)) with mem | mem
  · exact mem
  · exact absurd (List.mem_of_mem_tail mem) avoids

/-- The bounds of a region are such that its header dominates its exiting block, and the exiting
block post-dominates its header; one node outside leads to the header. -/
structure Accepted (g : Graph) (root h e p : Nat) : Prop where
  dom : g.Dominates root h e
  post : g.PostDominates e h
  outer : ¬ g.Between h e p
  edge : h ∈ g.next p
  only : ∀ u, ¬ g.Between h e u → h ∈ g.next u → u = p

/-- In a reducible graph, two nodes that lead to each other short of a third are dominated by a node
that lies before the third as well. -/
theorem Reducible.exists_over (reducible : g.Reducible root) (reached : g.Reaches root u)
    (forth : g.Before e u v) (back : g.Before e v u) (other : u ≠ v) :
    ∃ d, g.Before e u d ∧ g.Dominates root d u ∧ g.Dominates root d v := by
  obtain ⟨there, p, avoids⟩ := forth
  obtain ⟨again, q, avoids'⟩ := back
  cases p with
  | stay => exact absurd rfl other
  | @go _ w _ there edge rest =>
    have home : u ∈ again.tail := by
      cases q with
      | stay => exact absurd rfl other
      | go _ rest => exact rest.last_mem
    have round : g.Path u u (u :: (there ++ again.tail)) := .go edge (rest.append q)
    have free : e ∉ u :: (there ++ again.tail) := by
      simp only [List.mem_cons, List.mem_append, not_or] at avoids ⊢
      exact ⟨avoids.1, avoids.2, fun mem => avoids' (List.mem_of_mem_tail mem)⟩
    obtain ⟨d, hd, doms⟩ := reducible.closed reached round (by simp [List.ne_nil_of_mem home])
    exact ⟨d, .of_mem round free (List.mem_cons_of_mem _ hd), doms u (by simp [home]),
      doms v (by simp [rest.last_mem])⟩

namespace Accepted

/-- If a way leads into the region past the header, then the region leads back to the header before
it ends. -/
theorem leads_back (a : g.Accepted root h e p) (before : g.Before e h b)
    (side : ¬ g.Dominates root h b) (finish : g.CanEnd b) : g.Before e b h := by
  by_contra none
  obtain ⟨v, isEnd, nodes, q⟩ := finish
  obtain ⟨first, -, toE, -, -⟩ := q.split (a.post.of_before before v nodes isEnd q)
  obtain ⟨short, way, nodup, -⟩ := toE.shorten
  refine side (a.dom.before ⟨short, way, fun mem => none ?_⟩)
  obtain ⟨part, rest, front, on, rfl⟩ := way.split mem
  have later : e ∈ rest.tail := by
    cases on with
    | stay => exact absurd rfl before.ne_start
    | go _ on => exact on.last_mem
  exact ⟨part, front, fun early => List.disjoint_of_nodup_append nodup early later⟩

/-- The header of a region dominates what lies in it, unless it is not the root and dominates the
node before the region.  If a way leads into the region past the header, then both lie on a cycle.
What dominates the cycle lies in the region and dominates the node before it, but the region is
left at the exiting block only, which the header dominates. -/
theorem dominated (a : g.Accepted root h e p) (reducible : g.Reducible root)
    (reached : g.Reaches root h) (fresh : h = root ∨ ¬ g.Dominates root h p)
    (i : g.Between h e b) (finish : g.CanEnd b) : g.Dominates root h b := by
  rcases i with before | rfl
  · by_contra side
    have other : h ≠ b := fun same => side (same ▸ .refl g root b)
    have inner : h ≠ root := fun same => side (same ▸ g.dominates_root root b)
    obtain ⟨d, inside, domH, domB⟩ :=
      reducible.exists_over reached before (a.leads_back before side finish) other
    have domP := domH.of_edge (fun same => side (same ▸ domB)) a.edge
    refine fresh.elim inner fun notP => notP fun nodes q => ?_
    obtain ⟨behind, on, suffix⟩ := q.suffix (domP nodes q)
    have passes : e ∈ nodes := suffix.subset (Between.path_out (.inl inside) on a.outer)
    obtain ⟨front, -, toE, -, rfl⟩ := q.split passes
    exact List.mem_append_left _ (a.dom front toE)
  · exact a.dom

/-- If the header of a region dominates the region, then it is the root or does not dominate the
node before the region: the first edge to the header comes from there. -/
theorem fresh (a : g.Accepted root h e p) (reached : g.Reaches root h)
    (doms : ∀ b, g.Between h e b → g.Dominates root h b) :
    h = root ∨ ¬ g.Dominates root h p := by
  by_cases inner : root = h
  · exact .inl inner.symm
  · refine .inr fun domP => ?_
    obtain ⟨nodes, q⟩ := reached
    obtain ⟨u, ⟨front, way, avoids⟩, edge⟩ := exists_before q q.last_mem inner
    have outside : ¬ g.Between h e u := fun i => avoids (doms u i front way)
    obtain rfl := a.only u outside edge
    exact avoids (domP front way)

/-- The header dominates the region and is the only way in exactly if nothing that the header
dominates leads back into the region from outside, but to the root. -/
theorem only_way_in_iff (a : g.Accepted root h e p) (reducible : g.Reducible root)
    (reached : g.Reaches root h) (finish : ∀ b, g.Between h e b → g.CanEnd b) :
    ((∀ b, g.Between h e b → g.Dominates root h b) ∧
      ∀ u v, ¬ g.Between h e u → g.Between h e v → v ∈ g.next u → v = h) ↔
    ∀ u v, ¬ g.Between h e u → g.Between h e v → v ∈ g.next u → g.Dominates root h u →
      v = h ∧ h = root := by
  constructor
  · rintro ⟨doms, enters⟩ u v out inside edge domU
    obtain rfl := enters u v out inside edge
    obtain rfl := a.only u out edge
    exact ⟨rfl, (a.fresh reached doms).resolve_right (not_not.mpr domU)⟩
  · intro back
    have fresh : h = root ∨ ¬ g.Dominates root h p := by
      by_cases domP : g.Dominates root h p
      · refine .inl (back p h a.outer ?_ a.edge domP).2
        by_cases same : h = e
        · exact .inr same
        · exact .inl (.refl same)
      · exact .inr domP
    have doms := fun b i => a.dominated reducible reached fresh (b := b) i (finish b i)
    refine ⟨doms, fun u v out inside edge => ?_⟩
    by_contra other
    exact other (back u v out inside edge ((doms v inside).of_edge (Ne.symm other) edge)).1

end Accepted

end Graph

namespace Region

variable {f : Func} {g : Graph} {flow : Flow} {r o : Region} {p : BlockId}

/-- The blocks of a region are those between its bounds. -/
theorem mem_blocks_iff (hg : f.graph = .ok g)
    (blocks : f.reachableUntil r.header r.exiting = .ok r.blocks)
    (reaches : g.Reaches r.header.index r.exiting.index) (b : BlockId) :
    b ∈ r.blocks ↔ g.Between r.header.index r.exiting.index b.index := by
  by_cases other : r.header = r.exiting
  · have alone : r.blocks = [r.exiting] := by
      rw [other, Func.reachableUntil, Func.reach, dif_neg (by simp), dif_pos rfl, Func.reach] at blocks
      simpa [Functor.map, Except.map] using blocks.symm
    have never : ¬ g.Before r.exiting.index r.header.index b.index :=
      fun before => before.ne_start (by rw [other])
    simp [alone, Graph.Between, never, BlockId.index_inj]
  · have apart := BlockId.index_inj.not.mpr other
    obtain ⟨nodes, way⟩ := reaches
    rw [Func.mem_reachableUntil hg other blocks, Func.Until, Graph.Between, BlockId.index_inj]
    have ends := Graph.exists_before way way.last_mem apart
    simp [ends]

theorem Spans.mem_iff (h : r.Spans f g) (b : BlockId) :
    b ∈ r.blocks ↔ g.Between r.header.index r.exiting.index b.index := by
  have ends := h.exiting_mem
  rw [h.mem, Func.Until] at ends
  have ends := (ends.resolve_left fun before => before.ne rfl).2
  rw [h.mem, Func.Until, Graph.Between, BlockId.index_inj]
  simp [ends]

/-- What the check of the bounds says: the header dominates the exiting block, which post-dominates
the header. -/
theorem bounds_of_boundsError? (hf : f.flow = .ok flow) (body : f.isDeclaration = false)
    (entry : f.entry.index < flow.graph.size)
    (reached : flow.graph.Reaches f.entry.index r.header.index)
    (finish : flow.graph.CanEnd r.header.index) (accepted : r.boundsError? f flow = .ok none) :
    flow.graph.Dominates f.entry.index r.header.index r.exiting.index ∧
      flow.graph.PostDominates r.exiting.index r.header.index := by
  obtain ⟨hg, hdom, hpdom, -⟩ := Func.flow_eq_ok hf
  unfold boundsError? at accepted
  split at accepted
  · simp only [bind_eq_ok_iff] at accepted
    obtain ⟨_, _, _, _, accepted⟩ := accepted
    simp [pure, Except.pure] at accepted
  rename_i dom
  split at accepted
  · simp only [bind_eq_ok_iff] at accepted
    obtain ⟨_, _, _, _, accepted⟩ := accepted
    simp [pure, Except.pure] at accepted
  rename_i post
  simp only [Bool.not_eq_true', Bool.not_eq_false] at dom post
  by_cases other : r.exiting.index = r.header.index
  · rw [other]
    exact ⟨.refl _ _ _, .refl _ _⟩
  · have reachedE : flow.graph.Reaches f.entry.index r.exiting.index := by
      by_contra lost
      rw [hdom, DominatorTree.dominates, decide_eq_true_eq, Func.dominators, if_neg (by simp [body])]
        at dom
      exact other ((Graph.mem_ancestors_parents_of_not_reaches entry lost).mp dom).symm
    exact ⟨(Func.dominates_dominators entry body reachedE).mp (hdom ▸ dom),
      (Func.dominates_postDominators entry body reached finish (reachedE.lt_size entry)).mp
        (hpdom ▸ post)⟩

/-- The block before a region lies outside and leads to the header, and no other block does. -/
theorem of_predecessor? (hg : f.graph = .ok g) (layout : ∀ b, b ∈ f.layout ↔ b ∈ f.blockIds)
    (h : r.predecessor? f = .ok (some p)) :
    p ∈ f.layout ∧ p ∉ r.blocks ∧ r.header.index ∈ g.next p.index ∧
      ∀ u : BlockId, u ∉ r.blocks → r.header.index ∈ g.next u.index → u = p := by
  have leads : ∀ u : BlockId, u ∈ f.layout → ((do
      return (← f.successors u).contains r.header : Except Fault Bool) = .ok true ↔
        r.header.index ∈ g.next u.index) := by
    intro u listed
    have inside : u.index < g.size := by
      rw [Func.size_graph hg]
      exact Func.mem_blockIds.mp ((layout u).mp listed)
    obtain ⟨succs, answer, -⟩ := Func.successors_graph hg inside
    rw [Func.mem_next_graph hg answer inside]
    simp [answer, bind, Except.bind, pure, Except.pure]
  unfold predecessor? at h
  rw [bind_eq_ok_iff] at h
  obtain ⟨outer, houter, h⟩ := h
  obtain rfl : outer = [p] := by
    split at h
    · obtain rfl : _ = p := by simpa [pure, Except.pure] using h
      rfl
    · simp [pure, Except.pure] at h
  have mem : ∀ u, u = p ↔ (u ∈ f.layout ∧ u ∉ r.blocks) ∧ (do
      return (← f.successors u).contains r.header : Except Fault Bool) = .ok true := fun u => by
    rw [← List.mem_singleton, mem_of_filterM_eq_ok houter (x := u), List.mem_filter]
    simp
  obtain ⟨⟨listed, out⟩, edge⟩ := (mem p).mp rfl
  refine ⟨listed, out, (leads p listed).mp edge, fun u out edge => ?_⟩
  have listed : u ∈ f.layout := by
    rw [layout, Func.mem_blockIds, ← Func.size_graph hg]
    exact Graph.source_lt edge
  exact (mem u).mpr ⟨⟨listed, out⟩, (leads u listed).mpr edge⟩

/-- The header of a region dominates its blocks, and edges into the region from outside lead to
the header. -/
structure SingleEntry (r : Region) (f : Func) (g : Graph) : Prop where
  dominates : ∀ b ∈ r.blocks, g.Dominates f.entry.index r.header.index b.index
  enters : ∀ u v : BlockId, u ∉ r.blocks → v ∈ r.blocks → v.index ∈ g.next u.index → v = r.header

/-- What is known of a region whose bounds are accepted, and of the block before it. -/
structure Usable (r : Region) (f : Func) (g : Graph) (p : BlockId) : Prop where
  reached : g.Reaches f.entry.index r.header.index
  accepted : g.Accepted f.entry.index r.header.index r.exiting.index p.index
  finish : ∀ b, g.Between r.header.index r.exiting.index b → g.CanEnd b
  mem : ∀ b : BlockId, b ∈ r.blocks ↔ g.Between r.header.index r.exiting.index b.index

theorem usable_of_boundsError? (layout : ∀ b, b ∈ f.layout ↔ b ∈ f.blockIds)
    (hf : f.flow = .ok flow) (orderly : flow.graph.Orderly f.entry.index)
    (accepted : r.boundsError? f flow = .ok none) (pred : r.predecessor? f = .ok (some p))
    (mem : flow.graph.Reaches r.header.index r.exiting.index → ∀ b, b ∈ r.blocks ↔
      flow.graph.Between r.header.index r.exiting.index b.index) :
    r.Usable f flow.graph p := by
  have hg := (Func.flow_eq_ok hf).1
  obtain ⟨listed, out, edge, only⟩ := of_predecessor? hg layout pred
  have header := flow.graph.next_lt edge
  have body := Func.isDeclaration_of_mem_layout listed
  have entry : f.entry.index < flow.graph.size := by
    rw [Func.size_graph hg, ← Func.mem_blockIds, ← layout, Func.entry]
    cases hl : f.layout with
    | nil => simp [hl] at listed
    | cons b rest => simp
  have reached := orderly.reached _ header
  obtain ⟨dom, post⟩ := bounds_of_boundsError? hf body entry reached (orderly.finish _ header)
    accepted
  obtain ⟨v, isEnd, nodes, way⟩ := orderly.finish _ header
  obtain ⟨toE, -, q, -, -⟩ := way.split (post v nodes isEnd way)
  have mem := mem ⟨_, q⟩
  refine ⟨reached, ⟨dom, post, fun i => out ((mem p).mpr i), edge, fun u i edge => ?_⟩,
    fun b i => ?_, mem⟩
  · have := only ⟨u⟩ (fun held => i ((mem ⟨u⟩).mp held)) edge
    exact congrArg BlockId.index this
  · obtain ⟨way, q, -⟩ := i.path ⟨_, q⟩
    exact orderly.finish b (q.lt_size header b q.last_mem)

/-- The header of a region with accepted bounds and a block before it dominates the region and is
the only way in exactly if nothing that the header dominates leads back into the region from
outside, but to the entry. -/
theorem singleEntry_iff (layout : ∀ b, b ∈ f.layout ↔ b ∈ f.blockIds) (hf : f.flow = .ok flow)
    (orderly : flow.graph.Orderly f.entry.index)
    (blocks : f.reachableUntil r.header r.exiting = .ok r.blocks)
    (accepted : r.boundsError? f flow = .ok none) (pred : r.predecessor? f = .ok (some p)) :
    r.SingleEntry f flow.graph ↔ ∀ u v : BlockId, u ∉ r.blocks → v ∈ r.blocks →
      v.index ∈ flow.graph.next u.index →
      flow.graph.Dominates f.entry.index r.header.index u.index →
        v = r.header ∧ r.header = f.entry := by
  have usable := usable_of_boundsError? layout hf orderly accepted pred
    (mem_blocks_iff (Func.flow_eq_ok hf).1 blocks)
  have mem := fun b => usable.mem ⟨b⟩
  have graphs := usable.accepted.only_way_in_iff orderly.reducible usable.reached usable.finish
  simp only [← mem] at graphs
  constructor
  · rintro ⟨doms, enters⟩ u v out inside edge dom
    have := graphs.mp ⟨fun b hb => doms ⟨b⟩ hb, fun u v out inside edge =>
      congrArg BlockId.index (enters ⟨u⟩ ⟨v⟩ out inside edge)⟩ u.index v.index out inside edge dom
    exact this.imp BlockId.index_inj.mp BlockId.index_inj.mp
  · intro back
    obtain ⟨doms, enters⟩ := graphs.mpr fun u v out inside edge dom =>
      (back ⟨u⟩ ⟨v⟩ out inside edge dom).imp (congrArg BlockId.index) (congrArg BlockId.index)
    exact ⟨fun b hb => doms b.index hb, fun u v out inside edge =>
      BlockId.index_inj.mp (enters u.index v.index out inside edge)⟩

/-! ### Overlaps -/

/-- Two regions whose headers dominate them have no block in common if neither holds the header of
the other. -/
theorem Spans.disjoint (hr : r.Spans f g) (ho : o.Spans f g)
    (domR : ∀ b ∈ r.blocks, g.Dominates f.entry.index r.header.index b.index)
    (domO : ∀ b ∈ o.blocks, g.Dominates f.entry.index o.header.index b.index)
    (freeR : r.header ∉ o.blocks) (freeO : o.header ∉ r.blocks) : r.blocks.Disjoint o.blocks := by
  -- a way to one header that avoids the other goes on to the common block inside the region
  have apart : ∀ {r o : Region}, r.Spans f g → o.Spans f g → o.header ∉ r.blocks →
      (∀ b ∈ o.blocks, g.Dominates f.entry.index o.header.index b.index) →
      ∀ b ∈ r.blocks, b ∈ o.blocks → g.Dominates f.entry.index o.header.index r.header.index := by
    intro r o hr ho free dom b inR inO nodes front
    obtain ⟨v, ends, toEnd, way⟩ := hr.bounds.finish
    obtain ⟨toE, -, q, -, -⟩ := way.split (hr.bounds.post v toEnd ends way)
    obtain ⟨on, p, within⟩ := ((hr.mem_iff b).mp inR).path ⟨_, q⟩
    rcases List.mem_append.mp (dom b inO _ (front.append p)) with mem | mem
    · exact mem
    · exact absurd ((hr.mem_iff _).mpr (within _ (List.mem_of_mem_tail mem))) free
  intro b inR inO
  have forth := apart hr ho freeO domO b inR inO
  have back := apart ho hr freeR domR b inO inR
  have same : r.header = o.header := BlockId.index_inj.mp (back.antisymm forth hr.reached)
  exact freeR (same ▸ ho.header_mem)

/-- Of two regions with the same blocks, the header of the earlier one does not dominate that of
the later one, or the later one would have been dropped. -/
theorem pairwise_dropRepeats (dom : DominatorTree) (regions : List Region) :
    (dropRepeats dom regions).Pairwise fun r o =>
      ¬ (o.blocks.Perm r.blocks ∧ dom.dominates r.header o.header) := by
  rw [dropRepeats, List.pairwise_map, List.pairwise_filter, List.pairwise_iff_getElem]
  intro m n hm hn before _ kept
  simp only [List.length_zipIdx] at hm hn
  simp only [List.getElem_zipIdx, Nat.zero_add, Bool.not_eq_true', List.any_eq_false,
    Bool.and_eq_true, List.isPerm_iff] at kept ⊢
  exact kept _ (List.mem_take_iff_getElem.mpr ⟨m, by omega, rfl⟩)

theorem outermost_sublist (regions : List Region) : (outermost regions).Sublist regions := by
  have whole : (List.range regions.length).filterMap (regions[·]?) = regions := by
    induction regions using List.reverseRecOn with
    | nil => rfl
    | append_singleton regions r ih =>
      have front : (List.range regions.length).filterMap ((regions ++ [r])[·]?) =
          (List.range regions.length).filterMap (regions[·]?) :=
        List.filterMap_congr fun n hn => List.getElem?_append_left (List.mem_range.mp hn)
      rw [List.length_append, List.length_singleton, List.range_succ, List.filterMap_append, front, ih]
      simp
  calc (outermost regions).Sublist ((List.range regions.length).filterMap (regions[·]?)) :=
        List.filter_sublist.filterMap _
    _ = regions := whole

end Region

namespace Func

variable {f : Func} {selector : DimensionSelector} {shared : List GlobalId} {level : Level}
  {dim : Dimension} {found : DivergentFunc} {ops : List (InstId × Operation)}
  {accesses : List (InstId × GlobalId)} {r o : Region}

/-- The terminator that is placed in a block of a function without flaws ends it. -/
theorem terminator_of_placed (consistent : f.Consistent) (flawless : f.firstFlaw? = .ok none)
    {i : InstId} {b : BlockId} (place : f.blockOf i = some b) {op : Operation}
    (hop : f.operation i = .ok op) (ends : op.isTerminator) : f.terminator b = .ok (some i) := by
  obtain ⟨inst, hi, home⟩ := Option.bind_eq_some_iff.mp place
  have slot := consistent.block_exists i inst b hi home
  have hb : f.block b = .ok f.blocks[b.index] := block_eq_ok_iff.mpr (Array.getElem?_eq_getElem slot)
  have listed := (consistent.mem_insts_iff hb).mpr place
  obtain ⟨before, rest, shape⟩ := List.append_of_mem listed
  have ended : inst.op = op := by
    simpa [operation, Func.inst, hi, Functor.map, Except.map] using hop
  obtain rfl := last_of_instFlaw? (shape ▸ (wellFormed_block flawless
    ((consistent.mem_layout b).mpr slot) hb).2) (inst_eq_ok_iff.mpr hi) (ended ▸ ends)
  simp [terminator, hb, shape, hop, ends, bind, Except.bind, pure, Except.pure]

/-- A region that can be repeated has accepted bounds and is left by a jump. -/
theorem of_regionError? {flow : Flow} (h : f.regionError? flow r = .ok none) :
    r.boundsError? f flow = .ok none ∧
      ∃ t c, f.terminator r.exiting = .ok (some t) ∧ f.operation t = .ok (.jump c) := by
  unfold regionError? at h
  rw [bind_eq_ok_iff] at h
  obtain ⟨bounds, hbounds, h⟩ := h
  cases bounds with
  | some e => simp [pure, Except.pure] at h
  | none =>
    simp only [bind_eq_ok_iff] at h
    obtain ⟨term, hterm, h⟩ := h
    cases term with
    | none =>
      simp only [bind_eq_ok_iff] at h
      obtain ⟨_, _, _, ⟨⟩⟩ := h
    | some t =>
      simp only [bind_eq_ok_iff] at h
      obtain ⟨op, hop, h⟩ := h
      split at h
      · exact ⟨hbounds, t, _, hterm, hop⟩
      · obtain ⟨_, _, h⟩ := bind_eq_ok_iff.mp h
        simp [pure, Except.pure] at h

/-- Outermost regions have no block in common, if they can be repeated and their headers do not
dominate the blocks before them. -/
theorem outermost_disjoint (consistent : f.Consistent) (flawless : f.firstFlaw? = .ok none)
    (h : f.analyze selector shared level dim = .ok (.ok found))
    (orderly : found.flow.graph.Orderly f.entry.index)
    (accepted : ∀ r ∈ found.divergence.outermostRegions, f.regionError? found.flow r = .ok none ∧
      ∃ p, r.predecessor? f = .ok (some p) ∧ (r.header = f.entry ∨
        ¬ found.flow.graph.Dominates f.entry.index r.header.index p.index)) :
    found.divergence.outermostRegions.Pairwise fun r o => r.blocks.Disjoint o.blocks := by
  obtain ⟨ops, accesses, a⟩ := analyzed h
  obtain ⟨regions, made, kept⟩ := a.discovered
  have layout : ∀ b, b ∈ f.layout ↔ b ∈ f.blockIds := fun b => by
    rw [consistent.mem_layout, mem_blockIds]
  have madeFor : ∀ r ∈ found.divergence.regions, ∃ branch ∈ found.divergence.branches,
      Region.MadeFor f found.flow r branch := fun r hr =>
    (Region.madeFor_of_ofBranches made).1 r (Region.mem_of_mem_dropRepeats (kept ▸ hr))
  have spans := fun r hr => a.spans consistent (r := r) hr
  have doms : ∀ r ∈ found.divergence.outermostRegions, ∀ b ∈ r.blocks,
      found.flow.graph.Dominates f.entry.index r.header.index b.index := by
    intro r hr b hb
    have span := spans r (Region.mem_outermost.mp hr).1
    obtain ⟨fits, p, pred, fresh⟩ := accepted r hr
    have usable := Region.usable_of_boundsError? layout a.flow orderly
      (of_regionError? fits).1 pred fun _ => span.mem_iff
    exact usable.accepted.dominated orderly.reducible usable.reached (fresh.imp (congrArg _) id)
      ((usable.mem b).mp hb) (usable.finish _ ((usable.mem b).mp hb))
  -- a branch ends the header of a region and a jump its exiting block
  have free : ∀ r ∈ found.divergence.outermostRegions, ∀ o ∈ found.divergence.outermostRegions,
      r.header ≠ o.header → o.header ∉ r.blocks := by
    intro r hr o ho other mem
    obtain ⟨branch, hbranch, place, -⟩ := madeFor o (Region.mem_outermost.mp ho).1
    obtain ⟨-, b, op, -, place', -, hop, isBranch⟩ := (a.mem_branches consistent).mp hbranch
    have ends : op.isTerminator := by cases op <;> simp_all [Operation.isBranch, Operation.isTerminator]
    have last := terminator_of_placed consistent flawless place hop ends
    obtain ⟨-, t, c, last', hop'⟩ := of_regionError? (accepted r hr).1
    have apart : o.header ≠ r.exiting := by
      intro same
      obtain rfl : branch = t := by simpa [← same, last] using last'
      obtain rfl : op = .jump c := by simpa [hop] using hop'
      simp [Operation.isBranch] at isBranch
    refine (Region.mem_outermost.mp ho).2 r (Region.mem_outermost.mp hr).1 ?_
    simp [Region.containsInside, Ne.symm other, apart, mem]
  -- regions with the same header have the same blocks, and only one of them is kept
  have repeats := (kept ▸ Region.pairwise_dropRepeats found.flow.dom regions).sublist
    (Region.outermost_sublist found.divergence.regions)
  refine repeats.imp_of_mem fun {r o} hr ho unlike => ?_
  have hr' := (Region.mem_outermost.mp hr).1
  have ho' := (Region.mem_outermost.mp ho).1
  have other : r.header ≠ o.header := by
    intro same
    obtain ⟨branch, hbranch, -, exiting, blocks⟩ := madeFor r hr'
    obtain ⟨-, -, -, exiting', blocks'⟩ := madeFor o ho'
    have ends : r.exiting = o.exiting := by simpa [same, exiting'] using exiting.symm
    have inner : r.blocks = o.blocks := by simpa [same, ends, blocks'] using blocks.symm
    have body := ((a.mem_branches consistent).mp hbranch).1
    have self := (dominates_dominators (spans o ho').entry body (spans o ho').reached).mpr
      (.refl _ _ _)
    exact unlike ⟨inner ▸ .refl _, by rw [same, (flow_eq_ok a.flow).2.1]; exact self⟩
  exact (spans r hr').disjoint (spans o ho') (doms r hr) (doms o ho)
    (free o ho r hr (Ne.symm other)) (free r hr o ho other)

end Func

/-! ### Regions that are entered in the middle, and regions that overlap -/

/-- What the analysis finds in the kernel `lateHeader`: a region from `head` to `wait`. -/
def lateHeaderRegion : Region := ⟨⟨2⟩, ⟨3⟩, [⟨2⟩, ⟨1⟩, ⟨3⟩], [⟨3⟩], [⟨7⟩, ⟨0⟩]⟩

theorem orderly_lateHeader : lateHeaderFound.flow.graph.Orderly lateHeader.entry.index := by
  have flow : lateHeader.flow = .ok lateHeaderFound.flow := by cbv
  have dom := (Func.flow_eq_ok flow).2.1
  exact Func.orderly_of_edges (by decide) (by decide) (by rw [← dom]; decide)
    (by rw [← dom]; decide) (by decide)

/-- The bounds of the only region of an orderly kernel are accepted, and `latch`, which its header
`head` dominates, is taken for the block before it.  Its block `lead` is entered from outside, and
`head` does not dominate it. -/
theorem not_singleEntry_lateHeader :
    lateHeader.Consistent ∧ lateHeaderFound.flow.graph.Orderly lateHeader.entry.index ∧
      lateHeader.analyze (.only .x) [] .thread .x = .ok (.ok lateHeaderFound) ∧
      lateHeaderFound.divergence.outermostRegions = [lateHeaderRegion] ∧
      lateHeader.reachableUntil ⟨2⟩ ⟨3⟩ = .ok lateHeaderRegion.blocks ∧
      lateHeaderRegion.boundsError? lateHeader lateHeaderFound.flow = .ok none ∧
      lateHeaderRegion.predecessor? lateHeader = .ok (some ⟨4⟩) ∧
      lateHeaderFound.flow.graph.Dominates lateHeader.entry.index 2 4 ∧
      (⟨0⟩ : BlockId) ∉ lateHeaderRegion.blocks ∧ (⟨1⟩ : BlockId) ∈ lateHeaderRegion.blocks ∧
      1 ∈ lateHeaderFound.flow.graph.next 0 ∧
      ¬ lateHeaderFound.flow.graph.Dominates lateHeader.entry.index 2 1 := by
  have flow : lateHeader.flow = .ok lateHeaderFound.flow := by cbv
  refine ⟨Func.consistent_assemble .., orderly_lateHeader, analyze_lateHeader, by decide,
    by cbv, by cbv, by cbv, ?_, by decide, by decide, by decide, fun none => ?_⟩
  · have above : lateHeaderFound.flow.dom.dominates ⟨2⟩ ⟨4⟩ := by decide
    rw [(Func.flow_eq_ok flow).2.1] at above
    exact (Func.dominates_dominators (by decide) (by decide)
      (orderly_lateHeader.reached 4 (by decide))).mp above
  · exact absurd (none _ (.go (by decide) (.stay 1))) (by decide)

/-- Two divergent branches, at `fork` and at `head`, each of which is behind the other in a loop:
the ways from `fork` meet at `tail`, which leads to `head`, and those from `head` meet at `wait`,
which heads a loop of its own. -/
def sharedTail : Func := .assemble "shared_tail" [⟨"n", .i32⟩, ⟨"d", .i1⟩] [
  ("entry", [
    ⟨.call "llvm.nvvm.read.ptx.sreg.tid.x" [], .i32, "t"⟩,
    ⟨.compare .slt (.inst ⟨0⟩) (.arg 0), .i1, "c"⟩,
    ⟨.jump ⟨1⟩, .void, ""⟩]),
  ("fork", [⟨.branch (.inst ⟨1⟩) ⟨2⟩ ⟨3⟩, .void, ""⟩]),
  ("side", [⟨.jump ⟨3⟩, .void, ""⟩]),
  ("tail", [⟨.jump ⟨4⟩, .void, ""⟩]),
  ("head", [⟨.branch (.inst ⟨1⟩) ⟨3⟩ ⟨5⟩, .void, ""⟩]),
  ("wait", [⟨.jump ⟨6⟩, .void, ""⟩]),
  ("turn", [⟨.branch (.arg 1) ⟨5⟩ ⟨7⟩, .void, ""⟩]),
  ("latch", [⟨.branch (.arg 1) ⟨4⟩ ⟨8⟩, .void, ""⟩]),
  ("exit", [⟨.ret none, .void, ""⟩])]

/-- What the analysis finds in the kernel: the regions of both branches hold `tail`. -/
def sharedTailFound : DivergentFunc where
  func := sharedTail
  flow :=
    { graph := ⟨#[[1], [2, 3], [3], [4], [3, 5], [6], [5, 7], [4, 8], []], by decide⟩
      dom := ⟨#[some 0, some 0, some 1, some 1, some 3, some 4, some 5, some 6, some 7]⟩
      pdom := ⟨#[some 1, some 3, some 3, some 4, some 5, some 6, some 7, some 8, some 9, some 9], 9⟩
      loops := ⟨[⟨⟨3⟩, [⟨3⟩, ⟨4⟩, ⟨5⟩, ⟨6⟩, ⟨7⟩], [⟨4⟩], none, 1⟩,
        ⟨⟨4⟩, [⟨4⟩, ⟨5⟩, ⟨6⟩, ⟨7⟩], [⟨7⟩], some 0, 2⟩, ⟨⟨5⟩, [⟨5⟩, ⟨6⟩], [⟨6⟩], some 1, 3⟩]⟩ }
  grid := ⟨[(⟨0⟩, .threadId, .x)], []⟩
  divergence :=
    { level := .thread
      dim := .x
      set := [⟨6⟩, ⟨3⟩, ⟨1⟩, ⟨0⟩]
      placed := [(⟨0⟩, ⟨0⟩), (⟨1⟩, ⟨0⟩), (⟨3⟩, ⟨1⟩), (⟨6⟩, ⟨4⟩)]
      branches := [⟨3⟩, ⟨6⟩]
      regions := [⟨⟨1⟩, ⟨3⟩, [⟨1⟩, ⟨2⟩, ⟨3⟩], [], [⟨1⟩]⟩, ⟨⟨4⟩, ⟨5⟩, [⟨4⟩, ⟨3⟩, ⟨5⟩], [], [⟨1⟩]⟩]
      reads := [⟨0⟩] }

theorem analyze_sharedTail :
    sharedTail.analyze (.only .x) [] .thread .x = .ok (.ok sharedTailFound) :=
  Func.analyze_eq_ok_iff.mpr ⟨by cbv, by rfl, by cbv, rfl⟩

theorem orderly_sharedTail : sharedTailFound.flow.graph.Orderly sharedTail.entry.index := by
  have flow : sharedTail.flow = .ok sharedTailFound.flow := by cbv
  have dom := (Func.flow_eq_ok flow).2.1
  exact Func.orderly_of_edges (by decide) (by decide) (by rw [← dom]; decide)
    (by rw [← dom]; decide) (by decide)

/-- The two outermost regions of a well-formed orderly kernel can be repeated, and have a block in
common. -/
theorem not_disjoint_sharedTail :
    sharedTail.Consistent ∧ sharedTail.firstFlaw? = .ok none ∧
      sharedTailFound.flow.graph.Orderly sharedTail.entry.index ∧
      sharedTail.analyze (.only .x) [] .thread .x = .ok (.ok sharedTailFound) ∧
      (∀ r ∈ sharedTailFound.divergence.outermostRegions,
        sharedTail.regionError? sharedTailFound.flow r = .ok none ∧
          ∃ p, r.predecessor? sharedTail = .ok (some p)) ∧
      sharedTailFound.divergence.outermostRegions.map (·.blocks) =
        [[⟨1⟩, ⟨2⟩, ⟨3⟩], [⟨4⟩, ⟨3⟩, ⟨5⟩]] := by
  have outer : sharedTailFound.divergence.outermostRegions =
      sharedTailFound.divergence.regions := by decide
  refine ⟨Func.consistent_assemble .., by cbv, orderly_sharedTail, analyze_sharedTail, ?_,
    by decide⟩
  rw [outer]
  intro r hr
  rcases List.mem_cons.mp hr with rfl | hr
  · exact ⟨by cbv, ⟨0⟩, by cbv⟩
  · obtain rfl := List.mem_singleton.mp hr
    exact ⟨by cbv, ⟨7⟩, by cbv⟩

/-- Two divergent branches one behind the other, the second of which closes a loop. -/
def twoForks : Func := .assemble "two_forks" [⟨"n", .i32⟩] [
  ("entry", [
    ⟨.call "llvm.nvvm.read.ptx.sreg.tid.x" [], .i32, "t"⟩,
    ⟨.compare .slt (.inst ⟨0⟩) (.arg 0), .i1, "c"⟩,
    ⟨.jump ⟨1⟩, .void, ""⟩]),
  ("fork", [⟨.branch (.inst ⟨1⟩) ⟨2⟩ ⟨3⟩, .void, ""⟩]),
  ("side", [⟨.jump ⟨3⟩, .void, ""⟩]),
  ("join", [⟨.jump ⟨4⟩, .void, ""⟩]),
  ("loop", [⟨.branch (.inst ⟨1⟩) ⟨4⟩ ⟨5⟩, .void, ""⟩]),
  ("leave", [⟨.jump ⟨6⟩, .void, ""⟩]),
  ("exit", [⟨.ret none, .void, ""⟩])]

/-- What the analysis finds in the kernel: a region for each branch. -/
def twoForksFound : DivergentFunc where
  func := twoForks
  flow :=
    { graph := ⟨#[[1], [2, 3], [3], [4], [4, 5], [6], []], by decide⟩
      dom := ⟨#[some 0, some 0, some 1, some 1, some 3, some 4, some 5]⟩
      pdom := ⟨#[some 1, some 3, some 3, some 4, some 5, some 6, some 7, some 7], 7⟩
      loops := ⟨[⟨⟨4⟩, [⟨4⟩], [⟨4⟩], none, 1⟩]⟩ }
  grid := ⟨[(⟨0⟩, .threadId, .x)], []⟩
  divergence :=
    { level := .thread
      dim := .x
      set := [⟨6⟩, ⟨3⟩, ⟨1⟩, ⟨0⟩]
      placed := [(⟨0⟩, ⟨0⟩), (⟨1⟩, ⟨0⟩), (⟨3⟩, ⟨1⟩), (⟨6⟩, ⟨4⟩)]
      branches := [⟨3⟩, ⟨6⟩]
      regions := [⟨⟨1⟩, ⟨3⟩, [⟨1⟩, ⟨2⟩, ⟨3⟩], [], [⟨1⟩]⟩, ⟨⟨4⟩, ⟨5⟩, [⟨4⟩, ⟨5⟩], [], [⟨1⟩]⟩]
      reads := [⟨0⟩] }

theorem analyze_twoForks :
    twoForks.analyze (.only .x) [] .thread .x = .ok (.ok twoForksFound) :=
  Func.analyze_eq_ok_iff.mpr ⟨by cbv, by rfl, by cbv, rfl⟩

theorem orderly_twoForks : twoForksFound.flow.graph.Orderly twoForks.entry.index := by
  have flow : twoForks.flow = .ok twoForksFound.flow := by cbv
  have dom := (Func.flow_eq_ok flow).2.1
  exact Func.orderly_of_edges (by decide) (by decide) (by rw [← dom]; decide)
    (by rw [← dom]; decide) (by decide)

/-- The region of `fork` is entered at its header only, for nothing behind it leads back.  The one
of the kernel `lateHeader` is not: `latch` is behind its header and leads back to it. -/
theorem singleEntry_twoForks_not_lateHeader :
    Region.SingleEntry ⟨⟨1⟩, ⟨3⟩, [⟨1⟩, ⟨2⟩, ⟨3⟩], [], [⟨1⟩]⟩ twoForks twoForksFound.flow.graph ∧
      ¬ lateHeaderRegion.SingleEntry lateHeader lateHeaderFound.flow.graph := by
  have layout : ∀ {f : Func}, f.Consistent → ∀ b, b ∈ f.layout ↔ b ∈ f.blockIds :=
    fun consistent b => by rw [consistent.mem_layout, Func.mem_blockIds]
  have consistent : twoForks.Consistent := Func.consistent_assemble ..
  have consistent' : lateHeader.Consistent := Func.consistent_assemble ..
  constructor
  · refine (Region.singleEntry_iff (layout consistent) (by cbv) orderly_twoForks (by cbv) (by cbv)
      (p := ⟨0⟩) (by cbv)).mpr fun u v out inside edge dom => ?_
    -- only the entry leads into the region, and it is not behind the header
    have enters : ∀ u < 7, ∀ v ∈ [1, 2, 3], v ∈ twoForksFound.flow.graph.next u →
        u = 0 ∨ u ∈ [1, 2, 3] := by decide
    obtain ⟨u⟩ := u
    obtain ⟨v⟩ := v
    obtain rfl : u = 0 :=
      (enters u (Graph.source_lt edge) v (by simpa using inside) edge).resolve_right
        (by simpa using out)
    exact absurd (dom _ (.stay 0)) (by decide)
  · have flow : lateHeader.flow = .ok lateHeaderFound.flow := by cbv
    have above : lateHeaderFound.flow.dom.dominates ⟨2⟩ ⟨4⟩ := by decide
    rw [(Func.flow_eq_ok flow).2.1] at above
    have behind := (Func.dominates_dominators (by decide) (by decide)
      (orderly_lateHeader.reached 4 (by decide))).mp above
    intro single
    have back := (Region.singleEntry_iff (layout consistent') flow orderly_lateHeader (by cbv)
      (by cbv) (p := ⟨4⟩) (by cbv)).mp single ⟨4⟩ ⟨2⟩ (by decide) (by decide) (by decide) behind
    exact absurd back.2 (by decide)

/-- The regions of both branches have no block in common. -/
theorem twoForks_disjoint :
    twoForksFound.divergence.outermostRegions.map (·.blocks) =
        [[⟨1⟩, ⟨2⟩, ⟨3⟩], [⟨4⟩, ⟨5⟩]] ∧
      twoForksFound.divergence.outermostRegions.Pairwise fun r o => r.blocks.Disjoint o.blocks := by
  have outer : twoForksFound.divergence.outermostRegions =
      twoForksFound.divergence.regions := by decide
  refine ⟨by decide, Func.outermost_disjoint (f := twoForks) (Func.consistent_assemble ..) (by cbv)
    analyze_twoForks orderly_twoForks ?_⟩
  rw [outer]
  intro r hr
  rcases List.mem_cons.mp hr with rfl | hr
  · exact ⟨by cbv, ⟨0⟩, by cbv, .inr fun above => absurd (above _ (.stay 0)) (by decide)⟩
  · obtain rfl := List.mem_singleton.mp hr
    refine ⟨by cbv, ⟨3⟩, by cbv, .inr fun above => ?_⟩
    exact absurd (above _ (.go (v := 1) (by decide) (.go (by decide) (.stay 3)))) (by decide)

end KernelCoarsening
