/-
The divergent set is closed.

A search that grows a set from a stack stops when everything that follows from the members of
the set is in it.  For the divergent set this means:

* `Func.Analyzed.reader_mem` — readers of divergent instructions are divergent;
* `Func.Analyzed.phi_mem` — the phis where the ways of a divergent branch meet are divergent;
* `Func.Analyzed.identity_mem` — the reads of the merged identity are divergent.
-/
import KernelCoarsening.Proofs.Divergence.Discovery

namespace KernelCoarsening

namespace Func

variable {f : Func} {selector : DimensionSelector} {level : Level} {dim : Dimension}
  {found : DivergentFunc} {ops : List (InstId × Operation)}
  {accesses : List (InstId × GlobalId)}

/-! ### The search -/

/-- What follows from the members of a set is in the set or still on the stack. -/
def SpreadInv (follow : InstId → Except Fault (List InstId)) (set stack : List InstId) : Prop :=
  ∀ i ∈ set, ∃ more, follow i = .ok more ∧ ∀ j ∈ more, j ∈ set ∨ j ∈ stack

/-- The result holds the set and the stack, and everything that follows from its members. -/
theorem spread_closed {follow : InstId → Except Fault (List InstId)} {set stack result : List InstId}
    (inv : SpreadInv follow set stack) (h : f.spread follow set stack = .ok result) :
    (∀ i, i ∈ set ∨ i ∈ stack → i ∈ result) ∧ SpreadInv follow result [] := by
  induction set, stack using Func.spread.induct f follow with
  | case1 set =>
    obtain rfl : set = result := by simpa [spread] using h
    exact ⟨fun i hi => by simpa using hi, inv⟩
  | case2 set i rest old ih =>
    rw [spread, dif_pos old] at h
    -- what was on the stack before is on what is left of it, or it is in the set already
    have kept : ∀ j, j ∈ set ∨ j ∈ i :: rest → j ∈ set ∨ j ∈ rest := by
      rintro j (hj | hj)
      · exact .inl hj
      · rcases List.mem_cons.mp hj with rfl | hj
        · exact .inl old
        · exact .inr hj
    obtain ⟨holds, closed⟩ := ih (fun j hj => by
      obtain ⟨more, hm, all⟩ := inv j hj
      exact ⟨more, hm, fun k hk => kept k (all k hk)⟩) h
    exact ⟨fun j hj => holds j (kept j hj), closed⟩
  | case3 set i rest new slot more hm ih =>
    rw [spread, dif_neg new, dif_pos slot, hm] at h
    have kept : ∀ j, j ∈ set ∨ j ∈ i :: rest → j ∈ i :: set ∨ j ∈ more ++ rest := by
      intro j hj
      simp only [List.mem_cons, List.mem_append] at hj ⊢
      tauto
    obtain ⟨holds, closed⟩ := ih (fun j hj => by
      rcases List.mem_cons.mp hj with rfl | hj
      · exact ⟨more, hm, fun k hk => .inr (List.mem_append_left _ hk)⟩
      · obtain ⟨more', hm', all⟩ := inv j hj
        exact ⟨more', hm', fun k hk => kept k (all k hk)⟩) h
    exact ⟨fun j hj => holds j (kept j hj), closed⟩
  | case4 set i rest new slot fault hm =>
    rw [spread, dif_neg new, dif_pos slot, hm] at h
    simp at h
  | case5 set i rest new slot =>
    rw [spread, dif_neg new, dif_neg slot] at h
    simp at h

/-! ### The divergent set -/

/-- The listing of a function holds its placed instructions. -/
theorem mem_operations (consistent : f.Consistent) (h : f.operations = .ok ops) {i : InstId}
    {op : Operation} : (i, op) ∈ ops ↔ (∃ b, f.blockOf i = some b) ∧ f.operation i = .ok op := by
  unfold operations instructions at h
  simp only [bind_eq_ok_iff] at h
  obtain ⟨insts, ⟨blocks, hblocks, hinsts⟩, h⟩ := h
  obtain rfl : blocks.flatMap (·.insts) = insts := by simpa [pure, Except.pure] using hinsts
  have listed : i ∈ blocks.flatMap (·.insts) ↔ ∃ b, f.blockOf i = some b := by
    rw [List.mem_flatMap]
    constructor
    · rintro ⟨block, hb, hi⟩
      obtain ⟨b, _, answer⟩ := (mem_of_mapM_eq_ok hblocks).mp hb
      exact ⟨b, (consistent.mem_insts_iff answer).mp hi⟩
    · rintro ⟨b, place⟩
      obtain ⟨inst, hinst, here⟩ := Option.bind_eq_some_iff.mp place
      have inside := consistent.block_exists i inst b hinst here
      obtain ⟨block, hb, answer⟩ :=
        exists_of_mapM_eq_ok hblocks ((consistent.mem_layout b).mpr inside)
      exact ⟨block, hb, (consistent.mem_insts_iff answer).mpr place⟩
  rw [mem_of_mapM_eq_ok h]
  constructor
  · rintro ⟨j, hj, answer⟩
    obtain ⟨op', hop, answer⟩ := bind_eq_ok_iff.mp answer
    obtain ⟨rfl, rfl⟩ : j = i ∧ op' = op := by simpa [pure, Except.pure] using answer
    exact ⟨listed.mp hj, hop⟩
  · rintro ⟨placed, hop⟩
    exact ⟨i, listed.mpr placed, by simp [hop, bind, Except.bind, pure, Except.pure]⟩

theorem mem_readersOf {i user : InstId} :
    user ∈ readersOf ops i ↔ ∃ op, (user, op) ∈ ops ∧ i ∈ op.usedInsts := by
  simp [readersOf]

/-- What follows from an instruction: its readers, and if it is a branch, the phis where its
ways meet. -/
theorem divergentWith_eq_ok {flow : Flow} {i : InstId} {more : List InstId}
    (h : f.divergentWith flow ops accesses i = .ok more) :
    readersOf ops i ⊆ more ∧ ∀ op b join phis, f.operation i = .ok op → op.isBranch →
      f.blockOf i = some b → flow.pdom.parent? b = some join → f.phis join = .ok phis →
        phis ⊆ more := by
  unfold divergentWith at h
  rw [bind_eq_ok_iff] at h
  obtain ⟨op, hop, h⟩ := h
  split at h
  · rename_i b isBranch placed
    split at h
    · rename_i join parent
      simp only [bind_eq_ok_iff] at h
      obtain ⟨phis, hphis, outs, _, joined, hjoined, _, _, h⟩ := h
      obtain rfl : phis ++ outs = joined := by
        simpa only [pure, Except.pure, Except.ok.injEq] using hjoined
      obtain rfl := Except.ok.inj h
      refine ⟨fun j hj => by simp [hj], fun op' b' join' phis' _ _ placed' parent' hphis' j hj => ?_⟩
      obtain rfl : b = b' := by simpa [placed] using placed'
      obtain rfl : join = join' := by simpa [parent] using parent'
      obtain rfl : phis = phis' := by simpa [hphis] using hphis'
      simp [hj]
    · -- the ways of the branch do not meet, and only its readers follow
      rename_i parent
      simp only [bind_eq_ok_iff] at h
      obtain ⟨_, _, _, _, _, _, _, _, h⟩ := h
      obtain rfl := Except.ok.inj h
      refine ⟨fun j hj => by simp [hj], fun op' b' join' phis' _ _ placed' parent' => ?_⟩
      obtain rfl : b = b' := by simpa [placed] using placed'
      simp [parent] at parent'
  · rename_i other
    simp only [bind_eq_ok_iff] at h
    obtain ⟨_, _, _, _, h⟩ := h
    obtain rfl := Except.ok.inj h
    refine ⟨fun j hj => by simp [hj], fun op' b' join' phis' hop' isBranch placed' => ?_⟩
    obtain rfl : op = op' := by simpa [hop] using hop'
    exact absurd placed' (other b' isBranch)

namespace Analyzed

theorem closed (a : f.Analyzed selector level dim found ops accesses) {i : InstId}
    (divergent : i ∈ found.divergence.set) :
    ∃ more, f.divergentWith found.flow ops accesses i = .ok more ∧ more ⊆ found.divergence.set := by
  obtain ⟨more, hm, all⟩ := (spread_closed (by simp [SpreadInv]) a.set).2 i divergent
  exact ⟨more, hm, fun j hj => by simpa using all j hj⟩

theorem reader_mem (a : f.Analyzed selector level dim found ops accesses)
    (consistent : f.Consistent) {i user : InstId} {b : BlockId} {op : Operation}
    (divergent : i ∈ found.divergence.set) (placed : f.blockOf user = some b)
    (hop : f.operation user = .ok op) (reads : i ∈ op.usedInsts) :
    user ∈ found.divergence.set := by
  obtain ⟨more, hm, all⟩ := a.closed divergent
  have reader : user ∈ readersOf ops i :=
    mem_readersOf.mpr ⟨op, (mem_operations consistent a.listing).mpr ⟨⟨b, placed⟩, hop⟩, reads⟩
  exact all ((divergentWith_eq_ok hm).1 reader)

theorem phi_mem (a : f.Analyzed selector level dim found ops accesses) {branch phi : InstId}
    {b join : BlockId} {op : Operation} {phis : List InstId}
    (divergent : branch ∈ found.divergence.set) (hop : f.operation branch = .ok op)
    (isBranch : op.isBranch) (placed : f.blockOf branch = some b)
    (parent : found.flow.pdom.parent? b = some join) (hphis : f.phis join = .ok phis)
    (hphi : phi ∈ phis) : phi ∈ found.divergence.set := by
  obtain ⟨more, hm, all⟩ := a.closed divergent
  exact all ((divergentWith_eq_ok hm).2 op b join phis hop isBranch placed parent hphis hphi)

theorem identity_mem (a : f.Analyzed selector level dim found ops accesses)
    (consistent : f.Consistent) {i : InstId} {b : BlockId} {callee : String} {args : List Value}
    (included : selector.includes dim) (placed : f.blockOf i = some b)
    (hop : f.operation i = .ok (.call callee args))
    (reads : Register.ofAccessor? callee = some (level.identity, dim)) :
    i ∈ found.divergence.set := by
  refine (spread_closed (by simp [SpreadInv]) a.set).1 i (.inr ?_)
  have grid : GridReads.ofOperations selector ops = found.grid := by
    simpa [gridReads, a.listing, Functor.map, Except.map] using a.grid
  have listed := (mem_operations consistent a.listing).mpr ⟨⟨b, placed⟩, hop⟩
  simp only [← grid, GridReads.identities, GridReads.along, GridReads.ofOperations, List.mem_map,
    List.mem_filter, List.mem_filterMap]
  refine ⟨(i, level.identity, dim), ⟨⟨(i, _), listed, ?_⟩, by simp⟩, rfl⟩
  simp [Operation.callee?, reads, included]

end Analyzed

end Func

end KernelCoarsening
