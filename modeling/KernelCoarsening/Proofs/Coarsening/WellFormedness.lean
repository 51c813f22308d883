/-
Bringing regions into form leaves no flaws behind.

The blocks that come into being when a block is cut, or when a region gets an exiting block of its
own, lie between blocks that were there.  So control comes to the same blocks as before, and phis
that named what leads to them still do:

* `Func.Cut.severs`, `Func.Divided.diverts` — where control goes after the edits, and what phis name;
* `Func.stable_matching` — the edits keep phis matching in a tidy function;
* `Func.Stable.robust` — what the edits keep is kept without a fault;
* `Func.extractRegions_flawless` — the function has no flaws however far the regions of an analysis
  have been brought into form;
* `not_flawless_stalePhi` — it may have one if its phis name blocks that are not there.
-/
import KernelCoarsening.Proofs.Coarsening.Progress
import KernelCoarsening.Proofs.Flow.Rerouting

namespace KernelCoarsening

open Operation (redirect)

namespace Func

variable {f g : Func} {b c x : BlockId} {i last : InstId} {phis front back body : List InstId}
  {ids : List BlockId}

theorem leads_of_shape (shape : f.outline.Shape b phis body last) {op : Operation} {ty : Ty}
    (line : f.line last = some (op, ty)) : f.leads b = op.successors :=
  leads_of_getLast? shape.getLast? line

theorem code_of_ge (none : ¬ b.index < f.blocks.size) : f.code b = [] :=
  List.eq_nil_iff_forall_not_mem.mpr fun _ hi => none (slot_of_mem_code hi)

/-- What a block in shape leads to are blocks. -/
theorem lt_of_mem_leads (formed : f.outline.Formed) (edge : c ∈ f.leads b) :
    c.index < f.blocks.size := by
  obtain ⟨phis, body, last, shape⟩ := formed.formed b (slot_of_mem_leads edge)
  obtain ⟨op, ty, line, -⟩ := shape.last
  rw [leads_of_shape shape line] at edge
  have home := (consistent_iff.mpr formed.consistent).mem_code.mp shape.last_mem
  exact formed.targets last op ty (by simp [show f.outline.home last = _ from home]) line c edge

/-- No way passes a block that is not there. -/
theorem spare_of_formed (formed : f.outline.Formed) (slot : b.index < f.blocks.size) :
    f.Spare ⟨f.blocks.size⟩ where
  code := code_of_ge (Nat.lt_irrefl _)
  fresh c edge := Nat.lt_irrefl _ (lt_of_mem_leads formed edge)
  start same := by
    have consistent := consistent_iff.mpr formed.consistent
    have inside := (consistent.mem_layout _).mp
      (entry_mem_layout (consistent.isDeclaration_of_slot slot))
    rw [same] at inside
    exact Nat.lt_irrefl _ inside

theorem linked_of_formed (formed : f.outline.Formed) : f.Linked where
  consistent := consistent_iff.mpr formed.consistent
  exists_successors {b} slot :=
    ⟨f.leads b, (consistent_iff.mpr formed.consistent).successors_eq slot,
      fun _ => lt_of_mem_leads formed⟩

theorem names_iff : f.Names b ids ↔ ∃ i ∈ f.code b, ∃ incoming ty,
    f.line i = some (.phi incoming, ty) ∧ ids = incoming.map (·.2) := by
  simp only [Names, namesOf_eq_some_iff]

/-- Phis of a tidy function name no block that is not there. -/
theorem not_mem_names (tidy : f.outline.Tidy) (named : f.Names b ids) :
    (⟨f.blocks.size⟩ : BlockId) ∉ ids := by
  obtain ⟨i, mem, incoming, ty, line, rfl⟩ := names_iff.mp named
  have home := (consistent_iff.mpr tidy.consistent).mem_code.mp mem
  intro new
  obtain ⟨p, hp, same⟩ := List.mem_map.mp new
  have := tidy.named i incoming ty (by simp [show f.outline.home i = _ from home]) line p hp
  rw [same] at this
  exact Nat.lt_irrefl _ this

/-! ### A cut -/

namespace Cut

variable {targets : List BlockId}

theorem targets_eq (cut : f.Cut g b phis front back last targets) : targets = f.leads b := by
  obtain ⟨op, ty, line, ends⟩ := cut.ending
  rw [leads_of_shape cut.shape line, ends]

/-- The phis of the blocks that the block leads to are renamed, and no others. -/
theorem mem_renamed_iff (cut : f.Cut g b phis front back last targets) (formed : f.outline.Formed)
    (mem : i ∈ f.code c) (phi : f.outline.Does i fun op => op.isPhi = true) :
    i ∈ targets.flatMap f.outline.phis ↔ c ∈ f.leads b := by
  have consistent := consistent_iff.mpr formed.consistent
  rw [cut.targets_eq, List.mem_flatMap]
  constructor
  · rintro ⟨t, edge, inside⟩
    have there := consistent.mem_code.mp ((List.takeWhile_sublist _).subset inside)
    have here := consistent.mem_code.mp mem
    obtain rfl : t = c := Option.some.inj (there.symm.trans here)
    exact edge
  · intro edge
    obtain ⟨phis', body', last', shape⟩ := formed.formed c (slot_of_mem_code mem)
    exact ⟨c, edge, shape.mem_phis.mpr ⟨mem, Outline.isPhi_of_does phi⟩⟩

/-- What phis name after the cut. -/
theorem names (cut : f.Cut g b phis front back last targets) (formed : f.outline.Formed)
    (named : g.Names c ids) : ∃ old, f.Names c old ∧
      ids = if c ∈ f.leads b then old.map (redirect b ⟨f.blocks.size⟩) else old := by
  obtain ⟨i, mem, incoming, ty, line, rfl⟩ := names_iff.mp named
  have home := cut.consistent.mem_code.mp mem
  rcases cut.placed_line formed (by simp [home]) line with new | ⟨op, -, old, same⟩
  · simp at new
  obtain ⟨incoming', rfl⟩ : ∃ incoming', op = .phi incoming' := by
    cases op <;> simp_all [Operation.mapIncoming]
  -- a phi has not moved to the new block
  have phi : f.outline.Does i fun op => op.isPhi = true := ⟨_, ty, old, rfl⟩
  have still : f.blockOf i = some c := by
    have away : i ∉ back ++ [last] := fun moved => by
      have plain := cut.shape.not_phi (i := i) (by simp only [List.mem_append] at moved ⊢; tauto)
      simpa [Outline.isPhi_of_does phi] using Outline.not_isPhi_of_does plain
    have first : i ≠ ⟨f.insts.size⟩ := by
      rintro rfl
      have := line_isSome_iff.mp (Option.isSome_of_eq_some old)
      simp at this
    rw [cut.home i, if_neg first, if_neg away] at home
    exact home
  have mem' := (consistent_iff.mpr formed.consistent).mem_code.mpr still
  refine ⟨_, names_iff.mpr ⟨i, mem', incoming', ty, old, rfl⟩, ?_⟩
  have line' := (cut.line_of_lt (line_isSome_iff.mp (Option.isSome_of_eq_some old))).symm.trans line
  rw [Outline.line_alter, show f.outline.line i = _ from old] at line'
  by_cases edge : c ∈ f.leads b
  · rw [if_pos ((cut.mem_renamed_iff formed mem' phi).mpr edge)] at line'
    obtain rfl : _ = incoming := by simpa [Operation.mapIncoming] using line'
    simp [edge, Function.comp_def]
  · rw [if_neg ((cut.mem_renamed_iff formed mem' phi).not.mpr edge)] at line'
    obtain rfl : _ = incoming := by simpa using line'
    simp [edge]

/-- Where control goes after the cut, and what phis name. -/
theorem severs (cut : f.Cut g b phis front back last targets) (formed : f.outline.Formed) :
    f.Severs g b ⟨f.blocks.size⟩ where
  toSpare := spare_of_formed formed (slot_of_shape cut.shape)
  entry := cut.entry
  front := leads_of_shape cut.shape_front cut.line_jump
  back := by
    obtain ⟨op, ty, line, term⟩ := cut.shape.last
    rw [leads_of_shape cut.shape line]
    exact leads_of_shape cut.shape_back
      (cut.line_of_plain line (Operation.not_isPhi_of_isTerminator term))
  leads c other new := by
    by_cases slot : c.index < f.blocks.size
    · obtain ⟨phis', body', last', shape⟩ := formed.formed c slot
      obtain ⟨op, ty, line, term⟩ := shape.last
      rw [leads_of_shape shape line]
      exact leads_of_shape (cut.shape_other other shape)
        (cut.line_of_plain line (Operation.not_isPhi_of_isTerminator term))
    · have none : g.code c = [] := by rw [cut.code, if_neg other, if_neg new, code_of_ge slot]
      rw [leads_of_nil none, leads_of_nil (code_of_ge slot)]
  names _ _ := cut.names formed

end Cut

/-! ### An exiting block of its own -/

namespace Divided

variable {members : List BlockId} {done : List Parting}

/-- Where a block that was there leads. -/
theorem leads (d : f.Divided g x members done [] body last) (formed : f.outline.Formed)
    (other : c ≠ ⟨f.blocks.size⟩) : g.leads c =
      if c ∈ members then (f.leads c).map (redirect x ⟨f.blocks.size⟩) else f.leads c := by
  by_cases slot : c.index < f.blocks.size
  · obtain ⟨phis', body', last', shape⟩ := formed.formed c slot
    have mem : last' ∈ f.code c := shape.last_mem
    have home := (consistent_iff.mpr formed.consistent).mem_code.mp mem
    obtain ⟨op, ty, line, term⟩ := shape.last
    have line' := d.line_plain formed mem line
      (d.not_divided line (Operation.not_isPhi_of_isTerminator term))
    have last : (g.code c).getLast? = some last' := by
      by_cases here : c = x
      · subst here
        obtain rfl := d.shape.eq_last mem line term
        exact (d.shape_here formed).getLast?
      · exact (d.shape_other formed here shape).getLast?
    rw [leads_of_getLast? last line', leads_of_shape shape line, redirected_eq home]
    split
    · simp
    · simp
  · have none : g.code c = [] := by
      have away : c ≠ x := fun same => slot (same ▸ slot_of_shape d.shape)
      rw [d.code, if_neg other, if_neg away, code_of_ge slot]
    rw [leads_of_nil none, leads_of_nil (code_of_ge slot)]
    simp

theorem entry (d : f.Divided g x members done [] body last) (formed : f.outline.Formed) :
    g.entry = if f.entry = x then ⟨f.blocks.size⟩ else f.entry := by
  obtain ⟨before, after, old, new⟩ := d.layout
  unfold Func.entry
  rw [old, new]
  cases before with
  | nil => simp
  | cons c before =>
    have nodup : (c :: before ++ x :: after).Nodup :=
      old ▸ (consistent_iff.mpr formed.consistent).layout_nodup
    have other : c ≠ x := by
      rintro rfl
      simp at nodup
    simp [other]

/-- What the phis of the new block name. -/
theorem names_new (d : f.Divided g x members done [] body last)
    (named : g.Names ⟨f.blocks.size⟩ ids) :
    ∃ old, f.Names x old ∧ ids = old.filter (· ∈ members) := by
  obtain ⟨i, mem, incoming, ty, line, rfl⟩ := names_iff.mp named
  rw [show g.code _ = _ from d.shape_new.code] at mem
  simp only [List.nil_append, List.mem_append, List.mem_map, List.mem_singleton] at mem
  rcases mem with ⟨p, hp, rfl⟩ | rfl
  · obtain ⟨old, ty', phi, inner, -⟩ := d.parted p hp
    obtain ⟨rfl, rfl⟩ : _ = incoming ∧ ty' = ty := by simpa using inner.symm.trans line
    refine ⟨_, names_iff.mpr ⟨p.phi, (d.phi_mem (List.mem_map_of_mem hp)).1, old, _, phi, rfl⟩, ?_⟩
    simp [List.filter_map, Function.comp_def]
  · simp [d.jump] at line

/-- What the phis of the block behind it name. -/
theorem names_here (d : f.Divided g x members done [] body last) (formed : f.outline.Formed)
    (named : g.Names x ids) :
    ∃ old, f.Names x old ∧ ids = old.filter (· ∉ members) ++ [⟨f.blocks.size⟩] := by
  obtain ⟨i, mem, incoming, ty, line, rfl⟩ := names_iff.mp named
  have shape := d.shape_here formed
  have phi := shape.mem_phis.mpr ⟨mem, Outline.isPhi_of_does ⟨_, ty, line, rfl⟩⟩
  obtain ⟨p, hp, rfl⟩ := List.mem_map.mp (shape.phis_eq ▸ phi)
  obtain ⟨old, ty', phi, -, outer⟩ := d.parted p hp
  obtain ⟨rfl, rfl⟩ : _ = incoming ∧ ty' = ty := by simpa using outer.symm.trans line
  refine ⟨_, names_iff.mpr ⟨p.phi, (d.phi_mem (List.mem_map_of_mem hp)).1, old, _, phi, rfl⟩, ?_⟩
  simp [List.filter_map, Function.comp_def]

/-- All other phis name what they named. -/
theorem names_other (d : f.Divided g x members done [] body last) (formed : f.outline.Formed)
    (here : c ≠ x) (new : c ≠ ⟨f.blocks.size⟩) (named : g.Names c ids) : f.Names c ids := by
  obtain ⟨i, mem, incoming, ty, line, rfl⟩ := names_iff.mp named
  rw [d.code, if_neg new, if_neg here] at mem
  obtain ⟨op, ty', old⟩ := exists_line (by
    simp [(consistent_iff.mpr formed.consistent).mem_code.mp mem] : (f.blockOf i).isSome)
  have line' := (d.line_plain formed mem old (d.not_divided_of_ne formed mem here)).symm.trans line
  have same := congrArg (fun l => (l.map (·.1.names?)).join) line'
  have keep : (f.redirected x members i op).names? = op.names? := by
    unfold redirected
    split <;> simp
  simp only [Option.map_some, Operation.names?_mapOperands, keep, Option.join_some] at same
  exact ⟨i, mem, by rw [namesOf, old]; exact same⟩

/-- Where control goes once the region has its own exiting block, and what phis name. -/
theorem diverts (d : f.Divided g x members done [] body last) (formed : f.outline.Formed) :
    f.Diverts g x ⟨f.blocks.size⟩ members where
  toSpare := spare_of_formed formed (slot_of_shape d.shape)
  other := d.new_ne
  entry := d.entry formed
  new := leads_of_shape d.shape_new d.jump
  leads _ := d.leads formed
  names_new _ := d.names_new
  names_here _ := d.names_here formed
  names _ _ := d.names_other formed

end Divided

/-! ### Regions -/

theorem stable_matching : Stable fun f => f.outline.Tidy ∧ f.Matches where
  formed h := h.1.toFormed
  cut h cut := ⟨cut.tidy h.1,
    (cut.severs h.1.toFormed).matches_phis h.2 fun _ _ => not_mem_names h.1⟩
  divide h divided := ⟨divided.tidy h.1,
    (divided.diverts h.1.toFormed).matches_phis h.2 fun _ _ => not_mem_names h.1⟩

/-- A tidy function whose phis match has no flaws. -/
theorem flawless_of_matches (tidy : f.outline.Tidy) (phis : f.Matches) : f.firstFlaw? = .ok none := by
  have consistent := consistent_iff.mpr tidy.consistent
  obtain ⟨graph, hg⟩ := (linked_of_formed tidy.toFormed).answers_graph
  exact (flawless_iff consistent hg).mpr ⟨tidy.toFormed, (matches_iff consistent hg).mpr phis⟩

namespace Stable

variable {P : Func → Prop} (stable : Stable P)

include stable

theorem gives_cutHeader (hf : P f) {loops : LoopForest} {header : BlockId}
    (slot : header.index < f.blocks.size) : Gives (f.cutHeader loops header) fun r =>
      P r.1 ∧ f.blocks.size ≤ r.1.blocks.size ∧ r.2.index < r.1.blocks.size := by
  have formed := stable.formed hf
  have answers : Answers (f.cutHeader loops header) := by
    unfold Func.cutHeader
    split
    · exact .pure
    · obtain ⟨block, hblock, insts⟩ := exists_block slot
      refine .bind ⟨block, hblock⟩ fun block' again => .bind (answers_label slot) fun label _ => ?_
      obtain rfl := Except.ok.inj (hblock.symm.trans again)
      obtain ⟨phis, body, last, shape⟩ := formed.formed header slot
      have all : f.outline.Shape header phis (body ++ []) last := by simpa using shape
      obtain ⟨g, targets, answer, -⟩ := exists_splitBlock formed all (suffixed label ".split")
      exact ⟨(g, ⟨f.blocks.size⟩), by
        rw [insts, show f.code header = _ from shape.code]
        simpa using answer⟩
  refine answers.gives fun r answer => ?_
  rcases cutHeader_cut formed r answer with ⟨-, rfl⟩ | ⟨-, new, _, _, _, _, cut⟩
  · exact ⟨hf, Nat.le_refl _, slot⟩
  · exact ⟨stable.cut hf cut, by simp [cut.blocks], by simp [new, cut.blocks]⟩

theorem gives_cutExiting (hf : P f) {exiting : BlockId} (slot : exiting.index < f.blocks.size) :
    Gives (f.cutExiting exiting) fun r =>
      P r.1 ∧ f.blocks.size ≤ r.1.blocks.size ∧ r.2.index < r.1.blocks.size := by
  have formed := stable.formed hf
  have answers : Answers (f.cutExiting exiting) := by
    obtain ⟨phis, body, last, shape⟩ := formed.formed exiting slot
    have first : f.firstNonPhi exiting = .ok phis.length :=
      bind_eq_ok_iff.mpr ⟨phis, phis_of_shape shape, rfl⟩
    refine .bind ⟨_, first⟩ fun n again => .bind (answers_label slot) fun label _ => ?_
    obtain rfl := Except.ok.inj (first.symm.trans again)
    have all : f.outline.Shape exiting phis ([] ++ body) last := shape
    obtain ⟨g, targets, answer, -⟩ := exists_splitBlock formed all (suffixed label ".split")
    exact ⟨_, answer⟩
  refine answers.gives fun r answer => ?_
  obtain ⟨new, _, _, _, _, cut⟩ := cutExiting_cut formed r answer
  exact ⟨stable.cut hf cut, by simp [cut.blocks], by simp [new, cut.blocks]⟩

theorem gives_isolate (hf : P f) {region filled : Region} (hfill : region.fill f = .ok filled)
    (slot : filled.exiting.index < f.blocks.size) :
    Gives (f.isolate filled) fun r => P r.1 ∧ f.blocks.size ≤ r.1.blocks.size ∧
      r.2.header = filled.header ∧ r.2.exiting.index < r.1.blocks.size := by
  have formed := stable.formed hf
  obtain ⟨graph, hgraph⟩ := (linked_of_formed formed).answers_graph
  have answers : Answers (f.isolate filled) := by
    cases above : (f.dominators graph).dominates filled.header filled.exiting with
    | true => exact ⟨_, bind_eq_ok_iff.mpr ⟨graph, hgraph, by simp [above]; rfl⟩⟩
    | false =>
      obtain ⟨g, _, _, _, answer, -⟩ := exists_isolated formed hfill slot hgraph above
      exact ⟨_, answer⟩
  refine answers.gives fun r answer => ?_
  obtain ⟨_, -, ⟨-, rfl⟩ | ⟨-, own, _, _, _, divided⟩⟩ := isolate_divided formed hfill r answer
  · exact ⟨hf, Nat.le_refl _, rfl, slot⟩
  · exact ⟨stable.divide hf divided, by simp [divided.blocks], by simp [own],
      by simp [own, divided.blocks]⟩

/-- What cuts and new exiting blocks keep is kept without a fault. -/
theorem robust : Robust P where
  linked h := linked_of_formed (stable.formed h)
  cutHeader h := stable.gives_cutHeader h
  cutExiting h := stable.gives_cutExiting h
  isolate h := stable.gives_isolate h

end Stable

variable {selector : DimensionSelector} {shared : List GlobalId} {level : Level} {dim : Dimension}
  {found : DivergentFunc}

/-- However far the regions of an analysis are brought into form, the function that is left has no
flaws, if the phis of the function name blocks of it only. -/
theorem extractRegions_flawless (consistent : f.Consistent) (flawless : f.firstFlaw? = .ok none)
    (named : ∀ i incoming, f.isLive i → f.operation i = .ok (.phi incoming) →
      ∀ p ∈ incoming, p.2.index < f.blocks.size)
    (h : f.analyze selector shared level dim = .ok (.ok found)) :
    ∃ error g after, f.extractRegions found.divergence.regions = .ok (error, g, after) ∧
      g.Consistent ∧ g.firstFlaw? = .ok none := by
  obtain ⟨ops, accesses, a⟩ := analyzed h
  have tidy := tidy_of_flawless consistent flawless named
  have phis : f.Matches :=
    (matches_iff consistent a.graph).mp ((flawless_iff consistent a.graph).mp flawless).2
  have headers : ∀ r ∈ found.divergence.regions, r.header.index < f.blocks.size := fun r hr => by
    have span := a.spans consistent hr
    exact size_graph a.graph ▸ span.reached.lt_size span.entry
  obtain ⟨⟨error, g, after⟩, answer, tidy', phis'⟩ :=
    stable_matching.robust.extractPlaces ⟨tidy, phis⟩ headers
  exact ⟨error, g, after, answer, consistent_iff.mpr tidy'.consistent,
    flawless_of_matches tidy' phis'⟩

end Func

/-! ### A block that comes to be there -/

theorem analyze_guardedValue {stale : List (Value × BlockId)}
    (h : stale = [] ∨ stale = [(.const 0, ⟨4⟩)]) :
    (guardedValue stale).analyze (.only .x) [] .thread .x = .ok (.ok (guardedValueFound stale)) := by
  rcases h with rfl | rfl <;>
    exact Func.analyze_eq_ok_iff.mpr ⟨by cbv, by rfl, by cbv, rfl⟩

/-- The region of the kernel is brought into form, and no flaw comes up. -/
theorem guardedValueSplit_flawless :
    (guardedValue []).extractRegions (guardedValueFound []).divergence.regions =
      .ok (none, guardedValueSplit [], [⟨⟨3⟩, ⟨2⟩, [⟨3⟩, ⟨1⟩, ⟨2⟩], [⟨4⟩], [⟨1⟩]⟩]) ∧
    (guardedValueSplit []).firstFlaw? = .ok none := by
  have extracted : (guardedValue []).extractRegions (guardedValueFound []).divergence.regions =
      .ok (none, guardedValueSplit [], [⟨⟨3⟩, ⟨2⟩, [⟨3⟩, ⟨1⟩, ⟨2⟩], [⟨4⟩], [⟨1⟩]⟩]) := by cbv
  obtain ⟨error, g, after, answer, -, none⟩ := Func.extractRegions_flawless
    (Func.consistent_assemble ..) (by cbv) named_guardedValue (analyze_guardedValue (.inl rfl))
  obtain ⟨-, rfl, -⟩ : _ = error ∧ _ = g ∧ _ = after := by simpa using extracted.symm.trans answer
  exact ⟨extracted, none⟩

/-- The kernel has no flaw with an entry for a block 4 that is not there.  Once there is one, the
entry names a block that does not lead to the phi. -/
theorem not_flawless_stalePhi :
    (guardedValue [(.const 0, ⟨4⟩)]).Consistent ∧
      (guardedValue [(.const 0, ⟨4⟩)]).firstFlaw? = .ok none ∧
      (guardedValue [(.const 0, ⟨4⟩)]).analyze (.only .x) [] .thread .x =
        .ok (.ok (guardedValueFound [(.const 0, ⟨4⟩)])) ∧
      (guardedValue [(.const 0, ⟨4⟩)]).extractRegions
        (guardedValueFound [(.const 0, ⟨4⟩)]).divergence.regions =
        .ok (none, guardedValueSplit [(.const 0, ⟨4⟩)],
          [⟨⟨3⟩, ⟨2⟩, [⟨3⟩, ⟨1⟩, ⟨2⟩], [⟨4⟩], [⟨1⟩]⟩]) ∧
      (guardedValueSplit [(.const 0, ⟨4⟩)]).firstFlaw? =
        .ok (some (.phiPredecessorMismatch "guarded_value" "exit" "r")) :=
  ⟨Func.consistent_assemble .., by cbv, analyze_guardedValue (.inr rfl), by cbv, by cbv⟩

end KernelCoarsening
