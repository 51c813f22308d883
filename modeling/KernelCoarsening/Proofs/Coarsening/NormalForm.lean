/-
The form that regions are brought into, all of them at once.

Regions are brought into form one after the other, and what is done for one of them cuts blocks that
others begin or end with.  A region keeps its end, a block of phis and a jump.  It also keeps its
beginning, the header of a loop or a block that holds nothing but a branch, unless a later region
ends there: then it begins behind the phis of that block, with whatever follows them.

* `Func.Relays`, `Func.Bare`, `Func.CutOff`, `Func.HeadsLoop` — what regions begin and end with;
* `Region.InForm` — a region in form, whose exiting block its header governs or only its own blocks
  lead to;
* `Region.InForm.cut`, `Region.InForm.behind`, `Region.InForm.divide` — it is still in form after the
  edits that are made for another region;
* `Func.Arranged.extractRegion`, `Func.Arranged.extractPlaces` — one region after the other is in form;
* `Func.extractRegions_normal` — what can be said of all regions in the end;
* `not_bare_strideLoop` — a region that begins with more than a branch, and not at a loop header.
-/
import KernelCoarsening.Proofs.Coarsening.WellFormedness

namespace KernelCoarsening

open Operation (redirect)

namespace Func

variable {f g : Func} {b c d h n p x : BlockId} {phis front back body : List InstId} {last : InstId}
  {targets members : List BlockId} {done : List Parting}

/-! ### What regions begin and end with -/

/-- A block holds phis and a jump, and nothing else. -/
def Relays (f : Func) (b c : BlockId) : Prop :=
  ∃ phis last ty, f.outline.Shape b phis [] last ∧ f.line last = some (.jump c, ty)

/-- A block holds a terminator and nothing else. -/
def Bare (f : Func) (b : BlockId) : Prop := ∃ last, f.outline.Shape b [] [] last

/-- Nothing leads to a block but another one, of phis and a jump. -/
def CutOff (f : Func) (h : BlockId) : Prop :=
  ∃ p, p ≠ h ∧ f.Relays p h ∧ ∀ u, h ∈ f.leads u → u = p

/-- Control comes back to a block from one that it governs. -/
def HeadsLoop (f : Func) (h : BlockId) : Prop :=
  ∃ t, f.Comes t ∧ h ∈ f.leads t ∧ f.Governs h t

/-- A block that a region in form begins with. -/
def Opens (f : Func) (h : BlockId) : Prop := f.HeadsLoop h ∨ f.Bare h ∨ f.CutOff h

theorem Relays.leads (relays : f.Relays b c) : f.leads b = [c] := by
  obtain ⟨phis, last, ty, shape, line⟩ := relays
  rw [leads_of_shape shape line, Operation.successors]

/-- The headers of loops are the blocks that control comes back to from blocks that they govern. -/
theorem isHeader_iff_headsLoop (hf : f.Consistent) {flow : Flow} (hflow : f.flow = .ok flow) :
    flow.loops.isHeader b = true ↔ f.HeadsLoop b := by
  obtain ⟨hg, hdom, -, hloops⟩ := flow_eq_ok hflow
  have layout := hf.mem_layout_iff
  rw [hdom] at hloops
  have headed := (LoopForest.isHeader_iff (nested_loops hg layout) (b := b)).trans
    (exists_header_iff hg layout)
  rw [hloops]
  refine headed.trans (exists_congr fun t => ?_)
  rw [reaches_iff_goes hf hg, hf.mem_next hg, governs_iff hf hg]
  rfl

theorem Severs.headsLoop (cut : f.Severs g b n) (other : h ≠ b) (heads : f.HeadsLoop h) :
    g.HeadsLoop h := by
  obtain ⟨t, comes, edge, above⟩ := heads
  obtain ⟨ht, hh⟩ := cut.ne_of_edge edge
  by_cases here : t = b
  · -- control comes back from the new block now
    subst here
    exact ⟨n, cut.comes_new comes, cut.back ▸ edge, cut.governs_new above hh⟩
  · exact ⟨t, (cut.inserts.comes_iff ht).mpr comes, cut.leads t here ht ▸ edge,
      (cut.inserts.governs_iff hh ht).mpr above⟩

theorem Diverts.headsLoop (way : f.Diverts g x n members) (other : h ≠ x) (heads : f.HeadsLoop h) :
    g.HeadsLoop h := by
  obtain ⟨t, comes, edge, above⟩ := heads
  obtain ⟨ht, hh⟩ := way.ne_of_edge edge
  exact ⟨t, (way.inserts.comes_iff ht).mpr comes, (way.mem_leads_of_ne other hh).mpr edge,
    (way.inserts.governs_iff hh ht).mpr above⟩

namespace Cut

variable (cut : f.Cut g b phis front back last targets)

include cut

theorem relays_other (other : c ≠ b) (relays : f.Relays c d) : g.Relays c d := by
  obtain ⟨phis', last', ty, shape, line⟩ := relays
  exact ⟨phis', last', ty, cut.shape_other other shape, cut.line_of_plain line rfl⟩

theorem relays_front (none : front = []) : g.Relays b ⟨f.blocks.size⟩ :=
  ⟨phis, _, _, none ▸ cut.shape_front, cut.line_jump⟩

/-- Of a block of phis and a jump, the jump is what is cut off. -/
theorem relays_back (relays : f.Relays b d) : front = [] ∧ g.Relays ⟨f.blocks.size⟩ d := by
  obtain ⟨phis', last', ty, shape, line⟩ := relays
  obtain ⟨rfl, parts, rfl⟩ := cut.shape.unique shape
  obtain ⟨rfl, rfl⟩ := List.append_eq_nil_iff.mp parts
  exact ⟨rfl, [], last, ty, cut.shape_back, cut.line_of_plain line rfl⟩

theorem relays (relays : f.Relays c d) : ∃ d', g.Relays c d' := by
  by_cases here : c = b
  · subst here
    exact ⟨_, cut.relays_front (cut.relays_back relays).1⟩
  · exact ⟨d, cut.relays_other here relays⟩

theorem bare (bare : f.Bare c) : g.Bare c := by
  obtain ⟨last', shape⟩ := bare
  by_cases here : c = b
  · subst here
    obtain ⟨rfl, parts, -⟩ := cut.shape.unique shape
    obtain ⟨rfl, -⟩ := List.append_eq_nil_iff.mp parts
    exact ⟨_, cut.shape_front⟩
  · exact ⟨last', cut.shape_other here shape⟩

theorem bare_new (none : back = []) : g.Bare ⟨f.blocks.size⟩ := ⟨last, none ▸ cut.shape_back⟩

theorem cutOff_new (formed : f.outline.Formed) (none : front = []) : g.CutOff ⟨f.blocks.size⟩ :=
  ⟨b, cut.new_ne, cut.relays_front none, fun _ => (cut.severs formed).mem_leads_new.mp⟩

theorem cutOff (formed : f.outline.Formed) (off : f.CutOff h) : g.CutOff h := by
  obtain ⟨p, other, relays, only⟩ := off
  have severs := cut.severs formed
  have hh := (severs.ne_of_edge (relays.leads ▸ List.mem_singleton_self h)).2
  have front : h ∉ g.leads b := by
    rw [severs.front, List.mem_singleton]
    exact hh
  by_cases here : p = b
  · -- the block in front ends in a jump to the new one, which leads here now
    subst here
    refine ⟨_, hh.symm, (cut.relays_back relays).2, fun u edge => by_contra fun new => ?_⟩
    have old : u ≠ p := fun same => front (same ▸ edge)
    exact old (only u (severs.leads u old new ▸ edge))
  · refine ⟨p, other, cut.relays_other here relays, fun u edge => ?_⟩
    have old : u ≠ b := fun same => front (same ▸ edge)
    by_cases new : u = ⟨f.blocks.size⟩
    · subst new
      exact absurd (only b (severs.back ▸ edge)).symm here
    · exact only u (severs.leads u old new ▸ edge)

/-- A region can still begin with a block if no loop header has been cut there. -/
theorem opens (formed : f.outline.Formed) (opens : f.Opens h) (keep : h = b → ¬ f.HeadsLoop h) :
    g.Opens h := by
  rcases opens with heads | bare | off
  · exact .inl ((cut.severs formed).headsLoop (fun same => keep same heads) heads)
  · exact .inr (.inl (cut.bare bare))
  · exact .inr (.inr (cut.cutOff formed off))

end Cut

namespace Divided

variable (new : f.Divided g x members done [] body last) (formed : f.outline.Formed)

include new formed

theorem relays (relays : f.Relays c d) :
    g.Relays c (if c ∈ members then redirect x ⟨f.blocks.size⟩ d else d) := by
  obtain ⟨phis', last', ty, shape, line⟩ := relays
  have mem : last' ∈ f.code c := shape.last_mem
  have line' := new.line_plain formed mem line (new.not_divided line rfl)
  rw [redirected_eq ((consistent_iff.mpr formed.consistent).mem_code.mp mem)] at line'
  obtain ⟨phis'', shape'⟩ : ∃ phis'', g.outline.Shape c phis'' [] last' := by
    by_cases here : c = x
    · subst here
      obtain ⟨-, rfl, rfl⟩ := new.shape.unique shape
      exact ⟨_, new.shape_here formed⟩
    · exact ⟨_, new.shape_other formed here shape⟩
  exact ⟨phis'', last', ty, shape', line'⟩

/-- A block that does not jump to the exiting block relays where it did. -/
theorem relays_of_ne (other : d ≠ x) (relays : f.Relays c d) : g.Relays c d := by
  have := new.relays formed relays
  rwa [redirect, if_neg other, ite_self] at this

theorem cutOff (other : h ≠ x) (off : f.CutOff h) : g.CutOff h := by
  obtain ⟨p, apart, relays, only⟩ := off
  have diverts := new.diverts formed
  have hh := (diverts.ne_of_edge (relays.leads ▸ List.mem_singleton_self h)).2
  exact ⟨p, apart, new.relays_of_ne formed other relays,
    fun u edge => only u ((diverts.mem_leads_of_ne other hh).mp edge)⟩

/-- A region can still begin with a block that is not the one with the divided phis. -/
theorem opens (other : h ≠ x) (opens : f.Opens h) : g.Opens h := by
  rcases opens with heads | ⟨last', shape⟩ | off
  · exact .inl ((new.diverts formed).headsLoop other heads)
  · exact .inr (.inl ⟨last', new.shape_other formed other shape⟩)
  · exact .inr (.inr (new.cutOff formed other off))

end Divided

end Func

/-! ### A region in form -/

namespace Region

variable {f g : Func} {r : Region} {b n x : BlockId} {phis front back body : List InstId}
  {last : InstId} {targets members : List BlockId} {done : List Parting}

/-- Control comes to the header of a region and can go from there to the exiting block. -/
structure Passed (f : Func) (r : Region) : Prop where
  other : r.header ≠ r.exiting
  comes : f.Comes r.header
  way : f.Goes r.header r.exiting

/-- The header of a region governs its exiting block, or else only blocks of the region lead there. -/
def Owns (f : Func) (r : Region) : Prop := f.Governs r.header r.exiting ∨
  ∀ u, r.exiting ∈ f.leads u → f.Avoids r.exiting r.header u

/-- A region has been brought into form. -/
structure InForm (f : Func) (r : Region) : Prop extends r.Passed f where
  opens : f.Opens r.header
  exiting : ∃ c, f.Relays r.exiting c
  owns : r.Owns f

namespace Passed

variable (passed : r.Passed f)

include passed

theorem reached : f.Comes r.exiting := passed.comes.trans passed.way

theorem insert (put : f.Inserts g n) : r.Passed g := by
  have header := put.ne_of_comes passed.comes
  have exiting := put.ne_of_comes passed.reached
  exact ⟨passed.other, (put.comes_iff header).mpr passed.comes,
    (put.goes_iff header exiting).mpr passed.way⟩

/-- The region may begin behind a cut. -/
theorem behind (cut : f.Severs g r.header n) : ({ r with header := n } : Region).Passed g where
  other := (cut.ne_of_comes passed.reached).symm
  comes := cut.comes_new passed.comes
  way := cut.goes_new passed.way passed.other.symm

/-- Some block of the region leads to the exiting block. -/
theorem exists_last : ∃ u, f.Avoids r.exiting r.header u ∧ r.exiting ∈ f.leads u := by
  have all : ∀ {c}, f.Goes r.header c → f.Avoids r.exiting r.header c ∨
      ∃ u, f.Avoids r.exiting r.header u ∧ r.exiting ∈ f.leads u := by
    intro c goes
    induction goes with
    | refl => exact .inl ⟨.refl, passed.other⟩
    | @tail u c _ edge ih =>
      rcases ih with before | found
      · by_cases last : c = r.exiting
        · exact .inr ⟨u, before, last ▸ edge⟩
        · exact .inl ⟨before.1.tail ⟨before.2, edge⟩, last⟩
      · exact .inr found
  exact (all passed.way).resolve_left fun before => before.2 rfl

end Passed

/-- The header governs the exiting block exactly if this is not the entry and the header governs the
blocks of the region that lead there. -/
theorem governs_iff_of_owns (other : r.header ≠ r.exiting) (owns : r.Owns f) :
    f.Governs r.header r.exiting ↔ r.exiting ≠ f.entry ∧
      ∀ u, f.Avoids r.exiting r.header u → r.exiting ∈ f.leads u → f.Governs r.header u := by
  constructor
  · refine fun above => ⟨fun first => above ⟨first ▸ .refl, other.symm⟩, fun u _ edge around => ?_⟩
    exact above ⟨around.1.tail ⟨around.2, edge⟩, other.symm⟩
  · rintro ⟨later, above⟩
    rcases owns with governs | own
    · exact governs
    · rintro ⟨way, -⟩
      -- the last block on a way around the header would belong to the region
      rcases way.cases_tail with same | ⟨u, rest, step⟩
      · exact later same
      · exact above u (own u step.2) step.2 ⟨rest, step.1⟩

theorem owns_cut (cut : f.Severs g b n) (passed : r.Passed f) (owns : r.Owns f) : r.Owns g := by
  have header := cut.ne_of_comes passed.comes
  have exiting := cut.ne_of_comes passed.reached
  refine owns.imp (cut.inserts.governs_iff header exiting).mpr fun own u edge => ?_
  have around : ∀ {u}, u ≠ n → f.Avoids r.exiting r.header u → g.Avoids r.exiting r.header u :=
    fun hu => (cut.inserts.avoids_iff exiting header hu).mpr
  by_cases new : u = n
  · subst new
    obtain ⟨way, before⟩ := around cut.ne (own b (cut.back ▸ edge))
    exact ⟨way.tail ⟨before, cut.mem_leads_new.mpr rfl⟩, exiting.symm⟩
  · by_cases here : u = b
    · rw [here, cut.front, List.mem_singleton] at edge
      exact absurd edge exiting
    · exact around new (own u (cut.leads u here new ▸ edge))

theorem owns_behind (cut : f.Severs g r.header n) (passed : r.Passed f) (owns : r.Owns f) :
    ({ r with header := n } : Region).Owns g := by
  have exiting := cut.ne_of_comes passed.reached
  refine owns.imp (fun above => cut.new_governs above passed.other.symm) fun own u edge => ?_
  by_cases new : u = n
  · subst new
    exact ⟨.refl, exiting.symm⟩
  · by_cases here : u = r.header
    · rw [here, cut.front, List.mem_singleton] at edge
      exact absurd edge exiting
    · exact cut.avoids_new (own u (cut.leads u here new ▸ edge)) exiting here

/-- If some of the blocks that lead to the exiting block come to lead to a new one before it, only
blocks of the region lead there still, the new one among them. -/
theorem owns_divert (way : f.Diverts g x n members) (passed : r.Passed f) (owns : r.Owns f)
    (some : ∃ u ∈ members, x ∈ f.leads u) : r.Owns g := by
  have header := way.ne_of_comes passed.comes
  have exiting := way.ne_of_comes passed.reached
  refine owns.imp (way.inserts.governs_iff header exiting).mpr fun own u edge => ?_
  have around : ∀ {u}, u ≠ n → r.exiting ∈ f.leads u → g.Avoids r.exiting r.header u :=
    fun hu edge => (way.inserts.avoids_iff exiting header hu).mpr (own _ edge)
  by_cases here : r.exiting = x
  · rcases way.mem_leads_here.mp (here ▸ edge) with rfl | ⟨-, edge⟩
    · obtain ⟨v, inside, edge⟩ := some
      have hv := (way.ne_of_edge edge).1
      obtain ⟨rest, before⟩ := around hv (here ▸ edge)
      exact ⟨rest.tail ⟨before, way.mem_leads_new.mpr ⟨inside, edge, hv⟩⟩, exiting.symm⟩
    · exact around (way.ne_of_edge edge).1 (here ▸ edge)
  · have edge := (way.mem_leads_of_ne here exiting).mp edge
    exact around (way.ne_of_edge edge).1 edge

namespace InForm

variable (form : r.InForm f)

include form

/-- A region stays in form when a block is cut that is not its header, or does not head a loop. -/
theorem cut (cut : f.Cut g b phis front back last targets) (formed : f.outline.Formed)
    (keep : r.header = b → ¬ f.HeadsLoop r.header) : r.InForm g where
  toPassed := form.toPassed.insert (cut.severs formed).inserts
  opens := cut.opens formed form.opens keep
  exiting := let ⟨_, relays⟩ := form.exiting; cut.relays relays
  owns := owns_cut (cut.severs formed) form.toPassed form.owns

/-- When its header is cut behind the phis, a region in form is one that begins behind the cut. -/
theorem behind (cut : f.Cut g r.header phis [] back last targets) (formed : f.outline.Formed) :
    ({ r with header := ⟨f.blocks.size⟩ } : Region).InForm g where
  toPassed := form.toPassed.behind (cut.severs formed)
  opens := .inr (.inr (cut.cutOff_new formed rfl))
  exiting :=
    let ⟨c, relays⟩ := form.exiting
    ⟨c, cut.relays_other form.other.symm relays⟩
  owns := owns_behind (cut.severs formed) form.toPassed form.owns

/-- A region stays in form when a block that it does not begin with gets a new one before it. -/
theorem divide (new : f.Divided g x members done [] body last) (formed : f.outline.Formed)
    (other : r.header ≠ x) (some : ∃ u ∈ members, x ∈ f.leads u) : r.InForm g where
  toPassed := form.toPassed.insert (new.diverts formed).inserts
  opens := new.opens formed other form.opens
  exiting := let ⟨_, relays⟩ := form.exiting; ⟨_, new.relays formed relays⟩
  owns := owns_divert (new.diverts formed) form.toPassed form.owns some

end InForm

/-- A region that has got an exiting block of its own is in form. -/
theorem Passed.inForm_divide (passed : r.Passed f)
    (new : f.Divided g r.exiting members done [] body last) (formed : f.outline.Formed)
    (opens : f.Opens r.header) (exiting : ∃ c, c ≠ r.exiting ∧ f.Relays r.exiting c)
    (inside : ∀ u, u ∈ members ↔ f.Avoids r.exiting r.header u ∨ u = r.exiting) :
    ({ r with exiting := ⟨f.blocks.size⟩ } : Region).InForm g := by
  have way := new.diverts formed
  have header := way.ne_of_comes passed.comes
  obtain ⟨u, before, edge⟩ := passed.exists_last
  obtain ⟨hu, -⟩ := way.ne_of_edge edge
  refine ⟨⟨header, (way.inserts.comes_iff header).mpr passed.comes, ?_⟩, ?_, ?_, .inr fun v hv => ?_⟩
  · refine ((way.inserts.goes_iff header hu).mpr before.1.goes).tail ?_
    exact way.mem_leads_new.mpr ⟨(inside u).mpr (.inl before), edge, hu⟩
  · exact new.opens formed passed.other opens
  · exact ⟨r.exiting, _, _, _, new.shape_new, new.jump⟩
  · obtain ⟨mem, edge, -⟩ := way.mem_leads_new.mp hv
    refine way.avoids_new (((inside v).mp mem).resolve_right ?_) header
    -- the exiting block leads behind its phis
    rintro rfl
    obtain ⟨c, apart, relays⟩ := exiting
    rw [relays.leads, List.mem_singleton] at edge
    exact apart edge.symm

/-- It depends on the bounds of a region only whether it is in form. -/
theorem InForm.congr {q : Region} (form : r.InForm f) (header : q.header = r.header)
    (exiting : q.exiting = r.exiting) : q.InForm f := by
  obtain ⟨⟨other, comes, way⟩, opens, relays, owns⟩ := form
  rw [← header] at other comes way opens
  rw [← exiting] at other way relays
  exact ⟨⟨other, comes, way⟩, opens, relays, by rwa [Owns, header, exiting]⟩

/-! ### What is asked about a region -/

/-- A region is found for a header that control comes to: control goes on from there. -/
theorem passed_of_exitingFor (hf : f.Consistent) {flow : Flow} (hflow : f.flow = .ok flow)
    (comes : f.Comes r.header) (found : exitingFor f flow r.header = .ok (.ok r.exiting)) :
    r.Passed f := by
  obtain ⟨hg, -, hpdom, -⟩ := Func.flow_eq_ok hflow
  obtain ⟨p, parent⟩ := exists_parent? found
  have slot : p.index < f.blocks.size :=
    Func.size_graph hg ▸ Func.lt_of_parent?_postDominators (hpdom ▸ parent)
  have body := hf.isDeclaration_of_slot slot
  have bounds := exitingFor_bounds (Func.entry_lt_size hf body hg) body hflow
    ((Func.reaches_iff_goes hf hg).mpr comes) found
  exact ⟨BlockId.index_inj.not.mp bounds.ne, comes,
    (Func.reaches_iff_goes hf hg).mp (bounds.post.reaches (.refl _ _) bounds.finish)⟩

/-- The blocks of a region are those before its exiting block and this one. -/
theorem mem_fill_iff (hf : f.Consistent) {graph : Graph} (hg : f.graph = .ok graph)
    (passed : r.Passed f) {filled : Region} (hfill : r.fill f = .ok filled) {u : BlockId} :
    u ∈ filled.blocks ↔ f.Avoids r.exiting r.header u ∨ u = r.exiting := by
  obtain ⟨blocks, search, same⟩ := bind_eq_ok_iff.mp hfill
  obtain rfl := Except.ok.inj same
  obtain ⟨v, before, edge⟩ := passed.exists_last
  have last : ∃ v, graph.Before r.exiting.index r.header.index v ∧ r.exiting.index ∈ graph.next v :=
    ⟨v.index, (Func.avoids_iff hf hg).mpr before, (hf.mem_next hg).mpr edge⟩
  rw [Func.mem_reachableUntil hg passed.other search, Func.Until, Func.avoids_iff hf hg]
  simp [last]

theorem bounds_fill : Yields (r.fill f) fun q => q.header = r.header ∧ q.exiting = r.exiting :=
  .ask fun _ _ => .pure ⟨rfl, rfl⟩

theorem bounds_analyze : Yields (r.analyze f) fun q =>
    q.header = r.header ∧ q.exiting = r.exiting :=
  bounds_fill.bind fun _ same => .ask fun _ _ => .ask fun _ _ => .ask fun _ _ => .pure same

end Region

/-! ### One region after the other -/

namespace Func

variable {f g : Func} {b x : BlockId} {phis front back body : List InstId} {last : InstId}
  {targets members : List BlockId} {done : List Parting} {regions : List Region} {r : Region}
  {D E : Nat → Prop} {n : Nat}

/-- Control comes to some regions, and those at some places are in form. -/
structure Arranged (f : Func) (regions : List Region) (D : Nat → Prop) : Prop where
  formed : f.outline.Formed
  comes : ∀ r ∈ regions, f.Comes r.header
  inForm : ∀ j r, D j → regions[j]? = some r → r.InForm f

namespace Arranged

variable (all : f.Arranged regions D)

include all

theorem consistent : f.Consistent := consistent_iff.mpr all.formed.consistent

/-- Another region takes the place of one. -/
theorem set (comes : f.Comes r.header) (new : E n → r.InForm f)
    (old : ∀ j, E j → j ≠ n → D j) : f.Arranged (regions.set n r) E where
  formed := all.formed
  comes q hq := by
    rcases List.mem_or_eq_of_mem_set hq with hq | rfl
    · exact all.comes q hq
    · exact comes
  inForm j q hj there := by
    rw [List.getElem?_set] at there
    split at there
    · rename_i same
      subst same
      split at there
      · exact Option.some.inj there ▸ new hj
      · simp at there
    · rename_i other
      exact all.inForm j q (old j hj (Ne.symm other)) there

/-- A block is cut that heads no loop. -/
theorem cut (cut : f.Cut g b phis front back last targets) (plain : ¬ f.HeadsLoop b) :
    g.Arranged regions D where
  formed := cut.formed all.formed
  comes r hr := by
    have put := (cut.severs all.formed).inserts
    have comes := all.comes r hr
    exact (put.comes_iff (put.ne_of_comes comes)).mpr comes
  inForm j r hj there :=
    (all.inForm j r hj there).cut cut all.formed fun same => same ▸ plain

/-- A block is cut behind its phis, and the regions that began with it begin behind the cut. -/
theorem cutBehind (cut : f.Cut g b phis [] back last targets) : g.Arranged (regions.map fun r =>
    if r.header = b then { r with header := ⟨f.blocks.size⟩ } else r) D where
  formed := cut.formed all.formed
  comes q hq := by
    obtain ⟨r, hr, rfl⟩ := List.mem_map.mp hq
    have comes := all.comes r hr
    have severs := cut.severs all.formed
    split
    · rename_i here
      exact severs.comes_new (here ▸ comes)
    · exact (severs.inserts.comes_iff (severs.ne_of_comes comes)).mpr comes
  inForm j q hj there := by
    rw [List.getElem?_map] at there
    obtain ⟨r, there', rfl⟩ := Option.map_eq_some_iff.mp there
    have form := all.inForm j r hj there'
    split
    · rename_i here
      subst here
      exact form.behind cut all.formed
    · rename_i other
      exact form.cut cut all.formed fun same => absurd same other

/-- A block that no region begins with gets a new one before it. -/
theorem divide (new : f.Divided g x members done [] body last)
    (others : ∀ r ∈ regions, r.header ≠ x) (some : ∃ u ∈ members, x ∈ f.leads u) :
    g.Arranged regions D where
  formed := new.formed all.formed
  comes r hr := by
    have put := (new.diverts all.formed).inserts
    have comes := all.comes r hr
    exact (put.comes_iff (put.ne_of_comes comes)).mpr comes
  inForm j r hj there := (all.inForm j r hj there).divide new all.formed
    (others r (List.mem_of_getElem? there)) some

/-- The header of a region is cut if it heads no loop, and control goes through the region from
there. -/
theorem cutHeader {flow : Flow} (hflow : f.flow = .ok flow) (passed : r.Passed f) :
    Yields (f.cutHeader flow.loops r.header) fun q => q.1.Arranged regions D ∧
      ({ r with header := q.2 } : Region).Passed q.1 ∧ q.1.Opens q.2 := by
  refine (cutHeader_cut all.formed).mono fun q known => ?_
  have heads := isHeader_iff_headsLoop all.consistent hflow (b := r.header)
  rcases known with ⟨yes, rfl⟩ | ⟨no, top, phis, body, last, targets, cut⟩
  · exact ⟨all, passed, .inl (heads.mp yes)⟩
  · refine ⟨all.cut cut fun loop => ?_, ?_, ?_⟩
    · simp [heads.mpr loop] at no
    · exact top ▸ passed.behind (cut.severs all.formed)
    · exact .inr (.inl (top ▸ cut.bare_new rfl))

/-- The exiting block of a region is cut behind its phis. -/
theorem cutExiting (passed : r.Passed f) (opens : f.Opens r.header) :
    Yields (f.cutExiting r.exiting) fun q =>
      q.1.Arranged (regions.map fun o =>
        if o.header = r.exiting then { o with header := q.2 } else o) D ∧
      r.Passed q.1 ∧ q.1.Opens r.header ∧ q.2 ≠ r.exiting ∧ q.1.Relays r.exiting q.2 := by
  refine (cutExiting_cut all.formed).mono fun q known => ?_
  obtain ⟨behind, phis, body, last, targets, cut⟩ := known
  rw [behind]
  exact ⟨all.cutBehind cut, passed.insert (cut.severs all.formed).inserts,
    cut.opens all.formed opens fun same => absurd same passed.other, cut.new_ne.symm,
    cut.relays_front rfl⟩

/-- If its header does not govern it, the exiting block gets another one before it, and the region
ends there. -/
theorem isolate (passed : r.Passed f) (opens : f.Opens r.header)
    (relays : ∃ c, c ≠ r.exiting ∧ f.Relays r.exiting c)
    (others : ∀ o ∈ regions, o.header ≠ r.exiting) {filled : Region}
    (hfill : r.fill f = .ok filled) :
    Yields (f.isolate filled) fun q => q.1.Arranged regions D ∧ q.2.InForm q.1 := by
  refine (isolate_divided all.formed hfill).mono fun q known => ?_
  obtain ⟨graph, hg, known⟩ := known
  obtain ⟨header, exiting⟩ := Region.bounds_fill filled hfill
  have inside := fun u => Region.mem_fill_iff all.consistent hg passed hfill (u := u)
  rcases known with ⟨above, rfl⟩ | ⟨-, own, done, body, last, new⟩
  · obtain ⟨body, entry⟩ := (linked_of_formed all.formed).body (b := r.exiting) (by
      obtain ⟨c, -, relays⟩ := relays
      exact slot_of_mem_leads (relays.leads ▸ List.mem_singleton_self c))
    have entry := entry_lt_size all.consistent body hg
    rw [header, exiting, dominates_dominators entry body
      ((reaches_iff_goes all.consistent hg).mpr passed.reached),
      governs_iff all.consistent hg] at above
    obtain ⟨c, -, relays⟩ := relays
    have form : r.InForm f := ⟨passed, opens, ⟨c, relays⟩, .inl above⟩
    exact ⟨all, form.congr header exiting⟩
  · rw [exiting] at new
    obtain ⟨u, before, edge⟩ := passed.exists_last
    refine ⟨all.divide new others ⟨u, (inside u).mpr (.inl before), edge⟩, ?_⟩
    exact (passed.inForm_divide new all.formed opens relays inside).congr
      (by rw [own, header]) (by rw [own])

/-- One more region is brought into form, and those that were in form still are. -/
theorem extractRegion {region : Region} (there : regions[n]? = some region) :
    Yields (f.extractRegion regions n region) fun r => r.1 = none →
      r.2.2.length = regions.length ∧ r.2.1.Arranged r.2.2 fun j => D j ∨ j = n := by
  refine .ask fun flow hflow => .ask fun found hfound => ?_
  split
  · exact .pure (by simp)
  rename_i exiting
  have passed : ({ region with exiting } : Region).Passed f :=
    Region.passed_of_exitingFor all.consistent hflow
      (all.comes region (List.mem_of_getElem? there)) hfound
  refine (all.cutHeader hflow passed).bind fun q₁ known₁ => ?_
  obtain ⟨f₁, top⟩ := q₁
  obtain ⟨all₁, passed₁, opens₁⟩ := known₁
  -- the place of the region is taken by one that is still to be brought into form
  have open₁ := all₁.set (r := { region with header := top, exiting }) (n := n)
    (E := fun j => D j ∧ j ≠ n) passed₁.comes (fun no => absurd rfl no.2) fun _ h _ => h.1
  refine (open₁.cutExiting passed₁ opens₁).bind fun q₂ known₂ => ?_
  obtain ⟨f₂, behind⟩ := q₂
  obtain ⟨all₂, passed₂, opens₂, apart, relays⟩ := known₂
  have place : ((regions.set n { region with header := top, exiting }).map fun o =>
      if o.header = exiting then { o with header := behind } else o)[n]? =
        some { region with header := top, exiting } := by
    have inside : n < regions.length := (List.getElem?_eq_some_iff.mp there).1
    simp [inside, show top ≠ exiting from passed₁.other]
  dsimp only
  rw [place]
  refine .ask fun filled hfill => ?_
  refine (all₂.isolate passed₂ opens₂ ⟨behind, apart, relays⟩ (fun o ho => ?_) hfill).bind
    fun q₃ known₃ => ?_
  · obtain ⟨r, -, rfl⟩ := List.mem_map.mp ho
    split
    · exact apart
    · assumption
  obtain ⟨all₃, form⟩ := known₃
  refine Region.bounds_analyze.bind fun last same => .pure fun _ => ⟨by simp, ?_⟩
  have form := form.congr same.1 same.2
  exact all₃.set form.comes (fun _ => form) fun j h other => ⟨h.resolve_right other, other⟩

/-- Regions at any places are brought into form, one after the other. -/
theorem extractPlaces {places : List Nat} :
    Yields (f.extractPlaces regions places) fun r => r.1 = none →
      r.2.2.length = regions.length ∧ r.2.1.Arranged r.2.2 fun j => D j ∨ j ∈ places := by
  induction places generalizing f regions D with
  | nil => exact .pure fun _ => ⟨rfl, by simpa using all⟩
  | cons n rest ih =>
    rw [Func.extractPlaces]
    split
    · rename_i nothing
      refine (ih all).mono fun r known no => ?_
      obtain ⟨length, all'⟩ := known no
      refine ⟨length, all'.formed, all'.comes, fun j q hj there => all'.inForm j q ?_ there⟩
      -- there is no region at the place
      have inside : j < regions.length := length ▸ (List.getElem?_eq_some_iff.mp there).1
      have outside : regions.length ≤ n := List.getElem?_eq_none_iff.mp nothing
      simpa [show j ≠ n by omega] using hj
    · rename_i region there
      refine (all.extractRegion there).bind fun r known => ?_
      obtain ⟨error, g, regions'⟩ := r
      cases error with
      | some e => exact .pure (by simp)
      | none =>
        obtain ⟨length, all'⟩ := known rfl
        refine (ih all').mono fun r known no => ?_
        obtain ⟨length', all''⟩ := known no
        exact ⟨length'.trans length, by simpa [or_assoc] using all''⟩

end Arranged

end Func

/-! ### All regions -/

/-- What can be said of a region when all have been brought into form. -/
structure Region.Normal (f : Func) (flow : Flow) (r : Region) : Prop where
  header : flow.loops.isHeader r.header = true ∨ f.Bare r.header ∨ f.CutOff r.header
  exiting : ∃ c, f.Relays r.exiting c
  reached : flow.graph.Reaches f.entry.index r.header.index
  way : flow.graph.Reaches r.header.index r.exiting.index
  above : flow.graph.Dominates f.entry.index r.header.index r.exiting.index ↔
    r.exiting ≠ f.entry ∧ ∀ u : BlockId, flow.graph.Before r.exiting.index r.header.index u.index →
      r.exiting.index ∈ flow.graph.next u.index →
        flow.graph.Dominates f.entry.index r.header.index u.index

theorem Region.InForm.normal {f : Func} {flow : Flow} {r : Region} (form : r.InForm f)
    (hf : f.Consistent) (hflow : f.flow = .ok flow) : r.Normal f flow := by
  have hg := (Func.flow_eq_ok hflow).1
  refine ⟨?_, form.exiting, (Func.reaches_iff_goes hf hg).mpr form.comes,
    (Func.reaches_iff_goes hf hg).mpr form.way, ?_⟩
  · exact form.opens.imp_left (Func.isHeader_iff_headsLoop hf hflow).mpr
  · simp only [Func.governs_iff hf hg, Func.avoids_iff hf hg, hf.mem_next hg]
    exact Region.governs_iff_of_owns form.other form.owns

namespace Func

variable {f g : Func} {selector : DimensionSelector} {shared : List GlobalId} {level : Level}
  {dim : Dimension} {found : DivergentFunc} {after : List Region}

/-- When all regions of an analysis have been brought into form, each of them ends with phis and a
jump; it begins at a loop header, with nothing but a branch, or behind the end of another region;
and its header dominates its exiting block exactly if this is not the entry and the header dominates
what leads there in the region. -/
theorem extractRegions_normal (consistent : f.Consistent) (flawless : f.firstFlaw? = .ok none)
    (h : f.analyze selector shared level dim = .ok (.ok found))
    (extracted : f.extractRegions found.divergence.regions = .ok (none, g, after)) :
    ∃ flow, g.flow = .ok flow ∧ ∀ r ∈ after, r.Normal g flow := by
  obtain ⟨ops, accesses, a⟩ := analyzed h
  have start : f.Arranged found.divergence.regions fun _ => False :=
    { formed := formed_of_flawless consistent flawless
      comes := fun r hr => (reaches_iff_goes consistent a.graph).mp (a.spans consistent hr).reached
      inForm := by simp }
  obtain ⟨length, all⟩ := start.extractPlaces _ extracted rfl
  obtain ⟨flow, hflow⟩ := (linked_of_formed all.formed).answers_flow
  refine ⟨flow, hflow, fun r hr => ?_⟩
  obtain ⟨j, there⟩ := List.mem_iff_getElem?.mp hr
  have inside : j < found.divergence.regions.length :=
    length ▸ (List.getElem?_eq_some_iff.mp there).1
  exact (all.inForm j r (.inr (List.mem_range.mpr inside)) there).normal all.consistent hflow

end Func

/-! ### A region that ends where another one begins -/

/-- A loop whose threads leave it after different numbers of turns, with a branch inside: the ways
from there meet at the header of the loop. -/
def strideLoop : Func := .assemble "stride_loop" [⟨"n", .i32⟩] [
  ("entry", [
    ⟨.call "llvm.nvvm.read.ptx.sreg.tid.x" [], .i32, "t"⟩,
    ⟨.compare .slt (.inst ⟨0⟩) (.arg 0), .i1, "c"⟩,
    ⟨.jump ⟨1⟩, .void, ""⟩]),
  ("head", [
    ⟨.phi [(.const 0, ⟨0⟩), (.inst ⟨4⟩, ⟨3⟩), (.inst ⟨4⟩, ⟨4⟩)], .i32, "i"⟩,
    ⟨.binary .add (.inst ⟨3⟩) (.const 1), .i32, "i1"⟩,
    ⟨.compare .slt (.inst ⟨4⟩) (.inst ⟨0⟩), .i1, "u"⟩,
    ⟨.branch (.inst ⟨5⟩) ⟨2⟩ ⟨5⟩, .void, ""⟩]),
  ("body", [⟨.branch (.inst ⟨1⟩) ⟨3⟩ ⟨4⟩, .void, ""⟩]),
  ("left", [⟨.jump ⟨1⟩, .void, ""⟩]),
  ("right", [⟨.jump ⟨1⟩, .void, ""⟩]),
  ("exit", [⟨.ret none, .void, ""⟩])]

/-- What the analysis finds: a region from `head` to `exit`, and one from `body` to `head`. -/
def strideLoopFound : DivergentFunc where
  func := strideLoop
  flow :=
    { graph := ⟨#[[1], [2, 5], [3, 4], [1], [1], []], by decide⟩
      dom := ⟨#[some 0, some 0, some 1, some 2, some 2, some 1]⟩
      pdom := ⟨#[some 1, some 5, some 1, some 1, some 1, some 6, some 6], 6⟩
      loops := ⟨[⟨⟨1⟩, [⟨1⟩, ⟨2⟩, ⟨3⟩, ⟨4⟩], [⟨3⟩, ⟨4⟩], none, 1⟩]⟩ }
  grid := ⟨[(⟨0⟩, .threadId, .x)], []⟩
  divergence :=
    { level := .thread
      dim := .x
      set := [⟨6⟩, ⟨5⟩, ⟨4⟩, ⟨3⟩, ⟨7⟩, ⟨1⟩, ⟨0⟩]
      placed := [(⟨0⟩, ⟨0⟩), (⟨1⟩, ⟨0⟩), (⟨3⟩, ⟨1⟩), (⟨4⟩, ⟨1⟩), (⟨5⟩, ⟨1⟩), (⟨6⟩, ⟨1⟩), (⟨7⟩, ⟨2⟩)]
      branches := [⟨6⟩, ⟨7⟩]
      regions := [⟨⟨1⟩, ⟨5⟩, [⟨1⟩, ⟨2⟩, ⟨3⟩, ⟨4⟩, ⟨5⟩], [], [⟨0⟩, ⟨1⟩]⟩,
        ⟨⟨2⟩, ⟨1⟩, [⟨2⟩, ⟨3⟩, ⟨1⟩, ⟨4⟩], [], [⟨1⟩, ⟨0⟩]⟩]
      reads := [⟨0⟩] }

/-- The kernel with its regions in form.  The header of the loop has been cut behind its phi, for the
region that ends there, and the other region begins with what came behind the phi. -/
def strideLoopSplit : Func where
  name := "stride_loop"
  params := [⟨"n", .i32⟩]
  returnTy := .void
  convention := .kernel
  blocks := #[
    ⟨"entry", [⟨0⟩, ⟨1⟩, ⟨2⟩]⟩,
    ⟨"head", [⟨16⟩, ⟨13⟩]⟩,
    ⟨"body", [⟨12⟩]⟩,
    ⟨"left", [⟨8⟩]⟩,
    ⟨"right", [⟨9⟩]⟩,
    ⟨"exit", [⟨11⟩]⟩,
    ⟨"exit.split", [⟨10⟩]⟩,
    ⟨"body.split", [⟨7⟩]⟩,
    ⟨"head.split", [⟨4⟩, ⟨5⟩, ⟨6⟩]⟩,
    ⟨"head.extracted", [⟨15⟩, ⟨14⟩]⟩]
  layout := [⟨0⟩, ⟨9⟩, ⟨1⟩, ⟨8⟩, ⟨2⟩, ⟨7⟩, ⟨3⟩, ⟨4⟩, ⟨5⟩, ⟨6⟩]
  insts := #[
    ⟨.call "llvm.nvvm.read.ptx.sreg.tid.x" [], .i32, "t", some ⟨0⟩⟩,
    ⟨.compare .slt (.inst ⟨0⟩) (.arg 0), .i1, "c", some ⟨0⟩⟩,
    ⟨.jump ⟨1⟩, .void, "", some ⟨0⟩⟩,
    ⟨.phi [(.const 0, ⟨0⟩), (.inst ⟨4⟩, ⟨3⟩), (.inst ⟨4⟩, ⟨4⟩)], .i32, "i", none⟩,
    ⟨.binary .add (.inst ⟨16⟩) (.const 1), .i32, "i1", some ⟨8⟩⟩,
    ⟨.compare .slt (.inst ⟨4⟩) (.inst ⟨0⟩), .i1, "u", some ⟨8⟩⟩,
    ⟨.branch (.inst ⟨5⟩) ⟨2⟩ ⟨5⟩, .void, "", some ⟨8⟩⟩,
    ⟨.branch (.inst ⟨1⟩) ⟨3⟩ ⟨4⟩, .void, "", some ⟨7⟩⟩,
    ⟨.jump ⟨9⟩, .void, "", some ⟨3⟩⟩,
    ⟨.jump ⟨9⟩, .void, "", some ⟨4⟩⟩,
    ⟨.ret none, .void, "", some ⟨6⟩⟩,
    ⟨.jump ⟨6⟩, .void, "", some ⟨5⟩⟩,
    ⟨.jump ⟨7⟩, .void, "", some ⟨2⟩⟩,
    ⟨.jump ⟨8⟩, .void, "", some ⟨1⟩⟩,
    ⟨.jump ⟨1⟩, .void, "", some ⟨9⟩⟩,
    ⟨.phi [(.inst ⟨4⟩, ⟨3⟩), (.inst ⟨4⟩, ⟨4⟩)], .i32, "i.new_exiting", some ⟨9⟩⟩,
    ⟨.phi [(.const 0, ⟨0⟩), (.inst ⟨15⟩, ⟨9⟩)], .i32, "i.old_exiting", some ⟨1⟩⟩]

theorem analyze_strideLoop :
    strideLoop.analyze (.only .x) [] .thread .x = .ok (.ok strideLoopFound) :=
  Func.analyze_eq_ok_iff.mpr ⟨by cbv, by rfl, by cbv, rfl⟩

theorem extractRegions_strideLoop :
    strideLoop.extractRegions strideLoopFound.divergence.regions = .ok (none, strideLoopSplit,
      [⟨⟨8⟩, ⟨5⟩, [⟨1⟩, ⟨2⟩, ⟨3⟩, ⟨4⟩, ⟨5⟩], [], [⟨0⟩, ⟨1⟩]⟩,
        ⟨⟨7⟩, ⟨9⟩, [⟨7⟩, ⟨3⟩, ⟨9⟩, ⟨4⟩], [⟨15⟩], [⟨1⟩, ⟨4⟩]⟩]) := by cbv

/-- The region from `body` begins with its branch and ends at a block of its own before `head`, and
the region from `head` begins behind the phi there. -/
theorem strideLoop_normal : ∃ flow, strideLoopSplit.flow = .ok flow ∧
    Region.Normal strideLoopSplit flow ⟨⟨8⟩, ⟨5⟩, [⟨1⟩, ⟨2⟩, ⟨3⟩, ⟨4⟩, ⟨5⟩], [], [⟨0⟩, ⟨1⟩]⟩ ∧
    Region.Normal strideLoopSplit flow ⟨⟨7⟩, ⟨9⟩, [⟨7⟩, ⟨3⟩, ⟨9⟩, ⟨4⟩], [⟨15⟩], [⟨1⟩, ⟨4⟩]⟩ := by
  obtain ⟨flow, answer, all⟩ := Func.extractRegions_normal (Func.consistent_assemble ..) (by cbv)
    analyze_strideLoop extractRegions_strideLoop
  exact ⟨flow, answer, all _ (by simp), all _ (by simp)⟩

/-- Once all regions have been brought into form, the first of them begins at `head.split`, which is
not the header of a loop and holds an addition and a comparison besides its branch. -/
theorem not_bare_strideLoop :
    strideLoop.Consistent ∧ strideLoop.firstFlaw? = .ok none ∧
      strideLoop.analyze (.only .x) [] .thread .x = .ok (.ok strideLoopFound) ∧
      ∃ after, strideLoop.extractRegions strideLoopFound.divergence.regions =
          .ok (none, strideLoopSplit, after) ∧
        ∃ r ∈ after, ∃ flow, strideLoopSplit.flow = .ok flow ∧
          flow.loops.isHeader r.header = false ∧ ¬ strideLoopSplit.Bare r.header ∧
          strideLoopSplit.code r.header = [⟨4⟩, ⟨5⟩, ⟨6⟩] := by
  have flow : strideLoopSplit.flow = .ok
      { graph := ⟨#[[1], [8], [7], [9], [9], [6], [], [3, 4], [2, 5], [1]], by decide⟩
        dom := ⟨#[some 0, some 0, some 8, some 7, some 7, some 8, some 5, some 2, some 1, some 7]⟩
        pdom := ⟨#[some 1, some 8, some 7, some 9, some 9, some 6, some 10, some 9, some 5, some 1,
          some 10], 10⟩
        loops := ⟨[⟨⟨1⟩, [⟨1⟩, ⟨2⟩, ⟨3⟩, ⟨4⟩, ⟨7⟩, ⟨8⟩, ⟨9⟩], [⟨9⟩], none, 1⟩]⟩ } := by cbv
  refine ⟨Func.consistent_assemble .., by cbv, analyze_strideLoop, _, extractRegions_strideLoop,
    _, List.mem_cons_self, _, flow, by decide, ?_, by decide⟩
  rintro ⟨last, shape⟩
  have code : [⟨4⟩, ⟨5⟩, ⟨6⟩] = [last] := shape.code
  simp at code

end KernelCoarsening
