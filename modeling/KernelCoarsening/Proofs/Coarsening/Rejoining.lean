/-
Phis of a region that is repeated.

When a copy of a region is put into place, the phis of its header and those of the block behind the
region come to name other blocks:

* `Replication.PutBehind.grafts` — this is what has to be done, as far as those blocks are concerned;
* `Region.NamesInside` — the phis of the region need nothing else;
* `Replication.InRow.matches_iff`, `Replication.Multiplies.matches_iff` — phis match when all copies
  are in place exactly if it is so.
-/
import KernelCoarsening.Proofs.Coarsening.Splicing
import KernelCoarsening.Proofs.Ir.Ordering

namespace KernelCoarsening

namespace Func

variable {f : Func} {b : BlockId} {names : List BlockId} {held : List InstId}

/-- A phi of a block that is no placeholder names some blocks. -/
def NamesApart (f : Func) (held : List InstId) (b : BlockId) (names : List BlockId) : Prop :=
  ∃ i ∈ f.code b, i ∉ held ∧ f.namesOf i = some names

end Func

namespace Replication

open Func

variable {s t u : Replication} {i : InstId} {b c : BlockId} {names : List BlockId} {bound : Nat}
  {splice : Splice} {top : BlockId} {copy : BlockCopy} {copies : List BlockCopy} {f₁ f₂ g : Func}
  {wanted : InstId → Prop}

/-- The copy of a region as a part that is put behind a block. -/
def Splice.graft (splice : Splice) (top : BlockId) (copy : BlockCopy) : Graft where
  part := copy.blocks
  header := copy.mapBlock splice.region.header
  exiting := copy.mapBlock splice.region.exiting
  top := top
  bottom := splice.bottom
  entry := splice.entry

/-- The phis of the header and those behind the region come to name other blocks. -/
theorem Joined.namesOf {f : Func} (joined : Joined splice top (copy.mapBlock splice.region.header)
      (copy.mapBlock splice.region.exiting) f f₁ f₂ g) (hf : f.Consistent)
    (orderly : f.Orderly (copy.mapBlock splice.region.header)) (orderly' : f.Orderly splice.bottom)
    (apart : copy.mapBlock splice.region.header ≠ splice.bottom) (hi : i ∈ f.code b) :
    g.namesOf i = (f.namesOf i).map (List.map ((splice.graft top copy).rename b)) := by
  obtain ⟨_, _, _, shape⟩ := hf.exists_shape_iff.mpr orderly
  obtain ⟨_, _, _, shape'⟩ := hf.exists_shape_iff.mpr orderly'
  have same₁ : f₁.namesOf i = f.namesOf i := by
    rw [namesOf_of_alter (r := id) joined.redirected fun op => by simp]
    simp
  rw [namesOf_of_alter (r := Operation.redirect top (copy.mapBlock splice.region.exiting))
      joined.left fun op => by simp,
    namesOf_of_alter (r := Operation.redirect splice.entry top) joined.entered fun op => by simp, same₁]
  cases named : f.namesOf i with
  | none => simp
  | some names =>
    obtain ⟨incoming, ty, line, -⟩ := namesOf_eq_some_iff.mp named
    have phi : f.outline.isPhi i = true := by
      simp [Outline.isPhi, show f.outline.line i = _ from line, Operation.isPhi]
    have mem : ∀ {c : BlockId} {phis body last}, f.outline.Shape c phis body last →
        (i ∈ f.outline.phis c ↔ b = c) := by
      intro c phis body last shape
      rw [shape.mem_phis]
      constructor
      · rintro ⟨there, -⟩
        by_contra other
        exact hf.not_mem_code hi other there
      · exact fun same => ⟨same ▸ hi, phi⟩
    simp only [mem shape, mem shape', Graft.rename, Splice.graft]
    by_cases first : b = copy.mapBlock splice.region.header
    · simp [first, apart]
    · by_cases last : b = splice.bottom
      · simp [last, apart.symm]
      · simp [first, last]

namespace PutBehind

variable {before : Option (Bool × Bool) → Option (Bool × Bool) → Prop}
  (put : PutBehind splice bound wanted before s top copy u f₁ f₂ g)

include put

theorem namesOf (old : i.index < s.func.insts.size) : u.func.namesOf i = s.func.namesOf i := by
  rw [namesOf_eq, namesOf_eq, put.tends.func.formOf i old]

theorem entry : u.func.entry = s.func.entry := by
  rw [Func.entry, Func.entry, put.tends.func.layout]

theorem comes_iff : u.func.Comes b ↔ s.func.Comes b := by
  have leads : u.func.leads = s.func.leads := funext put.tends.func.leads
  rw [Comes, Comes, Goes, Goes, put.entry, leads]

/-- Outside the copy phis name what they named. -/
theorem names_outside (hs : s.func.Consistent) (out : b ∉ copy.blocks) :
    u.func.Names b names ↔ s.func.Names b names :=
  ⟨put.tends.func.names, fun ⟨i, inside, named⟩ => ⟨i, put.kept b out i inside,
    (put.namesOf (hs.lt_of_mem_code inside)).trans named⟩⟩

/-- In the copy phis that are no copies of placeholders are left. -/
theorem names_inside (hs : s.func.Consistent) (inside : b ∈ copy.blocks) : u.func.Names b names ↔
    ∃ i ∈ s.func.code b, ¬ splice.Doomed copy i ∧ s.func.namesOf i = some names := by
  constructor
  · rintro ⟨i, mem, named⟩
    obtain ⟨mem, kept⟩ := (put.cleared b inside i).mp mem
    exact ⟨i, mem, kept, (put.namesOf (hs.lt_of_mem_code mem)).symm.trans named⟩
  · rintro ⟨i, mem, kept, named⟩
    exact ⟨i, (put.cleared b inside i).mpr ⟨mem, kept⟩,
      (put.namesOf (hs.lt_of_mem_code mem)).trans named⟩

/-- Phis match as before, as long as control does not come to the copy. -/
theorem matches_before (hs : s.func.Consistent)
    (away : ∀ b, s.func.Comes b → b ∉ copy.blocks) : u.func.Matches ↔ s.func.Matches := by
  have same : ∀ b, s.func.Comes b → ∀ names, u.func.Names b names ↔ s.func.Names b names :=
    fun b comes names => put.names_outside hs (away b comes)
  simp only [Matches, put.comes_iff, put.tends.func.leads]
  exact forall_congr' fun b => forall_congr' fun names =>
    ⟨fun all named comes => all ((same b comes names).mpr named) comes,
      fun all named comes => all ((same b comes names).mp named) comes⟩

/-- What has to be done to let control go through the copy has been done. -/
theorem grafts (orderly : u.func.Orderly (copy.mapBlock splice.region.header))
    (orderly' : u.func.Orderly splice.bottom)
    (apart : copy.mapBlock splice.region.header ≠ splice.bottom)
    (above : u.func.leads top = [splice.bottom]) : (splice.graft top copy).Put u.func g where
  entry := by rw [Func.entry, Func.entry, put.joined.layout]
  leads b := by
    show g.leads b = if b = top then [copy.mapBlock splice.region.header] else u.func.leads b
    rw [put.joined.leads put.tends.func.consistent, above]
    simp [Operation.redirect]
  names b names := by
    have each := fun (i : InstId) (hi : i ∈ u.func.code b) =>
      put.joined.namesOf put.tends.func.consistent orderly orderly' apart hi
    constructor
    · rintro ⟨i, inside, named⟩
      rw [put.joined.code] at inside
      rw [each i inside, Option.map_eq_some_iff] at named
      obtain ⟨old, named, rfl⟩ := named
      exact ⟨old, ⟨i, inside, named⟩, rfl⟩
    · rintro ⟨old, ⟨i, inside, named⟩, rfl⟩
      refine ⟨i, put.joined.code ▸ inside, ?_⟩
      rw [each i inside, named, Option.map_some]

omit put in
/-- Blocks stay in order. -/
theorem orderly (put : PutBehind splice bound wanted RankedBefore s top copy u f₁ f₂ g)
    (orderly : s.func.Orderly b) : u.func.Orderly b ∧ g.Orderly b :=
  have first := put.tends.func.orderly orderly
  ⟨first, first.of_map (m := id) (by rw [put.joined.code, List.map_id]) fun i _ => put.joined.rankOf i⟩

end PutBehind

/-! ### Copies that wait -/

/-- What is known of the function that a region is part of. -/
structure Site (splice : Splice) (f : Func) (graph : Graph) : Prop where
  enclosed : splice.region.Enclosed f graph
  start : f.entry.index < f.blocks.size
  ahead : splice.entry.index < f.blocks.size
  behind : splice.bottom.index < f.blocks.size
  entry : splice.entry ∉ splice.region.blocks
  bottom : splice.bottom ∉ splice.region.blocks
  leads : f.leads splice.region.exiting = [splice.bottom]
  comes : f.Comes splice.region.header
  targets : ∀ b, ∀ c ∈ f.leads b, c.index < f.blocks.size
  named : ∀ b names, f.Names b names → ∀ p ∈ names, p.index < f.blocks.size
  fits : f.Matches

/-- A copy of a region waits to be put into place: it is what it was when it was made, and control
does not come to it. -/
structure Awaits (splice : Splice) (f g : Func) (copy : BlockCopy) : Prop where
  listed : copy.blocks = splice.region.blocks.map copy.mapBlock
  nodup : copy.blocks.Nodup
  new : ∀ b ∈ copy.blocks, f.blocks.size ≤ b.index
  others : ∀ b, b ∉ splice.region.blocks → copy.mapBlock b = b
  leads : ∀ b ∈ splice.region.blocks, g.leads (copy.mapBlock b) = (f.leads b).map copy.mapBlock
  apart : ∀ b, b ∉ copy.blocks → ∀ c ∈ g.leads b, c ∉ copy.blocks
  unnamed : ∀ b, b ∉ copy.blocks → ∀ names, g.Names b names → ∀ p ∈ names, p ∉ copy.blocks
  names : ∀ b ∈ splice.region.blocks, ∀ names,
    (∃ i ∈ g.code (copy.mapBlock b), ¬ splice.Doomed copy i ∧ g.namesOf i = some names) ↔
      ∃ old, f.NamesApart splice.held b old ∧ names = old.map copy.mapBlock

end Replication

/-- The phis of a region that are no placeholders name the block before the region if they stand in
the header, and apart from that no block outside of the region that control comes to. -/
def Region.NamesInside (r : Region) (f : Func) (held : List InstId) (entry : BlockId) : Prop :=
  ∀ b ∈ r.blocks, ∀ names, f.NamesApart held b names → (b = r.header → entry ∈ names) ∧
    ∀ p ∈ names, p ∉ r.blocks → f.Comes p → b = r.header ∧ p = entry

namespace Replication

open Func

variable {s t u : Replication} {b c : BlockId} {splice : Splice} {top : BlockId} {copy : BlockCopy}
  {copies : List BlockCopy} {f f₁ f₂ g : Func} {graph : Graph} {wanted : InstId → Prop}

/-- Control comes to all blocks of a region. -/
theorem Site.comes_blocks (site : Site splice f graph) (hb : b ∈ splice.region.blocks) :
    f.Comes b :=
  site.comes.trans ((site.enclosed.found b hb).lift id fun _ _ edge => edge.2)

namespace Awaits

variable (awaits : Awaits splice f g copy) (site : Site splice f graph)

include awaits

theorem mem : c ∈ copy.blocks ↔ ∃ b ∈ splice.region.blocks, copy.mapBlock b = c := by
  rw [awaits.listed, List.mem_map]

theorem mapBlock_mem (hb : b ∈ splice.region.blocks) : copy.mapBlock b ∈ copy.blocks :=
  awaits.mem.mpr ⟨b, hb, rfl⟩

theorem away (old : b.index < f.blocks.size) : b ∉ copy.blocks := fun mem =>
  absurd old (Nat.not_lt.mpr (awaits.new b mem))

theorem mapBlock_inj (hb : b ∈ splice.region.blocks) (hc : c ∈ splice.region.blocks) :
    copy.mapBlock b = copy.mapBlock c ↔ b = c :=
  ⟨List.inj_on_of_nodup_map (awaits.listed ▸ awaits.nodup) hb hc, congrArg _⟩

/-- A copy is no block that was there, and a block that is not copied is left as it is. -/
theorem mapBlock_mem_iff (old : b.index < f.blocks.size) :
    copy.mapBlock b ∈ copy.blocks ↔ b ∈ splice.region.blocks := by
  refine ⟨fun mem => ?_, awaits.mapBlock_mem⟩
  by_contra out
  exact awaits.away old (awaits.others b out ▸ mem)

include site

/-- Control would find every block of the copy from its header. -/
theorem found (hb : b ∈ splice.region.blocks) :
    g.Goes (copy.mapBlock splice.region.header) (copy.mapBlock b) := by
  have inside : ∀ b, Relation.ReflTransGen
      (fun b c => b ≠ splice.region.exiting ∧ c ∈ f.leads b) splice.region.header b →
        b ∈ splice.region.blocks ∧ g.Goes (copy.mapBlock splice.region.header) (copy.mapBlock b) := by
    intro b goes
    induction goes with
    | refl => exact ⟨site.enclosed.header, .refl⟩
    | @tail b c _ edge ih =>
      refine ⟨site.enclosed.closed b ih.1 edge.1 c edge.2, ih.2.tail ?_⟩
      rw [awaits.leads b ih.1]
      exact List.mem_map_of_mem edge.2
  exact (inside b (site.enclosed.found b hb)).2

/-- A copy that waits hangs loose. -/
theorem loose (above : g.leads top = [splice.bottom]) (comes : g.Comes top)
    (start : g.entry = f.entry)
    (names : ∀ b ∈ splice.region.blocks, ∀ names, g.Names (copy.mapBlock b) names →
      ∃ old, f.NamesApart splice.held b old ∧ names = old.map copy.mapBlock)
    (place : top ∈ splice.region.blocks ∨ f.blocks.size ≤ top.index) (out : top ∉ copy.blocks) :
    (splice.graft top copy).Loose g where
  header := awaits.mapBlock_mem site.enclosed.header
  exiting := awaits.mapBlock_mem site.enclosed.exiting
  top := out
  bottom := awaits.away site.behind
  entry := awaits.away site.ahead
  start := start ▸ awaits.away site.start
  found b hb := by
    obtain ⟨a, ha, rfl⟩ := awaits.mem.mp hb
    exact awaits.found site ha
  closed b hb other c hc := by
    obtain ⟨a, ha, rfl⟩ := awaits.mem.mp hb
    rw [awaits.leads a ha] at hc
    obtain ⟨d, hd, rfl⟩ := List.mem_map.mp hc
    exact awaits.mapBlock_mem (site.enclosed.closed a ha (fun same => other (congrArg _ same)) d hd)
  leaves := by
    show g.leads (copy.mapBlock splice.region.exiting) = [splice.bottom]
    rw [awaits.leads _ site.enclosed.exiting, site.leads, List.map_singleton,
      awaits.others _ site.bottom]
  above := above
  comes := comes
  apart := awaits.apart
  unnamed := awaits.unnamed
  fresh b hb found named mem := by
    obtain ⟨a, ha, rfl⟩ := awaits.mem.mp hb
    obtain ⟨old, ⟨i, inside, -, named'⟩, rfl⟩ := names a ha found named
    obtain ⟨p, hp, same⟩ := List.mem_map.mp mem
    have same : copy.mapBlock p = top := same
    have slot := site.named a old ⟨i, inside, named'⟩ p hp
    by_cases within : p ∈ splice.region.blocks
    · exact out (same ▸ awaits.mapBlock_mem within)
    · rw [awaits.others p within] at same
      subst same
      exact place.elim within (Nat.not_le.mpr slot)

/-- The phis of a copy that waits fit if those of the region name only what they may. -/
theorem fits_iff (names : ∀ b ∈ splice.region.blocks, ∀ names, g.Names (copy.mapBlock b) names ↔
      ∃ old, f.NamesApart splice.held b old ∧ names = old.map copy.mapBlock)
    (same : ∀ p : BlockId, p.index < f.blocks.size → (g.Comes p ↔ f.Comes p))
    (apart : ∀ p ∈ copy.blocks, ¬ g.Comes p) : (splice.graft top copy).Fits g ↔
      splice.region.NamesInside f splice.held splice.entry := by
  have header := site.enclosed.header
  -- each of the three parts, for a phi and its copy
  have each : ∀ b ∈ splice.region.blocks, ∀ old, f.NamesApart splice.held b old →
      (splice.entry ∈ old.map copy.mapBlock ↔ splice.entry ∈ old) ∧
      ((∀ p ∈ old.map copy.mapBlock, g.Comes p →
          copy.mapBlock b = copy.mapBlock splice.region.header ∧ p = splice.entry) ↔
        ∀ p ∈ old, p ∉ splice.region.blocks → f.Comes p →
          b = splice.region.header ∧ p = splice.entry) ∧
      ∀ p ∈ copy.blocks, (p ∈ old.map copy.mapBlock ↔ copy.mapBlock b ∈ g.leads p) := by
    rintro b hb old ⟨i, inside, -, named⟩
    have slots := site.named b old ⟨i, inside, named⟩
    refine ⟨⟨fun mem => ?_, fun mem => ?_⟩, ⟨fun all p hp out comes => ?_, fun all p hp comes => ?_⟩,
      fun p hp => ?_⟩
    · obtain ⟨p, hp, same⟩ := List.mem_map.mp mem
      by_cases within : p ∈ splice.region.blocks
      · exact absurd (same ▸ awaits.mapBlock_mem within) (awaits.away site.ahead)
      · rwa [← same, awaits.others p within]
    · exact List.mem_map.mpr ⟨_, mem, awaits.others _ site.entry⟩
    · have fixed := awaits.others p out
      obtain ⟨here, there⟩ := all p (List.mem_map.mpr ⟨p, hp, fixed⟩) ((same p (slots p hp)).mpr comes)
      exact ⟨(awaits.mapBlock_inj hb header).mp here, there⟩
    · obtain ⟨p, mem, rfl⟩ := List.mem_map.mp hp
      have out : p ∉ splice.region.blocks := fun within =>
        apart _ (awaits.mapBlock_mem within) comes
      rw [awaits.others p out] at comes ⊢
      obtain ⟨here, there⟩ := all p mem out ((same p (slots p mem)).mp comes)
      exact ⟨congrArg _ here, there⟩
    · -- inside the region phis name what leads to them, and so they do inside the copy
      obtain ⟨q, hq, rfl⟩ := awaits.mem.mp hp
      have match_ := site.fits b old ⟨i, inside, named⟩ (site.comes_blocks hb) q (site.comes_blocks hq)
      have away : ∀ c : BlockId, c.index < f.blocks.size → ∀ d ∈ splice.region.blocks,
          copy.mapBlock c = copy.mapBlock d → c = d := by
        intro c slot d hd equal
        have within := (awaits.mapBlock_mem_iff slot).mp (equal ▸ awaits.mapBlock_mem hd)
        exact (awaits.mapBlock_inj within hd).mp equal
      rw [awaits.leads q hq, List.mem_map, List.mem_map]
      constructor
      · rintro ⟨c, hc, equal⟩
        obtain rfl := away c (slots c hc) q hq equal
        exact ⟨b, match_.mp hc, rfl⟩
      · rintro ⟨c, hc, equal⟩
        obtain rfl := away c (site.targets q c hc) b hb equal
        exact ⟨q, match_.mpr hc, rfl⟩
  constructor
  · intro fits b hb old named
    obtain ⟨first, foreign, -⟩ := each b hb old named
    obtain ⟨first', foreign', -⟩ :=
      fits _ (awaits.mapBlock_mem hb) _ ((names b hb _).mpr ⟨old, named, rfl⟩)
    exact ⟨fun here => first.mp (first' (congrArg _ here)), foreign.mp foreign'⟩
  · intro fits b' hb' found named
    obtain ⟨b, hb, rfl⟩ := awaits.mem.mp hb'
    obtain ⟨old, before, rfl⟩ := (names b hb found).mp named
    obtain ⟨first, foreign, own⟩ := each b hb old before
    obtain ⟨first', foreign'⟩ := fits b hb old before
    exact ⟨fun here => first.mpr (first' ((awaits.mapBlock_inj hb header).mp here)),
      foreign.mpr foreign', own⟩

omit awaits site in
/-- What is done inside the blocks lets a copy wait. -/
theorem clear {bound : Nat} {before : Option (Bool × Bool) → Option (Bool × Bool) → Prop}
    {h : Func} (put : PutBehind splice bound wanted before s top copy u f₁ f₂ h)
    (hs : s.func.Consistent) (awaits : Awaits splice f s.func copy) : Awaits splice f u.func copy where
  listed := awaits.listed
  nodup := awaits.nodup
  new := awaits.new
  others := awaits.others
  leads b hb := (put.tends.func.leads _).trans (awaits.leads b hb)
  apart b away c hc := awaits.apart b away c (put.tends.func.leads b ▸ hc)
  unnamed b away names named := awaits.unnamed b away names (put.tends.func.names named)
  names b hb names := by
    rw [← awaits.names b hb names]
    refine exists_congr fun i => ?_
    rw [put.cleared _ (awaits.mapBlock_mem hb)]
    constructor
    · rintro ⟨⟨inside, kept⟩, -, named⟩
      exact ⟨inside, kept, put.namesOf (hs.lt_of_mem_code inside) ▸ named⟩
    · rintro ⟨inside, kept, named⟩
      exact ⟨⟨inside, kept⟩, kept, (put.namesOf (hs.lt_of_mem_code inside)).trans named⟩

omit awaits in
/-- A copy goes on waiting while another one is put into place. -/
theorem step {bound : Nat} {before : Option (Bool × Bool) → Option (Bool × Bool) → Prop} {h : Func}
    {first : BlockCopy} (put : PutBehind splice bound wanted before s top first u f₁ f₂ h)
    (hs : s.func.Consistent) (leaves : Awaits splice f s.func first)
    (orderly : u.func.Orderly (first.mapBlock splice.region.header))
    (orderly' : u.func.Orderly splice.bottom) (above : s.func.leads top = [splice.bottom])
    (awaits : Awaits splice f s.func copy) (bounds : ∀ b ∈ copy.blocks, bound ≤ b.index)
    (apart : first.blocks.Disjoint copy.blocks) (out : top ∉ copy.blocks) :
    Awaits splice f h copy := by
  have header := leaves.mapBlock_mem site.enclosed.header
  have exiting := leaves.mapBlock_mem site.enclosed.exiting
  have ne_bottom : ∀ {c : BlockId}, f.blocks.size ≤ c.index → c ≠ splice.bottom := fun new same =>
    Nat.not_lt.mpr new (same ▸ site.behind)
  have grafts : (splice.graft top first).Put u.func h := put.grafts orderly orderly'
    (ne_bottom (leaves.new _ header)) ((put.tends.func.leads top).trans above)
  have aim : h.leads top = [first.mapBlock splice.region.header] := grafts.leads_top
  have others : ∀ b, b ≠ top → h.leads b = s.func.leads b := fun b other =>
    (grafts.leads_of_ne other).trans (put.tends.func.leads b)
  refine ⟨awaits.listed, awaits.nodup, awaits.new, awaits.others, fun b hb => ?_,
    fun b away c hc => ?_, fun b away names named p hp => ?_, fun b hb names => ?_⟩
  · rw [others _ fun same => out (same ▸ awaits.mapBlock_mem hb), awaits.leads b hb]
  · by_cases here : b = top
    · obtain rfl : c = first.mapBlock splice.region.header := by simpa [here, aim] using hc
      exact apart header
    · exact awaits.apart b away c (others b here ▸ hc)
  · obtain ⟨old, named, rfl⟩ := (grafts.names b names).mp named
    obtain ⟨q, hq, rfl⟩ := List.mem_map.mp hp
    rcases (splice.graft top first).rename_cases b q with same | same | same <;> rw [same]
    · exact awaits.unnamed b away old (put.tends.func.names (by assumption)) q hq
    · exact out
    · exact apart exiting
  · have mem := awaits.mapBlock_mem hb
    have other : copy.mapBlock b ∉ first.blocks := fun mem' => apart mem' mem
    have rename : (splice.graft top first).rename (copy.mapBlock b) = id := by
      have ne_header : copy.mapBlock b ≠ first.mapBlock splice.region.header := fun same =>
        other (same ▸ header)
      simp [Graft.rename, Splice.graft, ne_header, ne_bottom (awaits.new _ mem)]
    have same : ∀ i ∈ s.func.code (copy.mapBlock b), h.namesOf i = s.func.namesOf i := by
      intro i hi
      rw [put.joined.namesOf put.tends.func.consistent orderly orderly'
        (ne_bottom (leaves.new _ header)) (put.kept _ other i hi), rename,
        put.namesOf (hs.lt_of_mem_code hi)]
      simp
    rw [← awaits.names b hb names, put.code (bounds _ mem) other]
    exact exists_congr fun i => and_congr_right fun hi => by rw [same i hi]

end Awaits

/-- Phis match when copies of a region have been put into place, each behind the one before, exactly
if they matched before and those of the region name only what they may. -/
theorem InRow.matches_iff (row : InRow splice f.blocks.size wanted RankedBefore s top copies t)
    (site : Site splice f graph) (hs : s.func.Consistent) (start : s.func.entry = f.entry)
    (grown : f.blocks.size ≤ s.func.blocks.size)
    (orderly : ∀ b : BlockId, b.index < s.func.blocks.size → s.func.Orderly b)
    (awaits : ∀ copy ∈ copies, Awaits splice f s.func copy)
    (slots : ∀ copy ∈ copies, ∀ b ∈ copy.blocks, b.index < s.func.blocks.size)
    (apart : copies.Pairwise fun copy copy' => copy.blocks.Disjoint copy'.blocks)
    (above : s.func.leads top = [splice.bottom]) (comes : s.func.Comes top)
    (place : top ∈ splice.region.blocks ∨ f.blocks.size ≤ top.index)
    (out : ∀ copy ∈ copies, top ∉ copy.blocks)
    (same : ∀ b : BlockId, b.index < f.blocks.size → (s.func.Comes b ↔ f.Comes b)) :
    t.func.Matches ↔ s.func.Matches ∧
      (copies ≠ [] → splice.region.NamesInside f splice.held splice.entry) := by
  induction row with
  | nil => simp
  | @cons s u t top copy copies f₁ f₂ g put row ih =>
    rw [List.forall_mem_cons] at awaits slots out
    obtain ⟨here, apart⟩ := List.pairwise_cons.mp apart
    obtain ⟨first, later⟩ := awaits
    have header := first.mapBlock_mem site.enclosed.header
    have exiting := first.mapBlock_mem site.enclosed.exiting
    have size := put.tends.func.size_blocks hs
    have in_order := fun b slot => put.orderly (orderly b slot)
    have orderly₁ := (in_order _ (slots.1 _ header)).1
    have orderly₂ := (in_order _ (site.behind.trans_le grown)).1
    have ne_bottom : copy.mapBlock splice.region.header ≠ splice.bottom := fun same =>
      first.away site.behind (same ▸ header)
    have grafts := put.grafts orderly₁ orderly₂ ne_bottom ((put.tends.func.leads top).trans above)
    have waits := first.clear put hs
    have names : ∀ b ∈ splice.region.blocks, ∀ names, u.func.Names (copy.mapBlock b) names ↔
        ∃ old, f.NamesApart splice.held b old ∧ names = old.map copy.mapBlock := fun b hb names =>
      (put.names_inside hs (first.mapBlock_mem hb)).trans (first.names b hb names)
    have loose : (splice.graft top copy).Loose u.func :=
      waits.loose site ((put.tends.func.leads top).trans above) (put.comes_iff.mpr comes)
        (put.entry.trans start) (fun b hb found => (names b hb found).mp) place out.1
    have away : ∀ b, s.func.Comes b → b ∉ copy.blocks := fun b comes =>
      loose.not_comes (put.comes_iff.mpr comes)
    have fits : (splice.graft top copy).Fits u.func ↔ _ :=
      waits.fits_iff site names (fun b old => put.comes_iff.trans (same b old))
      fun b hb comes => loose.not_comes comes hb
    have here_iff : g.Matches ↔
        s.func.Matches ∧ splice.region.NamesInside f splice.held splice.entry := by
      rw [grafts.matches_iff loose, put.matches_before hs away, fits]
    have below : g.leads (copy.mapBlock splice.region.exiting) = [splice.bottom] := by
      have other : copy.mapBlock splice.region.exiting ≠ top := fun same => out.1 (same ▸ exiting)
      rw [grafts.leads_of_ne other]
      exact loose.leaves
    have rest := ih put.consistent (grafts.entry.trans (put.entry.trans start))
      (grown.trans_eq (put.blocks hs).symm) (fun b slot => (in_order b (put.blocks hs ▸ slot)).2)
      (fun copy' hc => .step site put hs first orderly₁ orderly₂ above (later copy' hc)
        (later copy' hc).new (here copy' hc) (out.2 copy' hc))
      (fun copy' hc b hb => (put.blocks hs).symm ▸ slots.2 copy' hc b hb) apart
      below
      ((grafts.comes_iff loose).mpr (.inr exiting)) (.inr (first.new _ exiting))
      (fun copy' hc => here copy' hc exiting) fun b old => by
        rw [grafts.comes_iff loose, put.comes_iff, same b old]
        exact or_iff_left (first.away old)
    refine rest.trans ?_
    rw [here_iff]
    exact ⟨fun ⟨⟨all, inside⟩, _⟩ => ⟨all, fun _ => inside⟩, fun ⟨all, inside⟩ =>
      ⟨⟨all, inside (by simp)⟩, fun _ => inside (by simp)⟩⟩

/-! ### Copies that have been made -/

namespace Multiplies

variable {made : Func} {blocks : List BlockId}

theorem names_twin (twin : f.Twin made blocks copy) {i : InstId}
    (hi : i ∈ blocks.flatMap f.code) :
    made.namesOf (copy.mapInst i) = (f.namesOf i).map (List.map copy.mapBlock) := by
  rw [Func.namesOf, Func.namesOf, twin.line i hi]
  cases f.line i <;> simp [BlockCopy.mapOperation]

section

variable (multiplies : Multiplies f blocks made copies)

include multiplies

/-- A block was there, or it is a copy. -/
theorem block_cases (hf : f.Consistent) (slot : b.index < made.blocks.size) :
    b.index < f.blocks.size ∨
      ∃ copy ∈ copies, ∃ a ∈ blocks, copy.mapBlock a = b := by
  rw [← multiplies.consistent.mem_layout, multiplies.layout, List.mem_append, List.mem_flatMap] at slot
  rcases slot with old | ⟨copy, hc, inside⟩
  · exact .inl ((hf.mem_layout b).mp old)
  · exact .inr ⟨copy, hc, (multiplies.twins copy hc).mem_map.mp inside⟩

/-- Blocks that were there have the phis that they had. -/
theorem names_iff (hf : f.Consistent) (old : b.index < f.blocks.size) {names : List BlockId} :
    made.Names b names ↔ f.Names b names := by
  have same : ∀ i ∈ f.code b, made.namesOf i = f.namesOf i := fun i hi => by
    rw [Func.namesOf, Func.namesOf, multiplies.carries.line i (hf.lt_of_mem_code hi)]
  rw [Names, Names, multiplies.carries.code b old]
  exact exists_congr fun i => and_congr_right fun hi => by rw [same i hi]

theorem entry (hf : f.Consistent) (start : f.entry.index < f.blocks.size) : made.entry = f.entry := by
  rw [Func.entry, Func.entry, multiplies.layout]
  cases h : f.layout with
  | nil =>
    have listed := (hf.mem_layout _).mpr start
    simp [h] at listed
  | cons b rest => rfl

/-- Blocks are in order when copies of blocks in order have been made. -/
theorem orderly (hf : f.Consistent) (orderly : ∀ b : BlockId, b.index < f.blocks.size → f.Orderly b)
    (slots : ∀ b ∈ blocks, b.index < f.blocks.size)
    (slot : b.index < made.blocks.size) : made.Orderly b := by
  rcases multiplies.block_cases hf slot with old | ⟨copy, hc, a, ha, rfl⟩
  · refine (orderly b old).of_map (m := id) (by rw [multiplies.carries.code b old, List.map_id])
      fun i hi => ?_
    rw [id, rankOf, rankOf, formOf_congr (multiplies.carries.line i (hf.lt_of_mem_code hi))]
  · have twin := multiplies.twins copy hc
    refine (orderly a (slots a ha)).of_map (twin.code a ha) fun i hi => ?_
    rw [rankOf, rankOf, formOf, formOf, twin.line i (List.mem_flatMap.mpr ⟨a, ha, hi⟩)]
    cases f.line i <;> simp [BlockCopy.mapOperation, Operation.rank]

end

variable (multiplies : Multiplies f splice.region.blocks made copies)

include multiplies

/-- Control comes to no copy. -/
theorem comes_iff (site : Site splice f graph) (hf : f.Consistent) :
    made.Comes b ↔ f.Comes b := by
  have slot : ∀ {b}, f.Comes b → b.index < f.blocks.size := by
    intro b comes
    cases comes with
    | refl => exact site.start
    | tail _ edge => exact site.targets _ _ edge
  have start := multiplies.entry hf site.start
  constructor
  · intro comes
    induction comes with
    | refl => exact start ▸ .refl
    | tail _ edge ih => exact ih.tail (multiplies.carries.leads hf (slot ih) ▸ edge)
  · intro comes
    induction comes with
    | refl => rw [← start]; exact .refl
    | tail before edge ih =>
      exact ih.tail ((multiplies.carries.leads hf (slot before)).symm ▸ edge)

theorem fits (site : Site splice f graph) (hf : f.Consistent) : made.Matches := by
  intro b names named comes p comes'
  have slot : ∀ b, made.Comes b → b.index < f.blocks.size := by
    intro b comes
    cases (multiplies.comes_iff site hf).mp comes with
    | refl => exact site.start
    | tail _ edge => exact site.targets _ _ edge
  rw [multiplies.carries.leads hf (slot p comes')]
  exact site.fits b names ((multiplies.names_iff hf (slot b comes)).mp named)
    ((multiplies.comes_iff site hf).mp comes) p ((multiplies.comes_iff site hf).mp comes')

/-- The copies have been made and wait to be put into place. -/
theorem awaits (site : Site splice f graph) (hf : f.Consistent) (hc : copy ∈ copies)
    (one : ∀ i i' j, (i, j) ∈ copy.instMap → (i', j) ∈ copy.instMap → i = i') :
    Awaits splice f made copy := by
  have twin := multiplies.twins copy hc
  -- another block leads to blocks that were there, and to copies that are made with it
  have elsewhere : ∀ b, b ∉ copy.blocks → ∀ copy' ∈ copies, ∀ a ∈ splice.region.blocks,
      copy'.mapBlock a = b → ∀ c : BlockId, c.index < f.blocks.size →
        copy'.mapBlock c ∉ copy.blocks := by
    rintro b away copy' hc' a ha rfl c slot
    have twin' := multiplies.twins copy' hc'
    by_cases within : c ∈ splice.region.blocks
    · have other : copy' ≠ copy := by
        rintro rfl
        exact away (twin'.mem_map.mpr ⟨a, ha, rfl⟩)
      exact multiplies.disjoint hc' hc other (twin'.mem_map.mpr ⟨c, within, rfl⟩)
    · rw [twin'.mapBlock_of_not_mem within]
      exact multiplies.away slot hc
  have doomed : ∀ i ∈ splice.region.blocks.flatMap f.code,
      (splice.Doomed copy (copy.mapInst i) ↔ i ∈ splice.held) := by
    intro i hi
    have mem := twin.mem_instMap hi
    exact ⟨fun ⟨k, hk, mem'⟩ => one _ _ _ mem' mem ▸ hk, fun hi => ⟨i, hi, mem⟩⟩
  refine ⟨twin.listed, twin.nodup, fun b hb => multiplies.fresh hc hb,
    fun b out => twin.mapBlock_of_not_mem out, fun b hb => twin.leads hf hb, fun b away c hc' => ?_,
    fun b away names ⟨i, inside, named⟩ p hp => ?_, fun b hb names => ?_⟩
  · rcases multiplies.block_cases hf (slot_of_mem_leads hc') with old | ⟨copy', hc'', a, ha, same⟩
    · rw [multiplies.carries.leads hf old] at hc'
      exact multiplies.away (site.targets b c hc') hc
    · have leads := (multiplies.twins copy' hc'').leads hf ha
      rw [same] at leads
      rw [leads] at hc'
      obtain ⟨d, hd, rfl⟩ := List.mem_map.mp hc'
      exact elsewhere b away copy' hc'' a ha same d (site.targets a d hd)
  · rcases multiplies.block_cases hf (slot_of_mem_code inside) with old | ⟨copy', hc', a, ha, same⟩
    · have named := (multiplies.names_iff hf old).mp ⟨i, inside, named⟩
      exact multiplies.away (site.named b names named p hp) hc
    · have code := (multiplies.twins copy' hc').code a ha
      rw [same] at code
      rw [code] at inside
      obtain ⟨j, hj, rfl⟩ := List.mem_map.mp inside
      rw [names_twin (multiplies.twins copy' hc') (List.mem_flatMap.mpr ⟨a, ha, hj⟩),
        Option.map_eq_some_iff] at named
      obtain ⟨names, named, rfl⟩ := named
      obtain ⟨q, hq, rfl⟩ := List.mem_map.mp hp
      exact elsewhere b away copy' hc' a ha same q (site.named a names ⟨j, hj, named⟩ q hq)
  · rw [twin.code b hb]
    have each : ∀ i ∈ f.code b, i ∈ splice.region.blocks.flatMap f.code := fun i hi =>
      List.mem_flatMap.mpr ⟨b, hb, hi⟩
    constructor
    · rintro ⟨j, hj, kept, named⟩
      obtain ⟨i, hi, rfl⟩ := List.mem_map.mp hj
      rw [names_twin twin (each i hi), Option.map_eq_some_iff] at named
      obtain ⟨old, named, rfl⟩ := named
      exact ⟨old, ⟨i, hi, mt (doomed i (each i hi)).mpr kept, named⟩, rfl⟩
    · rintro ⟨old, ⟨i, hi, kept, named⟩, rfl⟩
      refine ⟨_, List.mem_map_of_mem hi, mt (doomed i (each i hi)).mp kept, ?_⟩
      rw [names_twin twin (each i hi), named, Option.map_some]

/-- Phis match when copies that have been made are in place exactly if those of the region name only
what they may. -/
theorem matches_iff (site : Site splice f graph) (hf : f.Consistent)
    (orderly : ∀ b : BlockId, b.index < f.blocks.size → f.Orderly b)
    (slots : ∀ b ∈ splice.region.blocks, b.index < f.blocks.size)
    (one : ∀ copy ∈ copies, ∀ i i' j, (i, j) ∈ copy.instMap → (i', j) ∈ copy.instMap → i = i')
    (row : InRow splice f.blocks.size wanted RankedBefore { s with func := made }
      splice.region.exiting copies t) :
    t.func.Matches ↔ (copies ≠ [] → splice.region.NamesInside f splice.held splice.entry) := by
  have last := slots _ site.enclosed.exiting
  have fits : t.func.Matches ↔ made.Matches ∧ _ := row.matches_iff site multiplies.consistent
    (multiplies.entry hf site.start) multiplies.carries.blocks
    (fun b => multiplies.orderly hf orderly slots)
    (fun copy hc => multiplies.awaits site hf hc (one copy hc))
    (fun copy hc b hb => ((multiplies.twins copy hc).fresh b hb).2) multiplies.apart
    ((multiplies.carries.leads hf last).trans site.leads)
    ((multiplies.comes_iff site hf).mpr (site.comes_blocks site.enclosed.exiting))
    (.inl site.enclosed.exiting) (fun copy hc => multiplies.away last hc)
    fun b _ => multiplies.comes_iff site hf
  rw [fits]
  exact and_iff_right (multiplies.fits site hf)

end Multiplies

end Replication

end KernelCoarsening
