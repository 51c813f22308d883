/-
Control that passes a new block on its way.

When a block is put between others, control still goes from one of them to the next, there and then
over the new block.  So it comes to the same blocks as before, around the same blocks:

* `Func.Way`, `Func.Avoids`, `Func.Ends`, `Func.Governs` — ways, ways that do not come to a block,
  ways to an end, and blocks that every way to another one passes;
* `Func.avoids_iff`, `Func.governs_iff` — what this means in the graph;
* `Func.Inserts` — a block lies between others, and control comes where it came;
* `Func.Severs`, `Func.Diverts` — two ways to get there: a block is cut in two, or some blocks come to
  lead to a new block before another one;
* `Func.Severs.matches_phis`, `Func.Diverts.matches_phis` — phis that matched still do;
* `Func.Severs.matches_iff`, `Func.Severs.ends_iff` — exactly when they do if they named the new block
  early, and which ways come to an end.
-/
import KernelCoarsening.Proofs.Flow.Matching

namespace KernelCoarsening

open Operation (redirect mem_map_redirect)

namespace Func

variable {f g : Func} {graph : Graph} {P : BlockId → Prop} {b c h n p x : BlockId}
  {names : List BlockId}

/-- Control can go from one block to another, on from blocks of some kind only. -/
def Way (f : Func) (P : BlockId → Prop) : BlockId → BlockId → Prop :=
  Relation.ReflTransGen fun b c => P b ∧ c ∈ f.leads b

/-- Control can go from one block to another and not come to a third. -/
def Avoids (f : Func) (x b c : BlockId) : Prop := f.Way (· ≠ x) b c ∧ c ≠ x

/-- A way from a block comes to an end of some kind and passes blocks of another kind only. -/
def Ends (f : Func) (K P : BlockId → Prop) (b : BlockId) : Prop :=
  ∃ e, f.leads e = [] ∧ P e ∧ f.Way K b e ∧ K e

/-- Control comes to a block only if it has come to another one. -/
def Governs (f : Func) (h x : BlockId) : Prop := ¬ f.Avoids h f.entry x

theorem goes_iff_way : f.Goes b c ↔ f.Way (fun _ => True) b c := by
  simp only [Goes, Way, true_and]

theorem Way.goes (way : f.Way P b c) : f.Goes b c :=
  Relation.ReflTransGen.mono (fun _ _ => And.right) _ _ way

theorem avoids_iff (hf : f.Consistent) (hg : f.graph = .ok graph) :
    graph.Before x.index b.index c.index ↔ f.Avoids x b c := by
  constructor
  · rintro ⟨nodes, path, away⟩
    generalize hu : b.index = u, hv : c.index = v at path
    induction path generalizing b with
    | stay v =>
      obtain rfl : b = c := BlockId.index_inj.mp (hu.trans hv.symm)
      exact ⟨.refl, fun same => away (by simp [← same, hv])⟩
    | @go u v w nodes edge _ ih =>
      subst hu
      rw [List.mem_cons, not_or] at away
      obtain ⟨way, other⟩ := ih away.2 rfl hv
      exact ⟨.head ⟨fun same => away.1 (congrArg BlockId.index same.symm),
        (hf.mem_next hg (c := ⟨v⟩)).mp edge⟩ way, other⟩
  · rintro ⟨way, other⟩
    refine Relation.ReflTransGen.head_induction_on way ?_ fun step _ before => ?_
    · exact .refl (BlockId.index_inj.not.mpr other)
    · obtain ⟨nodes, path, away⟩ := before
      refine ⟨_, .go ((hf.mem_next hg).mpr step.2) path, ?_⟩
      rw [List.mem_cons, not_or]
      exact ⟨fun same => step.1 (BlockId.index_inj.mp same.symm), away⟩

theorem governs_iff (hf : f.Consistent) (hg : f.graph = .ok graph) :
    graph.Dominates f.entry.index h.index x.index ↔ f.Governs h x := by
  rw [Governs, ← avoids_iff hf hg]
  exact ⟨fun above ⟨nodes, path, away⟩ => away (above nodes path),
    fun none nodes path => by_contra fun away => none ⟨nodes, path, away⟩⟩

/-! ### A block between others -/

/-- No way of a function passes a block. -/
structure Spare (f : Func) (n : BlockId) : Prop where
  code : f.code n = []
  fresh : ∀ b, n ∉ f.leads b
  start : f.entry ≠ n

namespace Spare

variable (spare : f.Spare n)

include spare

theorem ne_of_edge (edge : c ∈ f.leads b) : b ≠ n ∧ c ≠ n := by
  refine ⟨?_, ?_⟩
  · rintro rfl
    simp [leads_of_nil spare.code] at edge
  · rintro rfl
    exact spare.fresh b edge

theorem ne_of_comes (comes : f.Comes b) : b ≠ n := by
  cases comes with
  | refl => exact spare.start
  | tail _ edge => exact (spare.ne_of_edge edge).2

theorem ne_of_names (named : f.Names b names) : b ≠ n := by
  rintro rfl
  obtain ⟨i, inside, -⟩ := named
  simp [spare.code] at inside

end Spare

/-- A block has been put between others.  Where control went from one block to the next, it goes
there or to the new block and on. -/
structure Inserts (f g : Func) (n : BlockId) : Prop extends Spare f n where
  alone : n ∉ g.leads n
  entry : g.entry = f.entry ∨ g.entry = n ∧ ∀ c, c ∈ g.leads n ↔ c = f.entry
  edge : ∀ b c, b ≠ n → c ≠ n → (c ∈ f.leads b ↔ c ∈ g.leads b ∨ n ∈ g.leads b ∧ c ∈ g.leads n)

namespace Inserts

variable (put : f.Inserts g n)

include put

theorem way (new : P n) (way : f.Way P b c) : g.Way P b c := by
  induction way with
  | refl => exact .refl
  | tail _ step ih =>
    obtain ⟨hb, hc⟩ := put.ne_of_edge step.2
    rcases (put.edge _ _ hb hc).mp step.2 with edge | ⟨first, second⟩
    · exact ih.tail ⟨step.1, edge⟩
    · exact (ih.tail ⟨step.1, first⟩).tail ⟨new, second⟩

/-- A way that now leads to a block led there, and a way to the new block led to one before it. -/
theorem of_way (hb : b ≠ n) (way : g.Way P b c) : (c ≠ n → f.Way P b c) ∧
    (c = n → ∃ u, f.Way P b u ∧ P u ∧ u ≠ n ∧ n ∈ g.leads u) := by
  induction way with
  | refl => exact ⟨fun _ => .refl, fun same => absurd same hb⟩
  | @tail u c _ step ih =>
    by_cases last : u = n
    · subst last
      obtain ⟨v, way, hv, other, first⟩ := ih.2 rfl
      refine ⟨fun hc => way.tail ⟨hv, ?_⟩, fun same => ?_⟩
      · exact (put.edge v c other hc).mpr (.inr ⟨first, step.2⟩)
      · exact absurd (same ▸ step.2) put.alone
    · refine ⟨fun hc => (ih.1 last).tail ⟨step.1, ?_⟩, ?_⟩
      · exact (put.edge u c last hc).mpr (.inl step.2)
      · rintro rfl
        exact ⟨u, ih.1 last, step.1, last, step.2⟩

theorem way_iff (new : P n) (hb : b ≠ n) (hc : c ≠ n) : g.Way P b c ↔ f.Way P b c :=
  ⟨fun way => (put.of_way hb way).1 hc, put.way new⟩

theorem way_entry_iff (new : P n) (hb : b ≠ n) : g.Way P g.entry b ↔ f.Way P f.entry b := by
  rcases put.entry with same | ⟨first, next⟩
  · rw [same]
    exact put.way_iff new put.start hb
  · rw [first]
    constructor
    · intro way
      rcases way.cases_head with same | ⟨c, step, rest⟩
      · exact absurd same.symm hb
      · obtain rfl := (next c).mp step.2
        exact (put.way_iff new put.start hb).mp rest
    · exact fun way => .head ⟨new, (next _).mpr rfl⟩ (put.way new way)

theorem goes_iff (hb : b ≠ n) (hc : c ≠ n) : g.Goes b c ↔ f.Goes b c := by
  rw [goes_iff_way, goes_iff_way]
  exact put.way_iff trivial hb hc

theorem comes_iff (hb : b ≠ n) : g.Comes b ↔ f.Comes b := by
  rw [Comes, Comes, goes_iff_way, goes_iff_way]
  exact put.way_entry_iff trivial hb

/-- Control comes to the new block if it starts there, or else from a block that it came to. -/
theorem of_comes (comes : g.Comes n) :
    g.entry = n ∨ ∃ u, f.Comes u ∧ u ≠ n ∧ n ∈ g.leads u := by
  rcases put.entry with same | ⟨first, -⟩
  · rw [Comes, goes_iff_way, same] at comes
    obtain ⟨u, way, -, other, edge⟩ := (put.of_way put.start comes).2 rfl
    exact .inr ⟨u, way.goes, other, edge⟩
  · exact .inl first

theorem avoids_iff (hx : x ≠ n) (hb : b ≠ n) (hc : c ≠ n) : g.Avoids x b c ↔ f.Avoids x b c :=
  and_congr_left fun _ => put.way_iff hx.symm hb hc

theorem governs_iff (hh : h ≠ n) (hx : x ≠ n) : g.Governs h x ↔ f.Governs h x :=
  not_congr (and_congr_left fun _ => put.way_entry_iff hh.symm hx)

end Inserts

/-! ### Cutting a block in two -/

/-- A block has been cut in two.  Where control went from the block, phis name the new block now. -/
structure Severs (f g : Func) (b n : BlockId) : Prop extends Spare f n where
  entry : g.entry = f.entry
  front : g.leads b = [n]
  back : g.leads n = f.leads b
  leads : ∀ c, c ≠ b → c ≠ n → g.leads c = f.leads c
  names : ∀ c names, g.Names c names → ∃ old, f.Names c old ∧
    names = if c ∈ f.leads b then old.map (redirect b n) else old

namespace Severs

variable (cut : f.Severs g b n)

include cut

theorem inserts : f.Inserts g n where
  toSpare := cut.toSpare
  alone := cut.back ▸ cut.fresh b
  entry := .inl cut.entry
  edge u c hu hc := by
    by_cases here : u = b
    · subst here
      simp [cut.front, cut.back, hc]
    · simp [cut.leads u here hu, cut.fresh u]

theorem ne : b ≠ n := by
  rintro rfl
  have := cut.front.symm.trans cut.back
  simp [leads_of_nil cut.code] at this

/-- What leads to the new block is the one in front. -/
theorem mem_leads_new : n ∈ g.leads c ↔ c = b := by
  by_cases here : c = b
  · simp [here, cut.front]
  · by_cases new : c = n
    · simp [new, cut.back, cut.fresh b, cut.ne.symm]
    · simp [cut.leads c here new, cut.fresh c, here]

theorem comes_new (comes : f.Comes b) : g.Comes n :=
  ((cut.inserts.comes_iff cut.ne).mpr comes).tail (cut.mem_leads_new.mpr rfl)

/-- Control comes to the new block from the one in front. -/
theorem comes_new_iff : g.Comes n ↔ f.Comes b := by
  refine ⟨fun comes => ?_, cut.comes_new⟩
  rcases cut.inserts.of_comes comes with first | ⟨u, hu, -, edge⟩
  · exact absurd (cut.entry.symm.trans first) cut.start
  · exact cut.mem_leads_new.mp edge ▸ hu

/-- A way on from the block is one from the new block. -/
theorem goes_new (goes : f.Goes b c) (other : c ≠ b) : g.Goes n c := by
  rw [goes_iff_way] at goes ⊢
  rcases goes.cases_head with same | ⟨d, step, rest⟩
  · exact absurd same.symm other
  · exact .head ⟨trivial, cut.back ▸ step.2⟩ (cut.inserts.way trivial rest)

/-- A way on from the block that does not come to a third one is one from the new block. -/
theorem avoids_new (way : f.Avoids x b c) (hx : x ≠ n) (other : c ≠ b) : g.Avoids x n c := by
  refine ⟨?_, way.2⟩
  rcases way.1.cases_head with same | ⟨d, step, rest⟩
  · exact absurd same.symm other
  · exact .head ⟨hx.symm, cut.back ▸ step.2⟩ (cut.inserts.way hx.symm rest)

/-- A way that does not come to the new block did not come to the one in front. -/
theorem avoids_of_new (way : g.Avoids n c x) (other : x ≠ b) : f.Avoids b c x := by
  refine ⟨?_, other⟩
  refine (Relation.ReflTransGen.head_induction_on way.1
    (motive := fun u _ => f.Way (· ≠ b) u x ∧ u ≠ n) ⟨.refl, way.2⟩ ?_).1
  rintro u v ⟨hu, edge⟩ - ⟨rest, hv⟩
  have here : u ≠ b := by
    rintro rfl
    exact hv (by simpa [cut.front] using edge)
  exact ⟨.head ⟨here, cut.leads u here hu ▸ edge⟩ rest, hu⟩

/-- What governs the block governs the new one. -/
theorem governs_new (above : f.Governs h b) (hh : h ≠ n) : g.Governs h n := by
  rintro ⟨way, -⟩
  rcases way.cases_tail with same | ⟨u, rest, step⟩
  · exact cut.start (cut.entry ▸ same).symm
  · obtain rfl := cut.mem_leads_new.mp step.2
    exact (cut.inserts.governs_iff hh cut.ne).mpr above ⟨rest, step.1⟩

/-- What the block governed the new one governs. -/
theorem new_governs (above : f.Governs b x) (other : x ≠ b) : g.Governs n x :=
  fun way => above (cut.avoids_of_new (cut.entry ▸ way) other)

/-- The phis match if they did, and if those that named the new block early are in blocks that
control goes to from it. -/
theorem matches_of_early (phis : f.Matches) (early : f.Comes b → ∀ c old, f.Names c old →
    f.Comes c → n ∈ old → c ∈ f.leads b) : g.Matches := by
  intro c names named comes p hp
  obtain ⟨old, before, rfl⟩ := cut.names c names named
  have hc := cut.ne_of_names before
  have comes := (cut.inserts.comes_iff hc).mp comes
  have fits := phis c old before comes
  by_cases last : p = n
  · -- control comes to the new block from the one in front, which the phi named
    subst last
    have from' := cut.comes_new_iff.mp hp
    have named := fits b from'
    have early := early from' c old before comes
    rw [cut.back]
    split
    · rename_i edge
      simp [mem_map_redirect, named, edge]
    · rename_i edge
      simpa [edge] using mt early edge
  · have fits := fits p ((cut.inserts.comes_iff last).mp hp)
    by_cases here : p = b
    · subst here
      rw [cut.front, List.mem_singleton]
      split
      · simp [mem_map_redirect, hc, cut.ne]
      · rename_i edge
        simp [fits, edge, hc]
    · rw [cut.leads p here last, ← fits]
      split
      · simp [mem_map_redirect, here, last]
      · rfl

/-- The phis match if they did and did not name the new block. -/
theorem matches_phis (phis : f.Matches) (unnamed : ∀ c old, f.Names c old → n ∉ old) : g.Matches :=
  cut.matches_of_early phis fun _ c old named _ new => absurd new (unnamed c old named)

/-- The phis match exactly if those that named the new block early are in blocks that control goes
to from it. -/
theorem matches_iff (phis : f.Matches) (kept : ∀ c old, f.Names c old →
      g.Names c (if c ∈ f.leads b then old.map (redirect b n) else old)) :
    g.Matches ↔ (f.Comes b → ∀ c old, f.Names c old → f.Comes c → n ∈ old → c ∈ f.leads b) := by
  refine ⟨fun all from' c old named comes new => ?_, cut.matches_of_early phis⟩
  by_contra edge
  have still := kept c old named
  rw [if_neg edge] at still
  have comes' := (cut.inserts.comes_iff (cut.ne_of_names named)).mpr comes
  rw [all c old still comes' n (cut.comes_new from'), cut.back] at new
  exact edge new

/-- A way comes to an end exactly if it did, where the new block counts as the one in front. -/
theorem ends_iff {K Q : BlockId → Prop} (new : K n) (hy : x ≠ n)
    (old : ∀ e, e ≠ n → (Q e ↔ P e)) (last : Q n ↔ P b) : g.Ends K Q x ↔ f.Ends K P x := by
  constructor
  · rintro ⟨e, none, hQ, way, hK⟩
    by_cases behind : e = n
    · subst behind
      obtain ⟨u, way, hu, edge⟩ : ∃ u, g.Way K x u ∧ K u ∧ e ∈ g.leads u := by
        rcases way.cases_tail with same | ⟨u, way, step⟩
        · exact absurd same.symm hy
        · exact ⟨u, way, step⟩
      obtain rfl := cut.mem_leads_new.mp edge
      exact ⟨u, cut.back ▸ none, last.mp hQ, (cut.inserts.way_iff new hy cut.ne).mp way, hu⟩
    · have other : e ≠ b := by
        rintro rfl
        simp [cut.front] at none
      exact ⟨e, cut.leads e other behind ▸ none, (old e behind).mp hQ,
        (cut.inserts.way_iff new hy behind).mp way, hK⟩
  · rintro ⟨e, none, hP, way, hK⟩
    by_cases here : e = b
    · subst here
      have front := (cut.inserts.way_iff new hy cut.ne).mpr way
      exact ⟨n, cut.back.trans none, last.mpr hP,
        front.tail ⟨hK, cut.mem_leads_new.mpr rfl⟩, new⟩
    · have other : e ≠ n := by
        rintro rfl
        rcases way.cases_tail with same | ⟨u, -, step⟩
        · exact hy same.symm
        · exact cut.fresh u step.2
      exact ⟨e, (cut.leads e here other).trans none, (old e other).mpr hP,
        (cut.inserts.way_iff new hy other).mpr way, hK⟩

end Severs

/-! ### Leading to a new block -/

/-- Some blocks lead to a new block instead of another one, and the new block leads to that one.
Each phi there has been divided: of the blocks that it named, the new block has those that lead to
it now. -/
structure Diverts (f g : Func) (x n : BlockId) (members : List BlockId) : Prop
    extends Spare f n where
  other : x ≠ n
  entry : g.entry = if f.entry = x then n else f.entry
  new : g.leads n = [x]
  leads : ∀ c, c ≠ n → g.leads c =
    if c ∈ members then (f.leads c).map (redirect x n) else f.leads c
  names_new : ∀ names, g.Names n names →
    ∃ old, f.Names x old ∧ names = old.filter (· ∈ members)
  names_here : ∀ names, g.Names x names →
    ∃ old, f.Names x old ∧ names = old.filter (· ∉ members) ++ [n]
  names : ∀ c names, c ≠ x → c ≠ n → g.Names c names → f.Names c names

namespace Diverts

variable {members : List BlockId} (way : f.Diverts g x n members)

include way

/-- What leads to the new block is what led to the other one and is to be led elsewhere. -/
theorem mem_leads_new : n ∈ g.leads c ↔ c ∈ members ∧ x ∈ f.leads c ∧ c ≠ n := by
  by_cases new : c = n
  · simp [new, way.new, way.other.symm]
  · rw [way.leads c new]
    split
    · rename_i inside
      simp [mem_map_redirect, way.fresh c, inside, new]
    · rename_i outside
      simp [way.fresh c, outside]

/-- What leads to the other block is the new one, and what is not led elsewhere. -/
theorem mem_leads_here : x ∈ g.leads c ↔ c = n ∨ c ∉ members ∧ x ∈ f.leads c := by
  by_cases new : c = n
  · simp [new, way.new]
  · rw [way.leads c new]
    split
    · rename_i inside
      simp [mem_map_redirect, way.other, inside, new]
    · rename_i outside
      simp [outside, new]

theorem mem_leads_of_ne {d : BlockId} (hx : d ≠ x) (hn : d ≠ n) : d ∈ g.leads c ↔ d ∈ f.leads c := by
  by_cases new : c = n
  · simp [new, way.new, hx, leads_of_nil way.code]
  · rw [way.leads c new]
    split
    · simp [mem_map_redirect, hx, hn]
    · rfl

theorem inserts : f.Inserts g n where
  toSpare := way.toSpare
  alone := by simp [way.new, way.other.symm]
  entry := by
    rw [way.entry]
    split
    · rename_i first
      simp [way.new, first]
    · exact .inl rfl
  edge u c hu hc := by
    by_cases here : c = x
    · subst here
      simp [way.mem_leads_here, way.mem_leads_new, way.new, hu]
      tauto
    · simp [way.mem_leads_of_ne here hc, way.new, here]

/-- A way that did not come to the other block does not come to the new one. -/
theorem avoids_new (old : f.Avoids x b c) (hb : b ≠ n) : g.Avoids n b c := by
  suffices all : c ≠ x → g.Way (· ≠ n) b c ∧ c ≠ n from all old.2
  refine old.1.rec (fun _ => ⟨.refl, hb⟩) fun _ step ih other => ?_
  obtain ⟨rest, hu⟩ := ih step.1
  have new := (way.ne_of_edge step.2).2
  exact ⟨rest.tail ⟨hu, (way.mem_leads_of_ne other new).mpr step.2⟩, new⟩

/-- The phis match if they did and did not name the new block. -/
theorem matches_phis (phis : f.Matches) (unnamed : ∀ c old, f.Names c old → n ∉ old) : g.Matches := by
  intro c names named comes p hp
  have old : p ≠ n → f.Comes p := fun other => (way.inserts.comes_iff other).mp hp
  by_cases new : c = n
  · subst new
    obtain ⟨before, named', rfl⟩ := way.names_new names named
    -- control comes to the new block if it came to the other one, from some block or at the start
    have here : f.Comes x := by
      rcases way.inserts.of_comes comes with first | ⟨u, hu, -, edge⟩
      · rw [way.entry] at first
        split at first
        · rename_i same
          exact same ▸ .refl
        · exact absurd first way.start
      · exact hu.tail (way.mem_leads_new.mp edge).2.1
    by_cases last : p = c
    · subst last
      simp [unnamed x before named', way.inserts.alone]
    · simp [way.mem_leads_new, last, phis x before named' here p (old last), and_comm]
  have comes := (way.inserts.comes_iff new).mp comes
  by_cases here : c = x
  · subst here
    obtain ⟨before, named', rfl⟩ := way.names_here names named
    by_cases last : p = n
    · simp [last, way.new]
    · simp [way.mem_leads_here, last, phis c before named' comes p (old last), and_comm]
  · have named := way.names c names here new named
    rw [way.mem_leads_of_ne here new]
    by_cases last : p = n
    · subst last
      simp [unnamed c names named, leads_of_nil way.code]
    · exact phis c names named comes p (old last)

end Diverts

end Func

end KernelCoarsening
