/-
What a trip count counts.

In every round of a counted loop the phi is one step further, and the branch that has been
recognised leaves the loop in the round whose tested value fails the test.  If no other edge leaves
the loop, the number of rounds is known:

* `Func.Sited` — where the instructions of a counter stand;
* `Func.InRound` — what is known in the middle of a round;
* `Func.Traverses.count_latch` — how often the latch is executed;
* `Func.trip_count_exact` — this is the trip count, but for the times that control goes on from the
  latch inside the loop;
* `Func.trip_count_inexact` — loops whose latch is executed more often.
-/
import KernelCoarsening.Proofs.Flow.Counter
import KernelCoarsening.Proofs.Flow.LoopBodies
import KernelCoarsening.Proofs.Flow.Passage
import KernelCoarsening.Proofs.Flow.Scope
import KernelCoarsening.Proofs.Ir.Assembly
import Mathlib

namespace KernelCoarsening

namespace Graph

variable {g : Graph} {root a d v : Nat} {nodes : List Nat}

/-- A way from one dominator passes those that come after it. -/
theorem Dominates.mem_of_path (above : g.Dominates root a d) (below : g.Dominates root d v)
    (reached : g.Reaches root a) (p : g.Path a v nodes) : d ∈ nodes := by
  by_contra out
  have up : g.Dominates root d a := by
    intro front q
    rcases List.mem_append.mp (below _ (q.append p)) with mem | mem
    · exact mem
    · exact absurd (List.mem_of_mem_tail mem) out
  obtain rfl : a = d := above.antisymm up reached
  exact out p.first_mem

theorem Dominates.reaches (h : g.Dominates root d v) (reached : g.Reaches root v) :
    g.Reaches root d := by
  obtain ⟨nodes, p⟩ := reached
  obtain ⟨front, -, q, -, -⟩ := p.split (h nodes p)
  exact ⟨front, q⟩

end Graph

/-! ### The change of the phi -/

namespace Operation

variable {op : Operation} {phi : InstId} {step : Int64}

theorem mem_usedInsts_of_stepOf? (h : op.stepOf? phi = some step) :
    phi ∈ op.usedInsts ∧ op.isPhi = false := by
  unfold stepOf? at h
  split at h
  all_goals first
    | contradiction
    | (split at h
       · rename_i same
         simp [usedInsts, operands, Value.inst?, isPhi, same]
       · contradiction)

/-- Over unbounded integers, the phi is changed by the step, if that has a word. -/
theorem eq_add_of_mayGive {s : Numbers} {n : Int} (h : op.stepOf? phi = some step)
    (fits : ∀ d, op = .binary .sub (.inst phi) (.const d) → IsWord (-d.toInt))
    (gives : op.MayGive s True n) : n = s phi + step.toInt := by
  unfold stepOf? at h
  split at h
  · split at h
    · rename_i same
      obtain ⟨a, b, rfl, rfl, rfl⟩ := gives trivial
      obtain rfl := Option.some.inj h
      rw [same]
    · contradiction
  · split at h
    · rename_i same
      obtain ⟨a, b, rfl, rfl, rfl⟩ := gives trivial
      obtain rfl := Option.some.inj h
      rw [same, add_comm]
    · contradiction
  · split at h
    · rename_i same
      obtain ⟨a, b, rfl, rfl, rfl⟩ := gives trivial
      obtain rfl := Option.some.inj h
      rw [toInt_neg_of_isWord (fits _ (by rw [same])), same, sub_eq_add_neg]
    · contradiction
  · contradiction

end Operation

/-! ### Where the instructions of a counter stand -/

/-- The test of a counter as it stands in the code. -/
structure TestSite where
  cond : InstId
  /-- The comparison as it is written. -/
  raw : Comparison
  onTrue : BlockId
  onFalse : BlockId
  /-- The block that changes the phi. -/
  changing : BlockId
  /-- The block that compares. -/
  comparing : BlockId

namespace Func

variable {f : Func} {g : Graph} {lp : Loop} {c : Counter} {site : TestSite}

/-- What an instruction reads is as it will be at the end of the block. -/
def Settled (f : Func) (b : BlockId) (i x : InstId) : Prop :=
  ∃ before after, f.code b = before ++ i :: after ∧ (x ∈ before ∨ x ∉ f.code b)

/-- The instructions of a counter stand where their values are there when they are read. -/
structure Sited (f : Func) (g : Graph) (lp : Loop) (c : Counter) (site : TestSite) : Prop where
  changes : f.blockOf c.next = some site.changing
  compares : f.blockOf site.cond = some site.comparing
  phi_settled : f.Settled site.changing c.next c.phi
  tested_settled : f.Settled site.comparing site.cond c.tested
  header_changing : g.Dominates f.entry.index lp.header.index site.changing.index
  changing_latch : g.Dominates f.entry.index site.changing.index c.latch.index
  header_comparing : g.Dominates f.entry.index lp.header.index site.comparing.index
  comparing_tester : g.Dominates f.entry.index site.comparing.index (c.tester lp).index
  changing_comparing : c.late = true →
    g.Dominates f.entry.index site.changing.index site.comparing.index
  compare : f.operation site.cond = .ok (.compare site.raw (.inst c.tested) (.const c.bound))
  branch : ∃ term, f.terminator (c.tester lp) = .ok (some term) ∧
    f.operation term = .ok (.branch (.inst site.cond) site.onTrue site.onFalse)
  ways : site.onTrue ∈ lp.blocks ∧ site.onFalse ∉ lp.blocks ∧ c.rel = site.raw ∨
    site.onTrue ∉ lp.blocks ∧ site.onFalse ∈ lp.blocks ∧ c.rel = site.raw.inverse

theorem exitTest?_eq_some {b : BlockId} {tested : InstId} {rel : Comparison} {bound : Int64}
    (h : f.exitTest? lp b tested = .ok (some (rel, bound))) :
    ∃ term cond raw onTrue onFalse, f.terminator b = .ok (some term) ∧
      f.operation term = .ok (.branch (.inst cond) onTrue onFalse) ∧
      f.operation cond = .ok (.compare raw (.inst tested) (.const bound)) ∧
      (onTrue ∈ lp.blocks ∧ onFalse ∉ lp.blocks ∧ rel = raw ∨
        onTrue ∉ lp.blocks ∧ onFalse ∈ lp.blocks ∧ rel = raw.inverse) := by
  unfold exitTest? at h
  obtain ⟨found, hterm, h⟩ := bind_eq_ok_iff.mp h
  split at h
  · rename_i term
    obtain ⟨op, hop, h⟩ := bind_eq_ok_iff.mp h
    split at h
    · rename_i cond onTrue onFalse
      obtain ⟨op, hcond, h⟩ := bind_eq_ok_iff.mp h
      split at h
      · rename_i raw v bound'
        split at h
        · simp [pure, Except.pure] at h
        · rename_i same
          rw [ne_eq, not_not] at same
          rw [same] at hcond
          refine ⟨term, cond, raw, onTrue, onFalse, hterm, hop, ?_⟩
          split at h
          · rename_i inside outside
            obtain ⟨rfl, rfl⟩ : raw = rel ∧ bound' = bound := by simpa [pure, Except.pure] using h
            exact ⟨hcond, .inl ⟨by simpa using inside, by simpa using outside, rfl⟩⟩
          · rename_i outside inside
            obtain ⟨rfl, rfl⟩ : raw.inverse = rel ∧ bound' = bound := by
              simpa [pure, Except.pure] using h
            exact ⟨hcond, .inr ⟨by simpa using outside, by simpa using inside, rfl⟩⟩
          · simp [pure, Except.pure] at h
      · simp [pure, Except.pure] at h
    · simp [pure, Except.pure] at h
  · simp [pure, Except.pure] at h

/-- What a read of a reachable block finds. -/
theorem settled_of_scoped (consistent : f.Consistent) (inScope : f.Scoped g) {b : BlockId}
    {i x : InstId} {op : Operation} (reached : g.Reaches f.entry.index b.index)
    (home : f.blockOf i = some b) (hop : f.operation i = .ok op) (plain : op.isPhi = false)
    (reads : x ∈ op.usedInsts) : f.Settled b i x ∧
      ∃ source, f.blockOf x = some source ∧ g.Dominates f.entry.index source.index b.index := by
  have mem := consistent.mem_code.mpr home
  obtain ⟨before, after, code⟩ := List.append_of_mem mem
  obtain ⟨block, hblock, insts⟩ := exists_block (slot_of_mem_code mem)
  have available := available_of_scoped inScope reached hblock (insts.trans code) hop plain reads
  rcases (available_iff_mem consistent code).mp available with early | ⟨source, other, place, dom⟩
  · refine ⟨⟨before, after, code, .inl early⟩, b, ?_, .refl g f.entry.index b.index⟩
    exact consistent.mem_code.mp (code ▸ List.mem_append_left _ early)
  · refine ⟨⟨before, after, code, .inr fun here => other ?_⟩, source, place, dom⟩
    simpa [place] using consistent.mem_code.mp here

theorem mem_of_incomingFor? {incoming : List (Value × BlockId)} {b : BlockId} {v : Value}
    (h : incomingFor? incoming b = some v) : (v, b) ∈ incoming := by
  obtain ⟨entry, found, rfl⟩ := Option.map_eq_some_iff.mp h
  have same : entry.2 = b := by simpa using List.find?_some found
  exact same ▸ List.mem_of_find?_eq_some found

section

variable (consistent : f.Consistent) (hg : f.graph = .ok g)
  (mem : lp ∈ (f.loops g (f.dominators g)).loops)

include consistent hg mem

theorem natural_of_mem_loops : f.IsExact g lp ∧
    g.NaturalLoop f.entry.index lp.header.index (fun v => (⟨v⟩ : BlockId) ∈ lp.blocks) ∧
      f.entry.index < g.size := by
  have layout := consistent.mem_layout_iff
  have entry := entry_lt_of_layout hg layout (isDeclaration_of_mem_loops mem)
  exact ⟨exact_of_mem_loops hg layout consistent.layout_nodup mem,
    naturalLoop_of_mem_loops entry (isDeclaration_of_mem_loops mem) mem, entry⟩

variable (found : f.counter? g lp = .ok (some c))

include found

/-- The latch of a counter closes the loop. -/
theorem latch_closes : f.Closes g c.latch lp.header ∧ c.latch ∈ lp.blocks ∧
    ∀ b, b ∈ lp.blocks → lp.header.index ∈ g.next b.index → b = c.latch := by
  obtain ⟨exact, natural, -⟩ := natural_of_mem_loops consistent hg mem
  have latches := (counts_of_counter? found).1
  have closes : f.Closes g c.latch lp.header := (exact.mem_latches _).mp (by simp [latches])
  refine ⟨closes, (exact.mem_blocks _).mpr ?_, fun b inside edge => ?_⟩
  · by_cases same : c.latch = lp.header
    · exact .inl same
    · exact .inr ⟨closes.reached, c.latch, by simp [latches],
        .refl (BlockId.index_inj.not.mpr same)⟩
  · have : b ∈ lp.latches := (exact.mem_latches b).mpr
      ⟨natural.reached (v := b.index) inside, edge, natural.dominates (v := b.index) inside⟩
    simpa [latches] using this

theorem tester_mem : c.tester lp ∈ lp.blocks := by
  unfold Counter.tester
  split
  · exact (latch_closes consistent hg mem found).2.1
  · exact (natural_of_mem_loops consistent hg mem).2.1.head

omit hg mem in
/-- The phi of a counter stands at the beginning of the header. -/
theorem phi_of_counter (flawless : f.firstFlaw? = .ok none) :
    ∃ phis body last, f.outline.Shape lp.header phis body last ∧ c.phi ∈ phis := by
  obtain ⟨-, -, ⟨phis, hphis, mem⟩, -⟩ := counts_of_counter? found
  obtain ⟨block, hblock, -⟩ := bind_eq_ok_iff.mp hphis
  obtain ⟨phis', body, last, shape⟩ :=
    (formed_of_flawless consistent flawless).formed lp.header (lt_of_block hblock)
  obtain rfl : phis' = phis := by simpa [phis_of_shape shape] using hphis
  exact ⟨phis', body, last, shape, mem⟩

variable (flawless : f.firstFlaw? = .ok none) (inScope : f.Scoped g)

include flawless inScope

/-- The value for the next round is there at the end of the latch. -/
theorem exists_changing : ∃ b, f.blockOf c.next = some b ∧
    g.Dominates f.entry.index b.index c.latch.index := by
  obtain ⟨-, natural, entry⟩ := natural_of_mem_loops consistent hg mem
  obtain ⟨closes, -, -⟩ := latch_closes consistent hg mem found
  obtain ⟨phis, body, last, shape, phiMem⟩ := phi_of_counter consistent found flawless
  obtain ⟨-, -, -, counts⟩ := counts_of_counter? found
  obtain ⟨incoming, hphi, -, next⟩ := counts.incoming
  obtain ⟨block, hblock, insts⟩ := exists_block (slot_of_shape shape)
  obtain ⟨place, here⟩ : ∃ place : Nat, block.insts[place]? = some c.phi := by
    rw [insts]
    exact List.getElem?_of_mem (shape.mem_of_phi phiMem)
  obtain ⟨latchBlock, hlatch, -⟩ := exists_block (f := f) (b := c.latch)
    (size_graph hg ▸ closes.reached.lt_size entry)
  have reads := inScope lp.header block place c.phi _ (natural.reached natural.head) hblock here hphi
  obtain ⟨b, home, same | dom⟩ := blockOf_of_available
    (reads c.next c.latch (mem_of_incomingFor? next) latchBlock hlatch)
  · exact ⟨b, home, same ▸ .refl g f.entry.index b.index⟩
  · exact ⟨b, home, dom⟩

theorem exists_sited : ∃ site, f.Sited g lp c site := by
  obtain ⟨-, natural, entry⟩ := natural_of_mem_loops consistent hg mem
  obtain ⟨closes, -, -⟩ := latch_closes consistent hg mem found
  obtain ⟨phis, body, last, shape, phiMem⟩ := phi_of_counter consistent found flawless
  obtain ⟨-, -, -, counts⟩ := counts_of_counter? found
  have tester := natural.reached (v := (c.tester lp).index) (tester_mem consistent hg mem found)
  have phiHome : f.blockOf c.phi = some lp.header := consistent.mem_code.mp (shape.mem_of_phi phiMem)
  obtain ⟨changing, nextHome, changing_latch⟩ :=
    exists_changing consistent hg mem found flawless inScope
  -- the phi is there where it is changed
  obtain ⟨stepOp, hstep, isStep⟩ := counts.step
  obtain ⟨readsPhi, plain⟩ := Operation.mem_usedInsts_of_stepOf? isStep
  obtain ⟨phi_settled, source, phiHome', header_changing⟩ := settled_of_scoped consistent inScope
    (changing_latch.reaches closes.reached) nextHome hstep plain readsPhi
  obtain rfl : lp.header = source := Option.some.inj (phiHome.symm.trans phiHome')
  -- the condition is there where the tester branches
  obtain ⟨term, cond, raw, onTrue, onFalse, hterm, hbranch, hcompare, ways⟩ :=
    exitTest?_eq_some counts.test
  have termHome : f.blockOf term = some (c.tester lp) := by
    obtain ⟨phis, body, last, shape⟩ := (formed_of_flawless consistent flawless).formed
      (c.tester lp) ((tester.lt_size entry).trans_eq (size_graph hg))
    obtain rfl : last = term := by simpa [terminator_of_shape shape] using hterm
    exact consistent.mem_code.mp shape.last_mem
  obtain ⟨-, comparing, condHome, comparing_tester⟩ := settled_of_scoped consistent inScope tester
    termHome hbranch rfl (x := cond) (by simp [Operation.usedInsts, Operation.operands, Value.inst?])
  -- what is tested is there where it is compared
  obtain ⟨tested_settled, home, testedHome, home_comparing⟩ := settled_of_scoped consistent inScope
    (comparing_tester.reaches tester) condHome hcompare rfl (x := c.tested)
    (by simp [Operation.usedInsts, Operation.operands, Value.inst?])
  refine ⟨⟨cond, raw, onTrue, onFalse, changing, comparing⟩, nextHome, condHome, phi_settled,
    tested_settled, header_changing, changing_latch, ?_, comparing_tester, fun late => ?_, hcompare,
    ⟨term, hterm, hbranch⟩, ways⟩
  · unfold Counter.tested at testedHome
    split at testedHome
    · obtain rfl : changing = home := Option.some.inj (nextHome.symm.trans testedHome)
      exact header_changing.trans home_comparing
    · obtain rfl : lp.header = home := Option.some.inj (phiHome.symm.trans testedHome)
      exact home_comparing
  · rw [Counter.tested, if_pos late] at testedHome
    obtain rfl : changing = home := Option.some.inj (nextHome.symm.trans testedHome)
    exact home_comparing

end

end Func

/-! ### One round -/

/-- The number that the counter's test compares in a round. -/
def Counter.testedIn (c : Counter) (k : Nat) : Int := c.first.toInt + k * c.step.toInt

/-- No number that is computed for a trip count leaves 64 bits. -/
structure Counter.Fits (f : Func) (c : Counter) : Prop where
  count : CountFits c.first c.step c.rel c.bound
  change : ∀ d, f.operation c.next = .ok (.binary .sub (.inst c.phi) (.const d)) → IsWord (-d.toInt)

/-- Where the step is added, there is no step to negate. -/
theorem Counter.fits_of_add {f : Func} {c : Counter} {l r : Value}
    (added : f.operation c.next = .ok (.binary .add l r))
    (count : CountFits c.first c.step c.rel c.bound) : c.Fits f :=
  ⟨count, fun d subtracted => by simp [added] at subtracted⟩

/-- The number of times that control goes on from a latch inside the loop, elsewhere than to the
header. -/
def innerTurns (latch header : BlockId) : List BlockId → Nat
  | a :: b :: rest => (if a = latch ∧ b ≠ header then 1 else 0) + innerTurns latch header (b :: rest)
  | _ => 0

namespace Func

variable {f : Func} {g : Graph} {lp : Loop} {c : Counter} {site : TestSite} {k : Nat}
  {round : List Nat} {s s' : Numbers} {source b : BlockId}

/-- What is known when the blocks `round` have been passed in a round: the phi is `k` steps from its
start, the value for the next round is one step further, and the condition says whether the test
holds. -/
structure InRound (c : Counter) (site : TestSite) (k : Nat) (round : List Nat) (s : Numbers) :
    Prop where
  phi : s c.phi = c.start.toInt + k * c.step.toInt
  next : site.changing.index ∈ round → s c.next = c.start.toInt + (k + 1 : Nat) * c.step.toInt
  cond : site.comparing.index ∈ round →
    s site.cond = if site.raw.Relates (c.testedIn k) c.bound.toInt then 1 else 0

theorem eq_home_of_mem_code (consistent : f.Consistent) {i : InstId} {home : BlockId}
    (place : f.blockOf i = some home) : i ∈ f.code b ↔ b = home := by
  rw [consistent.mem_code, place]
  simp [eq_comm]

/-- One more block of a round. -/
theorem Sited.visit (sited : f.Sited g lp c site) (consistent : f.Consistent)
    (counts : f.CountsBy lp c) (fits : c.Fits f) (signed : c.rel.isUnsigned = false)
    {phis body : List InstId} {last : InstId} (shape : f.outline.Shape b phis body last)
    (reached : g.Reaches f.entry.index lp.header.index)
    (way : g.Path lp.header.index b.index (round ++ [b.index]))
    (next : site.changing.index ∈ round →
      s c.next = c.start.toInt + (k + 1 : Nat) * c.step.toInt)
    (cond : site.comparing.index ∈ round →
      s site.cond = if site.raw.Relates (c.testedIn k) c.bound.toInt then 1 else 0)
    (visit : f.Visit c.next source b s s') (phi : s' c.phi = c.start.toInt + k * c.step.toInt) :
    InRound c site k (round ++ [b.index]) s' := by
  -- the value for the next round is computed here, or it was there before
  have next' : site.changing.index ∈ round ++ [b.index] →
      s' c.next = c.start.toInt + (k + 1 : Nat) * c.step.toInt := by
    intro passed
    by_cases here : b = site.changing
    · subst here
      obtain ⟨op, hop, isStep⟩ := counts.step
      obtain ⟨before, after, code, settled⟩ := sited.phi_settled
      obtain ⟨mid, gives, kept⟩ := visit.value consistent shape code hop
        (Operation.mem_usedInsts_of_stepOf? isStep).2
      have sum := Operation.eq_add_of_mayGive isStep
        (fun d same => fits.change d (same ▸ hop)) (by simpa using gives)
      rw [sum, ← kept c.phi settled, phi]
      push_cast
      ring
    · rw [visit.keeps shape ((eq_home_of_mem_code consistent sited.changes).not.mpr here)]
      refine next ?_
      simpa [BlockId.index_inj, Ne.symm here] using passed
  refine ⟨phi, next', fun passed => ?_⟩
  by_cases here : b = site.comparing
  · subst here
    obtain ⟨before, after, code, settled⟩ := sited.tested_settled
    obtain ⟨mid, gives, kept⟩ := visit.value consistent shape code sited.compare rfl
    have raw : site.raw.isUnsigned = false := by
      rcases sited.ways with ⟨-, -, rel⟩ | ⟨-, -, rel⟩
      · rw [← rel]
        exact signed
      · have := signed
        rw [rel] at this
        revert this
        cases site.raw <;> simp [Comparison.inverse, Comparison.isUnsigned]
    obtain ⟨m, n, rfl, rfl, holds⟩ := gives raw
    -- what is compared is the phi, or the value for the next round, which has been computed
    have tested : s' c.tested = c.testedIn k := by
      unfold Counter.tested Counter.testedIn Counter.first
      split
      · rename_i late
        rw [next' ((sited.header_changing).mem_of_path (sited.changing_comparing late) reached way),
          counts.second]
        push_cast
        ring
      · exact phi
    rw [holds, ← kept c.tested settled, tested]
  · rw [visit.keeps shape ((eq_home_of_mem_code consistent sited.compares).not.mpr here)]
    refine cond ?_
    simpa [BlockId.index_inj, Ne.symm here] using passed

namespace Sited

variable (sited : f.Sited g lp c site) (reached : g.Reaches f.entry.index lp.header.index)

include sited reached

/-- At the end of a round the value for the next one is known. -/
theorem next_eq (way : g.Path lp.header.index c.latch.index round)
    (known : InRound c site k round s) : s c.next = c.start.toInt + (k + 1 : Nat) * c.step.toInt :=
  known.next (sited.header_changing.mem_of_path sited.changing_latch reached way)

/-- From the tester, control stays in the loop exactly if the test holds. -/
theorem stays_iff {d : BlockId} (way : g.Path lp.header.index (c.tester lp).index round)
    (known : InRound c site k round s) (proceeds : f.Proceeds s (c.tester lp) d) :
    d ∈ lp.blocks ↔ c.rel.Relates (c.testedIn k) c.bound.toInt := by
  have cond := known.cond
    (sited.header_comparing.mem_of_path sited.comparing_tester reached way)
  obtain ⟨term, hterm, hbranch⟩ := sited.branch
  obtain ⟨term', op, hterm', hop, leads⟩ := proceeds
  obtain rfl : term = term' := by simpa [hterm] using hterm'
  obtain rfl : _ = op := Except.ok.inj (hbranch.symm.trans hop)
  obtain ⟨n, rfl, rfl⟩ := leads
  rw [cond]
  by_cases holds : site.raw.Relates (c.testedIn k) c.bound.toInt
  · rcases sited.ways with ⟨inside, outside, rel⟩ | ⟨outside, inside, rel⟩
    · simpa [holds, rel] using inside
    · simpa [holds, rel] using outside
  · rcases sited.ways with ⟨inside, outside, rel⟩ | ⟨outside, inside, rel⟩
    · simpa [holds, rel] using outside
    · simpa [holds, rel] using inside

end Sited

section

variable (consistent : f.Consistent) (flawless : f.firstFlaw? = .ok none) (hg : f.graph = .ok g)
  (mem : lp ∈ (f.loops g (f.dominators g)).loops) (found : f.counter? g lp = .ok (some c))
  (sited : f.Sited g lp c site) (fits : c.Fits f) (signed : c.rel.isUnsigned = false)

include consistent flawless hg mem found sited fits signed

/-- The first block of a round. -/
theorem inRound_header (visit : f.Visit c.next source lp.header s s')
    (arrives : source = c.preheader ∧ k = 0 ∨
      source = c.latch ∧ s c.next = c.start.toInt + k * c.step.toInt) :
    InRound c site k [lp.header.index] s' := by
  obtain ⟨-, natural, -⟩ := natural_of_mem_loops consistent hg mem
  obtain ⟨phis, body, last, shape, phiMem⟩ := phi_of_counter consistent found flawless
  obtain ⟨-, -, -, counts⟩ := counts_of_counter? found
  obtain ⟨incoming, hphi, start, next⟩ := counts.incoming
  refine sited.visit consistent counts fits signed shape (natural.reached natural.head)
    (show g.Path lp.header.index lp.header.index ([] ++ [lp.header.index]) from .stay _)
    (by simp) (by simp) visit ?_
  rcases arrives with ⟨rfl, rfl⟩ | ⟨rfl, value⟩
  · have value : c.start.toInt = s' c.phi := visit.phi consistent shape phiMem hphi start
    simp [value]
  · have same : s c.next = s' c.phi := visit.phi consistent shape phiMem hphi next
    rw [← same, value]

/-- One block after the other in a round. -/
theorem inRound_step (way : g.Path lp.header.index source.index round)
    (known : InRound c site k round s) (edge : b.index ∈ g.next source.index)
    (other : b ≠ lp.header) (visit : f.Visit c.next source b s s') :
    g.Path lp.header.index b.index (round ++ [b.index]) ∧
      InRound c site k (round ++ [b.index]) s' := by
  obtain ⟨-, natural, -⟩ := natural_of_mem_loops consistent hg mem
  obtain ⟨phis, body, last, shape, phiMem⟩ := phi_of_counter consistent found flawless
  obtain ⟨-, -, -, counts⟩ := counts_of_counter? found
  obtain ⟨phis', body', last', shape'⟩ := (formed_of_flawless consistent flawless).formed b
    ((Graph.next_lt edge).trans_eq (size_graph hg))
  have way' := way.append (.go edge (.stay b.index))
  refine ⟨way', sited.visit consistent counts fits signed shape' (natural.reached natural.head)
    way' known.next known.cond visit ?_⟩
  have home : f.blockOf c.phi = some lp.header := consistent.mem_code.mp (shape.mem_of_phi phiMem)
  rw [visit.keeps shape' ((eq_home_of_mem_code consistent home).not.mpr other), known.phi]

/-- How often the latch is executed until control leaves the loop, seen from round `k` of a loop
whose test fails first in round `m`. -/
theorem Traverses.count_latch {m : Nat} {blocks : List BlockId}
    (ends : FailsFirstAt (fun k => c.rel.Relates (c.testedIn k) c.bound.toInt) m)
    (only : ∀ b d, b ∈ lp.blocks → f.LeadsTo b d → d ∉ lp.blocks → b = c.tester lp)
    (traverses : f.Traverses c.next lp source s b blocks) (early : k ≤ m)
    (starts : ∀ s', f.Visit c.next source b s s' → ∃ round, g.Path lp.header.index b.index round ∧
      InRound c site k round s' ∧ ((c.tester lp).index ∈ round → b ≠ c.tester lp → k < m)) :
    blocks.count c.latch =
      m - k + innerTurns c.latch lp.header blocks + if c.tester lp = c.latch then 1 else 0 := by
  obtain ⟨-, natural, entry⟩ := natural_of_mem_loops consistent hg mem
  have reached := natural.reached natural.head
  induction traverses generalizing k with
  | @leave source b d s s' inside visit proceeds outside =>
    -- control leaves from the tester, so the test fails in this round
    obtain rfl := only b d inside proceeds.leadsTo outside
    obtain ⟨round, way, known, -⟩ := starts s' visit
    have fails := (sited.stays_iff reached way known proceeds).not.mp outside
    obtain rfl : k = m := by
      by_contra other
      exact fails (ends.1 k (by omega))
    simp [innerTurns, List.count_singleton]
  | @stay source b d s s' blocks inside visit proceeds rest ih =>
    obtain ⟨round, way, known, passed⟩ := starts s' visit
    have edge : d.index ∈ g.next b.index := by
      obtain ⟨succs, answer, target⟩ := proceeds.leadsTo
      have slot := (natural.reached (v := b.index) inside).lt_size entry
      exact (mem_next_graph hg answer slot).mpr target
    -- where control has passed the tester, the test holds in this round
    have holds : (c.tester lp).index ∈ round → k < m := by
      intro seen
      by_cases here : b = c.tester lp
      · subst here
        have holds := (sited.stays_iff reached way known proceeds).mp rest.mem
        have other : k ≠ m := by
          rintro rfl
          exact ends.2 holds
        omega
      · exact passed seen here
    obtain ⟨more, rfl⟩ := rest.exists_cons
    by_cases again : d = lp.header
    · -- the next round begins
      subst again
      obtain rfl := (latch_closes consistent hg mem found).2.2 b inside edge
      have less : k < m := by
        refine holds ?_
        unfold Counter.tester
        split
        · exact way.last_mem
        · exact way.first_mem
      have value := sited.next_eq reached way known
      have later := ih less fun s'' visit' => ⟨[lp.header.index], .stay _,
        inRound_header consistent flawless hg mem found sited fits signed visit' (.inr ⟨rfl, value⟩),
        fun seen other => absurd (BlockId.index_inj.mp (List.mem_singleton.mp seen)).symm other⟩
      have straight : ¬ (c.latch = c.latch ∧ lp.header ≠ lp.header) := fun turn => turn.2 rfl
      rw [List.count_cons_self, later, innerTurns, if_neg straight]
      omega
    · have later := ih early fun s'' visit' => by
        obtain ⟨way', known'⟩ := inRound_step consistent flawless hg mem found sited fits signed way
          known edge again visit'
        refine ⟨_, way', known', fun seen other => holds ?_⟩
        simpa [BlockId.index_inj, Ne.symm other] using seen
      rw [List.count_cons, later, innerTurns]
      by_cases latch : b = c.latch
      · simp [latch, again]
        omega
      · simp [latch]

end

/-- Control does not turn back inside a loop at a latch that leads to the header only. -/
theorem Traverses.innerTurns_eq_zero {exact : InstId} {latch : BlockId} {blocks : List BlockId}
    (traverses : f.Traverses exact lp source s b blocks)
    (back : ∀ d, f.LeadsTo latch d → d ∈ lp.blocks → d = lp.header) :
    innerTurns latch lp.header blocks = 0 := by
  induction traverses with
  | leave => rfl
  | @stay source b d s s' blocks inside visit proceeds rest ih =>
    obtain ⟨more, rfl⟩ := rest.exists_cons
    have straight : ¬ (b = latch ∧ d ≠ lp.header) := by
      rintro ⟨rfl, other⟩
      exact other (back d proceeds.leadsTo rest.mem)
    rw [innerTurns, if_neg straight, ih]

/-- How often the latch is executed while control is in a loop whose trip count is known.  The round
in which the test fails is not in the trip count where the header tests, but it reaches the latch all
the same where the header is the latch. -/
theorem exists_counter_count (consistent : f.Consistent) (flawless : f.firstFlaw? = .ok none)
    {flow : Flow} (hflow : f.flow = .ok flow) (inScope : f.Scoped flow.graph)
    (mem : lp ∈ flow.loops.loops) {n : Nat} (count : f.tripCount? flow.graph lp = .ok (some n)) :
    ∃ c, f.counter? flow.graph lp = .ok (some c) ∧
    (c.rel.isUnsigned = false → c.Fits f →
      (∀ b d, b ∈ lp.blocks → f.LeadsTo b d → d ∉ lp.blocks → b = c.tester lp) →
      ∀ s blocks, f.Traverses c.next lp c.preheader s lp.header blocks → blocks.count c.latch =
        n + innerTurns c.latch lp.header blocks +
          if c.late = false ∧ lp.header = c.latch then 1 else 0) := by
  obtain ⟨g, hg, rfl⟩ := map_eq_ok_iff.mp hflow
  obtain ⟨c, found, rounds⟩ := exists_counter count
  refine ⟨c, found, fun signed fits only s blocks traverses => ?_⟩
  obtain ⟨site, sited⟩ := exists_sited consistent hg mem found flawless inScope
  obtain ⟨m, counted, rfl⟩ := Counter.exists_rounds rounds
  have latch := traverses.count_latch consistent flawless hg mem found sited fits signed
    (relates_of_countRounds fits.count counted) only (Nat.zero_le m) fun s' visit =>
      ⟨[lp.header.index], .stay _,
        inRound_header consistent flawless hg mem found sited fits signed visit (.inl ⟨rfl, rfl⟩),
        fun seen other => absurd (BlockId.index_inj.mp (List.mem_singleton.mp seen)).symm other⟩
  rw [latch, Counter.tester]
  cases late : c.late with
  | true => simp; omega
  | false => simp

/-- The trip count of a loop is the number of its rounds that reach the latch, each time that
control comes from the preheader and leaves the loop again.  The latch is executed as often, but for
the times that control goes on from it inside the loop, elsewhere than to the header.

The branch that has been recognised must be the only one that leaves the loop, and must not test the
phi in a loop of one block. -/
theorem trip_count_exact (consistent : f.Consistent) (flawless : f.firstFlaw? = .ok none)
    {flow : Flow} (hflow : f.flow = .ok flow) (inScope : f.Scoped flow.graph)
    (mem : lp ∈ flow.loops.loops) {n : Nat} (count : f.tripCount? flow.graph lp = .ok (some n)) :
    ∃ c, f.counter? flow.graph lp = .ok (some c) ∧
    (c.rel.isUnsigned = false → c.Fits f →
      (∀ b d, b ∈ lp.blocks → f.LeadsTo b d → d ∉ lp.blocks → b = c.tester lp) →
      (c.late = false → lp.header ≠ c.latch) →
      ∀ s blocks, f.Traverses c.next lp c.preheader s lp.header blocks →
        blocks.count c.latch = n + innerTurns c.latch lp.header blocks ∧
        ((∀ d, f.LeadsTo c.latch d → d ∈ lp.blocks → d = lp.header) →
          blocks.count c.latch = n)) := by
  obtain ⟨c, found, exact⟩ := exists_counter_count consistent flawless hflow inScope mem count
  refine ⟨c, found, fun signed fits only apart s blocks traverses => ?_⟩
  have latch := exact signed fits only s blocks traverses
  rw [if_neg fun ⟨late, same⟩ => apart late same, Nat.add_zero] at latch
  exact ⟨latch, fun back => by rw [latch, traverses.innerTurns_eq_zero back, Nat.add_zero]⟩

/-! ### Loops that are counted -/

/-- Everything that makes a trip count known is there, and no other branch leaves the loop than the
one that has been recognised.  In some run, the latch is executed a number of times. -/
def CountedWith (f : Func) (lp : Loop) (n times : Nat) (given : Counter → Prop) : Prop :=
  f.Consistent ∧ f.firstFlaw? = .ok none ∧ ∃ flow c, f.flow = .ok flow ∧ f.Scoped flow.graph ∧
    lp ∈ flow.loops.loops ∧ f.tripCount? flow.graph lp = .ok (some n) ∧
    f.counter? flow.graph lp = .ok (some c) ∧ c.rel.isUnsigned = false ∧ given c ∧
    (∀ b d, b ∈ lp.blocks → f.LeadsTo b d → d ∉ lp.blocks → b = c.tester lp) ∧
    ∃ s blocks, f.Traverses c.next lp c.preheader s lp.header blocks ∧ blocks.count c.latch = times

/-- Then the trip count has been computed, as far as numbers below 64 bits go. -/
def Counted (f : Func) (lp : Loop) (n times : Nat) : Prop :=
  f.CountedWith lp n times (·.Fits f)

theorem receives_singleton {phi : InstId} {incoming : List (Value × BlockId)} {v : Value} {n : Int}
    (hop : f.operation phi = .ok (.phi incoming)) (named : incomingFor? incoming source = some v)
    (value : v.MayBe s n) : f.Receives source [phi] s (Function.update s phi n) := by
  refine ⟨fun i other => Function.update_of_ne (by simpa using other) .., fun i mem => ?_⟩
  obtain rfl := List.mem_singleton.mp mem
  intro incoming' v' hop' named'
  obtain rfl : incoming = incoming' := by simpa [hop] using hop'
  obtain rfl : v = v' := by simpa [named] using named'
  simpa using value

/-- The values after some instructions have got theirs, one by one. -/
def valuesAfter (got : List (Nat × Int)) : Numbers :=
  got.foldl (fun s (i, n) => Function.update s ⟨i⟩ n) fun _ => 0

/-- A loop of one block, that ends with the test of the value for the next round or of the phi. -/
def singleBlock (late : Bool) : Func := .assemble "single_block" [] [
  ("entry", [⟨.jump ⟨1⟩, .void, ""⟩]),
  ("body", [
    ⟨.phi [(.const 0, ⟨0⟩), (.inst ⟨2⟩, ⟨1⟩)], .i32, "i"⟩,
    ⟨.binary .add (.inst ⟨1⟩) (.const 1), .i32, "next"⟩,
    ⟨.compare .slt (.inst (if late then ⟨2⟩ else ⟨1⟩)) (.const (if late then 2 else 1)), .i1, "c"⟩,
    ⟨.branch (.inst ⟨3⟩) ⟨1⟩ ⟨2⟩, .void, ""⟩]),
  ("exit", [⟨.ret none, .void, ""⟩])]

def singleBlockLoop : Loop := ⟨⟨1⟩, [⟨1⟩], [⟨1⟩], none, 1⟩

/-- Either way the block is executed twice, for the phi being zero and one. -/
theorem traverses_singleBlock (late : Bool) :
    (singleBlock late).Traverses ⟨2⟩ singleBlockLoop ⟨0⟩ (valuesAfter []) ⟨1⟩ [⟨1⟩, ⟨1⟩] := by
  have first : (singleBlock late).Visit ⟨2⟩ ⟨0⟩ ⟨1⟩ (valuesAfter [])
      (valuesAfter [(1, 0), (2, 1), (3, 1), (4, 0)]) := by
    refine ⟨[⟨1⟩], _, rfl, receives_singleton (n := 0) rfl rfl rfl,
      .step rfl (fun _ => ⟨0, 1, rfl, rfl, rfl⟩) <| .step rfl (fun _ => ?_) <|
      .step rfl trivial <| .done _⟩
    cases late with
    | true => exact ⟨1, 2, rfl, rfl, rfl⟩
    | false => exact ⟨0, 1, rfl, rfl, rfl⟩
  have second : (singleBlock late).Visit ⟨2⟩ ⟨1⟩ ⟨1⟩ (valuesAfter [(1, 0), (2, 1), (3, 1), (4, 0)])
      (valuesAfter [(1, 0), (2, 1), (3, 1), (4, 0), (1, 1), (2, 2), (3, 0), (4, 0)]) := by
    refine ⟨[⟨1⟩], _, rfl, receives_singleton (n := 1) rfl rfl rfl,
      .step rfl (fun _ => ⟨1, 1, rfl, rfl, rfl⟩) <| .step rfl (fun _ => ?_) <|
      .step rfl trivial <| .done _⟩
    cases late with
    | true => exact ⟨2, 2, rfl, rfl, rfl⟩
    | false => exact ⟨1, 1, rfl, rfl, rfl⟩
  exact .stay (by decide) first ⟨⟨4⟩, _, rfl, rfl, 1, rfl, rfl⟩ <|
    .leave (by decide) second ⟨⟨4⟩, _, rfl, rfl, 0, rfl, rfl⟩ (c := ⟨2⟩) (by decide)

/-- What is found in the loop of one block. -/
theorem known_singleBlock (late : Bool) : (singleBlock late).firstFlaw? = .ok none ∧
    ∃ flow c, (singleBlock late).flow = .ok flow ∧ (singleBlock late).Scoped flow.graph ∧
      singleBlockLoop ∈ flow.loops.loops ∧
      (singleBlock late).tripCount? flow.graph singleBlockLoop =
        .ok (some (if late then 2 else 1)) ∧
      (singleBlock late).counter? flow.graph singleBlockLoop = .ok (some c) ∧
      c.next = ⟨2⟩ ∧ c.preheader = ⟨0⟩ ∧ c.latch = ⟨1⟩ ∧ c.late = late ∧ c.rel = .slt ∧
      c.Fits (singleBlock late) := by
  have answers : (fun flow => (flow.loops.loops,
      (singleBlock late).tripCount? flow.graph singleBlockLoop,
      (singleBlock late).counter? flow.graph singleBlockLoop,
      (singleBlock late).isScoped flow.dom)) <$> (singleBlock late).flow =
        .ok ([singleBlockLoop], .ok (some (if late then 2 else 1)),
          .ok (some ⟨⟨1⟩, ⟨0⟩, ⟨1⟩, 0, ⟨2⟩, 1, 1, late, .slt, if late then 2 else 1⟩), true) := by
    cases late <;> cbv
  obtain ⟨flow, hflow, same⟩ := map_eq_ok_iff.mp answers
  obtain ⟨loops, count, counter, inScope⟩ : _ ∧ _ ∧ _ ∧ _ := by simpa only [Prod.mk.injEq] using same
  refine ⟨by cases late <;> cbv, flow, _, hflow,
    (scoped_iff_flow (by cases late <;> decide) hflow (by cases late <;> decide)).mpr inScope,
    by simp [loops], count, counter, rfl, rfl, rfl, rfl, rfl,
    Counter.fits_of_add rfl fun _ => by cases late <;> decide⟩

theorem eq_of_mem_singleBlockLoop : ∀ b ∈ singleBlockLoop.blocks, b = ⟨1⟩ := by decide

/-- The trip count of the loop that tests the value for the next round. -/
theorem trip_count_testedLate : (singleBlock true).Counted singleBlockLoop 2 2 := by
  obtain ⟨flawless, flow, c, hflow, inScope, mem, count, counter, next, preheader, latch, late, rel,
    fits⟩ := known_singleBlock true
  have consistent : (singleBlock true).Consistent := consistent_assemble ..
  obtain ⟨c, found, exact⟩ := trip_count_exact consistent flawless hflow inScope mem count
  obtain rfl := Option.some.inj (Except.ok.inj (counter.symm.trans found))
  have signed : c.rel.isUnsigned = false := by rw [rel]; rfl
  have only : ∀ b d, b ∈ singleBlockLoop.blocks → (singleBlock true).LeadsTo b d →
      d ∉ singleBlockLoop.blocks → b = c.tester singleBlockLoop := fun b d inside _ _ => by
    rw [Counter.tester, if_pos late, latch]
    exact eq_of_mem_singleBlockLoop b inside
  have traverses : (singleBlock true).Traverses c.next singleBlockLoop c.preheader (valuesAfter [])
      singleBlockLoop.header [⟨1⟩, ⟨1⟩] := by
    rw [next, preheader]
    exact traverses_singleBlock true
  have twice := (exact signed fits only (by simp [late]) _ _ traverses).2
    fun d _ => eq_of_mem_singleBlockLoop d
  exact ⟨consistent, flawless, flow, c, hflow, inScope, mem, count, found, signed, fits, only, _, _,
    traverses, twice⟩

/-- A loop whose latch is a loop of its own. -/
def innerLatch : Func := .assemble "inner_latch" [] [
  ("entry", [⟨.jump ⟨1⟩, .void, ""⟩]),
  ("outer", [
    ⟨.phi [(.const 0, ⟨0⟩), (.inst ⟨5⟩, ⟨2⟩)], .i32, "i"⟩,
    ⟨.compare .slt (.inst ⟨1⟩) (.const 1), .i1, "c"⟩,
    ⟨.branch (.inst ⟨2⟩) ⟨2⟩ ⟨3⟩, .void, ""⟩]),
  ("inner", [
    ⟨.phi [(.const 0, ⟨1⟩), (.const 1, ⟨2⟩)], .i32, "j"⟩,
    ⟨.binary .add (.inst ⟨1⟩) (.const 1), .i32, "next"⟩,
    ⟨.compare .slt (.inst ⟨4⟩) (.const 1), .i1, "d"⟩,
    ⟨.branch (.inst ⟨6⟩) ⟨2⟩ ⟨1⟩, .void, ""⟩]),
  ("exit", [⟨.ret none, .void, ""⟩])]

def innerLatchLoop : Loop := ⟨⟨1⟩, [⟨1⟩, ⟨2⟩], [⟨2⟩], none, 1⟩

theorem traverses_innerLatch :
    innerLatch.Traverses ⟨5⟩ innerLatchLoop ⟨0⟩ (valuesAfter []) ⟨1⟩ [⟨1⟩, ⟨2⟩, ⟨2⟩, ⟨1⟩] := by
  have outer : innerLatch.Visit ⟨5⟩ ⟨0⟩ ⟨1⟩ (valuesAfter [])
      (valuesAfter [(1, 0), (2, 1), (3, 0)]) :=
    ⟨[⟨1⟩], _, rfl, receives_singleton (n := 0) rfl rfl rfl,
      .step rfl (fun _ => ⟨0, 1, rfl, rfl, rfl⟩) <| .step rfl trivial <| .done _⟩
  have inner : innerLatch.Visit ⟨5⟩ ⟨1⟩ ⟨2⟩ (valuesAfter [(1, 0), (2, 1), (3, 0)])
      (valuesAfter [(1, 0), (2, 1), (3, 0), (4, 0), (5, 1), (6, 1), (7, 0)]) :=
    ⟨[⟨4⟩], _, rfl, receives_singleton (n := 0) rfl rfl rfl,
      .step rfl (fun _ => ⟨0, 1, rfl, rfl, rfl⟩) <|
      .step rfl (fun _ => ⟨0, 1, rfl, rfl, rfl⟩) <| .step rfl trivial <| .done _⟩
  have again : innerLatch.Visit ⟨5⟩ ⟨2⟩ ⟨2⟩
      (valuesAfter [(1, 0), (2, 1), (3, 0), (4, 0), (5, 1), (6, 1), (7, 0)])
      (valuesAfter [(1, 0), (2, 1), (3, 0), (4, 0), (5, 1), (6, 1), (7, 0),
        (4, 1), (5, 1), (6, 0), (7, 0)]) :=
    ⟨[⟨4⟩], _, rfl, receives_singleton (n := 1) rfl rfl rfl,
      .step rfl (fun _ => ⟨0, 1, rfl, rfl, rfl⟩) <|
      .step rfl (fun _ => ⟨1, 1, rfl, rfl, rfl⟩) <| .step rfl trivial <| .done _⟩
  have last : innerLatch.Visit ⟨5⟩ ⟨2⟩ ⟨1⟩
      (valuesAfter [(1, 0), (2, 1), (3, 0), (4, 0), (5, 1), (6, 1), (7, 0),
        (4, 1), (5, 1), (6, 0), (7, 0)])
      (valuesAfter [(1, 0), (2, 1), (3, 0), (4, 0), (5, 1), (6, 1), (7, 0),
        (4, 1), (5, 1), (6, 0), (7, 0), (1, 1), (2, 0), (3, 0)]) :=
    ⟨[⟨1⟩], _, rfl, receives_singleton (n := 1) rfl rfl rfl,
      .step rfl (fun _ => ⟨1, 1, rfl, rfl, rfl⟩) <| .step rfl trivial <| .done _⟩
  exact .stay (by decide) outer ⟨⟨3⟩, _, rfl, rfl, 1, rfl, rfl⟩ <|
    .stay (by decide) inner ⟨⟨7⟩, _, rfl, rfl, 1, rfl, rfl⟩ <|
    .stay (by decide) again ⟨⟨7⟩, _, rfl, rfl, 0, rfl, rfl⟩ <|
    .leave (by decide) last ⟨⟨3⟩, _, rfl, rfl, 0, rfl, rfl⟩ (c := ⟨3⟩) (by decide)

/-- A loop whose bound is one step away, with the largest step there is. -/
def farStep : Func := .assemble "far_step" [] [
  ("entry", [⟨.jump ⟨1⟩, .void, ""⟩]),
  ("head", [
    ⟨.phi [(.const 0, ⟨0⟩), (.inst ⟨4⟩, ⟨2⟩)], .i64, "i"⟩,
    ⟨.compare .slt (.inst ⟨1⟩) (.const 9223372036854775807), .i1, "c"⟩,
    ⟨.branch (.inst ⟨2⟩) ⟨2⟩ ⟨3⟩, .void, ""⟩]),
  ("body", [
    ⟨.binary .add (.inst ⟨1⟩) (.const 9223372036854775807), .i64, "next"⟩,
    ⟨.jump ⟨1⟩, .void, ""⟩]),
  ("exit", [⟨.ret none, .void, ""⟩])]

def farStepLoop : Loop := ⟨⟨1⟩, [⟨1⟩, ⟨2⟩], [⟨2⟩], none, 1⟩

/-- The loop has one round, for the phi being zero. -/
theorem traverses_farStep :
    farStep.Traverses ⟨4⟩ farStepLoop ⟨0⟩ (valuesAfter []) ⟨1⟩ [⟨1⟩, ⟨2⟩, ⟨1⟩] := by
  have first : farStep.Visit ⟨4⟩ ⟨0⟩ ⟨1⟩ (valuesAfter [])
      (valuesAfter [(1, 0), (2, 1), (3, 0)]) :=
    ⟨[⟨1⟩], _, rfl, receives_singleton (n := 0) rfl rfl rfl,
      .step rfl (fun _ => ⟨0, 9223372036854775807, rfl, rfl, rfl⟩) <| .step rfl trivial <| .done _⟩
  have body : farStep.Visit ⟨4⟩ ⟨1⟩ ⟨2⟩ (valuesAfter [(1, 0), (2, 1), (3, 0)])
      (valuesAfter [(1, 0), (2, 1), (3, 0), (4, 9223372036854775807), (5, 0)]) :=
    ⟨[], _, rfl, ⟨fun _ _ => rfl, nofun⟩,
      .step rfl (fun _ => ⟨0, 9223372036854775807, rfl, rfl, rfl⟩) <| .step rfl trivial <| .done _⟩
  have last : farStep.Visit ⟨4⟩ ⟨2⟩ ⟨1⟩
      (valuesAfter [(1, 0), (2, 1), (3, 0), (4, 9223372036854775807), (5, 0)])
      (valuesAfter [(1, 0), (2, 1), (3, 0), (4, 9223372036854775807), (5, 0),
        (1, 9223372036854775807), (2, 0), (3, 0)]) :=
    ⟨[⟨1⟩], _, rfl, receives_singleton (n := 9223372036854775807) rfl rfl rfl,
      .step rfl (fun _ => ⟨9223372036854775807, 9223372036854775807, rfl, rfl, rfl⟩) <|
      .step rfl trivial <| .done _⟩
  exact .stay (by decide) first ⟨⟨3⟩, _, rfl, rfl, 1, rfl, rfl⟩ <|
    .stay (by decide) body ⟨⟨5⟩, _, rfl, rfl, rfl⟩ <|
    .leave (by decide) last ⟨⟨3⟩, _, rfl, rfl, 0, rfl, rfl⟩ (c := ⟨3⟩) (by decide)

theorem counted_innerLatch : innerLatch.Counted innerLatchLoop 1 2 := by
  have answers : (fun flow => (flow.loops.loops, innerLatch.tripCount? flow.graph innerLatchLoop,
      innerLatch.counter? flow.graph innerLatchLoop, innerLatch.isScoped flow.dom)) <$>
      innerLatch.flow = .ok ([innerLatchLoop, ⟨⟨2⟩, [⟨2⟩], [⟨2⟩], some 0, 2⟩], .ok (some 1),
        .ok (some ⟨⟨1⟩, ⟨0⟩, ⟨2⟩, 0, ⟨5⟩, 1, 1, false, .slt, 1⟩), true) := by cbv
  obtain ⟨flow, hflow, same⟩ := map_eq_ok_iff.mp answers
  obtain ⟨loops, count, counter, inScope⟩ : _ ∧ _ ∧ _ ∧ _ := by
    simpa only [Prod.mk.injEq] using same
  refine ⟨consistent_assemble .., by cbv, flow, _, hflow,
    (scoped_iff_flow (by decide) hflow (by decide)).mpr inScope, by simp [loops], count, counter,
    rfl, Counter.fits_of_add rfl fun _ => by decide, ?_, _, _, traverses_innerLatch, by decide⟩
  rintro b d inside ⟨succs, answer, target⟩ outside
  obtain rfl | rfl : b = ⟨1⟩ ∨ b = ⟨2⟩ := by simpa [innerLatchLoop] using inside
  · rfl
  · -- the latch leads to itself and to the header
    obtain rfl : [⟨2⟩, ⟨1⟩] = succs :=
      Except.ok.inj ((show _ = innerLatch.successors ⟨2⟩ from rfl).trans answer)
    exact absurd (by simpa [innerLatchLoop, or_comm] using target) outside

theorem counted_singleBlock : (singleBlock false).Counted singleBlockLoop 1 2 := by
  obtain ⟨flawless, flow, c, hflow, inScope, mem, count, counter, next, preheader, latch, late,
    rel, fits⟩ := known_singleBlock false
  refine ⟨consistent_assemble .., flawless, flow, c, hflow, inScope, mem, count, counter,
    by rw [rel]; rfl, fits, fun b d inside _ _ => ?_, valuesAfter [], [⟨1⟩, ⟨1⟩], ?_, ?_⟩
  · simpa [Counter.tester, late, singleBlockLoop] using eq_of_mem_singleBlockLoop b inside
  · rw [next, preheader]
    exact traverses_singleBlock false
  · rw [latch]
    decide

theorem countedWith_farStep : farStep.CountedWith farStepLoop 0 1 (¬ ·.Fits farStep) := by
  have answers : (fun flow => (flow.loops.loops, farStep.tripCount? flow.graph farStepLoop,
      farStep.counter? flow.graph farStepLoop, farStep.isScoped flow.dom)) <$> farStep.flow =
        .ok ([farStepLoop], .ok (some 0), .ok (some ⟨⟨1⟩, ⟨0⟩, ⟨2⟩, 0, ⟨4⟩, 9223372036854775807,
          9223372036854775807, false, .slt, 9223372036854775807⟩), true) := by cbv
  obtain ⟨flow, hflow, same⟩ := map_eq_ok_iff.mp answers
  obtain ⟨loops, count, counter, inScope⟩ : _ ∧ _ ∧ _ ∧ _ := by
    simpa only [Prod.mk.injEq] using same
  refine ⟨consistent_assemble .., by cbv, flow, _, hflow,
    (scoped_iff_flow (by decide) hflow (by decide)).mpr inScope, by simp [loops], count, counter,
    rfl, fun fits => ?_, ?_, _, _, traverses_farStep, by decide⟩
  · exact absurd (fits.count (by decide)) (by decide)
  · rintro b d inside ⟨succs, answer, target⟩ outside
    obtain rfl | rfl : b = ⟨1⟩ ∨ b = ⟨2⟩ := by simpa [farStepLoop] using inside
    · rfl
    · -- the latch leads to the header
      obtain rfl : [⟨1⟩] = succs :=
        Except.ok.inj ((show _ = farStep.successors ⟨2⟩ from rfl).trans answer)
      obtain rfl := List.mem_singleton.mp target
      exact absurd List.mem_cons_self outside

/-- A loop has one round that reaches the latch, in which the latch is executed twice; and so it is
in a loop of one block that tests the phi.  Where a number that is computed for the trip count leaves
64 bits, no round may be counted and the latch be executed once. -/
theorem trip_count_inexact :
    innerLatch.Counted innerLatchLoop 1 2 ∧ (singleBlock false).Counted singleBlockLoop 1 2 ∧
      farStep.CountedWith farStepLoop 0 1 (¬ ·.Fits farStep) :=
  ⟨counted_innerLatch, counted_singleBlock, countedWith_farStep⟩

end Func

end KernelCoarsening
