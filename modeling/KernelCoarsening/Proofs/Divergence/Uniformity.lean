/-
Threads that differ in the merged identity agree on everything that is not divergent.

Two threads run the same function and differ only in the identity that is merged.  They part at
divergent branches and are together again at the meeting blocks, so they come to the same
common blocks in the same order.  In a common block an instruction that is not divergent reads
what both threads agree on, and computes the same for both.

What a loop computes is an exception: if a divergent branch of the loop can send one thread
round again while the other has left it, the two threads have different values of it.  The
analysis has to call everything divergent that reads such a value behind the loop.

* `Func.Escapes` — a value of a loop is read where threads are together that may have left the
  loop in different rounds;
* `Func.takes_unique` — if all that escapes is found, an instruction that is not divergent and
  lies in no region takes the same values for both threads;
* `Func.Setting.lockstep` — the argument: threads that are together stay together.
-/
import KernelCoarsening.Proofs.Divergence.Spread
import KernelCoarsening.Proofs.Execution.Steps
import KernelCoarsening.Proofs.Flow.Joining
import KernelCoarsening.Proofs.Flow.Scope
import KernelCoarsening.Proofs.Ir.Assembly
import Mathlib

namespace KernelCoarsening

namespace Func

variable {f : Func} {selector : DimensionSelector} {shared : List GlobalId} {level : Level}
  {dim : Dimension} {found : DivergentFunc} {ops : List (InstId × Operation)}
  {accesses : List (InstId × GlobalId)}

/-! ### Where threads part -/

/-- A divergent branch ends one block, and its ways meet at another. -/
def Splits (f : Func) (found : DivergentFunc) (h e : Nat) : Prop :=
  ∃ i ∈ found.divergence.branches, f.blockOf i = some ⟨h⟩ ∧
    found.flow.pdom.parent? ⟨h⟩ = some ⟨e⟩

/-- All threads come to a block. -/
def Common (f : Func) (found : DivergentFunc) (b : BlockId) : Prop :=
  found.flow.graph.Common (f.Splits found) b.index

/-- An instruction is uniform: it is not divergent, and all threads come to it. -/
def Uniform (f : Func) (found : DivergentFunc) (i : InstId) : Prop :=
  i ∉ found.divergence.set ∧ ∃ b, f.blockOf i = some b ∧ f.Common found b

/-- A value escapes from a loop: it is computed in a block to which a divergent branch may send
some threads again, and it is read where all threads are together. -/
structure Escapes (f : Func) (found : DivergentFunc) (x y : InstId) : Prop where
  computed : ∃ h e j, f.Splits found h e ∧ f.blockOf x = some j ∧
    found.flow.graph.Inside h e j.index ∧
      found.flow.graph.Dominates f.entry.index j.index h
  read : ∃ r op, f.blockOf y = some r ∧ f.Common found r ∧ f.operation y = .ok op ∧
    x ∈ op.usedInsts

namespace Analyzed

theorem divided (a : f.Analyzed selector level dim found ops accesses)
    (consistent : f.Consistent) : found.flow.graph.Divided (f.Splits found) := by
  rintro h e ⟨i, hi, place, parent⟩
  obtain ⟨body, b, _, reached, place', _⟩ := (a.mem_branches consistent).mp hi
  obtain rfl : b = ⟨h⟩ := by simpa [place'] using place
  rw [(flow_eq_ok a.flow).2.2.1] at parent
  exact (parent?_postDominators_iff (entry_lt_size consistent body a.graph) body reached).mp parent

/-- A divergent branch that control can come to splits the threads. -/
theorem splits (a : f.Analyzed selector level dim found ops accesses) (consistent : f.Consistent)
    {i : InstId} {b : BlockId} (hi : i ∈ found.divergence.branches)
    (place : f.blockOf i = some b) : ∃ e, f.Splits found b.index e := by
  obtain ⟨r, ⟨place', exiting, _⟩, _⟩ := a.exists_region consistent hi
  obtain rfl : b = r.header := by simpa [place] using place'
  obtain ⟨e, parent⟩ := Region.exists_parent? exiting
  exact ⟨e.index, i, hi, place, parent⟩

/-- Threads are together outside all regions: a region holds what lies between its header and
the block where the ways from there meet. -/
theorem common_of_outside (a : f.Analyzed selector level dim found ops accesses)
    (consistent : f.Consistent) {b : BlockId}
    (outside : ∀ r ∈ found.divergence.regions, b ∉ r.blocks) : f.Common found b := by
  intro h e splits inside
  have meets := a.divided consistent h e splits
  obtain ⟨i, hi, place, -⟩ := splits
  obtain ⟨r, made, kept, hk, perm⟩ := a.exists_region consistent hi
  obtain rfl : h = r.header.index := by
    have := made.1
    rw [place, Option.some.injEq] at this
    rw [← this]
  have spans := a.spans_of_madeFor consistent hi made
  refine outside kept hk (perm.mem_iff.mp ((spans.mem b).mpr (.inl ?_)))
  obtain ⟨nodes, p, avoids⟩ := meets.before inside
  refine ⟨nodes, p, fun mem => ?_⟩
  -- a way that comes to the exiting block before the meeting block would make them the same
  have before := Graph.Before.of_mem p avoids mem
  have post := meets.first _ spans.bounds.ne.symm spans.bounds.post
  exact before.ne (post.antisymm (meets.post.of_before before) spans.bounds.canEnd_exit)

end Analyzed

/-! ### What uniform instructions read -/

/-- What is known of a function whose threads are compared. -/
structure Setting (f : Func) (selector : DimensionSelector) (level : Level) (dim : Dimension)
    (found : DivergentFunc) (ops : List (InstId × Operation))
    (accesses : List (InstId × GlobalId)) : Prop where
  consistent : f.Consistent
  flawless : f.firstFlaw? = .ok none
  analyzed : f.Analyzed selector level dim found ops accesses
  included : selector.includes dim
  inScope : f.Scoped found.flow.graph
  kept : ∀ x y, f.Escapes found x y → y ∈ found.divergence.set

namespace Setting

/-- A uniform instruction reads uniform ones. -/
theorem operand (st : f.Setting selector level dim found ops accesses) {x y : InstId}
    {op : Operation} {p : BlockId} {place : Nat} (uniform : f.Uniform found y)
    (hop : f.operation y = .ok op) (reads : x ∈ op.usedInsts) (common : f.Common found p)
    (reached : found.flow.graph.Reaches f.entry.index p.index)
    (available : f.Available found.flow.graph x p place) : f.Uniform found x := by
  obtain ⟨notDivergent, r, placed, hr⟩ := uniform
  obtain ⟨j, hj, dom⟩ := blockOf_of_available available
  refine ⟨fun divergent => ?_, j, hj, ?_⟩
  · exact notDivergent (st.analyzed.reader_mem st.consistent divergent placed hop reads)
  · rcases dom with rfl | dom
    · exact common
    · -- a block that threads may miss and that dominates the reader lies in a loop
      intro h e splits inside
      have around := (st.analyzed.divided st.consistent h e splits).dominates inside
        (common h e splits) reached dom
      exact notDivergent (st.kept x y
        ⟨⟨h, e, j, splits, hj, inside, around⟩, r, op, placed, hr, hop, reads⟩)

end Setting

/-! ### Two threads -/

end Func

/-- Two threads differ at most in the identity that a level merges along a dimension. -/
structure Surroundings.Alike (level : Level) (dim : Dimension) (given given' : Surroundings) :
    Prop where
  args : given.args = given'.args
  globals : given.globals = given'.globals
  registers : ∀ r d, (r, d) ≠ (level.identity, dim) →
    given.position.read r d = given'.position.read r d

namespace Func

variable {f : Func} {selector : DimensionSelector} {shared : List GlobalId} {level : Level}
  {dim : Dimension} {found : DivergentFunc} {ops : List (InstId × Operation)}
  {accesses : List (InstId × GlobalId)} {given given' : Surroundings} {m m' : Memory}
  {s s' : ThreadState}

/-- Every load of a run finds the word that a table has for its address. -/
def LoadsFrom (f : Func) (given : Surroundings) (m : Memory) (words : Address → Option Int64) :
    Prop :=
  ∀ s, f.Visits given (f.begin given m) s → ∀ i rest p a, s.rest = i :: rest →
    f.operation i = .ok (.load p) → p.datum given s.values = .ok (.address a) →
      s.memory.read a = words a

/-- Two threads agree on the uniform instructions. -/
def Agree (f : Func) (found : DivergentFunc) (values values' : Values) : Prop :=
  ∀ i, f.Uniform found i → values i = values' i

/-- Two threads are together: at the same place, with the same uniform values. -/
structure Together (f : Func) (found : DivergentFunc) (s s' : ThreadState) : Prop where
  block : s.block = s'.block
  rest : s.rest = s'.rest
  common : f.Common found s.block
  agree : f.Agree found s.values s'.values

/-- A thread is at the start of its block, behind the phis. -/
def AtStart (f : Func) (s : ThreadState) : Prop :=
  ∃ block phis, f.block s.block = .ok block ∧ f.phis s.block = .ok phis ∧
    block.insts = phis ++ s.rest

/-- Two threads have parted in a step: no uniform instruction took a value in it, and the two
are bound for the same common block. -/
structure Parted (f : Func) (found : DivergentFunc) (s s' a a' : ThreadState) : Prop where
  none : ∀ i, f.Uniform found i → i ∉ f.assigned s a ∧ i ∉ f.assigned s' a'
  start : f.AtStart a
  start' : f.AtStart a'
  agree : f.Agree found a.values a'.values
  bound : ∀ n n', found.flow.graph.Arrives (f.Splits found) a.block.index n →
    found.flow.graph.Arrives (f.Splits found) a'.block.index n' → n = n'

theorem Agree.symm {values values' : Values} (h : f.Agree found values values') :
    f.Agree found values' values := fun i uniform => (h i uniform).symm

theorem Agree.trans {a b c : Values} (h : f.Agree found a b) (h' : f.Agree found b c) :
    f.Agree found a c := fun i uniform => (h i uniform).trans (h' i uniform)

namespace Enters

variable {values : Values} {source : Option BlockId} {b : BlockId} {block : Block}
  {phis : List InstId}

theorem atStart (e : f.Enters given values m source b block phis s) : f.AtStart s :=
  ⟨block, phis, e.here ▸ e.hblock, e.here ▸ e.hphis, e.rest⟩

/-- A block without uniform phis changes no uniform value when it is entered. -/
theorem agree (e : f.Enters given values m source b block phis s)
    (none : ∀ j ∈ phis, ¬ f.Uniform found j) : f.Agree found values s.values := by
  intro i uniform
  exact (e.kept i fun hi => none i hi uniform).symm

/-- At the start of a run no phi can take a value. -/
theorem values_of_entry (e : f.Enters given (fun _ => none) m none b block phis s) (j : InstId) :
    s.values j = none := by
  by_cases hj : j ∈ phis
  · obtain ⟨d, ⟨incoming, v, source, _, chosen, _⟩, _⟩ := e.new j hj
    have := List.find?_some chosen
    simp at this
  · exact e.kept j hj

theorem blockOf_phi (e : f.Enters given values m source b block phis s)
    (consistent : f.Consistent) {j : InstId} (hj : j ∈ phis) : f.blockOf j = some b :=
  (consistent.mem_insts_iff e.hblock).mp (e.rest ▸ List.mem_append_left _ hj)

/-- The phis of a block that some threads miss are not uniform. -/
theorem not_uniform_of_away (e : f.Enters given values m source b block phis s)
    (consistent : f.Consistent) (away : ¬ f.Common found b) :
    ∀ j ∈ phis, ¬ f.Uniform found j := by
  rintro j hj ⟨-, b', place, common⟩
  obtain rfl : b = b' := by simpa [e.blockOf_phi consistent hj] using place
  exact away common

/-- Nor are those of a block where threads meet. -/
theorem not_uniform_of_meets (e : f.Enters given values m source b block phis s)
    (a : f.Analyzed selector level dim found ops accesses) (consistent : f.Consistent) {h : Nat}
    (splits : f.Splits found h b.index) : ∀ j ∈ phis, ¬ f.Uniform found j := by
  rintro j hj ⟨notDivergent, -⟩
  obtain ⟨i, hi, place, parent⟩ := splits
  obtain ⟨_, _, op, _, _, divergent, hop, isBranch⟩ := (a.mem_branches consistent).mp hi
  exact notDivergent (a.phi_mem divergent hop isBranch place parent e.hphis hj)

end Enters

theorem Placed.blockOf_head {g : Graph} (p : f.Placed g s) (consistent : f.Consistent)
    {i : InstId} {rest : List InstId} (head : s.rest = i :: rest) : f.blockOf i = some s.block := by
  obtain ⟨block, before, hb, shape⟩ := p.rest
  exact (consistent.mem_insts_iff hb).mp (by simp [shape, head])

/-! ### Taking values -/

theorem mem_assigned_compute {i j : InstId} {rest : List InstId} {inst : Inst}
    (head : s.rest = i :: rest) (hi : f.inst i = .ok inst) (plain : inst.op.isTerminator = false) :
    j ∈ f.assigned s s' ↔ j = i := by
  simp [assigned, head, operation, hi, plain, Functor.map, Except.map]

theorem mem_assigned_leave {i j : InstId} {rest phis : List InstId} {inst : Inst}
    (head : s.rest = i :: rest) (hi : f.inst i = .ok inst) (term : inst.op.isTerminator)
    (hphis : f.phis s'.block = .ok phis) : j ∈ f.assigned s s' ↔ j ∈ phis := by
  simp [assigned, head, operation, hi, term, hphis, Functor.map, Except.map, Except.toOption]

/-- What a step contributes to the values that an instruction takes. -/
theorem valuesTaken_next {i : InstId} {fuel : Nat} {taken : List Datum}
    (h : f.valuesTaken given i fuel (.next s) = some taken) :
    ∃ less later, fuel = less + 1 ∧ f.valuesTaken given i less (f.step given s) = some later ∧
      taken = f.takenIn i s (f.step given s) ++ later := by
  cases fuel with
  | zero => simp [valuesTaken] at h
  | succ less =>
    rw [valuesTaken, Option.map_eq_map, Option.map_eq_some_iff] at h
    obtain ⟨later, h, rfl⟩ := h
    exact ⟨less, later, rfl, h, rfl⟩

/-- A run in which an instruction takes values has a first state. -/
theorem exists_start {i : InstId} {fuel : Nat} {taken : List Datum}
    (h : f.valuesTaken given i fuel (f.begin given m) = some taken) :
    ∃ s, f.enter given (fun _ => none) m none f.entry = .ok s ∧ f.begin given m = .next s := by
  unfold begin at h ⊢
  cases start : f.enter given (fun _ => none) m none f.entry with
  | ok s => exact ⟨s, rfl, rfl⟩
  | error cause =>
    rw [start] at h
    cases fuel <;> simp [Transition.ofExcept, valuesTaken] at h

namespace Setting

/-- A thread that has strayed cannot return: it has to come to the block where the ways meet. -/
theorem not_finish_of_away (st : f.Setting selector level dim found ops accesses)
    (placed : f.Placed found.flow.graph s) (away : ¬ f.Common found s.block) {after : Memory} :
    f.step given s ≠ .finish after := by
  intro ends
  obtain ⟨j, rest, inst, value, head, hj, hop⟩ := step_eq_finish ends
  obtain ⟨start, e, splits, inside⟩ := Graph.not_common.mp away
  -- a block that returns leads nowhere, so that control would end before the ways meet
  refine (st.analyzed.divided st.consistent _ _ splits).not_isEnd inside ?_
  refine List.eq_nil_iff_forall_not_mem.mpr fun t ht => ?_
  have := (placed.edge st.analyzed.graph st.consistent st.flawless head hj
    (by simp [hop, Operation.isTerminator]) (t := ⟨t⟩)).mp ht
  simp [hop, Operation.successors] at this

/-- A step of a thread that has strayed gives no uniform instruction a value.  It stays in its
block or enters another. -/
theorem away_step (st : f.Setting selector level dim found ops accesses)
    (placed : f.Placed found.flow.graph s) (away : ¬ f.Common found s.block)
    (next : f.step given s = .next s') :
    (∀ i, f.Uniform found i → i ∉ f.assigned s s') ∧ f.Agree found s.values s'.values ∧
      (s'.block = s.block ∨
        s'.block.index ∈ found.flow.graph.next s.block.index ∧ f.AtStart s') := by
  cases step_eq_next next with
  | @compute j rest inst value memory head hj plain result after =>
    have other : ∀ k, f.Uniform found k → k ≠ j := by
      rintro k ⟨-, b, place, common⟩ rfl
      obtain rfl : s.block = b := by simpa [placed.blockOf_head st.consistent head] using place
      exact away common
    refine ⟨fun i uniform => ?_, fun k uniform => ?_, .inl (by rw [after])⟩
    · rw [mem_assigned_compute head hj plain]
      exact other i uniform
    · simp [after, Values.set, other k uniform]
  | @leave j rest inst target head hj term goes enters =>
    obtain ⟨block, phis, e⟩ := enter_eq_ok enters
    have edge := (placed.edge st.analyzed.graph st.consistent st.flawless head hj term).mpr
      (Operation.target?_mem goes)
    have none : ∀ k ∈ phis, ¬ f.Uniform found k := by
      by_cases common : f.Common found target
      · -- the way leaves what it was inside of, which ends in this block
        obtain ⟨start, meet, splits, inside⟩ := Graph.not_common.mp away
        have same := inside.leave edge (common start meet splits)
        exact e.not_uniform_of_meets st.analyzed st.consistent (same ▸ splits)
      · exact e.not_uniform_of_away st.consistent common
    refine ⟨fun i uniform hi => ?_, e.agree none, .inr ⟨e.here ▸ edge, e.atStart⟩⟩
    exact none i ((mem_assigned_leave head hj term (e.here ▸ e.hphis)).mp hi) uniform

/-- A thread that has strayed comes to a common block, and no uniform instruction has taken a
value on the way. -/
theorem strays (st : f.Setting selector level dim found ops accesses)
    (v : f.Visits given (f.begin given m) s) (away : ¬ f.Common found s.block) {i : InstId}
    (uniform : f.Uniform found i) {fuel : Nat} {taken : List Datum}
    (h : f.valuesTaken given i fuel (.next s) = some taken) :
    ∃ less s', less < fuel ∧ f.Visits given (f.begin given m) s' ∧
      found.flow.graph.Strays (f.Splits found) s.block.index s'.block.index ∧ f.AtStart s' ∧
        f.Agree found s.values s'.values ∧
          f.valuesTaken given i less (.next s') = some taken := by
  induction fuel generalizing s taken with
  | zero => simp [valuesTaken] at h
  | succ fuel ih =>
    obtain ⟨less, later, same, rest, rfl⟩ := valuesTaken_next h
    obtain rfl : fuel = less := by omega
    have placed := v.placed st.analyzed.graph st.consistent st.flawless
    cases next : f.step given s with
    | trap cause => simp [next, valuesTaken] at rest
    | finish after => exact absurd next (st.not_finish_of_away placed away)
    | next s' =>
      obtain ⟨none, agree, goes⟩ := st.away_step placed away next
      rw [next] at rest
      have skip : f.takenIn i s (.next s') ++ later = later := by
        simp [takenIn, none i uniform]
      rw [skip]
      rcases goes with here | ⟨edge, start⟩
      · obtain ⟨less, s'', lt, visits, strays, start, agree', taken⟩ :=
          ih (v.step next) (here ▸ away) rest
        exact ⟨less, s'', by omega, visits, here ▸ strays, start, agree.trans agree', taken⟩
      · by_cases common : f.Common found s'.block
        · exact ⟨fuel, s', by omega, v.step next, .arrive away edge common, start, agree, rest⟩
        · obtain ⟨less, s'', lt, visits, strays, start, agree', taken⟩ :=
            ih (v.step next) common rest
          exact ⟨less, s'', by omega, visits, .go away edge strays, start, agree.trans agree',
            taken⟩

/-- A thread at the start of a block comes to a common block, at once or later. -/
theorem arrives (st : f.Setting selector level dim found ops accesses)
    (v : f.Visits given (f.begin given m) s) (start : f.AtStart s) {i : InstId}
    (uniform : f.Uniform found i) {fuel : Nat} {taken : List Datum}
    (h : f.valuesTaken given i fuel (.next s) = some taken) :
    ∃ less s', less ≤ fuel ∧ f.Visits given (f.begin given m) s' ∧
      found.flow.graph.Arrives (f.Splits found) s.block.index s'.block.index ∧ f.AtStart s' ∧
        f.Agree found s.values s'.values ∧
          f.valuesTaken given i less (.next s') = some taken := by
  by_cases common : f.Common found s.block
  · exact ⟨fuel, s, le_refl _, v, .here common, start, fun _ _ => rfl, h⟩
  · obtain ⟨less, s', lt, visits, strays, start', agree, taken⟩ := st.strays v common uniform h
    exact ⟨less, s', lt.le, visits, .strays strays, start', agree, taken⟩

/-- Two threads that agree and are bound for the same common block are together there. -/
theorem meet (st : f.Setting selector level dim found ops accesses)
    (v : f.Visits given (f.begin given m) s) (v' : f.Visits given' (f.begin given' m') s')
    (start : f.AtStart s) (start' : f.AtStart s') (agree : f.Agree found s.values s'.values)
    (bound : ∀ n n', found.flow.graph.Arrives (f.Splits found) s.block.index n →
      found.flow.graph.Arrives (f.Splits found) s'.block.index n' → n = n')
    {i : InstId} (uniform : f.Uniform found i) {fuel fuel' : Nat} {taken taken' : List Datum}
    (h : f.valuesTaken given i fuel (.next s) = some taken)
    (h' : f.valuesTaken given' i fuel' (.next s') = some taken') :
    ∃ less less' t t', less ≤ fuel ∧ f.Visits given (f.begin given m) t ∧
      f.Visits given' (f.begin given' m') t' ∧ f.Together found t t' ∧
        f.valuesTaken given i less (.next t) = some taken ∧
          f.valuesTaken given' i less' (.next t') = some taken' := by
  obtain ⟨less, t, le, visits, arrives, ⟨block, phis, hb, hp, shape⟩, kept, h⟩ :=
    st.arrives v start uniform h
  obtain ⟨less', t', -, visits', arrives', ⟨block', phis', hb', hp', shape'⟩, kept', h'⟩ :=
    st.arrives v' start' uniform h'
  have here : t.block = t'.block := BlockId.index_inj.mp (bound _ _ arrives arrives')
  refine ⟨less, less', t, t', le, visits, visits', ⟨here, ?_, arrives.common, ?_⟩, h, h'⟩
  · rw [here, hb', Except.ok.injEq] at hb
    rw [here, hp', Except.ok.injEq] at hp
    subst hb hp
    exact List.append_cancel_left (shape.symm.trans shape')
  · exact (kept.symm.trans agree).trans kept'

/-- Threads that are together have the same operands for an instruction that is uniform. -/
theorem operands_eq (st : f.Setting selector level dim found ops accesses)
    (alike : given.Alike level dim given') (placed : f.Placed found.flow.graph s)
    (t : f.Together found s s') {j : InstId} {rest : List InstId} {inst : Inst}
    (head : s.rest = j :: rest) (hj : f.inst j = .ok inst) (plain : inst.op.isPhi = false)
    (uniform : f.Uniform found j) :
    ∀ w ∈ inst.op.operands, w.datum given s.values = w.datum given' s'.values := by
  intro w hw
  refine Value.datum_congr alike.args alike.globals fun x same => ?_
  have reads : x ∈ inst.op.usedInsts := List.mem_filterMap.mpr ⟨w, hw, by simp [same, Value.inst?]⟩
  have hop : f.operation j = .ok inst.op := by simp [operation, hj, Functor.map, Except.map]
  obtain ⟨block, before, hb, shape⟩ := placed.rest
  have available :=
    available_of_scoped st.inScope placed.reached hb (head ▸ shape) hop plain reads
  exact t.agree x (st.operand uniform hop reads t.common placed.reached available)

/-- Threads that are together compute the same for an instruction that is uniform. -/
theorem result_eq (st : f.Setting selector level dim found ops accesses)
    (alike : given.Alike level dim given') {words : Address → Option Int64}
    (loads : f.LoadsFrom given m words) (loads' : f.LoadsFrom given' m' words)
    (v : f.Visits given (f.begin given m) s) (v' : f.Visits given' (f.begin given' m') s')
    (t : f.Together found s s') {j : InstId} {rest : List InstId} {inst : Inst}
    (head : s.rest = j :: rest) (hj : f.inst j = .ok inst) (uniform : f.Uniform found j)
    {d d' : Datum} {after after' : Memory}
    (result : inst.op.execute given f s.values s.memory j = .ok (d, after))
    (result' : inst.op.execute given' f s'.values s'.memory j = .ok (d', after')) : d = d' := by
  have placed := v.placed st.analyzed.graph st.consistent st.flawless
  have hop : f.operation j = .ok inst.op := by simp [operation, hj, Functor.map, Except.map]
  have plain : inst.op.isPhi = false := by
    cases op : inst.op with
    | phi incoming => simp [op, Operation.execute] at result
    | _ => rfl
  have operands := st.operands_eq alike placed t head hj plain uniform
  refine Operation.execute_congr operands ?_ ?_ result result'
  · intro callee args r e call reads
    -- the merged identity is the one register that may differ, and a read of it is divergent
    refine alike.registers r e fun same => uniform.1 ?_
    obtain ⟨rfl, rfl⟩ := Prod.mk.injEq .. ▸ same
    exact st.analyzed.identity_mem st.consistent st.included
      (placed.blockOf_head st.consistent head) (call ▸ hop) reads
  · intro p a load address
    have address' := operands p (by simp [load, Operation.operands]) ▸ address
    rw [loads s v j rest p a head (load ▸ hop) address,
      loads' s' v' j rest p a (t.rest ▸ head) (load ▸ hop) address']

/-- Threads that go on together to a common block are together there. -/
theorem enter_together (st : f.Setting selector level dim found ops accesses)
    (alike : given.Alike level dim given') (placed : f.Placed found.flow.graph s)
    (t : f.Together found s s') {b : BlockId} (common : f.Common found b)
    (reached : found.flow.graph.Reaches f.entry.index b.index) {block block' : Block}
    {phis phis' : List InstId} {a a' : ThreadState}
    (e : f.Enters given s.values s.memory (some s.block) b block phis a)
    (e' : f.Enters given' s'.values s'.memory (some s'.block) b block' phis' a') :
    f.Together found a a' := by
  obtain rfl : block = block' := by simpa [e.hblock] using e'.hblock
  obtain rfl : phis = phis' := by simpa [e.hphis] using e'.hphis
  refine ⟨e.here.trans e'.here.symm, List.append_cancel_left (e.rest.symm.trans e'.rest),
    e.here ▸ common, fun y uniform => ?_⟩
  by_cases isPhi : y ∈ phis
  · obtain ⟨d, ⟨incoming, w, source, hop, chosen, value⟩, taken⟩ := e.new y isPhi
    obtain ⟨d', ⟨incoming', w', source', hop', chosen', value'⟩, taken'⟩ := e'.new y isPhi
    obtain rfl : incoming = incoming' := by simpa [hop] using hop'
    rw [← t.block, chosen, Option.some.injEq, Prod.mk.injEq] at chosen'
    obtain ⟨rfl, rfl⟩ := chosen'
    -- the phi reads at the end of the block that both threads come from
    have here : source = s.block := by simpa using List.find?_some chosen
    have listed := here ▸ List.mem_of_find?_eq_some chosen
    have same : w.datum given s.values = w.datum given' s'.values := by
      refine Value.datum_congr alike.args alike.globals fun x isInst => ?_
      have reads : x ∈ (Operation.phi incoming).usedInsts :=
        List.mem_filterMap.mpr ⟨w, List.mem_map.mpr ⟨_, listed, rfl⟩, by simp [isInst, Value.inst?]⟩
      obtain ⟨n, hn⟩ := List.mem_iff_getElem?.mp isPhi
      have place : block.insts[n]? = some y := by
        rw [e.rest, List.getElem?_append_left (List.getElem?_eq_some_iff.mp hn).1, hn]
      obtain ⟨last, _, hlast, _⟩ := placed.rest
      have available := st.inScope b block n y _ reached e.hblock place hop x s.block
        (isInst ▸ listed) last hlast
      exact t.agree x (st.operand uniform hop reads t.common placed.reached available)
    rw [taken, taken']
    exact congrArg some (Except.ok.inj (value.symm.trans (same.trans value')))
  · rw [e.kept y isPhi, e'.kept y isPhi]
    exact t.agree y uniform

/-- Threads that are together and leave for different blocks do so at a divergent branch. -/
theorem splits_of_part (st : f.Setting selector level dim found ops accesses)
    (alike : given.Alike level dim given') (placed : f.Placed found.flow.graph s)
    (t : f.Together found s s') {j : InstId} {rest : List InstId} {inst : Inst}
    (head : s.rest = j :: rest) (hj : f.inst j = .ok inst) {target target' : BlockId}
    (goes : inst.op.target? given s.values = some target)
    (goes' : inst.op.target? given' s'.values = some target') (part : target ≠ target') :
    ∃ e, f.Splits found s.block.index e := by
  have hop : f.operation j = .ok inst.op := by simp [operation, hj, Functor.map, Except.map]
  have place := placed.blockOf_head st.consistent head
  cases op : inst.op with
  | branch c yes no =>
    -- a uniform branch has the same condition for both threads
    have divergent : j ∈ found.divergence.set := by
      by_contra notDivergent
      have operands := st.operands_eq alike placed t head hj (by simp [op, Operation.isPhi])
        ⟨notDivergent, s.block, place, t.common⟩
      have cond := operands c (by simp [op, Operation.operands])
      simp only [op, Operation.target?, Value.number, cond] at goes goes'
      exact part (Option.some.inj (goes.symm.trans goes'))
    have body := st.consistent.isDeclaration_of_blockOf place
    refine st.analyzed.splits st.consistent (i := j) ?_ place
    exact (st.analyzed.mem_branches st.consistent).mpr
      ⟨body, s.block, _, placed.reached, place, divergent, hop, by simp [op, Operation.isBranch]⟩
  | jump only =>
    simp only [op, Operation.target?, Option.some.injEq] at goes goes'
    exact absurd (goes.symm.trans goes') part
  | _ => simp [op, Operation.target?] at goes

/-- The block behind a divergent branch has no uniform phis: the ways of the branch meet there,
or some threads miss it. -/
theorem not_uniform_of_split (st : f.Setting selector level dim found ops accesses) {h e : Nat}
    (splits : f.Splits found h e) {b : BlockId} (edge : b.index ∈ found.flow.graph.next h)
    {values : Values} {source : Option BlockId} {block : Block} {phis : List InstId}
    (enters : f.Enters given values m source b block phis s) :
    ∀ j ∈ phis, ¬ f.Uniform found j := by
  by_cases common : f.Common found b
  · rcases Graph.MeetsAt.inside_or (e := e) edge with inside | rfl
    · exact absurd inside (common h e splits)
    · exact enters.not_uniform_of_meets st.analyzed st.consistent splits
  · exact enters.not_uniform_of_away st.consistent common

/-- Threads that are together and compute the next instruction stay together. -/
theorem compute_together (st : f.Setting selector level dim found ops accesses)
    (alike : given.Alike level dim given') {words : Address → Option Int64}
    (loads : f.LoadsFrom given m words) (loads' : f.LoadsFrom given' m' words)
    (v : f.Visits given (f.begin given m) s) (v' : f.Visits given' (f.begin given' m') s')
    (t : f.Together found s s') {j : InstId} {rest : List InstId} {inst : Inst}
    (head : s.rest = j :: rest) (hj : f.inst j = .ok inst) {d d' : Datum}
    {memory memory' : Memory}
    (result : inst.op.execute given f s.values s.memory j = .ok (d, memory))
    (result' : inst.op.execute given' f s'.values s'.memory j = .ok (d', memory')) :
    f.Together found
      { s with rest, values := s.values.set j (d.fit inst.ty), memory := memory }
      { s' with rest, values := s'.values.set j (d'.fit inst.ty), memory := memory' } := by
  refine ⟨t.block, rfl, t.common, fun y uniform => ?_⟩
  by_cases here : y = j
  · subst here
    have same := st.result_eq alike loads loads' v v' t head hj uniform result result'
    simp [Values.set, same]
  · simpa [Values.set, here] using t.agree y uniform

/-- Threads that are together and leave their block stay together if they go on to the same
common block.  Otherwise they part: to a block that some threads miss, or at a divergent
branch. -/
theorem leave_together (st : f.Setting selector level dim found ops accesses)
    (alike : given.Alike level dim given') (placed : f.Placed found.flow.graph s)
    (t : f.Together found s s') {j : InstId} {rest : List InstId} {inst : Inst}
    (head : s.rest = j :: rest) (hj : f.inst j = .ok inst) (term : inst.op.isTerminator)
    {target target' : BlockId} (goes : inst.op.target? given s.values = some target)
    (goes' : inst.op.target? given' s'.values = some target') {a a' : ThreadState}
    (enters : f.enter given s.values s.memory (some s.block) target = .ok a)
    (enters' : f.enter given' s'.values s'.memory (some s'.block) target' = .ok a') :
    f.Together found a a' ∧ (∀ i, i ∈ f.assigned s a ↔ i ∈ f.assigned s' a') ∨
      f.Parted found s s' a a' := by
  have divided := st.analyzed.divided st.consistent
  have edges := fun b => placed.edge st.analyzed.graph st.consistent st.flawless head hj term (t := b)
  have edge := (edges target).mpr (Operation.target?_mem goes)
  have edge' := (edges target').mpr (Operation.target?_mem goes')
  obtain ⟨block, phis, e⟩ := enter_eq_ok enters
  obtain ⟨block', phis', e'⟩ := enter_eq_ok enters'
  have assigned := fun i => mem_assigned_leave (j := i) head hj term (e.here ▸ e.hphis)
  have assigned' := fun i =>
    mem_assigned_leave (j := i) (t.rest ▸ head) hj term (e'.here ▸ e'.hphis)
  -- threads part where neither enters a block with uniform phis and both are bound for one block
  have parted : (∀ i ∈ phis, ¬ f.Uniform found i) → (∀ i ∈ phis', ¬ f.Uniform found i) →
      (∀ n n', found.flow.graph.Arrives (f.Splits found) target.index n →
        found.flow.graph.Arrives (f.Splits found) target'.index n' → n = n') →
      f.Parted found s s' a a' := by
    intro none none' bound
    refine ⟨fun i uniform => ⟨fun hi => ?_, fun hi => ?_⟩, e.atStart, e'.atStart, ?_, ?_⟩
    · exact none i ((assigned i).mp hi) uniform
    · exact none' i ((assigned' i).mp hi) uniform
    · exact ((e.agree none).symm.trans t.agree).trans (e'.agree none')
    · rw [e.here, e'.here]
      exact bound
  by_cases same : target = target'
  · subst same
    by_cases common : f.Common found target
    · have reached := placed.reached.trans ⟨_, .go edge (.stay _)⟩
      refine .inl ⟨st.enter_together alike placed t common reached e e', fun i => ?_⟩
      rw [assigned i, assigned' i, Except.ok.inj (e.hphis.symm.trans e'.hphis)]
    · exact .inr (parted (e.not_uniform_of_away st.consistent common)
        (e'.not_uniform_of_away st.consistent common)
        fun n n' arrives arrives' => arrives.unique divided arrives')
  · obtain ⟨meet, splits⟩ := st.splits_of_part alike placed t head hj goes goes' same
    exact .inr (parted (st.not_uniform_of_split splits edge e)
      (st.not_uniform_of_split splits edge' e')
      fun n n' arrives arrives' => arrives.unique_of_start divided splits edge edge' arrives')

/-- What a step of two threads that are together comes to. -/
theorem step_together (st : f.Setting selector level dim found ops accesses)
    (alike : given.Alike level dim given') {words : Address → Option Int64}
    (loads : f.LoadsFrom given m words) (loads' : f.LoadsFrom given' m' words)
    (v : f.Visits given (f.begin given m) s) (v' : f.Visits given' (f.begin given' m') s')
    (t : f.Together found s s') {a a' : ThreadState} (next : f.step given s = .next a)
    (next' : f.step given' s' = .next a') :
    f.Together found a a' ∧ (∀ i, i ∈ f.assigned s a ↔ i ∈ f.assigned s' a') ∨
      f.Parted found s s' a a' := by
  have placed := v.placed st.analyzed.graph st.consistent st.flawless
  -- both threads execute the same instruction, so the two steps are of one kind
  have same : ∀ {j j' rest rest' inst inst'}, s.rest = j :: rest → f.inst j = .ok inst →
      s'.rest = j' :: rest' → f.inst j' = .ok inst' → j = j' ∧ rest = rest' ∧ inst = inst' := by
    intro j j' rest rest' inst inst' head hj head' hj'
    obtain ⟨rfl, rfl⟩ : j = j' ∧ rest = rest' := by simpa [t.rest, head'] using head.symm
    exact ⟨rfl, rfl, by simpa [hj] using hj'⟩
  cases step_eq_next next with
  | compute head hj plain result after =>
    cases step_eq_next next' with
    | compute head' hj' plain' result' after' =>
      obtain ⟨rfl, rfl, rfl⟩ := same head hj head' hj'
      subst after after'
      refine .inl ⟨st.compute_together alike loads loads' v v' t head hj result result', fun i => ?_⟩
      rw [mem_assigned_compute head hj plain, mem_assigned_compute head' hj plain]
    | leave head' hj' term' goes' enters' =>
      obtain ⟨rfl, rfl, rfl⟩ := same head hj head' hj'
      simp [plain] at term'
  | leave head hj term goes enters =>
    cases step_eq_next next' with
    | compute head' hj' plain' result' after' =>
      obtain ⟨rfl, rfl, rfl⟩ := same head hj head' hj'
      simp [plain'] at term
    | leave head' hj' term' goes' enters' =>
      obtain ⟨rfl, rfl, rfl⟩ := same head hj head' hj'
      exact st.leave_together alike placed t head hj term goes goes' enters enters'

/-- Threads that are together take the same values from there on. -/
theorem lockstep (st : f.Setting selector level dim found ops accesses)
    (alike : given.Alike level dim given') {words : Address → Option Int64}
    (loads : f.LoadsFrom given m words) (loads' : f.LoadsFrom given' m' words)
    (v : f.Visits given (f.begin given m) s) (v' : f.Visits given' (f.begin given' m') s')
    (t : f.Together found s s') {i : InstId} (uniform : f.Uniform found i) {fuel fuel' : Nat}
    {taken taken' : List Datum} (h : f.valuesTaken given i fuel (.next s) = some taken)
    (h' : f.valuesTaken given' i fuel' (.next s') = some taken') : taken = taken' := by
  -- the first thread has fewer steps to go each time the two are together
  induction fuel using Nat.strongRecOn generalizing s s' fuel' taken taken' with
  | _ fuel ih =>
    obtain ⟨less, later, rfl, rest, rfl⟩ := valuesTaken_next h
    obtain ⟨less', later', rfl, rest', rfl⟩ := valuesTaken_next h'
    cases next : f.step given s with
    | trap cause => simp [next, valuesTaken] at rest
    | finish after =>
      have next' := step_finish_congr given' t.rest next
      obtain rfl : [] = later := by simpa [next, valuesTaken] using rest
      obtain rfl : [] = later' := by simpa [next', valuesTaken] using rest'
      simp [next', takenIn]
    | next a =>
      cases next' : f.step given' s' with
      | trap cause => simp [next', valuesTaken] at rest'
      | finish after =>
        have := step_finish_congr given t.rest.symm next'
        simp [next] at this
      | next a' =>
        rw [next] at rest
        rw [next'] at rest'
        rcases st.step_together alike loads loads' v v' t next next' with
          ⟨together, same⟩ | parted
        · have := ih less (by omega) (v.step next) (v'.step next') together rest rest'
          simp [takenIn, same, together.agree i uniform, this]
        · obtain ⟨fewer, fewer', b, b', le, w, w', together, rest, rest'⟩ :=
            st.meet (v.step next) (v'.step next') parted.start parted.start' parted.agree
              parted.bound uniform rest rest'
          have := ih fewer (by omega) w w' together rest rest'
          simp [takenIn, parted.none i uniform, this]

end Setting

/-- Threads that differ at most in the merged identity agree on what is not divergent and lies
in no region, if every value that escapes from a loop makes its readers divergent. -/
theorem takes_unique (consistent : f.Consistent) (flawless : f.firstFlaw? = .ok none)
    (h : f.analyze selector shared level dim = .ok (.ok found)) (included : selector.includes dim)
    (inScope : f.Scoped found.flow.graph)
    (kept : ∀ x y, f.Escapes found x y → y ∈ found.divergence.set)
    (alike : given.Alike level dim given') {words : Address → Option Int64}
    (loads : f.LoadsFrom given m words) (loads' : f.LoadsFrom given' m' words) {i : InstId}
    {b : BlockId} (notDivergent : i ∉ found.divergence.set) (place : f.blockOf i = some b)
    (outside : ∀ r ∈ found.divergence.regions, b ∉ r.blocks) {taken taken' : List Datum}
    (takes : f.Takes given m i taken) (takes' : f.Takes given' m' i taken') : taken = taken' := by
  obtain ⟨ops, accesses, analyzed⟩ := f.analyzed h
  have st : f.Setting selector level dim found ops accesses :=
    ⟨consistent, flawless, analyzed, included, inScope, kept⟩
  have uniform : f.Uniform found i :=
    ⟨notDivergent, b, place, analyzed.common_of_outside consistent outside⟩
  obtain ⟨fuel, takes⟩ := takes
  obtain ⟨fuel', takes'⟩ := takes'
  obtain ⟨s, start, begins⟩ := exists_start takes
  obtain ⟨s', start', begins'⟩ := exists_start takes'
  obtain ⟨block, phis, e⟩ := enter_eq_ok start
  obtain ⟨block', phis', e'⟩ := enter_eq_ok start'
  -- no value is there before the first step
  have agree : f.Agree found s.values s'.values := by
    intro x _
    rw [e.values_of_entry, e'.values_of_entry]
  have v : f.Visits given (f.begin given m) s := begins ▸ .here s
  have v' : f.Visits given' (f.begin given' m') s' := begins' ▸ .here s'
  rw [begins] at takes
  rw [begins'] at takes'
  obtain ⟨less, less', t, t', -, visits, visits', together, rest, rest'⟩ :=
    st.meet v v' e.atStart e'.atStart agree (fun n n' arrives arrives' => by
      rw [e.here] at arrives
      rw [e'.here] at arrives'
      exact arrives.unique (analyzed.divided consistent) arrives') uniform takes takes'
  exact st.lockstep alike loads loads' visits visits' together uniform rest rest'

/-- A run of a function without loads finds whatever a table says. -/
theorem loadsFrom_of_none (none : f.insts.toList.all fun inst => !inst.op matches .load _)
    (words : Address → Option Int64) : f.LoadsFrom given m words := by
  intro s _ i rest p a _ hop _
  unfold operation at hop
  obtain ⟨inst, hi, load⟩ := map_eq_ok_iff.mp hop
  have listed := (Array.mem_of_getElem? (inst_eq_ok_iff.mp hi)).val
  have := List.all_eq_true.mp none inst listed
  simp [load] at this

end Func

/-! ### A guarded store -/

/-- A thread of a block of two along `x`. -/
def threadOfTwo (n : Nat) : Surroundings where
  position := ⟨⟨n, 0, 0⟩, ⟨0, 0, 0⟩, ⟨2, 1, 1⟩, ⟨1, 1, 1⟩⟩
  args := [.address ⟨0, 0⟩, .number 0]
  globals := []

theorem alike_threadsOfTwo (n n' : Nat) : (threadOfTwo n).Alike .thread .x (threadOfTwo n') where
  args := rfl
  globals := rfl
  registers := by
    intro r d other
    cases r <;> cases d <;> first | rfl | exact absurd rfl other

/-- One of two threads stores a number that both compute, and both go on with it. -/
def guarded : Func := .assemble "guarded" [⟨"out", .ptr .global⟩, ⟨"n", .i32⟩] [
  ("entry", [
    ⟨.call "llvm.nvvm.read.ptx.sreg.tid.x" [], .i32, "t"⟩,
    ⟨.binary .add (.arg 1) (.const 1), .i32, "u"⟩,
    ⟨.compare .slt (.inst ⟨0⟩) (.inst ⟨1⟩), .i1, "c"⟩,
    ⟨.branch (.inst ⟨2⟩) ⟨1⟩ ⟨2⟩, .void, ""⟩]),
  ("body", [
    ⟨.element (.arg 0) (.inst ⟨0⟩), .ptr .global, "p"⟩,
    ⟨.store (.inst ⟨4⟩) (.inst ⟨1⟩), .void, ""⟩,
    ⟨.jump ⟨2⟩, .void, ""⟩]),
  ("join", [⟨.jump ⟨3⟩, .void, ""⟩]),
  ("exit", [
    ⟨.binary .add (.inst ⟨1⟩) (.inst ⟨1⟩), .i32, "w"⟩,
    ⟨.ret none, .void, ""⟩])]

/-- What the analysis finds in the guarded store. -/
def guardedFound : DivergentFunc where
  func := guarded
  flow :=
    { graph := ⟨#[[1, 2], [2], [3], []], by decide⟩
      dom := ⟨#[some 0, some 0, some 0, some 2]⟩
      pdom := ⟨#[some 2, some 2, some 3, some 4, some 4], 4⟩
      loops := ⟨[]⟩ }
  grid := ⟨[(⟨0⟩, .threadId, .x)], []⟩
  divergence :=
    { level := .thread
      dim := .x
      set := [⟨5⟩, ⟨4⟩, ⟨3⟩, ⟨2⟩, ⟨0⟩]
      placed := [(⟨0⟩, ⟨0⟩), (⟨2⟩, ⟨0⟩), (⟨3⟩, ⟨0⟩), (⟨4⟩, ⟨1⟩), (⟨5⟩, ⟨1⟩)]
      branches := [⟨3⟩]
      regions := [⟨⟨0⟩, ⟨2⟩, [⟨0⟩, ⟨1⟩, ⟨2⟩], [⟨1⟩], []⟩]
      reads := [⟨0⟩] }

theorem analyze_guarded : guarded.analyze (.only .x) [] .thread .x = .ok (.ok guardedFound) :=
  Func.analyze_eq_ok_iff.mpr ⟨by cbv, by rfl, by cbv, rfl⟩

/-- Nothing escapes from a function that does not come back to its only branch. -/
theorem not_escapes_guarded (x y : InstId) : ¬ guarded.Escapes guardedFound x y := by
  rintro ⟨⟨h, e, j, ⟨i, hi, place, -⟩, -, ⟨t, edge, before⟩, dom⟩, -⟩
  obtain rfl : i = ⟨3⟩ := by simpa [guardedFound] using hi
  obtain rfl : 0 = h := by simpa [show guarded.blockOf ⟨3⟩ = some ⟨0⟩ by decide] using place
  have first : j.index = 0 := by simpa using dom _ (.stay 0)
  have noSource : ∀ u, 0 ∉ guardedFound.flow.graph.next u := by
    intro u hu
    have none : guardedFound.flow.graph.sources 0 = [] := by decide
    exact absurd (Graph.mem_sources.mpr hu) (by simp [none])
  have start : ∀ {u v : Nat} {nodes : List Nat}, guardedFound.flow.graph.Path u v nodes →
      v = 0 → u = 0 := by
    intro u v nodes p
    induction p with
    | stay v => exact id
    | @go u w v nodes edge _ ih =>
      intro last
      exact absurd (ih last ▸ edge) (noSource u)
  obtain ⟨nodes, p⟩ := before.reaches
  exact noSource 0 (start p first ▸ edge)

/-- The two threads compute the same number behind the guarded store. -/
theorem takes_guarded : ∃ taken, guarded.Takes (threadOfTwo 0) ⟨[[0, 0]]⟩ ⟨8⟩ taken ∧
    guarded.Takes (threadOfTwo 1) ⟨[[0, 0]]⟩ ⟨8⟩ taken := by
  have graph : guarded.graph = .ok guardedFound.flow.graph := by cbv
  have first : guarded.Takes (threadOfTwo 0) ⟨[[0, 0]]⟩ ⟨8⟩ [.number 2] := ⟨20, by rfl⟩
  obtain ⟨taken, second⟩ : ∃ taken, guarded.Takes (threadOfTwo 1) ⟨[[0, 0]]⟩ ⟨8⟩ taken :=
    ⟨_, 20, by rfl⟩
  have same := Func.takes_unique (Func.consistent_assemble ..) (by cbv) analyze_guarded rfl
    ((Func.scoped_iff (by decide) (by decide) graph).mpr (by cbv))
    (fun x y escapes => absurd escapes (not_escapes_guarded x y)) (alike_threadsOfTwo 0 1)
    (Func.loadsFrom_of_none (by decide) fun _ => none)
    (Func.loadsFrom_of_none (by decide) fun _ => none) (i := ⟨8⟩) (b := ⟨3⟩) (by decide)
    (by decide) (by decide) first second
  exact ⟨taken, same ▸ first, second⟩

/-! ### A loop that is left late -/

/-- A loop that threads leave in the round of their own number, by a branch that is not
divergent itself.  What the loop counts is read behind it. -/
def lateExit : Func := .assemble "late_exit" [⟨"out", .ptr .global⟩, ⟨"n", .i32⟩] [
  ("entry", [
    ⟨.call "llvm.nvvm.read.ptx.sreg.tid.x" [], .i32, "t"⟩,
    ⟨.jump ⟨1⟩, .void, ""⟩]),
  ("head", [
    ⟨.phi [(.const 0, ⟨0⟩), (.inst ⟨3⟩, ⟨5⟩)], .i32, "i"⟩,
    ⟨.binary .add (.inst ⟨2⟩) (.const 1), .i32, "i1"⟩,
    ⟨.jump ⟨2⟩, .void, ""⟩]),
  ("test", [
    ⟨.compare .eq (.inst ⟨0⟩) (.inst ⟨2⟩), .i1, "c"⟩,
    ⟨.branch (.inst ⟨5⟩) ⟨3⟩ ⟨4⟩, .void, ""⟩]),
  ("leave", [
    ⟨.compare .eq (.arg 1) (.const 0), .i1, "u"⟩,
    ⟨.branch (.inst ⟨7⟩) ⟨6⟩ ⟨5⟩, .void, ""⟩]),
  ("skip", [⟨.jump ⟨5⟩, .void, ""⟩]),
  ("latch", [⟨.jump ⟨1⟩, .void, ""⟩]),
  ("exit", [
    ⟨.binary .add (.inst ⟨2⟩) (.const 10), .i32, "y"⟩,
    ⟨.element (.arg 0) (.inst ⟨0⟩), .ptr .global, "p"⟩,
    ⟨.store (.inst ⟨12⟩) (.inst ⟨11⟩), .void, ""⟩,
    ⟨.ret none, .void, ""⟩])]

/-- What the analysis finds in the loop that is left late. -/
def lateExitFound : DivergentFunc where
  func := lateExit
  flow :=
    { graph := ⟨#[[1], [2], [3, 4], [6, 5], [5], [1], []], by decide⟩
      dom := ⟨#[some 0, some 0, some 1, some 2, some 2, some 2, some 3]⟩
      pdom := ⟨#[some 1, some 2, some 3, some 6, some 5, some 1, some 7, some 7], 7⟩
      loops := ⟨[⟨⟨1⟩, [⟨1⟩, ⟨2⟩, ⟨3⟩, ⟨4⟩, ⟨5⟩], [⟨5⟩], none, 1⟩]⟩ }
  grid := ⟨[(⟨0⟩, .threadId, .x)], []⟩
  divergence :=
    { level := .thread
      dim := .x
      set := [⟨13⟩, ⟨12⟩, ⟨6⟩, ⟨5⟩, ⟨0⟩]
      placed := [(⟨0⟩, ⟨0⟩), (⟨5⟩, ⟨2⟩), (⟨6⟩, ⟨2⟩), (⟨12⟩, ⟨6⟩), (⟨13⟩, ⟨6⟩)]
      branches := [⟨6⟩]
      regions := [⟨⟨2⟩, ⟨3⟩, [⟨2⟩, ⟨3⟩, ⟨4⟩, ⟨5⟩, ⟨1⟩], [⟨2⟩], [⟨0⟩]⟩]
      reads := [⟨0⟩] }

theorem analyze_lateExit : lateExit.analyze (.only .x) [] .thread .x = .ok (.ok lateExitFound) :=
  Func.analyze_eq_ok_iff.mpr ⟨by cbv, by rfl, by cbv, rfl⟩

/-- An instruction that is not divergent and lies in no region takes different values for two
threads that differ in the merged identity only. -/
theorem takes_lateExit_differ :
    lateExit.Consistent ∧ lateExit.firstFlaw? = .ok none ∧
      lateExit.analyze (.only .x) [] .thread .x = .ok (.ok lateExitFound) ∧
      lateExit.Scoped lateExitFound.flow.graph ∧
      (threadOfTwo 0).Alike .thread .x (threadOfTwo 1) ∧
      lateExit.LoadsFrom (threadOfTwo 0) ⟨[[0, 0]]⟩ (fun _ => none) ∧
      lateExit.LoadsFrom (threadOfTwo 1) ⟨[[0, 0]]⟩ (fun _ => none) ∧
      ⟨11⟩ ∉ lateExitFound.divergence.set ∧ lateExit.blockOf ⟨11⟩ = some ⟨6⟩ ∧
      (∀ r ∈ lateExitFound.divergence.regions, ⟨6⟩ ∉ r.blocks) ∧
      lateExit.Takes (threadOfTwo 0) ⟨[[0, 0]]⟩ ⟨11⟩ [.number 10] ∧
      lateExit.Takes (threadOfTwo 1) ⟨[[0, 0]]⟩ ⟨11⟩ [.number 11] := by
  have graph : lateExit.graph = .ok lateExitFound.flow.graph := by cbv
  exact ⟨Func.consistent_assemble .., by cbv, analyze_lateExit,
    (Func.scoped_iff (by decide) (by decide) graph).mpr (by cbv), alike_threadsOfTwo 0 1,
    Func.loadsFrom_of_none (by decide) _, Func.loadsFrom_of_none (by decide) _, by decide,
    by decide, by decide, ⟨40, by rfl⟩, ⟨40, by rfl⟩⟩

end KernelCoarsening
