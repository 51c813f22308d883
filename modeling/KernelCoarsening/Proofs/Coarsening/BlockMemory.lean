/-
When merged blocks keep apart what they share.

A block that stands for several blocks has one instance of each shared global, where the blocks
have one each.  What all of them store there alike they may: the merged block stores it once, and
each of them would find the same.  What each stores for itself goes wrong only if another one
accesses the same place of its own instance, since in the merged block it is one place.  If this
does not happen, coarsening leaves in the common memory what the blocks leave:

* `Func.OwnShared` — blocks whose shared globals lie in different buffers;
* `Func.KeepsOutside` — a kernel leaves in the common memory what the blocks leave that it stands
  for;
* `Func.StartAlike` — the blocks and the merged one find the same in memory when they start;
* `Func.SharesApart` — no two blocks are in each other's way if they share one instance;
* `Func.InstanceOf` — the buffer of the merged block that stands for one of a block, and
  `Func.runs_inPlace` — a block that runs on the instances of the merged one;
* `Func.Merges.keepsCommon` — the merged block leaves the common memory that the blocks leave;
* `Func.coarsen_of_shares_apart` — so does what coarsening makes;
* `not_keepsOutside_stage` — it does not for a kernel that stores its block in shared memory and
  reads it again.
-/
import KernelCoarsening.Proofs.Coarsening.Lockstep
import KernelCoarsening.Proofs.Coarsening.Meaning
import KernelCoarsening.Proofs.Execution.Relocation

namespace KernelCoarsening

/-- The logical block number `k` that a block stands for, with globals of its own. -/
def CoarseningParams.block (c : CoarseningParams) (one : Surroundings) (globals : Nat → List Datum)
    (k : Nat) : Surroundings :=
  { c.thread one k with globals := globals k }

namespace Func

/-- Blocks with shared memory of their own: they agree on all globals but the shared ones, and
these start different buffers behind the first `n`, which are the common memory. -/
structure OwnShared (shared : List GlobalId) (n : Nat) (globals : Nat → List Datum) : Prop where
  same : ∀ j k, ∀ x : GlobalId, x ∉ shared → (globals j)[x.index]? = (globals k)[x.index]?
  own : ∀ k, ∀ x ∈ shared, ∃ b, n ≤ b ∧ (globals k)[x.index]? = some (.address ⟨b, 0⟩)
  apart : ∀ j k, ∀ x ∈ shared, ∀ y ∈ shared, (globals j)[x.index]? = (globals k)[y.index]? →
    j = k ∧ x = y

/-- A function does in the common memory what the blocks of another do that it stands for, each
with shared memory of its own: if their threads access different addresses and leave a memory,
then so does its thread, and the common parts agree.  The last of the `globals` are its own. -/
def KeepsOutside (f g : Func) (c : CoarseningParams) (shared : List GlobalId) : Prop :=
  ∀ p args n globals m m', OwnShared shared n globals →
    (∀ j < c.factor, ∀ k < c.factor, j ≠ k → ∀ a,
      f.Accesses ⟨c.logical p j, args, globals j⟩ m a →
        ¬ f.Accesses ⟨c.logical p k, args, globals k⟩ m a) →
    f.RunsAll ((List.range c.factor).map fun k => ⟨c.logical p k, args, globals k⟩) m m' →
      ∃ m'', g.Runs ⟨p, args, globals c.factor⟩ m m'' ∧
        m''.buffers.take n = m'.buffers.take n

/-- Blocks that start alike: arguments and common globals lead to the first `n` buffers, and each
instance of a shared global has the contents of the one of the block `last`. -/
structure StartAlike (shared : List GlobalId) (n : Nat) (args : List Datum)
    (globals : Nat → List Datum) (last : Nat) (m : Memory) : Prop where
  given : ∀ a, .address a ∈ args → a.buffer < n
  others : ∀ x : GlobalId, x ∉ shared → ∀ a, (globals last)[x.index]? = some (.address a) →
    a.buffer < n
  contents : ∀ k < last, ∀ x ∈ shared, ∀ b b', (globals k)[x.index]? = some (.address ⟨b, 0⟩) →
    (globals last)[x.index]? = some (.address ⟨b', 0⟩) → m.buffers[b']? = m.buffers[b]?

/-- What a block writes to its instance of a shared global with an instruction of some kind, no
other block accesses at the same place of its own. -/
def SharesApart (f : Func) (P : InstId → Prop) (c : CoarseningParams) (shared : List GlobalId)
    (one : Surroundings) (globals : Nat → List Datum) (m : Memory) : Prop :=
  ∀ j < c.factor, ∀ k < c.factor, j ≠ k → ∀ x ∈ shared, ∀ b b' i,
    (globals j)[x.index]? = some (.address ⟨b, 0⟩) →
    (globals k)[x.index]? = some (.address ⟨b', 0⟩) →
    f.WritesVia P (c.block one globals j) m (b, i) →
      ¬ f.AccessesAt (c.block one globals k) m (b', i)

/-- What one block writes the others do not access. -/
def BlocksApart (f : Func) (c : CoarseningParams) (one : Surroundings) (globals : Nat → List Datum)
    (m : Memory) : Prop :=
  ∀ j < c.factor, ∀ k < c.factor, j ≠ k → ∀ w, f.WritesAt (c.block one globals j) m w →
    ¬ f.AccessesAt (c.block one globals k) m w

/-- A buffer of the block `last` stands for one of the block `k`: it is the same common buffer, or
both are instances of a shared global. -/
inductive InstanceOf (shared : List GlobalId) (n : Nat) (globals : Nat → List Datum)
    (last k : Nat) : Nat → Nat → Prop where
  | common {b : Nat} (h : b < n) : InstanceOf shared n globals last k b b
  | shared {x : GlobalId} {b b' : Nat} (mem : x ∈ shared)
      (own : (globals k)[x.index]? = some (.address ⟨b, 0⟩))
      (other : (globals last)[x.index]? = some (.address ⟨b', 0⟩)) :
      InstanceOf shared n globals last k b b'

variable {f g : Func} {c : CoarseningParams} {shared : List GlobalId} {n last k : Nat}
  {one : Surroundings} {globals : Nat → List Datum} {m : Memory}

/-! ### Instances -/

namespace OwnShared

variable (own : OwnShared shared n globals)
include own

/-- Instances of shared globals are not common. -/
theorem le_buffer {x : GlobalId} {b : Nat} (mem : x ∈ shared)
    (instance' : (globals k)[x.index]? = some (.address ⟨b, 0⟩)) : n ≤ b := by
  obtain ⟨b', hb, found⟩ := own.own k x mem
  obtain rfl : b' = b := by simpa [found] using instance'
  exact hb

/-- A common buffer stands for itself only. -/
theorem eq_of_common {b b' : Nat} (h : InstanceOf shared n globals last k b b') (common : b' < n) :
    b = b' := by
  cases h with
  | common _ => rfl
  | shared mem _ other =>
    have := own.le_buffer mem other
    omega

/-- Each buffer stands for one, and no two stand for the same. -/
theorem biUnique : Relator.BiUnique (InstanceOf shared n globals last k) := by
  constructor
  · intro a b b' ha hb
    cases ha with
    | common inside => exact (own.eq_of_common hb inside).symm
    | @shared x _ _ mem own' other =>
      cases hb with
      | common inside =>
        have := own.le_buffer mem other
        omega
      | @shared y _ _ mem' own'' other' =>
        obtain ⟨-, rfl⟩ := own.apart last last x mem y mem' (other.trans other'.symm)
        simpa [own'] using own''
  · intro a b b' ha hb
    cases ha with
    | common inside =>
      cases hb with
      | common _ => rfl
      | shared mem own' _ =>
        have := own.le_buffer mem own'
        omega
    | @shared x _ _ mem own' other =>
      cases hb with
      | common inside =>
        have := own.le_buffer mem own'
        omega
      | @shared y _ _ mem' own'' other' =>
        obtain ⟨-, rfl⟩ := own.apart k k x mem y mem' (own'.trans own''.symm)
        simpa [other] using other'

/-- A block and the thread that does the same on the instances of another block. -/
theorem moved (alike : StartAlike shared n one.args globals last m)
    (same : one.globals = globals last) :
    Surroundings.Moved (InstanceOf shared n globals last k) (c.block one globals k)
      (c.thread one k) where
  position := rfl
  args i := by
    show Option.Rel _ one.args[i]? one.args[i]?
    cases found : one.args[i]? with
    | none => exact .none
    | some d =>
      refine .some ?_
      cases d with
      | number v => exact .number v
      | address a => exact .address ⟨.common (alike.given a (List.mem_of_getElem? found)), rfl⟩
      | undefined => exact .undefined
  globals i := by
    show Option.Rel _ (globals k)[i]? one.globals[i]?
    rw [same]
    by_cases mem : (⟨i⟩ : GlobalId) ∈ shared
    · obtain ⟨b, -, hb⟩ := own.own k _ mem
      obtain ⟨b', -, hb'⟩ := own.own last _ mem
      rw [show (globals k)[i]? = _ from hb, show (globals last)[i]? = _ from hb']
      exact .some (.address ⟨.shared mem hb hb', rfl⟩)
    · rw [show (globals k)[i]? = (globals last)[i]? from own.same k last ⟨i⟩ mem]
      cases found : (globals last)[i]? with
      | none => exact .none
      | some d =>
        refine .some ?_
        cases d with
        | number v => exact .number v
        | address a => exact .address ⟨.common (alike.others ⟨i⟩ mem a found), rfl⟩
        | undefined => exact .undefined

end OwnShared

/-- The memory that all blocks start from does not tell their instances apart. -/
theorem StartAlike.moved {args : List Datum} (alike : StartAlike shared n args globals last m)
    (hk : k < last) : m.Moved (InstanceOf shared n globals last k) m := by
  intro b b' h
  cases h with
  | common _ => rfl
  | shared mem own other => exact alike.contents k hk _ mem b b' own other

section

variable (own : OwnShared shared n globals)
  (alike : StartAlike shared n one.args globals c.factor m)
  (same : one.globals = globals c.factor) (hk : k < c.factor)
include own alike same hk

/-- A block runs on the instances of the merged one as it does on its own. -/
theorem runs_inPlace {μ : Memory} (runs : f.Runs (c.block one globals k) m μ) :
    ∃ μ', f.Runs (c.thread one k) m μ' ∧ ∀ b < n, μ'.buffers[b]? = μ.buffers[b]? := by
  obtain ⟨μ', runs', moved⟩ := runs_moved (own.moved alike same) own.biUnique (alike.moved hk) runs
  exact ⟨μ', runs', fun b inside => moved b b (.common inside)⟩

theorem exists_accessesAt {w : Nat × Nat} (h : f.AccessesAt (c.thread one k) m w) :
    ∃ b, InstanceOf shared n globals c.factor k b w.1 ∧
      f.AccessesAt (c.block one globals k) m (b, w.2) :=
  accessesAt_of_moved (own.moved alike same) own.biUnique (alike.moved hk) h

theorem exists_writesVia {P : InstId → Prop} {w : Nat × Nat}
    (h : f.WritesVia P (c.thread one k) m w) :
    ∃ b, InstanceOf shared n globals c.factor k b w.1 ∧
      f.WritesVia P (c.block one globals k) m (b, w.2) :=
  writesVia_of_moved (own.moved alike same) own.biUnique (alike.moved hk) h

/-- A word of the common memory that a thread writes in place of a block, the block writes. -/
theorem writesAt_of_common {P : InstId → Prop} {w : Nat × Nat} (inside : w.1 < n)
    (h : f.WritesVia P (c.thread one k) m w) : f.WritesAt (c.block one globals k) m w := by
  obtain ⟨b, stands, written⟩ := exists_writesVia own alike same hk h
  rw [own.eq_of_common stands inside] at written
  exact written.writesAt

end

/-- Blocks that keep apart in the common memory, and would on one instance of what they share, keep
apart on the instances of the merged one. -/
theorem apartVia_of_sharesApart {P : InstId → Prop} (own : OwnShared shared n globals)
    (alike : StartAlike shared n one.args globals c.factor m)
    (same : one.globals = globals c.factor) (blocks : f.BlocksApart c one globals m)
    (shares : f.SharesApart P c shared one globals m) : f.ApartVia P c one m := by
  intro j hj k hk other w written accessed
  obtain ⟨b, hb, written⟩ := exists_writesVia own alike same hj written
  obtain ⟨b', hb', accessed⟩ := exists_accessesAt own alike same hk accessed
  by_cases inside : w.1 < n
  · obtain rfl := own.eq_of_common hb inside
    obtain rfl := own.eq_of_common hb' inside
    exact blocks j hj k hk other _ written.writesAt accessed
  · -- both are instances of the global whose instance in the merged block is accessed
    obtain ⟨v, i⟩ := w
    cases hb with
    | common h => exact inside h
    | @shared x _ _ mem mine last =>
      cases hb' with
      | common h => exact inside h
      | @shared y _ _ mem' mine' last' =>
        obtain ⟨-, rfl⟩ := own.apart c.factor c.factor x mem y mem' (last.trans last'.symm)
        exact shares j hj k hk other x mem b b' i mine mine' written accessed

/-! ### Coarsening -/

/-- The merged block leaves in the common memory what the blocks leave, one after the other. -/
theorem Merges.keepsCommon {P : InstId → Prop} {chunk : InstId → List InstId}
    {replica : Nat → InstId → InstId} (merges : f.Merges g c chunk replica)
    (repeats : ∀ i, (f.blockOf i).isSome → chunk i ≠ [i] → P i)
    (own : OwnShared shared n globals) (alike : StartAlike shared n one.args globals c.factor m)
    (same : one.globals = globals c.factor)
    (small : ∀ k < c.factor, c.identityOf (one.position.read c.level.identity c.dim) k < 2 ^ 32)
    (blocks : f.BlocksApart c one globals m) (shares : f.SharesApart P c shared one globals m)
    {m' : Memory} (runs : f.RunsAll ((List.range c.factor).map (c.block one globals)) m m') :
    ∃ m'', g.Runs one m m'' ∧ m''.buffers.take n = m'.buffers.take n := by
  -- each block alone, and the same on the instances of the merged one
  have alone : ∀ k < c.factor, ∃ ν, f.Runs (c.block one globals k) m ν := fun k hk =>
    runs_of_runsAll (pairwise_apart blocks) rfl (fun _ _ _ _ => rfl) runs _
      (List.mem_map_of_mem (List.mem_range.mpr hk))
  have aMemory : Nonempty Memory := ⟨m⟩
  choose! ν ends using alone
  have inPlace := fun k (hk : k < c.factor) => runs_inPlace own alike same hk (ends k hk)
  choose! μ ends' common using inPlace
  obtain ⟨m'', runs', stored⟩ := merges.exists_runs
    (apartVia_of_sharesApart own alike same blocks shares) repeats small ends'
  refine ⟨m'', runs', ?_⟩
  -- what the blocks leave, word by word
  obtain ⟨m₁, all, shape, others, mine⟩ := exists_runsAll (pairwise_apart blocks)
    (fun t ht => by
      obtain ⟨k, hk, rfl⟩ := List.mem_map.mp ht
      exact ⟨ν k, ends k (List.mem_range.mp hk)⟩) rfl fun _ _ _ _ => rfl
  obtain rfl := all.unique runs
  have words : ∀ w, w.1 < n → m''.word w = m₁.word w := by
    intro w inside
    have left : ∀ k < c.factor, (μ k).word w = (ν k).word w := by
      intro k hk
      unfold Memory.word
      rw [common k hk w.1 inside]
    by_cases written : ∃ k < c.factor, f.WritesAt (c.block one globals k) m w
    · obtain ⟨k, hk, written⟩ := written
      rw [mine _ (List.mem_map_of_mem (List.mem_range.mpr hk)) (ν k) (ends k hk) w written,
        ← left k hk]
      refine stored.words k hk w fun j hj other written' => ?_
      exact blocks j hj k hk other w (writesAt_of_common own alike same hj inside written')
        written.accessesAt
    · have none : ∀ k < c.factor, ¬ f.WritesAt (c.block one globals k) m w :=
        fun k hk h => written ⟨k, hk, h⟩
      have zero := merges.positive
      rw [others w fun t ht => by
          obtain ⟨k, hk, rfl⟩ := List.mem_map.mp ht
          exact none k (List.mem_range.mp hk),
        ← (ends 0 zero).elsewhere.first w (none 0 zero), ← left 0 zero]
      exact stored.words 0 zero w fun j hj _ written' =>
        none j hj (writesAt_of_common own alike same hj inside written')
  refine List.ext_getElem? fun b => ?_
  simp only [List.getElem?_take]
  split
  next inside =>
    exact Memory.buffer_ext (stored.shape.trans shape.symm) fun i => words (b, i) inside
  next => rfl

/-- A store is none of the reads of the launch. -/
theorem WritesVia.divergent {found : DivergentFunc} {given : Surroundings} {w : Nat × Nat}
    (reads : ∀ i ∈ found.grid.all, ∃ callee args, f.operation i = .ok (.call callee args))
    (h : f.WritesVia (fun i => i ∈ found.divergence.set ∨ i ∈ found.grid.all) given m w) :
    f.WritesVia (· ∈ found.divergence.set) given m w := by
  obtain ⟨s, i, rest, p, v, a, visited, head, kind, store, accessed, cell⟩ := h
  refine ⟨s, i, rest, p, v, a, visited, head, kind.resolve_right fun read => ?_, store, accessed,
    cell⟩
  obtain ⟨callee, args, call⟩ := reads i read
  simp [store] at call

/-- Coarsening succeeds for a well-formed kernel without divergent branches in which all blocks can
be reached, no operand names a terminator and calls only read the place in the launch; if costs are
asked for, exactly if no trip count is computed with a quotient that has no word.  If the logical
blocks, each with shared memory of its own, leave a memory without accessing what another
one writes, and none accesses in its instance what another one writes with a divergent store to the
same place of its own, then what coarsening makes leaves in the common memory what they leave. -/
theorem coarsen_of_shares_apart {found : DivergentFunc} (consistent : f.Consistent)
    (flawless : f.firstFlaw? = .ok none) (values : f.ReadsValues) (calls : f.CallsRead c.dim)
    (factor : 2 ≤ c.factor) (stride : 1 ≤ c.stride)
    (analyzed : f.analyze (.only c.dim) shared c.level c.dim = .ok (.ok found))
    (reached : ∀ b ∈ f.layout, found.flow.graph.Reaches f.entry.index b.index)
    (branches : found.divergence.branches = []) (costs : Option CostTable) :
    ((∃ made, f.coarsen shared c costs = .ok (.ok made)) ↔
        (costs.isSome → f.RoundsFit found.flow)) ∧
      ∀ made, f.coarsen shared c costs = .ok (.ok made) →
      ∀ one n globals m m', OwnShared shared n globals →
        StartAlike shared n one.args globals c.factor m → one.globals = globals c.factor →
        (∀ k < c.factor, c.identityOf (one.position.read c.level.identity c.dim) k < 2 ^ 32) →
        f.BlocksApart c one globals m →
        f.SharesApart (· ∈ found.divergence.set) c shared one globals m →
        f.RunsAll ((List.range c.factor).map (c.block one globals)) m m' →
          ∃ m'', made.func.Runs one m m'' ∧ m''.buffers.take n = m'.buffers.take n := by
  obtain ⟨ops, accesses, alike⟩ := exists_alike consistent flawless values calls factor stride
    analyzed reached branches
  obtain ⟨succeeds, merges⟩ := alike.coarsen_merges flawless analyzed costs
  refine ⟨succeeds,
    fun made coarsened one n globals m m' own start same small blocks shares runs => ?_⟩
  obtain ⟨chunk, replica, merges, repeats⟩ := merges made coarsened
  have reads : ∀ i ∈ found.grid.all, ∃ callee args, f.operation i = .ok (.call callee args) := by
    intro i read
    obtain ⟨r, read⟩ := (mem_all_reads alike.analyzed.grid).mp read
    obtain ⟨-, op, ty, line, -⟩ := alike.mem_along_iff.mp read
    obtain ⟨-, callee, rfl, -⟩ := alike.call_of_read read line
    exact ⟨callee, [], operation_eq_ok_iff.mpr ⟨ty, line⟩⟩
  exact merges.keepsCommon repeats own start same small blocks
    (fun j hj k hk other x mem b b' i mine mine' written =>
      shares j hj k hk other x mem b b' i mine mine' (written.divergent reads)) runs

end Func

/-! ### One place for all blocks -/

/-- Each block stores its place in shared memory, reads it from there, and stores what it has read
in its own word of the output. -/
def stage : Func := .assemble "stage" [⟨"out", .ptr .global⟩] [
  ("entry", [
    ⟨.call "llvm.nvvm.read.ptx.sreg.ctaid.x" [], .i32, "b"⟩,
    ⟨.store (.global ⟨0⟩) (.inst ⟨0⟩), .void, ""⟩,
    ⟨.load (.global ⟨0⟩), .i32, "v"⟩,
    ⟨.element (.arg 0) (.inst ⟨0⟩), .ptr .global, "p"⟩,
    ⟨.store (.inst ⟨3⟩) (.inst ⟨2⟩), .void, ""⟩,
    ⟨.ret none, .void, ""⟩])]

/-- What the analysis finds in the kernel. -/
def stageFound : DivergentFunc where
  func := stage
  flow := .ofOneBlock
  grid := ⟨[(⟨0⟩, .blockId, .x)], []⟩
  divergence :=
    { level := .block
      dim := .x
      set := [⟨3⟩, ⟨4⟩, ⟨2⟩, ⟨1⟩, ⟨0⟩]
      placed := [(⟨0⟩, ⟨0⟩), (⟨1⟩, ⟨0⟩), (⟨2⟩, ⟨0⟩), (⟨3⟩, ⟨0⟩), (⟨4⟩, ⟨0⟩)]
      branches := []
      regions := []
      reads := [⟨0⟩] }

/-- What coarsening makes of the kernel.  Both stores to the shared global come before both
loads. -/
def stageCoarse : Func where
  name := "stage"
  params := [⟨"out", .ptr .global⟩]
  returnTy := .void
  convention := .kernel
  blocks := #[⟨"entry",
    [⟨0⟩, ⟨6⟩, ⟨7⟩, ⟨8⟩, ⟨9⟩, ⟨10⟩, ⟨1⟩, ⟨11⟩, ⟨2⟩, ⟨12⟩, ⟨3⟩, ⟨13⟩, ⟨4⟩, ⟨14⟩, ⟨5⟩]⟩]
  layout := [⟨0⟩]
  insts := #[
    ⟨.call "llvm.nvvm.read.ptx.sreg.ctaid.x" [], .i32, "b", some ⟨0⟩⟩,
    ⟨.store (.global ⟨0⟩) (.inst ⟨9⟩), .void, "", some ⟨0⟩⟩,
    ⟨.load (.global ⟨0⟩), .i32, "v", some ⟨0⟩⟩,
    ⟨.element (.arg 0) (.inst ⟨9⟩), .ptr .global, "p", some ⟨0⟩⟩,
    ⟨.store (.inst ⟨3⟩) (.inst ⟨2⟩), .void, "", some ⟨0⟩⟩,
    ⟨.ret none, .void, "", some ⟨0⟩⟩,
    ⟨.binary .udiv (.inst ⟨0⟩) (.const 1), .i32, "b.div", some ⟨0⟩⟩,
    ⟨.binary .mul (.inst ⟨6⟩) (.const 2), .i32, "b.mul", some ⟨0⟩⟩,
    ⟨.binary .urem (.inst ⟨0⟩) (.const 1), .i32, "b.rem", some ⟨0⟩⟩,
    ⟨.binary .add (.inst ⟨7⟩) (.inst ⟨8⟩), .i32, "b.base", some ⟨0⟩⟩,
    ⟨.binary .add (.inst ⟨9⟩) (.const 1), .i32, "b.cf2", some ⟨0⟩⟩,
    ⟨.store (.global ⟨0⟩) (.inst ⟨10⟩), .void, "", some ⟨0⟩⟩,
    ⟨.load (.global ⟨0⟩), .i32, "v.cf2", some ⟨0⟩⟩,
    ⟨.element (.arg 0) (.inst ⟨10⟩), .ptr .global, "p.cf2", some ⟨0⟩⟩,
    ⟨.store (.inst ⟨13⟩) (.inst ⟨12⟩), .void, "", some ⟨0⟩⟩]

theorem analyze_stage :
    stage.analyze (.only .x) [⟨0⟩] .block .x = .ok (.ok stageFound) :=
  Func.analyze_eq_ok_iff.mpr ⟨by cbv, by rfl, by cbv, rfl⟩

theorem coarsen_stage : stage.coarsen [⟨0⟩] ⟨.block, .x, 2, 1⟩ none =
    .ok (.ok ⟨stageCoarse, none, ⟨4, 0, 0, 0⟩⟩) := by
  have normalized : stage.normalize [⟨0⟩] ⟨.block, .x, 2, 1⟩ = .ok (.ok stageFound) :=
    Func.normalize_of_regions rfl analyze_stage
  simp only [Func.coarsen, normalized, bind, Except.bind, pure, Except.pure]
  cbv

/-- The globals of a block: the shared one starts a buffer of the block. -/
def stageGlobals (k : Nat) : List Datum := [.address ⟨k + 1, 0⟩]

/-- The thread of a logical block of the kernel. -/
def stageThread (k : Nat) : Surroundings where
  position := CoarseningParams.logical ⟨.block, .x, 2, 1⟩ onlyThread k
  args := [.address ⟨0, 0⟩]
  globals := stageGlobals k

theorem ownShared_stageGlobals : Func.OwnShared [⟨0⟩] 1 stageGlobals where
  same j k x other := by
    obtain ⟨n⟩ := x
    cases n with
    | zero => simp at other
    | succ n => rfl
  own k x hx := by
    obtain rfl := List.mem_singleton.mp hx
    exact ⟨k + 1, by omega, rfl⟩
  apart j k x hx y hy same := by
    obtain rfl := List.mem_singleton.mp hx
    obtain rfl := List.mem_singleton.mp hy
    simpa [stageGlobals] using same

/-- The two logical blocks access different addresses: their shared global and their word. -/
theorem apart_stage : ∀ j < 2, ∀ k < 2, j ≠ k → ∀ a,
    stage.Accesses (stageThread j) ⟨[[5, 5], [5], [5], [5]]⟩ a →
      ¬ stage.Accesses (stageThread k) ⟨[[5, 5], [5], [5], [5]]⟩ a := by
  have first : ∀ a, stage.Accesses (stageThread 0) ⟨[[5, 5], [5], [5], [5]]⟩ a →
      a ∈ [⟨1, 0⟩, ⟨1, 0⟩, ⟨0, 0⟩] := fun a h => Func.mem_accessed 8 (by rfl) h
  have second : ∀ a, stage.Accesses (stageThread 1) ⟨[[5, 5], [5], [5], [5]]⟩ a →
      a ∈ [⟨2, 0⟩, ⟨2, 0⟩, ⟨0, 1⟩] := fun a h => Func.mem_accessed 8 (by rfl) h
  have apart : ∀ a ∈ ([⟨1, 0⟩, ⟨1, 0⟩, ⟨0, 0⟩] : List Address), a ∉
      ([⟨2, 0⟩, ⟨2, 0⟩, ⟨0, 1⟩] : List Address) := by decide
  intro j hj k hk other a h h'
  obtain ⟨rfl, rfl⟩ | ⟨rfl, rfl⟩ : j = 0 ∧ k = 1 ∨ j = 1 ∧ k = 0 := by omega
  · exact apart a (first a h) (second a h')
  · exact apart a (first a h') (second a h)

/-- Coarsening succeeds for a kernel without divergent branches in which definitions dominate
uses, no operand names a terminator and calls only read the place in the launch, and the block
that it makes stores 1 in both words, where the blocks that it stands for store 0 and 1. -/
theorem not_keepsOutside_stage :
    stage.Consistent ∧ stage.firstFlaw? = .ok none ∧
      (∀ b ∈ stage.blockIds, stageFound.flow.dom.isReachable b) ∧
      stage.Scoped stageFound.flow.graph ∧ stage.ReadsValues ∧ stage.CallsRead .x ∧
      stage.analyze (.only .x) [⟨0⟩] .block .x = .ok (.ok stageFound) ∧
      stageFound.divergence.branches = [] ∧
      stage.coarsen [⟨0⟩] ⟨.block, .x, 2, 1⟩ none =
        .ok (.ok ⟨stageCoarse, none, ⟨4, 0, 0, 0⟩⟩) ∧
      stage.RunsAll [stageThread 0, stageThread 1] ⟨[[5, 5], [5], [5], [5]]⟩
        ⟨[[0, 1], [0], [1], [5]]⟩ ∧
      stageCoarse.Runs ⟨onlyThread, [.address ⟨0, 0⟩], stageGlobals 2⟩
        ⟨[[5, 5], [5], [5], [5]]⟩ ⟨[[1, 1], [5], [5], [1]]⟩ ∧
      ¬ stage.KeepsOutside stageCoarse ⟨.block, .x, 2, 1⟩ [⟨0⟩] := by
  have graph : stage.graph = .ok stageFound.flow.graph := by cbv
  have blocks : stage.RunsAll [stageThread 0, stageThread 1] ⟨[[5, 5], [5], [5], [5]]⟩
      ⟨[[0, 1], [0], [1], [5]]⟩ := by
    have first : stage.Runs (stageThread 0) ⟨[[5, 5], [5], [5], [5]]⟩
        ⟨[[0, 5], [0], [5], [5]]⟩ := Func.finishes_iff_run.mpr ⟨8, by rfl⟩
    exact .one first (.one (Func.finishes_iff_run.mpr ⟨8, by rfl⟩) (.none _))
  have coarse : stageCoarse.Runs ⟨onlyThread, [.address ⟨0, 0⟩], stageGlobals 2⟩
      ⟨[[5, 5], [5], [5], [5]]⟩ ⟨[[1, 1], [5], [5], [1]]⟩ :=
    Func.finishes_iff_run.mpr ⟨20, by rfl⟩
  refine ⟨Func.consistent_assemble .., by cbv, by decide,
    (Func.scoped_iff (by decide) (by decide) graph).mpr (by cbv), by decide, by decide,
    analyze_stage, rfl, coarsen_stage, blocks, coarse, fun keeps => ?_⟩
  obtain ⟨m'', runs, common⟩ := keeps onlyThread [.address ⟨0, 0⟩] 1 stageGlobals _ _
    ownShared_stageGlobals apart_stage blocks
  obtain rfl := coarse.unique runs
  exact absurd common (by decide)

/-! ### Places of a shared array -/

/-- Each block stores its number in its own place of a shared array, reads it from there, and
stores what it has read in its own word of the output. -/
def shelf : Func := .assemble "shelf" [⟨"out", .ptr .global⟩] [
  ("entry", [
    ⟨.call "llvm.nvvm.read.ptx.sreg.ctaid.x" [], .i32, "b"⟩,
    ⟨.element (.global ⟨0⟩) (.inst ⟨0⟩), .ptr .shared, "s"⟩,
    ⟨.store (.inst ⟨1⟩) (.inst ⟨0⟩), .void, ""⟩,
    ⟨.load (.inst ⟨1⟩), .i32, "v"⟩,
    ⟨.element (.arg 0) (.inst ⟨0⟩), .ptr .global, "p"⟩,
    ⟨.store (.inst ⟨4⟩) (.inst ⟨3⟩), .void, ""⟩,
    ⟨.ret none, .void, ""⟩])]

/-- What the analysis finds in the kernel: both stores are divergent. -/
def shelfFound : DivergentFunc where
  func := shelf
  flow := .ofOneBlock
  grid := ⟨[(⟨0⟩, .blockId, .x)], []⟩
  divergence :=
    { level := .block
      dim := .x
      set := [⟨4⟩, ⟨5⟩, ⟨3⟩, ⟨2⟩, ⟨1⟩, ⟨0⟩]
      placed := [(⟨0⟩, ⟨0⟩), (⟨1⟩, ⟨0⟩), (⟨2⟩, ⟨0⟩), (⟨3⟩, ⟨0⟩), (⟨4⟩, ⟨0⟩), (⟨5⟩, ⟨0⟩)]
      branches := []
      regions := []
      reads := [⟨0⟩] }

theorem analyze_shelf : shelf.analyze (.only .x) [⟨0⟩] .block .x = .ok (.ok shelfFound) :=
  Func.analyze_eq_ok_iff.mpr ⟨by cbv, by rfl, by cbv, rfl⟩

theorem reaches_shelf : ∀ b ∈ shelf.layout,
    shelfFound.flow.graph.Reaches shelf.entry.index b.index := by
  intro b hb
  obtain rfl : b = ⟨0⟩ := List.mem_singleton.mp hb
  exact .refl _ _

/-- The thread of the merged block, and the memory that it finds: the output, and an array for
each of the three blocks. -/
def shelfThread : Surroundings := ⟨onlyThread, [.address ⟨0, 0⟩], stageGlobals 2⟩

def shelfMemory : Memory := ⟨[[5, 5], [7, 7], [7, 7], [7, 7]]⟩

theorem startAlike_shelf : Func.StartAlike [⟨0⟩] 1 shelfThread.args stageGlobals 2 shelfMemory where
  given a mem := by
    obtain rfl : a = ⟨0, 0⟩ := by simpa [shelfThread] using mem
    exact Nat.one_pos
  others x other a found := by
    obtain ⟨i⟩ := x
    cases i with
    | zero => simp at other
    | succ i => simp [stageGlobals] at found
  contents k hk x mem b b' own last := by
    obtain rfl := List.mem_singleton.mp mem
    obtain rfl : k + 1 = b := by simpa [stageGlobals] using own
    obtain rfl : 3 = b' := by simpa [stageGlobals] using last
    obtain rfl | rfl : k = 0 ∨ k = 1 := by omega
    · rfl
    · rfl

/-- The two logical blocks access their own words, and different places of their arrays. -/
theorem apart_shelf : shelf.BlocksApart ⟨.block, .x, 2, 1⟩ shelfThread stageGlobals shelfMemory ∧
    ∀ P, shelf.SharesApart P ⟨.block, .x, 2, 1⟩ [⟨0⟩] shelfThread stageGlobals shelfMemory := by
  have first : ∀ w, shelf.AccessesAt
      (CoarseningParams.block ⟨.block, .x, 2, 1⟩ shelfThread stageGlobals 0) shelfMemory w →
        w ∈ [(1, 0), (1, 0), (0, 0)] := fun w ⟨a, accesses, cell⟩ =>
    List.mem_filterMap.mpr ⟨a, Func.mem_accessed 8 (by rfl) accesses, cell⟩
  have second : ∀ w, shelf.AccessesAt
      (CoarseningParams.block ⟨.block, .x, 2, 1⟩ shelfThread stageGlobals 1) shelfMemory w →
        w ∈ [(2, 1), (2, 1), (0, 1)] := fun w ⟨a, accesses, cell⟩ =>
    List.mem_filterMap.mpr ⟨a, Func.mem_accessed 8 (by rfl) accesses, cell⟩
  have places : ∀ w ∈ [(1, 0), (1, 0), (0, 0)], ∀ w' ∈ [(2, 1), (2, 1), (0, 1)],
      (w : Nat × Nat).2 ≠ w'.2 := by
    decide
  -- the places differ even if the arrays do not count
  have apart : ∀ j < 2, ∀ k < 2, j ≠ k → ∀ w w', shelf.AccessesAt
      (CoarseningParams.block ⟨.block, .x, 2, 1⟩ shelfThread stageGlobals j) shelfMemory w →
        shelf.AccessesAt (CoarseningParams.block ⟨.block, .x, 2, 1⟩ shelfThread stageGlobals k)
          shelfMemory w' → w.2 ≠ w'.2 := by
    intro j hj k hk other w w' h h'
    obtain ⟨rfl, rfl⟩ | ⟨rfl, rfl⟩ : j = 0 ∧ k = 1 ∨ j = 1 ∧ k = 0 := by omega
    · exact places w (first w h) w' (second w' h')
    · exact (places w' (first w' h') w (second w h)).symm
  refine ⟨fun j hj k hk other w written accessed => ?_,
    fun P j hj k hk other x _ b b' i _ _ written accessed => ?_⟩
  · exact apart j hj k hk other w w written.accessesAt accessed rfl
  · exact apart j hj k hk other (b, i) (b', i) written.writesAt.accessesAt accessed rfl

/-- The two logical blocks store 0 and 1 in the output, and so does the merged block. -/
theorem coarsen_shelf :
    ∃ made, shelf.coarsen [⟨0⟩] ⟨.block, .x, 2, 1⟩ none = .ok (.ok made) ∧
      ∃ m'', made.func.Runs shelfThread shelfMemory m'' ∧ m''.buffers.take 1 = [[0, 1]] := by
  obtain ⟨succeeds, keeps⟩ := Func.coarsen_of_shares_apart
    (f := shelf) (c := ⟨.block, .x, 2, 1⟩) (Func.consistent_assemble ..) (by cbv) (by decide)
    (by decide) (by decide) (by decide) analyze_shelf reaches_shelf rfl none
  obtain ⟨made, coarsened⟩ := succeeds.mpr (by simp)
  have first : shelf.Runs (CoarseningParams.block ⟨.block, .x, 2, 1⟩ shelfThread stageGlobals 0)
      shelfMemory ⟨[[0, 5], [0, 7], [7, 7], [7, 7]]⟩ := Func.finishes_iff_run.mpr ⟨8, by rfl⟩
  have blocks : shelf.RunsAll ((List.range 2).map
      (CoarseningParams.block ⟨.block, .x, 2, 1⟩ shelfThread stageGlobals)) shelfMemory
      ⟨[[0, 1], [0, 7], [7, 1], [7, 7]]⟩ :=
    .one first (.one (Func.finishes_iff_run.mpr ⟨8, by rfl⟩) (.none _))
  obtain ⟨m'', runs, common⟩ := keeps made coarsened shelfThread 1 stageGlobals shelfMemory _
    ownShared_stageGlobals startAlike_shelf rfl (by decide) apart_shelf.1 (apart_shelf.2 _) blocks
  exact ⟨made, coarsened, m'', runs, common⟩

end KernelCoarsening
