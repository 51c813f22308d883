/-
What coarsening has to keep.

A coarsened kernel does in one thread what several threads did before it: the physical place
stands for several logical ones, and the memory that the coarsened kernel leaves has to be the
memory that the logical threads leave, one after the other.

* `Func.RunsAll.unique` — threads that run one after the other leave one memory at most;
* `Func.Keeps` — a kernel does what the threads did that it stands for, if these access
  different parts of the memory;
* `Func.not_keeps_of_runs` — it does not if it leaves another memory;
* `not_keeps_lateRead` — coarsening does not keep what a kernel does that reads its identity
  behind a divergent branch.
-/
import KernelCoarsening.Coarsening.Kernel
import KernelCoarsening.Execution.Thread
import KernelCoarsening.Proofs.Divergence.Discovery
import KernelCoarsening.Proofs.Flow.Scope
import KernelCoarsening.Proofs.Ir.Assembly
import Mathlib

namespace KernelCoarsening

/-- The place of the logical thread number `k` that a physical place stands for. -/
def CoarseningParams.logical (c : CoarseningParams) (p : Position) (k : Nat) : Position :=
  let id := p.read c.level.identity c.dim
  let base := id / c.stride * (c.factor * c.stride) + id % c.stride
  (p.write c.level.identity c.dim (base + k * c.stride)).write c.level.extent c.dim
    (c.factor * p.read c.level.extent c.dim)

namespace Func

variable {f g : Func} {given : Surroundings} {c : CoarseningParams}

theorem RunsAll.unique {threads : List Surroundings} {m m₁ m₂ : Memory}
    (h₁ : f.RunsAll threads m m₁) (h₂ : f.RunsAll threads m m₂) : m₁ = m₂ := by
  induction h₁ with
  | none m =>
    cases h₂
    rfl
  | one first _ ih =>
    cases h₂ with
    | one first' rest' =>
      obtain rfl := first.unique first'
      exact ih rest'

/-- A run comes to an instruction that reads or writes an address. -/
def Accesses (f : Func) (given : Surroundings) (m : Memory) (a : Address) : Prop :=
  ∃ s i rest op, f.Visits given (f.begin given m) s ∧ s.rest = i :: rest ∧
    f.operation i = .ok op ∧ op.accessed? given s.values = some a

/-- The address that the next step of a thread reads or writes. -/
def accessedNext? (f : Func) (given : Surroundings) (s : ThreadState) : Option Address :=
  s.rest.head?.bind fun i => (f.operation i).toOption.bind (·.accessed? given s.values)

/-- The addresses that at most so many steps read or write. -/
def accessed (f : Func) (given : Surroundings) : Nat → Transition → List Address
  | fuel + 1, .next s => (f.accessedNext? given s).toList ++ f.accessed given fuel (f.step given s)
  | _, _ => []

/-- A run that ends accesses the addresses of its steps and no others. -/
theorem mem_accessed (fuel : Nat) {m m' : Memory} {a : Address}
    (ends : f.run given fuel (f.begin given m) = .finish m') (h : f.Accesses given m a) :
    a ∈ f.accessed given fuel (f.begin given m) := by
  obtain ⟨s, i, rest, op, v, head, hop, h⟩ := h
  have now : f.accessedNext? given s = some a := by
    simp [accessedNext?, head, hop, Except.toOption, h]
  clear h head hop
  generalize f.begin given m = t at ends v ⊢
  induction v generalizing fuel with
  | here s =>
    cases fuel with
    | zero => simp [run] at ends
    | succ fuel => simp [accessed, now]
  | later _ ih =>
    cases fuel with
    | zero => simp [run] at ends
    | succ fuel => exact List.mem_append_right _ (ih fuel now ends)

/-- A function does what the threads of another do that it stands for: if they access
different addresses and leave a memory, one after the other, then it leaves this memory. -/
def Keeps (f g : Func) (c : CoarseningParams) : Prop :=
  ∀ p args globals m m',
    (∀ j < c.factor, ∀ k < c.factor, j ≠ k → ∀ a, f.Accesses ⟨c.logical p j, args, globals⟩ m a →
      ¬ f.Accesses ⟨c.logical p k, args, globals⟩ m a) →
    f.RunsAll ((List.range c.factor).map fun k => ⟨c.logical p k, args, globals⟩) m m' →
      g.Runs ⟨p, args, globals⟩ m m'

/-- A function that leaves another memory than the threads do does not do what they do. -/
theorem not_keeps_of_runs {p : Position} {args globals : List Datum} {m m₁ m₂ : Memory}
    (apart : ∀ j < c.factor, ∀ k < c.factor, j ≠ k → ∀ a,
      f.Accesses ⟨c.logical p j, args, globals⟩ m a →
        ¬ f.Accesses ⟨c.logical p k, args, globals⟩ m a)
    (threads : f.RunsAll ((List.range c.factor).map fun k => ⟨c.logical p k, args, globals⟩) m m₁)
    (runs : g.Runs ⟨p, args, globals⟩ m m₂) (other : m₁ ≠ m₂) : ¬ f.Keeps g c := by
  intro keeps
  exact other ((keeps p args globals m m₁ apart threads).unique runs)

end Func

/-! ### Calls that read the place in the launch -/

/-- A type of numbers that are wide enough for a place in a launch. -/
def Ty.isWide (ty : Ty) : Prop := ty = .i32 ∨ ty = .i64

instance (ty : Ty) : Decidable ty.isWide := inferInstanceAs (Decidable (_ ∨ _))

namespace Func

/-- Calls only read the place in the launch, and along a dimension into words that are wide
enough for it. -/
def CallsRead (f : Func) (dim : Dimension) : Prop :=
  ∀ inst ∈ f.insts.toList, inst.block.isSome → ∀ callee args, inst.op = .call callee args →
    args = [] ∧ ∃ r d, Register.ofAccessor? callee = some (r, d) ∧ (d = dim → inst.ty.isWide)

/-- An instruction is no call, or one that reads the place in the launch in this way. -/
def callReads (dim : Dimension) (inst : Inst) : Bool :=
  match inst.op with
  | .call callee args => args = [] ∧
      (Register.ofAccessor? callee).any fun r => decide (r.2 = dim → inst.ty.isWide)
  | _ => true

theorem callsRead_iff {f : Func} {dim : Dimension} : f.CallsRead dim ↔
    ∀ inst ∈ f.insts.toList, inst.block.isSome → callReads dim inst := by
  refine forall_congr' fun inst => forall_congr' fun _ => forall_congr' fun _ => ?_
  have wide (d : Dimension) : (d = dim → inst.ty.isWide) ↔ ¬d = dim ∨ inst.ty.isWide :=
    imp_iff_not_or
  unfold callReads
  cases inst.op <;> simp [Option.any_eq_true, wide]

instance (f : Func) (dim : Dimension) : Decidable (f.CallsRead dim) :=
  decidable_of_iff' _ callsRead_iff

end Func

/-! ### An identity that is read late -/

/-- Threads below a bound store to their own word.  They read their identity once for the test
and once more behind it. -/
def lateRead : Func := .assemble "late_read" [⟨"out", .ptr .global⟩, ⟨"n", .i32⟩] [
  ("entry", [
    ⟨.call "llvm.nvvm.read.ptx.sreg.tid.x" [], .i32, "t"⟩,
    ⟨.compare .slt (.inst ⟨0⟩) (.arg 1), .i1, "c"⟩,
    ⟨.branch (.inst ⟨1⟩) ⟨1⟩ ⟨2⟩, .void, ""⟩]),
  ("body", [
    ⟨.call "llvm.nvvm.read.ptx.sreg.tid.x" [], .i32, "u"⟩,
    ⟨.element (.arg 0) (.inst ⟨3⟩), .ptr .global, "p"⟩,
    ⟨.store (.inst ⟨4⟩) (.const 7), .void, ""⟩,
    ⟨.jump ⟨2⟩, .void, ""⟩]),
  ("exit", [⟨.ret none, .void, ""⟩])]

/-- What the analysis finds in the kernel. -/
def lateReadFound : DivergentFunc where
  func := lateRead
  flow :=
    { graph := ⟨#[[1, 2], [2], []], by decide⟩
      dom := ⟨#[some 0, some 0, some 0]⟩
      pdom := ⟨#[some 2, some 2, some 3, some 3], 3⟩
      loops := ⟨[]⟩ }
  grid := ⟨[(⟨0⟩, .threadId, .x), (⟨3⟩, .threadId, .x)], []⟩
  divergence :=
    { level := .thread
      dim := .x
      set := [⟨5⟩, ⟨4⟩, ⟨3⟩, ⟨2⟩, ⟨1⟩, ⟨0⟩]
      placed := [(⟨0⟩, ⟨0⟩), (⟨1⟩, ⟨0⟩), (⟨2⟩, ⟨0⟩), (⟨3⟩, ⟨1⟩), (⟨4⟩, ⟨1⟩), (⟨5⟩, ⟨1⟩)]
      branches := [⟨2⟩]
      regions := [⟨⟨0⟩, ⟨2⟩, [⟨0⟩, ⟨1⟩, ⟨2⟩], [], []⟩]
      reads := [⟨0⟩, ⟨3⟩] }

/-- The kernel with its region in a form that can be repeated. -/
def lateReadSplit : Func where
  name := "late_read"
  params := [⟨"out", .ptr .global⟩, ⟨"n", .i32⟩]
  returnTy := .void
  convention := .kernel
  blocks := #[
    ⟨"entry", [⟨0⟩, ⟨1⟩, ⟨8⟩]⟩,
    ⟨"body", [⟨3⟩, ⟨4⟩, ⟨5⟩, ⟨6⟩]⟩,
    ⟨"exit", [⟨9⟩]⟩,
    ⟨"entry.split", [⟨2⟩]⟩,
    ⟨"exit.split", [⟨7⟩]⟩]
  layout := [⟨0⟩, ⟨3⟩, ⟨1⟩, ⟨2⟩, ⟨4⟩]
  insts := #[
    ⟨.call "llvm.nvvm.read.ptx.sreg.tid.x" [], .i32, "t", some ⟨0⟩⟩,
    ⟨.compare .slt (.inst ⟨0⟩) (.arg 1), .i1, "c", some ⟨0⟩⟩,
    ⟨.branch (.inst ⟨1⟩) ⟨1⟩ ⟨2⟩, .void, "", some ⟨3⟩⟩,
    ⟨.call "llvm.nvvm.read.ptx.sreg.tid.x" [], .i32, "u", some ⟨1⟩⟩,
    ⟨.element (.arg 0) (.inst ⟨3⟩), .ptr .global, "p", some ⟨1⟩⟩,
    ⟨.store (.inst ⟨4⟩) (.const 7), .void, "", some ⟨1⟩⟩,
    ⟨.jump ⟨2⟩, .void, "", some ⟨1⟩⟩,
    ⟨.ret none, .void, "", some ⟨4⟩⟩,
    ⟨.jump ⟨3⟩, .void, "", some ⟨0⟩⟩,
    ⟨.jump ⟨4⟩, .void, "", some ⟨2⟩⟩]

/-- What the analysis finds in the kernel in form. -/
def lateReadSplitFound : DivergentFunc where
  func := lateReadSplit
  flow :=
    { graph := ⟨#[[3], [2], [4], [1, 2], []], by decide⟩
      dom := ⟨#[some 0, some 3, some 3, some 0, some 2]⟩
      pdom := ⟨#[some 3, some 2, some 4, some 2, some 5, some 5], 5⟩
      loops := ⟨[]⟩ }
  grid := ⟨[(⟨0⟩, .threadId, .x), (⟨3⟩, .threadId, .x)], []⟩
  divergence :=
    { level := .thread
      dim := .x
      set := [⟨5⟩, ⟨4⟩, ⟨3⟩, ⟨2⟩, ⟨1⟩, ⟨0⟩]
      placed := [(⟨0⟩, ⟨0⟩), (⟨1⟩, ⟨0⟩), (⟨2⟩, ⟨3⟩), (⟨3⟩, ⟨1⟩), (⟨4⟩, ⟨1⟩), (⟨5⟩, ⟨1⟩)]
      branches := [⟨2⟩]
      regions := [⟨⟨3⟩, ⟨2⟩, [⟨3⟩, ⟨1⟩, ⟨2⟩], [], [⟨1⟩]⟩]
      reads := [⟨0⟩, ⟨3⟩] }

/-- What coarsening makes of the kernel.  The copy of the body (block 6) computes its own
identity, number 26, and this is the identity of the first thread again. -/
def lateReadCoarse : Func where
  name := "late_read"
  params := [⟨"out", .ptr .global⟩, ⟨"n", .i32⟩]
  returnTy := .void
  convention := .kernel
  blocks := #[
    ⟨"entry", [⟨0⟩, ⟨10⟩, ⟨11⟩, ⟨12⟩, ⟨13⟩, ⟨14⟩, ⟨1⟩, ⟨20⟩, ⟨8⟩]⟩,
    ⟨"body", [⟨3⟩, ⟨15⟩, ⟨16⟩, ⟨17⟩, ⟨18⟩, ⟨19⟩, ⟨4⟩, ⟨5⟩, ⟨6⟩]⟩,
    ⟨"exit", [⟨9⟩]⟩,
    ⟨"entry.split", [⟨2⟩]⟩,
    ⟨"exit.split", [⟨7⟩]⟩,
    ⟨"entry.split.cf2", [⟨21⟩]⟩,
    ⟨"body.cf2", [⟨22⟩, ⟨23⟩, ⟨24⟩, ⟨25⟩, ⟨26⟩, ⟨27⟩, ⟨28⟩, ⟨29⟩, ⟨30⟩]⟩,
    ⟨"exit.cf2", [⟨31⟩]⟩]
  layout := [⟨0⟩, ⟨3⟩, ⟨1⟩, ⟨2⟩, ⟨4⟩, ⟨5⟩, ⟨6⟩, ⟨7⟩]
  insts := #[
    ⟨.call "llvm.nvvm.read.ptx.sreg.tid.x" [], .i32, "t", some ⟨0⟩⟩,
    ⟨.compare .slt (.inst ⟨13⟩) (.arg 1), .i1, "c", some ⟨0⟩⟩,
    ⟨.branch (.inst ⟨1⟩) ⟨1⟩ ⟨2⟩, .void, "", some ⟨3⟩⟩,
    ⟨.call "llvm.nvvm.read.ptx.sreg.tid.x" [], .i32, "u", some ⟨1⟩⟩,
    ⟨.element (.arg 0) (.inst ⟨18⟩), .ptr .global, "p", some ⟨1⟩⟩,
    ⟨.store (.inst ⟨4⟩) (.const 7), .void, "", some ⟨1⟩⟩,
    ⟨.jump ⟨2⟩, .void, "", some ⟨1⟩⟩,
    ⟨.ret none, .void, "", some ⟨4⟩⟩,
    ⟨.jump ⟨3⟩, .void, "", some ⟨0⟩⟩,
    ⟨.jump ⟨5⟩, .void, "", some ⟨2⟩⟩,
    ⟨.binary .udiv (.inst ⟨0⟩) (.const 1), .i32, "t.div", some ⟨0⟩⟩,
    ⟨.binary .mul (.inst ⟨10⟩) (.const 2), .i32, "t.mul", some ⟨0⟩⟩,
    ⟨.binary .urem (.inst ⟨0⟩) (.const 1), .i32, "t.rem", some ⟨0⟩⟩,
    ⟨.binary .add (.inst ⟨11⟩) (.inst ⟨12⟩), .i32, "t.base", some ⟨0⟩⟩,
    ⟨.binary .add (.inst ⟨13⟩) (.const 1), .i32, "t.cf2", some ⟨0⟩⟩,
    ⟨.binary .udiv (.inst ⟨3⟩) (.const 1), .i32, "u.div", some ⟨1⟩⟩,
    ⟨.binary .mul (.inst ⟨15⟩) (.const 2), .i32, "u.mul", some ⟨1⟩⟩,
    ⟨.binary .urem (.inst ⟨3⟩) (.const 1), .i32, "u.rem", some ⟨1⟩⟩,
    ⟨.binary .add (.inst ⟨16⟩) (.inst ⟨17⟩), .i32, "u.base", some ⟨1⟩⟩,
    ⟨.binary .add (.inst ⟨18⟩) (.const 1), .i32, "u.cf2", some ⟨1⟩⟩,
    ⟨.compare .slt (.inst ⟨14⟩) (.arg 1), .i1, "c.cf2", some ⟨0⟩⟩,
    ⟨.branch (.inst ⟨20⟩) ⟨6⟩ ⟨7⟩, .void, "", some ⟨5⟩⟩,
    ⟨.call "llvm.nvvm.read.ptx.sreg.tid.x" [], .i32, "u.cf2", some ⟨6⟩⟩,
    ⟨.binary .udiv (.inst ⟨22⟩) (.const 1), .i32, "u.div.cf2", some ⟨6⟩⟩,
    ⟨.binary .mul (.inst ⟨23⟩) (.const 2), .i32, "u.mul.cf2", some ⟨6⟩⟩,
    ⟨.binary .urem (.inst ⟨22⟩) (.const 1), .i32, "u.rem.cf2", some ⟨6⟩⟩,
    ⟨.binary .add (.inst ⟨24⟩) (.inst ⟨25⟩), .i32, "u.base.cf2", some ⟨6⟩⟩,
    ⟨.binary .add (.inst ⟨26⟩) (.const 1), .i32, "u.cf2.cf2", some ⟨6⟩⟩,
    ⟨.element (.arg 0) (.inst ⟨26⟩), .ptr .global, "p.cf2", some ⟨6⟩⟩,
    ⟨.store (.inst ⟨28⟩) (.const 7), .void, "", some ⟨6⟩⟩,
    ⟨.jump ⟨7⟩, .void, "", some ⟨6⟩⟩,
    ⟨.jump ⟨4⟩, .void, "", some ⟨7⟩⟩]

theorem analyze_lateRead : lateRead.analyze (.only .x) [] .thread .x = .ok (.ok lateReadFound) :=
  Func.analyze_eq_ok_iff.mpr ⟨by cbv, by rfl, by cbv, rfl⟩

theorem analyze_lateReadSplit :
    lateReadSplit.analyze (.only .x) [] .thread .x = .ok (.ok lateReadSplitFound) :=
  Func.analyze_eq_ok_iff.mpr ⟨by cbv, by rfl, by cbv, rfl⟩

theorem normalize_lateRead :
    lateRead.normalize [] ⟨.thread, .x, 2, 1⟩ = .ok (.ok lateReadSplitFound) :=
  have extracted : lateRead.extractRegions lateReadFound.divergence.regions =
      .ok (none, lateReadSplit, lateReadSplitFound.divergence.regions) := by cbv
  Func.normalize_eq_ok analyze_lateRead extracted analyze_lateReadSplit (by cbv)

theorem coarsen_lateRead : lateRead.coarsen [] ⟨.thread, .x, 2, 1⟩ none =
    .ok (.ok ⟨lateReadCoarse, none, ⟨1, 1, 0, 0⟩⟩) := by
  simp only [Func.coarsen, normalize_lateRead, bind, Except.bind, pure, Except.pure]
  cbv

/-- The one thread of a block. -/
def onlyThread : Position := ⟨⟨0, 0, 0⟩, ⟨0, 0, 0⟩, ⟨1, 1, 1⟩, ⟨1, 1, 1⟩⟩

/-- A logical thread of the kernel that the one thread of the coarsened kernel stands for. -/
def lateThread (k : Nat) : Surroundings where
  position := CoarseningParams.logical ⟨.thread, .x, 2, 1⟩ onlyThread k
  args := [.address ⟨0, 0⟩, .number 2]
  globals := []

/-- The two logical threads access a word each. -/
theorem apart_lateRead : ∀ j < 2, ∀ k < 2, j ≠ k → ∀ a,
    lateRead.Accesses (lateThread j) ⟨[[0, 0]]⟩ a →
      ¬ lateRead.Accesses (lateThread k) ⟨[[0, 0]]⟩ a := by
  have first : ∀ a, lateRead.Accesses (lateThread 0) ⟨[[0, 0]]⟩ a → a = ⟨0, 0⟩ := by
    intro a h
    exact List.mem_singleton.mp (Func.mem_accessed 12 (by rfl) h)
  have second : ∀ a, lateRead.Accesses (lateThread 1) ⟨[[0, 0]]⟩ a → a = ⟨0, 1⟩ := by
    intro a h
    exact List.mem_singleton.mp (Func.mem_accessed 12 (by rfl) h)
  intro j hj k hk other a h h'
  obtain ⟨rfl, rfl⟩ | ⟨rfl, rfl⟩ : j = 0 ∧ k = 1 ∨ j = 1 ∧ k = 0 := by omega
  · exact absurd ((first a h).symm.trans (second a h')) (by decide)
  · exact absurd ((second a h).symm.trans (first a h')) (by decide)

/-- Coarsening succeeds for a well-formed kernel in which definitions dominate uses, no operand names
a terminator, calls only read the place in the launch and all blocks can be reached, and what it
makes does not do what the kernel does: of the two logical threads,
which access a word each, only the first one stores. -/
theorem not_keeps_lateRead :
    lateRead.Consistent ∧ lateRead.firstFlaw? = .ok none ∧
      (∀ b ∈ lateRead.blockIds, lateReadFound.flow.dom.isReachable b) ∧
      lateRead.Scoped lateReadFound.flow.graph ∧ lateRead.ReadsValues ∧ lateRead.CallsRead .x ∧
      lateRead.analyze (.only .x) [] .thread .x = .ok (.ok lateReadFound) ∧
      lateReadFound.divergence.branches = [⟨2⟩] ∧
      lateRead.coarsen [] ⟨.thread, .x, 2, 1⟩ none =
        .ok (.ok ⟨lateReadCoarse, none, ⟨1, 1, 0, 0⟩⟩) ∧
      lateRead.RunsAll [lateThread 0, lateThread 1] ⟨[[0, 0]]⟩ ⟨[[7, 7]]⟩ ∧
      lateReadCoarse.Runs { lateThread 0 with position := onlyThread } ⟨[[0, 0]]⟩ ⟨[[7, 0]]⟩ ∧
      ¬ lateRead.Keeps lateReadCoarse ⟨.thread, .x, 2, 1⟩ := by
  have graph : lateRead.graph = .ok lateReadFound.flow.graph := by cbv
  have threads : lateRead.RunsAll [lateThread 0, lateThread 1] ⟨[[0, 0]]⟩ ⟨[[7, 7]]⟩ := by
    have first : lateRead.Runs (lateThread 0) ⟨[[0, 0]]⟩ ⟨[[7, 0]]⟩ :=
      Func.finishes_iff_run.mpr ⟨12, by rfl⟩
    exact .one first (.one (Func.finishes_iff_run.mpr ⟨12, by rfl⟩) (.none _))
  have coarse : lateReadCoarse.Runs { lateThread 0 with position := onlyThread } ⟨[[0, 0]]⟩
      ⟨[[7, 0]]⟩ := Func.finishes_iff_run.mpr ⟨40, by rfl⟩
  exact ⟨Func.consistent_assemble .., by cbv, by decide,
    (Func.scoped_iff (by decide) (by decide) graph).mpr (by cbv), by decide, by decide,
    analyze_lateRead, rfl, coarsen_lateRead, threads, coarse,
    Func.not_keeps_of_runs apart_lateRead threads coarse (by decide)⟩

end KernelCoarsening
