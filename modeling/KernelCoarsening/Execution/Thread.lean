/-
What a thread does.

A thread runs a function at its place in a launch, with arguments and with the
addresses of the globals.  It enters a block by giving all phis of the block their
values at once, and then executes the other instructions one by one.  A run ends
where the function returns, or in a trap.

Threads run one after the other: the memory that one leaves is what the next one
finds.  Since a thread is told where the globals are, blocks can have shared memory
of their own.

* `Func.finishes_iff_run` — a run ends in a memory exactly if it does so in a number of
  steps;
* `Func.run_add` — more steps do not change how a run ended;
* `Func.Finishes.unique` — a run ends in one memory at most.
-/
import KernelCoarsening.Execution.Arithmetic
import KernelCoarsening.Execution.Memory
import KernelCoarsening.Grid.Reads
import KernelCoarsening.Launch.Geometry

namespace KernelCoarsening

/-- The place of a thread in a launch. -/
structure Position where
  /-- Its place in its block. -/
  thread : Extent
  /-- The place of its block in the grid. -/
  block : Extent
  blockExtent : Extent
  gridExtent : Extent
  deriving DecidableEq

namespace Position

/-- What a register holds. -/
def read (p : Position) (r : Register) (d : Dimension) : Nat :=
  match r with
  | .threadId => p.thread.get d
  | .blockId => p.block.get d
  | .blockExtent => p.blockExtent.get d
  | .gridExtent => p.gridExtent.get d

/-- The place with another number in a register. -/
def write (p : Position) (r : Register) (d : Dimension) (n : Nat) : Position :=
  match r with
  | .threadId => { p with thread := p.thread.set d n }
  | .blockId => { p with block := p.block.set d n }
  | .blockExtent => { p with blockExtent := p.blockExtent.set d n }
  | .gridExtent => { p with gridExtent := p.gridExtent.set d n }

@[simp] theorem read_write (p : Position) (r r' : Register) (d d' : Dimension) (n : Nat) :
    (p.write r d n).read r' d' = if r = r' ∧ d = d' then n else p.read r' d' := by
  cases r <;> cases r' <;> simp [read, write]

end Position

/-- What a thread is given. -/
structure Surroundings where
  position : Position
  args : List Datum
  globals : List Datum

/-- The values that instructions have. -/
abbrev Values := InstId → Option Datum

/-- Gives an instruction a value. -/
def Values.set (values : Values) (i : InstId) (v : Datum) : Values :=
  fun j => if j = i then some v else values j

/-! ### Operands -/

/-- The value of an operand. -/
def Value.datum (given : Surroundings) (values : Values) : Value → Except Trap Datum
  | inst i => (values i).elim (.error (.undefinedRead i)) .ok
  | arg n => (given.args[n]?).elim (.error (.missingArgument n)) .ok
  | const c => .ok (.number c)
  | global g => (given.globals[g.index]?).elim (.error (.unknownGlobal g)) .ok
  | undef => .ok .undefined

/-- The number that a value at run time is. -/
def Datum.toNumber : Datum → Except Trap Int64
  | number n => .ok n
  | _ => .error .notANumber

/-- The address that a value at run time is. -/
def Datum.toAddress : Datum → Except Trap Address
  | address a => .ok a
  | _ => .error .notAnAddress

/-- The number that an operand is. -/
def Value.number (given : Surroundings) (values : Values) (v : Value) : Except Trap Int64 := do
  (← v.datum given values).toNumber

/-- The number that an operand is, read without sign as wide as its type. -/
def Value.unsigned (given : Surroundings) (f : Func) (values : Values) (v : Value) :
    Except Trap UInt64 := do
  let n ← v.number given values
  return (← (f.valueType v).mapError .fault).unsigned n

/-- A number stands for true if it is odd. -/
def truth (n : Int64) : Bool := n &&& 1 = 1

/-! ### Instructions -/

/-- A result as wide as a type; only numbers have a width. -/
def Datum.fit (ty : Ty) : Datum → Datum
  | number n => number (ty.fit n)
  | v => v

/-- The value of an operation that is no phi and no terminator, before it is fitted to its
type, and the memory that it leaves. -/
def Operation.execute (given : Surroundings) (f : Func) (values : Values) (m : Memory)
    (i : InstId) : Operation → Except Trap (Datum × Memory)
  | binary op l r => do
    let n ← op.apply (← l.number given values) (← r.number given values)
      (← l.unsigned given f values) (← r.unsigned given f values)
    return (.number n, m)
  | compare rel l r => do
    let holds := rel.holds (← l.number given values) (← r.number given values)
      (← l.unsigned given f values) (← r.unsigned given f values)
    return (.number (if holds then 1 else 0), m)
  | convert .zext v => do return (.number (← v.unsigned given f values).toInt64, m)
  | convert .sext v | convert .trunc v => do return (.number (← v.number given values), m)
  | convert .addrSpaceCast v => do return (← v.datum given values, m)
  | convert .siToFp _ | convert .fpToSi _ => .error .floatingPoint
  | select c t e => do
    if truth (← c.number given values) then return (← t.datum given values, m)
    else return (← e.datum given values, m)
  | element b n => do
    let a ← (← b.datum given values).toAddress
    return (.address { a with offset := a.offset + (← n.number given values) }, m)
  | load p => do
    let a ← (← p.datum given values).toAddress
    (m.read a).elim (.error .outOfBounds) fun n => .ok (.number n, m)
  | store p v => do
    let n ← v.number given values
    let a ← (← p.datum given values).toAddress
    (m.write a n).elim (.error .outOfBounds) fun m => .ok (.undefined, m)
  | call callee _ =>
    match Register.ofAccessor? callee with
    | some (r, d) => .ok (.number (Int64.ofNat (given.position.read r d)), m)
    | none => .error (.unknownFunction callee)
  | phi _ | jump _ | branch .. | ret _ | unreachable => .error (.misplaced i)

/-- The address that an operation reads or writes. -/
def Operation.accessed? (given : Surroundings) (values : Values) : Operation → Option Address
  | load p | store p _ => do
    let .address a ← (p.datum given values).toOption | none
    return a
  | _ => none

/-! ### Blocks -/

/-- A thread in the middle of a block. -/
structure ThreadState where
  block : BlockId
  /-- The instructions of the block that are still to be executed. -/
  rest : List InstId
  values : Values
  memory : Memory

/-- What comes next for a thread. -/
inductive Transition where
  | next (s : ThreadState)
  | finish (m : Memory)
  | trap (cause : Trap)

/-- The values that the phis of a list have when control comes from a block.  All of them read
the values from before. -/
def Func.phiValues (f : Func) (given : Surroundings) (values : Values) (source : Option BlockId) :
    List InstId → Except Trap (List (InstId × Datum))
  | [] => .ok []
  | i :: rest => do
    let .phi incoming ← (f.operation i).mapError .fault | .error (.misplaced i)
    let some (v, _) := incoming.find? (some ·.2 == source) | .error (.noIncoming i)
    let value ← v.datum given values
    return (i, value) :: (← f.phiValues given values source rest)

/-- Enters a block from another, or at the start of a run from none. -/
def Func.enter (f : Func) (given : Surroundings) (values : Values) (m : Memory)
    (source : Option BlockId) (b : BlockId) : Except Trap ThreadState := do
  let block ← (f.block b).mapError .fault
  let phis ← (f.phis b).mapError .fault
  let new ← f.phiValues given values source phis
  return { block := b, rest := block.insts.drop phis.length,
           values := new.foldl (fun values (i, v) => values.set i v) values, memory := m }

/-- The transition to a state that may have failed to come about. -/
def Transition.ofExcept : Except Trap ThreadState → Transition
  | .ok s => next s
  | .error cause => trap cause

/-- Executes one instruction. -/
def Func.step (f : Func) (given : Surroundings) (s : ThreadState) : Transition :=
  match s.rest with
  | [] => .trap (.noTerminator s.block)
  | i :: rest =>
    match f.inst i with
    | .error cause => .trap (.fault cause)
    | .ok inst =>
      match inst.op with
      | .jump t => .ofExcept (f.enter given s.values s.memory (some s.block) t)
      | .branch c t e => .ofExcept do
        let target := if truth (← c.number given s.values) then t else e
        f.enter given s.values s.memory (some s.block) target
      | .ret _ => .finish s.memory
      | .unreachable => .trap .unreachable
      | op => .ofExcept do
        let (value, memory) ← op.execute given f s.values s.memory i
        return { s with rest, values := s.values.set i (value.fit inst.ty), memory }

/-! ### Runs -/

/-- A thread before its first instruction. -/
def Func.begin (f : Func) (given : Surroundings) (m : Memory) : Transition :=
  .ofExcept (f.enter given (fun _ => none) m none f.entry)

/-- Executes at most so many instructions. -/
def Func.run (f : Func) (given : Surroundings) : Nat → Transition → Transition
  | 0, t => t
  | fuel + 1, .next s => f.run given fuel (f.step given s)
  | _ + 1, t => t

/-- A run from here on ends in a memory. -/
inductive Func.Finishes (f : Func) (given : Surroundings) : Transition → Memory → Prop where
  | done (m : Memory) : f.Finishes given (.finish m) m
  | more {s : ThreadState} {m : Memory} (rest : f.Finishes given (f.step given s) m) :
    f.Finishes given (.next s) m

/-- A run from here on passes through a state. -/
inductive Func.Visits (f : Func) (given : Surroundings) : Transition → ThreadState → Prop where
  | here (s : ThreadState) : f.Visits given (.next s) s
  | later {s s' : ThreadState} (rest : f.Visits given (f.step given s) s') :
    f.Visits given (.next s) s'

@[simp] theorem Func.run_finish (f : Func) (given : Surroundings) (fuel : Nat) (m : Memory) :
    f.run given fuel (.finish m) = .finish m := by
  cases fuel <;> rfl

@[simp] theorem Func.run_trap (f : Func) (given : Surroundings) (fuel : Nat) (cause : Trap) :
    f.run given fuel (.trap cause) = .trap cause := by
  cases fuel <;> rfl

theorem Func.run_add (f : Func) (given : Surroundings) (m n : Nat) (t : Transition) :
    f.run given (m + n) t = f.run given n (f.run given m t) := by
  induction m generalizing t with
  | zero => simp [run]
  | succ m ih =>
    rw [Nat.succ_add]
    cases t with
    | next s => exact ih _
    | finish _ => simp
    | trap _ => simp

theorem Func.finishes_iff_run {f : Func} {given : Surroundings} {t : Transition} {m : Memory} :
    f.Finishes given t m ↔ ∃ fuel, f.run given fuel t = .finish m := by
  constructor
  · intro h
    induction h with
    | done m => exact ⟨0, rfl⟩
    | more _ ih =>
      obtain ⟨fuel, h⟩ := ih
      exact ⟨fuel + 1, h⟩
  · rintro ⟨fuel, h⟩
    induction fuel generalizing t with
    | zero =>
      obtain rfl : t = .finish m := h
      exact .done m
    | succ fuel ih =>
      cases t with
      | next s => exact .more (ih h)
      | finish m' =>
        obtain rfl : m' = m := by simpa using h
        exact .done m'
      | trap cause => simp at h

theorem Func.Finishes.unique {f : Func} {given : Surroundings} {t : Transition} {m m' : Memory}
    (h : f.Finishes given t m) (h' : f.Finishes given t m') : m = m' := by
  induction h with
  | done m => cases h'; rfl
  | more _ ih =>
    cases h' with
    | more h' => exact ih h'

/-- A function that a thread runs turns one memory into another. -/
def Func.Runs (f : Func) (given : Surroundings) (m m' : Memory) : Prop :=
  f.Finishes given (f.begin given m) m'

/-- Threads that run a function one after the other turn one memory into another. -/
inductive Func.RunsAll (f : Func) : List Surroundings → Memory → Memory → Prop where
  | none (m : Memory) : RunsAll f [] m m
  | one {given : Surroundings} {others : List Surroundings} {m m' m'' : Memory}
    (first : f.Runs given m m') (rest : RunsAll f others m' m'') :
    RunsAll f (given :: others) m m''

end KernelCoarsening
