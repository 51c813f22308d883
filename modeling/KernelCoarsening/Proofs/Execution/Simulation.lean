/-
Functions that do the same.

Two functions are compared by a relation between the states of their threads.  Only whether and
how a run ends matters, so the causes of traps are not compared:

* `Func.finishes_iff_of_simulation` — if one function answers every step of the other by at least
  one step, their runs end in the same memories;
* `Operation.execute_eq` — what an operation does splits into an action, which depends on its
  operands only, and what the action finds;
* `Operation.act_map` — operands with the same values lead to the same action;
* `Func.enter_of_shape` — how a block in shape is entered.
-/
import KernelCoarsening.Proofs.Execution.Steps
import KernelCoarsening.Proofs.Ir.Shape

namespace KernelCoarsening

/-! ### Answers without their causes -/

section toOption

variable {ε ε' α β : Type}

@[simp] theorem toOption_ok (a : α) : (Except.ok a : Except ε α).toOption = some a := rfl

@[simp] theorem toOption_pure (a : α) : (pure a : Except ε α).toOption = some a := rfl

@[simp] theorem toOption_error (e : ε) : (Except.error e : Except ε α).toOption = none := rfl

@[simp] theorem toOption_bind (x : Except ε α) (k : α → Except ε β) :
    (x >>= k).toOption = x.toOption.bind fun a => (k a).toOption := by
  cases x <;> rfl

@[simp] theorem toOption_mapError (x : Except ε α) (k : ε → ε') :
    (x.mapError k).toOption = x.toOption := by
  cases x <;> rfl

theorem toOption_eq_some_iff {x : Except ε α} {a : α} : x.toOption = some a ↔ x = .ok a := by
  cases x <;> simp

end toOption

/-! ### Simulations -/

/-- Two transitions lead to related states, or end in the same memory, or both are traps. -/
inductive Transition.Alike (R : ThreadState → ThreadState → Prop) :
    Transition → Transition → Prop where
  | next {s t : ThreadState} (h : R s t) : Alike R (.next s) (.next t)
  | finish (m : Memory) : Alike R (.finish m) (.finish m)
  | trap (cause cause' : Trap) : Alike R (.trap cause) (.trap cause')

variable {R : ThreadState → ThreadState → Prop}

namespace Func

variable {f g : Func} {given given' : Surroundings}

theorem run_one (s : ThreadState) : f.run given 1 (.ofExcept (.ok s)) = f.step given s := rfl

/-- If every step of one function is answered by one or more steps of another, runs of both end
in the same memories. -/
theorem finishes_iff_of_simulation
    (step : ∀ s t, R s t → ∃ n, Transition.Alike R (f.step given s)
      (g.run given' n (g.step given' t)))
    {T U : Transition} (start : ∃ n, Transition.Alike R T (g.run given' n U)) {m : Memory} :
    f.Finishes given T m ↔ g.Finishes given' U m := by
  obtain ⟨n, start⟩ := start
  constructor
  · intro h
    induction h generalizing n U with
    | done m =>
      generalize hV : g.run given' n U = V at start
      cases start
      exact finishes_iff_run.mpr ⟨n, hV⟩
    | @more s m _ ih =>
      generalize hV : g.run given' n U = V at start
      cases start with
      | next related =>
        rename_i t
        obtain ⟨k, alike⟩ := step s t related
        obtain ⟨fuel, ends⟩ := finishes_iff_run.mp (ih (U := g.step given' t) k alike)
        refine finishes_iff_run.mpr ⟨n + (fuel + 1), ?_⟩
        rw [run_add, hV, run]
        exact ends
  · intro h
    obtain ⟨fuel, ends⟩ := finishes_iff_run.mp h
    -- the number of steps that are left decides; those that answer one step are taken off it
    have late : g.run given' fuel (g.run given' n U) = .finish m := by
      rw [← run_add, Nat.add_comm, run_add, ends, run_finish]
    clear h ends
    generalize g.run given' n U = V at late start
    induction fuel generalizing T V with
    | zero =>
      obtain rfl : V = .finish m := late
      cases start
      exact .done m
    | succ fuel ih =>
      cases start with
      | finish m' =>
        obtain rfl : m' = m := by simpa using late
        exact .done m'
      | trap cause cause' => simp at late
      | next related =>
        rename_i s t
        obtain ⟨k, alike⟩ := step s t related
        refine .more (ih (g.run given' k (g.step given' t)) ?_ alike)
        have ends : g.run given' fuel (g.step given' t) = .finish m := late
        rw [← run_add, Nat.add_comm, run_add, ends, run_finish]

end Func

/-- Two computations with the same result lead to related states, perhaps after more steps of
the second function. -/
theorem Func.alike_map {α : Type} {g : Func} {given : Surroundings} {x y : Except Trap α}
    {k k' : α → ThreadState} (same : x.toOption = y.toOption)
    (next : ∀ a, ∃ n, Transition.Alike R (.next (k a)) (g.run given n (.next (k' a)))) :
    ∃ n, Transition.Alike R (.ofExcept (k <$> x)) (g.run given n (.ofExcept (k' <$> y))) := by
  cases x with
  | ok a =>
    obtain rfl : y = .ok a := toOption_eq_some_iff.mp same.symm
    exact next a
  | error cause =>
    cases y with
    | ok a => simp at same
    | error cause' => exact ⟨0, .trap cause cause'⟩

/-! ### Actions -/

/-- What an operation asks for once its operands are known. -/
inductive Action where
  /-- A value that depends on the operands only. -/
  | value (d : Datum)
  | register (r : Register) (d : Dimension)
  | read (a : Address)
  | write (a : Address) (n : Int64)

/-- What an action finds at a place and in a memory, and the memory that it leaves. -/
def Action.perform (p : Position) (m : Memory) : Action → Except Trap (Datum × Memory)
  | value d => .ok (d, m)
  | register r d => .ok (.number (Int64.ofNat (p.read r d)), m)
  | read a => (m.read a).elim (.error .outOfBounds) fun n => .ok (.number n, m)
  | write a n => (m.write a n).elim (.error .outOfBounds) fun m => .ok (.undefined, m)

namespace Operation

/-- The action of an operation that is no phi and no terminator. -/
def act (given : Surroundings) (f : Func) (values : Values) (i : InstId) :
    Operation → Except Trap Action
  | binary op l r => do
    let n ← op.apply (← l.number given values) (← r.number given values)
      (← l.unsigned given f values) (← r.unsigned given f values)
    return .value (.number n)
  | compare rel l r => do
    let holds := rel.holds (← l.number given values) (← r.number given values)
      (← l.unsigned given f values) (← r.unsigned given f values)
    return .value (.number (if holds then 1 else 0))
  | convert .zext v => do return .value (.number (← v.unsigned given f values).toInt64)
  | convert .sext v | convert .trunc v => do return .value (.number (← v.number given values))
  | convert .addrSpaceCast v => do return .value (← v.datum given values)
  | convert .siToFp _ | convert .fpToSi _ => .error .floatingPoint
  | select c t e => do
    if truth (← c.number given values) then return .value (← t.datum given values)
    else return .value (← e.datum given values)
  | element b n => do
    let a ← (← b.datum given values).toAddress
    return .value (.address { a with offset := a.offset + (← n.number given values) })
  | load p => do return .read (← (← p.datum given values).toAddress)
  | store p v => do
    let n ← v.number given values
    return .write (← (← p.datum given values).toAddress) n
  | call callee _ =>
    match Register.ofAccessor? callee with
    | some (r, d) => .ok (.register r d)
    | none => .error (.unknownFunction callee)
  | phi _ | jump _ | branch .. | ret _ | unreachable => .error (.misplaced i)

variable {given given' : Surroundings} {f g : Func} {values values' : Values} {op : Operation}

theorem execute_eq (m : Memory) (i : InstId) : op.execute given f values m i =
    op.act given f values i >>= fun a => a.perform given.position m := by
  cases op with
  | convert o v =>
    cases o <;> simp only [execute, act, bind_assoc, pure_bind, Action.perform] <;> rfl
  | call callee args =>
    simp only [execute, act]
    cases Register.ofAccessor? callee <;> rfl
  | select c t e =>
    simp only [execute, act, bind_assoc]
    refine congrArg _ (funext fun n => ?_)
    by_cases yes : truth n
    · simp only [yes, if_true, bind_assoc, pure_bind, Action.perform]
      rfl
    · simp only [yes, Bool.false_eq_true, if_false, bind_assoc, pure_bind, Action.perform]
      rfl
  | _ => simp only [execute, act, bind_assoc, pure_bind, Action.perform] <;> rfl

/-- What a renaming of operands has to keep: their values, and the types that say how wide they
are. -/
structure Agree (given given' : Surroundings) (f g : Func) (values values' : Values)
    (rename : Value → Value) (v : Value) : Prop where
  datum : (v.datum given values).toOption = ((rename v).datum given' values').toOption
  type : (f.valueType v).toOption = (g.valueType (rename v)).toOption

/-- Operands with the same values lead to the same action. -/
theorem act_map {rename : Value → Value} (i i' : InstId)
    (agree : ∀ v ∈ op.operands, Agree given given' f g values values' rename v) :
    (op.act given f values i).toOption =
      ((op.mapOperands rename).act given' g values' i').toOption := by
  have number : ∀ v ∈ op.operands, (v.number given values).toOption =
      ((rename v).number given' values').toOption := by
    intro v hv
    simp only [Value.number, toOption_bind, (agree v hv).datum]
  have unsigned : ∀ v ∈ op.operands, (v.unsigned given f values).toOption =
      ((rename v).unsigned given' g values').toOption := by
    intro v hv
    simp only [Value.unsigned, toOption_bind, number v hv, toOption_mapError, (agree v hv).type]
  have datum : ∀ v ∈ op.operands, (v.datum given values).toOption =
      ((rename v).datum given' values').toOption := fun v hv => (agree v hv).datum
  cases op with
  | convert o v =>
    have hn := number v (by simp [operands])
    have hu := unsigned v (by simp [operands])
    have hd := datum v (by simp [operands])
    cases o <;> simp only [act, mapOperands, toOption_bind, hn, hu, hd, toOption_error]
  | select c t e =>
    have hc := number c (by simp [operands])
    have ht := datum t (by simp [operands])
    have he := datum e (by simp [operands])
    simp only [act, mapOperands, toOption_bind, hc]
    refine congrArg _ (funext fun n => ?_)
    by_cases yes : truth n
    · simp only [yes, if_true, toOption_bind, ht]
    · simp only [yes, Bool.false_eq_true, if_false, toOption_bind, he]
  | _ =>
    simp only [operands, List.mem_cons, List.not_mem_nil, or_false, forall_eq_or_imp, forall_eq]
      at number unsigned datum
    simp only [act, mapOperands, toOption_bind, toOption_error, number, unsigned, datum]

/-- Operands with the same values lead to the same result, at the same place and in the same
memory. -/
theorem execute_map {rename : Value → Value} (m : Memory) (i i' : InstId)
    (position : given.position = given'.position)
    (agree : ∀ v ∈ op.operands, Agree given given' f g values values' rename v) :
    (op.execute given f values m i).toOption =
      ((op.mapOperands rename).execute given' g values' m i').toOption := by
  rw [execute_eq, execute_eq, toOption_bind, toOption_bind, act_map i i' agree, position]

@[simp] theorem mapOperands_id (op : Operation) : op.mapOperands id = op := by
  cases op <;> simp [mapOperands]

end Operation

theorem Func.valueType_inst (f : Func) (i : InstId) :
    (f.valueType (.inst i)).toOption = (f.line i).map (·.2) := by
  show ((·.ty) <$> f.inst i).toOption = _
  unfold Func.inst line
  cases f.insts[i.index]? <;> rfl

/-- Lets an operand read another instruction. -/
def Value.mapInst (k : InstId → InstId) : Value → Value
  | inst i => inst (k i)
  | v => v

@[simp] theorem Value.mapInst_id (v : Value) : v.mapInst id = v := by
  cases v <;> rfl

@[simp] theorem Value.mapInst_mapInst (k k' : InstId → InstId) (v : Value) :
    (v.mapInst k).mapInst k' = v.mapInst fun i => k' (k i) := by
  cases v <;> rfl

@[simp] theorem Operation.mapOperands_mapOperands (k k' : Value → Value) (op : Operation) :
    (op.mapOperands k).mapOperands k' = op.mapOperands fun v => k' (k v) := by
  cases op with
  | ret v => cases v <;> rfl
  | _ => simp [mapOperands, Function.comp_def]

theorem Operation.mapOperands_congr {k k' : Value → Value} {op : Operation}
    (same : ∀ v ∈ op.operands, k v = k' v) : op.mapOperands k = op.mapOperands k' := by
  cases op with
  | phi incoming =>
    simp only [operands, List.forall_mem_map] at same
    simp only [mapOperands, phi.injEq]
    exact List.map_congr_left fun p hp => by rw [same p hp]
  | call callee args => simpa [mapOperands, operands] using same
  | ret v => cases v <;> simp_all [mapOperands, operands]
  | _ => simp_all [mapOperands, operands]

/-- What an operation reads does not depend on how other instructions are renamed. -/
theorem Operation.mapInst_congr {k k' : InstId → InstId} {op : Operation}
    (same : ∀ j ∈ op.usedInsts, k j = k' j) :
    op.mapOperands (·.mapInst k) = op.mapOperands (·.mapInst k') := by
  refine mapOperands_congr fun value hv => ?_
  cases value with
  | inst j => exact congrArg Value.inst (same j (List.mem_filterMap.mpr ⟨_, hv, rfl⟩))
  | _ => rfl

theorem Operation.mem_usedInsts_mapInst {k : InstId → InstId} {op : Operation} {j : InstId} :
    j ∈ (op.mapOperands (·.mapInst k)).usedInsts ↔ ∃ i ∈ op.usedInsts, k i = j := by
  have inst : ∀ v : Value, (v.mapInst k).inst? = v.inst?.map k := fun v => by cases v <;> rfl
  simp only [usedInsts, operands_mapOperands, List.mem_filterMap, List.mem_map]
  constructor
  · rintro ⟨_, ⟨v, hv, rfl⟩, read⟩
    rw [inst, Option.map_eq_some_iff] at read
    obtain ⟨i, hi, rfl⟩ := read
    exact ⟨i, ⟨v, hv, hi⟩, rfl⟩
  · rintro ⟨i, ⟨v, hv, hi⟩, rfl⟩
    exact ⟨_, ⟨v, hv, rfl⟩, by rw [inst, hi]; rfl⟩

theorem Operation.substitute_inst (old new : InstId) (op : Operation) :
    op.substitute (.inst old) (.inst new) =
      op.mapOperands (·.mapInst fun j => if j = old then new else j) := by
  refine mapOperands_congr fun v _ => ?_
  cases v with
  | inst j => by_cases same : j = old <;> simp [Value.mapInst, same]
  | _ => simp [Value.mapInst]

/-- A renaming that keeps what an operation reads keeps the operation. -/
theorem Operation.mapInst_of_same {k : InstId → InstId} {op : Operation}
    (same : ∀ j ∈ op.usedInsts, k j = j) : op.mapOperands (·.mapInst k) = op := by
  have none : (fun v : Value => v.mapInst id) = id := funext Value.mapInst_id
  calc op.mapOperands (·.mapInst k) = op.mapOperands (·.mapInst id) := mapInst_congr same
    _ = op := by rw [none, mapOperands_id]

/-- Threads that are given the same read the same, if the instructions that they read have the
same values. -/
theorem Value.datum_mapInst {given given' : Surroundings} {values values' : Values} {v : Value}
    {k : InstId → InstId} (args : given.args = given'.args)
    (globals : given.globals = given'.globals)
    (same : ∀ i, v = .inst i → values i = values' (k i)) :
    (v.datum given values).toOption = ((v.mapInst k).datum given' values').toOption := by
  cases v with
  | inst i =>
    simp only [datum, mapInst, same i rfl]
    cases values' (k i) <;> rfl
  | arg n => simp [datum, mapInst, args]
  | const c => rfl
  | global g => simp [datum, mapInst, globals]
  | undef => rfl

/-- Reading other instructions with the same values and types makes no difference. -/
theorem Operation.agree_mapInst {given given' : Surroundings} {f g : Func}
    {values values' : Values} {v : Value} {k : InstId → InstId}
    (args : given.args = given'.args) (globals : given.globals = given'.globals)
    (params : f.params = g.params)
    (same : ∀ i, v = .inst i → values i = values' (k i) ∧
      (f.line i).map (·.2) = (g.line (k i)).map (·.2)) :
    Agree given given' f g values values' (·.mapInst k) v where
  datum := Value.datum_mapInst args globals fun i h => (same i h).1
  type := by
    cases v with
    | inst i =>
      rw [Value.mapInst, Func.valueType_inst, Func.valueType_inst, (same i rfl).2]
    | arg n => simp [Value.mapInst, Func.valueType, params]
    | const c => rfl
    | global g => rfl
    | undef => rfl

/-! ### Entering a block -/

namespace Func

variable {f g : Func} {given : Surroundings} {values : Values} {m : Memory}
  {source : Option BlockId} {b : BlockId} {phis body : List InstId} {last : InstId}

/-- The value of a phi when control comes from a block. -/
def phiDatum? (f : Func) (given : Surroundings) (values : Values) (source : Option BlockId)
    (i : InstId) : Option Datum :=
  match f.line i with
  | some (.phi incoming, _) =>
    (incoming.find? (some ·.2 == source)).bind fun p => (p.1.datum given values).toOption
  | _ => none

/-- At the start of a run, phis have no value. -/
theorem phiDatum_none (i : InstId) : f.phiDatum? given values none i = none := by
  unfold phiDatum?
  split
  · rw [List.find?_eq_none.mpr (by simp)]
    rfl
  · rfl

/-- Phis that read instructions with the same values have the same value. -/
theorem phiDatum_mapInst {given' : Surroundings} {values' : Values} {i i' : InstId}
    {op : Operation} {ty ty' : Ty} {k : InstId → InstId} (args : given.args = given'.args)
    (globals : given.globals = given'.globals) (line : f.line i = some (op, ty))
    (line' : g.line i' = some (op.mapOperands (·.mapInst k), ty')) (phi : op.isPhi = true)
    (same : ∀ j ∈ op.usedInsts, values j = values' (k j)) :
    g.phiDatum? given' values' source i' = f.phiDatum? given values source i := by
  cases op with
  | phi incoming =>
    unfold phiDatum?
    rw [line, line']
    simp only [Operation.mapOperands, List.find?_map, Function.comp_def, Option.bind_map]
    cases chosen : incoming.find? (some ·.2 == source) with
    | none => rfl
    | some p =>
      refine (Value.datum_mapInst args globals fun j read => same j ?_).symm
      exact List.mem_filterMap.mpr
        ⟨p.1, List.mem_map_of_mem (List.mem_of_find?_eq_some chosen), by rw [read]; rfl⟩
  | _ => simp [Operation.isPhi] at phi

theorem phiValues_toOption (i : InstId) (rest : List InstId) :
    (f.phiValues given values source (i :: rest)).toOption =
      (f.phiDatum? given values source i).bind fun d =>
        (f.phiValues given values source rest).toOption.map ((i, d) :: ·) := by
  rw [phiValues]
  cases hop : f.operation i with
  | error e =>
    have none : f.line i = none := by
      by_contra some
      obtain ⟨⟨op, ty⟩, line⟩ := Option.ne_none_iff_exists'.mp some
      rw [operation_eq_ok_iff.mpr ⟨ty, line⟩] at hop
      simp at hop
    simp [phiDatum?, none, Except.mapError, bind, Except.bind]
  | ok op =>
    obtain ⟨ty, line⟩ := operation_eq_ok_iff.mp hop
    cases op with
    | phi incoming =>
      cases chosen : incoming.find? (some ·.2 == source) with
      | none => simp [phiDatum?, line, chosen, Except.mapError, bind, Except.bind]
      | some p =>
        simp only [phiDatum?, line, chosen, Except.mapError, toOption_bind, toOption_ok,
          Option.bind_some]
        refine congrArg _ (funext fun d => ?_)
        cases (f.phiValues given values source rest) <;> rfl
    | _ => simp [phiDatum?, line, Except.mapError, bind, Except.bind]

theorem phiValues_eq (phis : List InstId) :
    (f.phiValues given values source phis).toOption =
      if ∀ i ∈ phis, (f.phiDatum? given values source i).isSome then
        some (phis.filterMap fun i => (f.phiDatum? given values source i).map (i, ·))
      else none := by
  induction phis with
  | nil => simp [phiValues]
  | cons i phis ih =>
    rw [phiValues_toOption, ih]
    cases hd : f.phiDatum? given values source i with
    | none => simp [hd]
    | some d =>
      by_cases all : ∀ j ∈ phis, (f.phiDatum? given values source j).isSome
      · simp [hd, if_pos all]
      · rw [if_neg all, if_neg fun h => all fun j hj => h j (List.mem_cons_of_mem _ hj)]
        rfl

/-- A thread that has entered a block: the phis have the values that belong to the block control
came from. -/
def entered (f : Func) (given : Surroundings) (values : Values) (m : Memory)
    (source : Option BlockId) (b : BlockId) (phis rest : List InstId) : ThreadState where
  block := b
  rest := rest
  values := fun j => if j ∈ phis then f.phiDatum? given values source j else values j
  memory := m

theorem enter_of_shape (shape : f.outline.Shape b phis body last) :
    (f.enter given values m source b).toOption =
      if ∀ i ∈ phis, (f.phiDatum? given values source i).isSome then
        some (f.entered given values m source b phis (body ++ [last]))
      else none := by
  obtain ⟨block, hblock, insts⟩ := exists_block (slot_of_shape shape)
  have code : block.insts = phis ++ (body ++ [last]) := insts.trans shape.code
  unfold enter
  simp only [toOption_bind, toOption_mapError, hblock, phis_of_shape shape, toOption_ok,
    Option.bind_some, phiValues_eq]
  by_cases all : ∀ i ∈ phis, (f.phiDatum? given values source i).isSome
  · rw [if_pos all, if_pos all]
    simp only [Option.bind_some, toOption_pure, entered, code, List.drop_left, Option.some.injEq,
      ThreadState.mk.injEq, true_and, and_true]
    funext j
    rcases foldl_set (phis.filterMap fun i => (f.phiDatum? given values source i).map (i, ·))
      values j with ⟨same, other⟩ | ⟨d, hd, last⟩
    · have : j ∉ phis := by
        intro hj
        obtain ⟨d, hd⟩ := Option.isSome_iff_exists.mp (all j hj)
        exact other (List.mem_map.mpr ⟨(j, d), List.mem_filterMap.mpr ⟨j, hj, by simp [hd]⟩, rfl⟩)
      rw [same, if_neg this]
    · obtain ⟨i, hi, same⟩ := List.mem_filterMap.mp hd
      obtain ⟨d', hd', pair⟩ := Option.map_eq_some_iff.mp same
      obtain ⟨rfl, rfl⟩ : i = j ∧ d' = d := by simpa using pair
      rw [last, if_pos hi, hd']
  · rw [if_neg all, if_neg all]
    rfl

/-- Two functions enter blocks together, or neither does, if the phis of the two blocks have the
same values. -/
theorem enter_together {given' : Surroundings} {values' : Values} (m m' : Memory)
    {source' : Option BlockId} {b' : BlockId} {phis' body' : List InstId} {last' : InstId}
    (shape : f.outline.Shape b phis body last) (shape' : g.outline.Shape b' phis' body' last')
    (data : List.Forall₂ (fun i j => g.phiDatum? given' values' source' j =
      f.phiDatum? given values source i) phis phis') :
    (∃ cause cause', f.enter given values m source b = .error cause ∧
        g.enter given' values' m' source' b' = .error cause') ∨
      f.enter given values m source b = .ok
          (f.entered given values m source b phis (body ++ [last])) ∧
        g.enter given' values' m' source' b' = .ok
          (g.entered given' values' m' source' b' phis' (body' ++ [last'])) := by
  have all : (∀ i ∈ phis', (g.phiDatum? given' values' source' i).isSome) ↔
      ∀ i ∈ phis, (f.phiDatum? given values source i).isSome := by
    clear shape shape'
    induction data with
    | nil => simp
    | cons same _ ih => rw [List.forall_mem_cons, List.forall_mem_cons, same, ih]
  have failed : ∀ {x : Except Trap ThreadState}, x.toOption = none → ∃ cause, x = .error cause := by
    intro x none
    cases x with
    | ok s => simp at none
    | error cause => exact ⟨cause, rfl⟩
  by_cases yes : ∀ i ∈ phis, (f.phiDatum? given values source i).isSome
  · refine .inr ⟨toOption_eq_some_iff.mp ?_, toOption_eq_some_iff.mp ?_⟩
    · rw [enter_of_shape shape, if_pos yes]
    · rw [enter_of_shape shape', if_pos (all.mpr yes)]
  · obtain ⟨cause, h⟩ := failed (x := f.enter given values m source b)
      ((enter_of_shape shape).trans (if_neg yes))
    obtain ⟨cause', h'⟩ := failed (x := g.enter given' values' m' source' b')
      ((enter_of_shape shape').trans (if_neg fun h => yes (all.mp h)))
    exact .inl ⟨cause, cause', h, h'⟩

/-! ### Steps -/

variable {s : ThreadState} {i : InstId} {rest : List InstId} {op : Operation} {ty : Ty}

/-- The state behind an instruction that computes a value. -/
def computed (s : ThreadState) (i : InstId) (rest : List InstId) (ty : Ty)
    (result : Datum × Memory) : ThreadState :=
  { s with rest, values := s.values.set i (result.1.fit ty), memory := result.2 }

theorem step_of_plain (head : s.rest = i :: rest) (line : f.line i = some (op, ty))
    (plain : op.isTerminator = false) :
    f.step given s = .ofExcept (computed s i rest ty <$> op.execute given f s.values s.memory i) := by
  obtain ⟨inst, hi, rfl, rfl⟩ := inst_of_line line
  unfold step
  simp only [head, hi]
  cases hop : inst.op with
  | jump t => simp [hop, Operation.isTerminator] at plain
  | branch c t e => simp [hop, Operation.isTerminator] at plain
  | ret v => simp [hop, Operation.isTerminator] at plain
  | unreachable => simp [hop, Operation.isTerminator] at plain
  | _ =>
    simp only []
    generalize Operation.execute given f s.values s.memory i _ = result
    cases result <;> rfl

theorem step_of_jump {t : BlockId} (head : s.rest = i :: rest)
    (line : f.line i = some (.jump t, ty)) :
    f.step given s = .ofExcept (f.enter given s.values s.memory (some s.block) t) := by
  obtain ⟨inst, hi, hop, rfl⟩ := inst_of_line line
  simp [step, head, hi, hop]

theorem step_of_branch {c : Value} {t e : BlockId} (head : s.rest = i :: rest)
    (line : f.line i = some (.branch c t e, ty)) :
    f.step given s = .ofExcept (do
      let n ← c.number given s.values
      f.enter given s.values s.memory (some s.block) (if truth n then t else e)) := by
  obtain ⟨inst, hi, hop, rfl⟩ := inst_of_line line
  simp [step, head, hi, hop]

theorem step_of_ret {v : Option Value} (head : s.rest = i :: rest)
    (line : f.line i = some (.ret v, ty)) : f.step given s = .finish s.memory := by
  obtain ⟨inst, hi, hop, rfl⟩ := inst_of_line line
  simp [step, head, hi, hop]

theorem step_of_unreachable (head : s.rest = i :: rest)
    (line : f.line i = some (.unreachable, ty)) : f.step given s = .trap .unreachable := by
  obtain ⟨inst, hi, hop, rfl⟩ := inst_of_line line
  simp [step, head, hi, hop]

end Func

end KernelCoarsening
