/-
What a step of a thread does, and what a run computes.

* `Func.step_eq_next`, `Func.step_eq_finish` — a step computes one value, or leaves its block
  for one that the terminator leads to, or returns;
* `Func.enter_eq_ok` — what changes where a thread enters a block;
* `Func.Visits.placed` — a thread is always inside a block that control can come to;
* `Func.Takes` — the values that an instruction takes in a run that ends;
* `Operation.execute_congr` — what an operation computes depends on its operands, on the
  register or on the word that it reads.
-/
import KernelCoarsening.Execution.Thread
import KernelCoarsening.Proofs.Flow.WellFormed

namespace KernelCoarsening

/-- The block that a terminator leads to. -/
def Operation.target? (given : Surroundings) (values : Values) : Operation → Option BlockId
  | jump t => some t
  | branch c t e => (c.number given values).toOption.map fun n => if truth n then t else e
  | _ => none

theorem Operation.target?_mem {given : Surroundings} {values : Values} {op : Operation}
    {t : BlockId} (h : op.target? given values = some t) : t ∈ op.successors := by
  cases op with
  | jump t' =>
    obtain rfl : t' = t := by simpa [target?] using h
    simp [successors]
  | branch c t' e =>
    simp only [target?, Option.map_eq_some_iff] at h
    obtain ⟨n, -, rfl⟩ := h
    by_cases yes : truth n <;> simp [successors, yes]
  | _ => simp [target?] at h

namespace Func

variable {f : Func} {g : Graph} {given : Surroundings} {s s' : ThreadState}

/-! ### Steps -/

/-- What a step that does not end the run does. -/
inductive Moves (f : Func) (given : Surroundings) (s s' : ThreadState) : Prop where
  /-- It computes the value of the next instruction. -/
  | compute {i : InstId} {rest : List InstId} {inst : Inst} {value : Datum} {memory : Memory}
      (head : s.rest = i :: rest) (hi : f.inst i = .ok inst) (plain : inst.op.isTerminator = false)
      (result : inst.op.execute given f s.values s.memory i = .ok (value, memory))
      (after : s' = { s with rest, values := s.values.set i (value.fit inst.ty), memory })
  /-- It leaves the block. -/
  | leave {i : InstId} {rest : List InstId} {inst : Inst} {target : BlockId}
      (head : s.rest = i :: rest) (hi : f.inst i = .ok inst) (term : inst.op.isTerminator)
      (goes : inst.op.target? given s.values = some target)
      (enters : f.enter given s.values s.memory (some s.block) target = .ok s')

theorem ofExcept_eq_next {x : Except Trap ThreadState} :
    Transition.ofExcept x = .next s ↔ x = .ok s := by
  cases x <;> simp [Transition.ofExcept]

theorem step_eq_next (h : f.step given s = .next s') : f.Moves given s s' := by
  unfold step at h
  split at h
  · simp at h
  rename_i i rest head
  split at h
  · simp at h
  rename_i inst hi
  split at h
  · rename_i t hop
    exact .leave head hi (by simp [hop, Operation.isTerminator]) (by simp [hop, Operation.target?])
      (ofExcept_eq_next.mp h)
  · rename_i c t e hop
    obtain ⟨n, hn, enters⟩ := bind_eq_ok_iff.mp (ofExcept_eq_next.mp h)
    refine .leave head hi (by simp [hop, Operation.isTerminator]) ?_ enters
    simp [hop, Operation.target?, hn, Except.toOption]
  · simp at h
  · simp at h
  · rename_i noJump noBranch noRet noEnd
    obtain ⟨⟨value, memory⟩, result, h⟩ := bind_eq_ok_iff.mp (ofExcept_eq_next.mp h)
    refine .compute head hi ?_ result (by simpa [pure, Except.pure] using h.symm)
    cases hop : inst.op with
    | jump t => exact absurd hop (noJump t)
    | branch c t e => exact absurd hop (noBranch c t e)
    | ret v => exact absurd hop (noRet v)
    | unreachable => exact absurd hop noEnd
    | _ => rfl

/-- A run ends where the function returns. -/
theorem step_eq_finish {m : Memory} (h : f.step given s = .finish m) :
    ∃ i rest inst v, s.rest = i :: rest ∧ f.inst i = .ok inst ∧ inst.op = .ret v := by
  have not_finish : ∀ x : Except Trap ThreadState, Transition.ofExcept x ≠ .finish m := by
    intro x
    cases x <;> simp [Transition.ofExcept]
  unfold step at h
  split at h
  · simp at h
  rename_i i rest head
  split at h
  · simp at h
  rename_i inst hi
  split at h
  · exact absurd h (not_finish _)
  · exact absurd h (not_finish _)
  · rename_i v hop
    exact ⟨i, rest, inst, v, head, hi, hop⟩
  · simp at h
  · exact absurd h (not_finish _)

/-- Where one thread returns, another one does too. -/
theorem step_finish_congr (given' : Surroundings) (rest : s.rest = s'.rest) {m : Memory}
    (h : f.step given s = .finish m) : f.step given' s' = .finish s'.memory := by
  obtain ⟨i, later, inst, v, head, hi, hop⟩ := step_eq_finish h
  simp [step, ← rest, head, hi, hop]

/-- A thread that ends has entered the function. -/
theorem Runs.exists_enter {m m' : Memory} (runs : f.Runs given m m') :
    ∃ s, f.enter given (fun _ => none) m none f.entry = .ok s ∧ f.begin given m = .next s := by
  unfold Runs begin at *
  cases start : f.enter given (fun _ => none) m none f.entry with
  | ok s => exact ⟨s, rfl, rfl⟩
  | error cause =>
    rw [start] at runs
    cases runs

/-! ### Entering a block -/

/-- The phis of a block come first in it. -/
theorem leadingPhis_eq_ok {insts phis : List InstId} (h : f.leadingPhis insts = .ok phis) :
    insts = phis ++ insts.drop phis.length := by
  induction insts generalizing phis with
  | nil =>
    obtain rfl : [] = phis := by simpa [leadingPhis] using h
    rfl
  | cons i rest ih =>
    rw [leadingPhis, bind_eq_ok_iff] at h
    obtain ⟨op, _, h⟩ := h
    split at h
    · obtain ⟨later, hlater, h⟩ := bind_eq_ok_iff.mp h
      obtain rfl : i :: later = phis := by simpa [pure, Except.pure] using h
      simpa using ih hlater
    · obtain rfl : [] = phis := by simpa [pure, Except.pure] using h
      rfl

theorem phis_append {b : BlockId} {block : Block} {phis : List InstId} (hb : f.block b = .ok block)
    (h : f.phis b = .ok phis) : block.insts = phis ++ block.insts.drop phis.length := by
  unfold Func.phis at h
  obtain ⟨block', hb', h⟩ := bind_eq_ok_iff.mp h
  obtain rfl : block' = block := by simpa [hb'] using hb
  exact leadingPhis_eq_ok h

/-- A phi has a value when control comes from a block. -/
def PhiTakes (f : Func) (given : Surroundings) (values : Values) (source : Option BlockId)
    (i : InstId) (d : Datum) : Prop :=
  ∃ incoming v b, f.operation i = .ok (.phi incoming) ∧
    incoming.find? (some ·.2 == source) = some (v, b) ∧ v.datum given values = .ok d

theorem phiValues_eq_ok {values : Values} {source : Option BlockId} {phis : List InstId}
    {new : List (InstId × Datum)} (h : f.phiValues given values source phis = .ok new) :
    new.map (·.1) = phis ∧ ∀ p ∈ new, f.PhiTakes given values source p.1 p.2 := by
  induction phis generalizing new with
  | nil =>
    obtain rfl : [] = new := by simpa [phiValues] using h
    simp
  | cons i rest ih =>
    rw [phiValues, bind_eq_ok_iff] at h
    obtain ⟨op, hop, h⟩ := h
    split at h
    · rename_i incoming
      split at h
      · rename_i v b chosen
        simp only [bind_eq_ok_iff] at h
        obtain ⟨d, hd, later, hlater, h⟩ := h
        obtain rfl : (i, d) :: later = new := by simpa [pure, Except.pure] using h
        obtain ⟨names, takes⟩ := ih hlater
        refine ⟨by simp [names], fun p hp => ?_⟩
        rcases List.mem_cons.mp hp with rfl | hp
        · exact ⟨incoming, v, b, mapError_eq_ok_iff.mp hop, chosen, hd⟩
        · exact takes p hp
      · simp at h
    · simp at h

/-- Values that are given one after the other: the last one for an instruction stands. -/
theorem foldl_set (new : List (InstId × Datum)) (values : Values) (j : InstId) :
    new.foldl (fun values (i, v) => values.set i v) values j = values j ∧ j ∉ new.map (·.1) ∨
      ∃ d, (j, d) ∈ new ∧ new.foldl (fun values (i, v) => values.set i v) values j = some d := by
  induction new generalizing values with
  | nil => simp
  | cons p new ih =>
    rw [List.foldl_cons]
    rcases ih (values.set p.1 p.2) with ⟨same, other⟩ | ⟨d, hd, last⟩
    · by_cases here : j = p.1
      · exact .inr ⟨p.2, by simp [here], same.trans (by simp [here, Values.set])⟩
      · exact .inl ⟨same.trans (by simp [here, Values.set]), by simpa [here] using other⟩
    · exact .inr ⟨d, List.mem_cons_of_mem _ hd, last⟩

/-- How a thread enters a block: the phis of the block take values, and nothing else
changes. -/
structure Enters (f : Func) (given : Surroundings) (values : Values) (m : Memory)
    (source : Option BlockId) (b : BlockId) (block : Block) (phis : List InstId)
    (s : ThreadState) : Prop where
  hblock : f.block b = .ok block
  hphis : f.phis b = .ok phis
  here : s.block = b
  memory : s.memory = m
  rest : block.insts = phis ++ s.rest
  kept : ∀ j, j ∉ phis → s.values j = values j
  new : ∀ j ∈ phis, ∃ d, f.PhiTakes given values source j d ∧ s.values j = some d

theorem enter_eq_ok {values : Values} {m : Memory} {source : Option BlockId} {b : BlockId}
    (h : f.enter given values m source b = .ok s) :
    ∃ block phis, f.Enters given values m source b block phis s := by
  unfold enter at h
  simp only [bind_eq_ok_iff, mapError_eq_ok_iff] at h
  obtain ⟨block, hblock, phis, hphis, new, hnew, h⟩ := h
  obtain rfl := Except.ok.inj h
  obtain ⟨names, takes⟩ := phiValues_eq_ok hnew
  refine ⟨block, phis, hblock, hphis, rfl, rfl, phis_append hblock hphis, ?_, ?_⟩
  · intro j other
    rcases foldl_set new values j with ⟨same, -⟩ | ⟨d, hd, -⟩
    · exact same
    · exact absurd (names ▸ List.mem_map_of_mem hd) other
  · intro j hj
    rcases foldl_set new values j with ⟨-, other⟩ | ⟨d, hd, last⟩
    · exact absurd (names ▸ hj) other
    · exact ⟨d, takes _ hd, last⟩

/-! ### Runs -/

/-- What holds at the start of a run and is kept by every step holds of every state. -/
theorem Visits.induct {t : Transition} {p : ThreadState → Prop} (v : f.Visits given t s)
    (start : ∀ s, t = .next s → p s)
    (step : ∀ s s', p s → f.step given s = .next s' → p s') : p s := by
  induction v with
  | here s => exact start s rfl
  | @later s s' rest ih =>
    exact ih fun s'' next => step s s'' (start s rfl) next

theorem Visits.step {t : Transition} (v : f.Visits given t s) (next : f.step given s = .next s') :
    f.Visits given t s' := by
  induction v with
  | here s => exact .later (next ▸ .here s')
  | later _ ih => exact .later (ih next)

/-- A thread is inside a block that control can come to. -/
structure Placed (f : Func) (g : Graph) (s : ThreadState) : Prop where
  reached : g.Reaches f.entry.index s.block.index
  rest : ∃ block before, f.block s.block = .ok block ∧ block.insts = before ++ s.rest

theorem Enters.placed {values : Values} {m : Memory} {source : Option BlockId} {b : BlockId}
    {block : Block} {phis : List InstId} (e : f.Enters given values m source b block phis s)
    (reached : g.Reaches f.entry.index b.index) : f.Placed g s :=
  ⟨e.here ▸ reached, block, phis, e.here ▸ e.hblock, e.rest⟩

/-- Where a terminator is executed, its block leads to the blocks that it names. -/
theorem Placed.edge (p : f.Placed g s) (hg : f.graph = .ok g) (consistent : f.Consistent)
    (flawless : f.firstFlaw? = .ok none) {i : InstId} {rest : List InstId} {inst : Inst}
    (head : s.rest = i :: rest) (hi : f.inst i = .ok inst) (term : inst.op.isTerminator)
    {t : BlockId} : t.index ∈ g.next s.block.index ↔ t ∈ inst.op.successors := by
  obtain ⟨block, before, hb, shape⟩ := p.rest
  have slot : s.block.index < f.blocks.size :=
    (Array.getElem?_eq_some_iff.mp (block_eq_ok_iff.mp hb)).1
  have listed := (consistent.mem_layout s.block).mpr slot
  rw [head] at shape
  obtain ⟨-, succs⟩ := successors_of_terminator flawless listed hb shape hi term
  exact mem_next_graph hg succs (by rw [size_graph hg]; exact slot)

theorem Placed.step (p : f.Placed g s) (hg : f.graph = .ok g) (consistent : f.Consistent)
    (flawless : f.firstFlaw? = .ok none) (next : f.step given s = .next s') : f.Placed g s' := by
  cases step_eq_next next with
  | @compute i rest inst value memory head hi plain result after =>
    subst after
    obtain ⟨block, before, hb, shape⟩ := p.rest
    exact ⟨p.reached, block, before ++ [i], hb, by simp [shape, head]⟩
  | leave head hi term goes enters =>
    obtain ⟨block, phis, e⟩ := enter_eq_ok enters
    have edge := (p.edge hg consistent flawless head hi term).mpr (Operation.target?_mem goes)
    exact e.placed (p.reached.trans ⟨_, .go edge (.stay _)⟩)

theorem Visits.placed {m : Memory} (v : f.Visits given (f.begin given m) s) (hg : f.graph = .ok g)
    (consistent : f.Consistent) (flawless : f.firstFlaw? = .ok none) : f.Placed g s := by
  refine v.induct (fun s start => ?_) fun s s' p next => p.step hg consistent flawless next
  obtain ⟨block, phis, e⟩ := enter_eq_ok (ofExcept_eq_next.mp start)
  exact e.placed (.refl g _)

/-! ### The values that an instruction takes -/

/-- The instructions that take a value in a step from one state to another. -/
def assigned (f : Func) (s s' : ThreadState) : List InstId :=
  match s.rest with
  | [] => []
  | i :: _ =>
    match f.operation i with
    | .error _ => []
    | .ok op => if op.isTerminator then ((f.phis s'.block).toOption).getD [] else [i]

/-- The value that an instruction takes in a step, if it takes one. -/
def takenIn (f : Func) (i : InstId) (s : ThreadState) : Transition → List Datum
  | .next s' => if i ∈ f.assigned s s' then (s'.values i).toList else []
  | _ => []

/-- The values that an instruction takes from here on, one after the other, if the run ends in
at most so many steps. -/
def valuesTaken (f : Func) (given : Surroundings) (i : InstId) :
    Nat → Transition → Option (List Datum)
  | _, .finish _ => some []
  | fuel + 1, .next s => (f.takenIn i s (f.step given s) ++ ·) <$>
      f.valuesTaken given i fuel (f.step given s)
  | _, _ => none

/-- A run ends, and an instruction takes these values in it, one after the other. -/
def Takes (f : Func) (given : Surroundings) (m : Memory) (i : InstId) (values : List Datum) :
    Prop :=
  ∃ fuel, f.valuesTaken given i fuel (f.begin given m) = some values

theorem valuesTaken_isSome_iff {i : InstId} {t : Transition} :
    (∃ fuel values, f.valuesTaken given i fuel t = some values) ↔ ∃ m, f.Finishes given t m := by
  constructor
  · rintro ⟨fuel, values, h⟩
    induction fuel generalizing t values with
    | zero =>
      cases t with
      | finish m => exact ⟨m, .done m⟩
      | next s => simp [valuesTaken] at h
      | trap cause => simp [valuesTaken] at h
    | succ fuel ih =>
      cases t with
      | finish m => exact ⟨m, .done m⟩
      | trap cause => simp [valuesTaken] at h
      | next s =>
        rw [valuesTaken, Option.map_eq_map, Option.map_eq_some_iff] at h
        obtain ⟨later, h, -⟩ := h
        obtain ⟨m, finishes⟩ := ih later h
        exact ⟨m, .more finishes⟩
  · rintro ⟨m, h⟩
    induction h with
    | done m => exact ⟨0, [], rfl⟩
    | @more s m _ ih =>
      obtain ⟨fuel, values, h⟩ := ih
      exact ⟨fuel + 1, _, by rw [valuesTaken, h]; rfl⟩

/-- An instruction takes values in the runs that end, and in no others. -/
theorem takes_iff_runs {m : Memory} {i : InstId} :
    (∃ values, f.Takes given m i values) ↔ ∃ m', f.Runs given m m' := by
  unfold Takes Runs
  rw [← valuesTaken_isSome_iff (i := i), exists_comm]

end Func

/-! ### Operations that compute the same -/

/-- An operand has the same value for two threads that are given the same and agree on the
instruction that it names. -/
theorem Value.datum_congr {given given' : Surroundings} {values values' : Values} {v : Value}
    (args : given.args = given'.args) (globals : given.globals = given'.globals)
    (same : ∀ i, v = .inst i → values i = values' i) :
    v.datum given values = v.datum given' values' := by
  cases v with
  | inst i => simp [datum, same i rfl]
  | arg n => simp [datum, args]
  | const c => rfl
  | global g => simp [datum, globals]
  | undef => rfl

theorem Datum.toAddress_eq_ok {d : Datum} {a : Address} :
    d.toAddress = .ok a ↔ d = .address a := by
  cases d <;> simp [toAddress]

/-- What an operation computes depends on the values of its operands, on the register that it
reads if it is a call and on the word that it reads if it is a load. -/
theorem Operation.execute_congr {given given' : Surroundings} {f : Func} {values values' : Values}
    {m m' after after' : Memory} {i : InstId} {op : Operation} {d d' : Datum}
    (operands : ∀ v ∈ op.operands, v.datum given values = v.datum given' values')
    (register : ∀ callee args r dim, op = .call callee args →
      Register.ofAccessor? callee = some (r, dim) →
        given.position.read r dim = given'.position.read r dim)
    (word : ∀ p a, op = .load p → p.datum given values = .ok (.address a) → m.read a = m'.read a)
    (h : op.execute given f values m i = .ok (d, after))
    (h' : op.execute given' f values' m' i = .ok (d', after')) : d = d' := by
  cases op with
  | binary o l r | compare o l r =>
    have left := operands l (by simp [Operation.operands])
    have right := operands r (by simp [Operation.operands])
    simp only [execute, Value.unsigned, Value.number, left, right, bind_eq_ok_iff, pure,
      Except.pure, Except.ok.injEq] at h h'
    grind
  | convert o v =>
    have value := operands v (by simp [Operation.operands])
    cases o
    all_goals
      simp only [execute, Value.unsigned, Value.number, value, bind_eq_ok_iff, pure,
        Except.pure, Except.ok.injEq, reduceCtorEq] at h h'
      try grind
  | select c t e =>
    have cond := operands c (by simp [Operation.operands])
    have yes := operands t (by simp [Operation.operands])
    have no := operands e (by simp [Operation.operands])
    simp only [execute, Value.number, cond, yes, no] at h h'
    obtain ⟨n, hn, h⟩ := bind_eq_ok_iff.mp h
    obtain ⟨n', hn', h'⟩ := bind_eq_ok_iff.mp h'
    obtain rfl : n = n' := by simpa [hn] using hn'
    by_cases chosen : truth n
    all_goals
      simp only [chosen, if_true, Bool.false_eq_true, if_false, bind_eq_ok_iff, pure, Except.pure,
        Except.ok.injEq] at h h'
      grind
  | element b n =>
    have base := operands b (by simp [Operation.operands])
    have index := operands n (by simp [Operation.operands])
    simp only [execute, Value.number, base, index, bind_eq_ok_iff, pure, Except.pure,
      Except.ok.injEq] at h h'
    grind
  | load p =>
    have pointer := operands p (by simp [Operation.operands])
    simp only [execute, ← pointer, bind_eq_ok_iff] at h h'
    obtain ⟨x, hx, a, ha, h⟩ := h
    obtain ⟨x', hx', a', ha', h'⟩ := h'
    obtain rfl : x = x' := by simpa [hx] using hx'
    obtain rfl : a = a' := by simpa [ha] using ha'
    rw [word p a rfl (Datum.toAddress_eq_ok.mp ha ▸ hx)] at h
    cases read : m'.read a with
    | none => simp [read] at h
    | some n =>
      simp only [read, Option.elim_some, Except.ok.injEq, Prod.mk.injEq] at h h'
      rw [← h.1, ← h'.1]
  | store p v =>
    simp only [execute, bind_eq_ok_iff] at h h'
    obtain ⟨_, _, _, _, _, _, h⟩ := h
    obtain ⟨_, _, _, _, _, _, h'⟩ := h'
    have stored : ∀ {x : Option Memory} {d : Datum} {after : Memory},
        (x.elim (.error .outOfBounds) fun m => .ok (.undefined, m) : Except Trap (Datum × Memory)) =
          .ok (d, after) → d = .undefined := by
      intro x d after h
      cases x with
      | none => simp at h
      | some m =>
        simp only [Option.elim_some, Except.ok.injEq, Prod.mk.injEq] at h
        exact h.1.symm
    rw [stored h, stored h']
  | call callee args =>
    simp only [execute] at h h'
    cases read : Register.ofAccessor? callee with
    | none => simp [read] at h
    | some place =>
      obtain ⟨r, dim⟩ := place
      simp only [read, Except.ok.injEq, Prod.mk.injEq] at h h'
      rw [← h.1, ← h'.1, register callee args r dim rfl read]
  | _ => simp [execute] at h

end KernelCoarsening
