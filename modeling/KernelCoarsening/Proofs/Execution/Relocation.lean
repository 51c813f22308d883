/-
Threads whose buffers lie elsewhere.

Nothing that a thread computes depends on which buffers its addresses lead to: addresses are handed
on, moved within their buffers and followed, but never looked at.  So a thread that finds other
buffers with the same contents in the place of its own does the same in these:

* `Datum.Moved`, `Memory.Moved` — values and memories that differ in where buffers lie;
* `Func.step_moved` — one step of a thread in two such memories;
* `Func.runs_moved` — a run that ends does so in the other buffers, too;
* `Func.accessesAt_of_moved`, `Func.writesVia_of_moved` — and it accesses them at the same places.
-/
import KernelCoarsening.Proofs.Execution.Footprint
import Mathlib.Logic.Relator

namespace KernelCoarsening

/-- Related results are handed on to related computations. -/
theorem rel_bind {α β α' β' : Type} {r : α → α' → Prop} {q : β → β' → Prop} {x : Option α}
    {y : Option α'} {k : α → Option β} {k' : α' → Option β'} (h : Option.Rel r x y)
    (next : ∀ a a', r a a' → Option.Rel q (k a) (k' a')) : Option.Rel q (x.bind k) (y.bind k') := by
  cases h with
  | none => exact .none
  | some h => exact next _ _ h

theorem rel_bind_same {α β β' : Type} {q : β → β' → Prop} {x : Option α} {k : α → Option β}
    {k' : α → Option β'} (next : ∀ a, Option.Rel q (k a) (k' a)) :
    Option.Rel q (x.bind k) (x.bind k') := by
  cases x with
  | none => exact .none
  | some a => exact next a

/-! ### Values and memories -/

/-- The same place of a buffer that stands for another one. -/
structure Address.Moved (R : Nat → Nat → Prop) (a a' : Address) : Prop where
  buffer : R a.buffer a'.buffer
  offset : a'.offset = a.offset

/-- The same value, where an address leads to a buffer that stands for another one. -/
inductive Datum.Moved (R : Nat → Nat → Prop) : Datum → Datum → Prop where
  | number (n : Int64) : Moved R (.number n) (.number n)
  | address {a a' : Address} (h : a.Moved R a') : Moved R (.address a) (.address a')
  | undefined : Moved R .undefined .undefined

/-- The same action, in a buffer that stands for another one. -/
inductive Action.Moved (R : Nat → Nat → Prop) : Action → Action → Prop where
  | value {d d' : Datum} (h : d.Moved R d') : Moved R (.value d) (.value d')
  | register (r : Register) (d : Dimension) : Moved R (.register r d) (.register r d)
  | read {a a' : Address} (h : a.Moved R a') : Moved R (.read a) (.read a')
  | write {a a' : Address} (h : a.Moved R a') (n : Int64) : Moved R (.write a n) (.write a' n)

/-- Buffers have the contents of those that they stand for. -/
def Memory.Moved (R : Nat → Nat → Prop) (m m' : Memory) : Prop :=
  ∀ b b', R b b' → m'.buffers[b']? = m.buffers[b]?

/-- Instructions have the same values, where addresses lead to buffers that stand for others. -/
def Values.Moved (R : Nat → Nat → Prop) (values values' : Values) : Prop :=
  ∀ i, Option.Rel (Datum.Moved R) (values i) (values' i)

/-- Threads at the same place that are given the same, apart from where buffers lie. -/
structure Surroundings.Moved (R : Nat → Nat → Prop) (given given' : Surroundings) : Prop where
  position : given'.position = given.position
  args : ∀ n : Nat, Option.Rel (Datum.Moved R) given.args[n]? given'.args[n]?
  globals : ∀ n : Nat, Option.Rel (Datum.Moved R) given.globals[n]? given'.globals[n]?

variable {R : Nat → Nat → Prop}

theorem Address.Moved.cell? {a a' : Address} (h : a.Moved R a') {c' : Nat × Nat}
    (cell : a'.cell? = some c') : ∃ b, R b c'.1 ∧ a.cell? = some (b, c'.2) := by
  obtain ⟨place, hplace, rfl⟩ := Option.map_eq_some_iff.mp cell
  refine ⟨a.buffer, h.buffer, Option.map_eq_some_iff.mpr ⟨place, ?_, rfl⟩⟩
  rw [← hplace, Memory.place?, Memory.place?, h.offset]

theorem Datum.Moved.toNumber {d d' : Datum} (h : d.Moved R d') : d'.toNumber = d.toNumber := by
  cases h <;> rfl

theorem Datum.Moved.toAddress {d d' : Datum} (h : d.Moved R d') :
    Option.Rel (Address.Moved R) d.toAddress.toOption d'.toAddress.toOption := by
  cases h with
  | number n => exact .none
  | address h => exact .some h
  | undefined => exact .none

theorem Datum.Moved.fit {d d' : Datum} (h : d.Moved R d') (ty : Ty) :
    (d.fit ty).Moved R (d'.fit ty) := by
  cases h with
  | number n => exact .number _
  | address h => exact .address h
  | undefined => exact .undefined

theorem Values.Moved.set {values values' : Values} (h : values.Moved R values') (i : InstId)
    {d d' : Datum} (hd : d.Moved R d') : (values.set i d).Moved R (values'.set i d') := by
  intro j
  unfold Values.set
  split
  · exact .some hd
  · exact h j

namespace Memory.Moved

variable {m m' : Memory} {a a' : Address}

theorem read (h : m.Moved R m') (ha : a.Moved R a') : m'.read a' = m.read a := by
  unfold Memory.read Memory.place?
  rw [h _ _ ha.buffer, ha.offset]

/-- A write changes one buffer, and the one that stands for it. -/
theorem write (unique : Relator.BiUnique R) (h : m.Moved R m') (ha : a.Moved R a') (n : Int64) :
    Option.Rel (Memory.Moved R) (m.write a n) (m'.write a' n) := by
  unfold Memory.write Memory.place?
  rw [h _ _ ha.buffer, ha.offset]
  cases found : m.buffers[a.buffer]? with
  | none => exact .none
  | some buffer =>
    have found' : m'.buffers[a'.buffer]? = some buffer := (h _ _ ha.buffer).trans found
    have slot := (List.getElem?_eq_some_iff.mp found).1
    have slot' := (List.getElem?_eq_some_iff.mp found').1
    split
    · simp only [Option.bind_eq_bind, Option.bind_some]
      split
      · refine .some fun b b' hb => ?_
        by_cases here : a.buffer = b
        · obtain rfl := here
          obtain rfl := unique.2 ha.buffer hb
          rw [List.getElem?_set_self slot, List.getElem?_set_self slot']
        · have there : a'.buffer ≠ b' := fun same => here (unique.1 ha.buffer (same ▸ hb))
          rw [List.getElem?_set_ne here, List.getElem?_set_ne there]
          exact h b b' hb
      · exact .none
    · exact .none

end Memory.Moved

/-! ### Operations -/

section

variable {given given' : Surroundings} {f : Func} {values values' : Values}
  (moved : given.Moved R given') (same : values.Moved R values')
include moved same

theorem Value.datum_moved (v : Value) : Option.Rel (Datum.Moved R) (v.datum given values).toOption
    (v.datum given' values').toOption := by
  have elim : ∀ {x y : Option Datum} {cause cause' : Trap}, Option.Rel (Datum.Moved R) x y →
      Option.Rel (Datum.Moved R) (x.elim (.error cause) .ok : Except Trap Datum).toOption
        (y.elim (.error cause') .ok : Except Trap Datum).toOption := by
    intro x y cause cause' h
    cases h with
    | none => exact .none
    | some h => exact .some h
  cases v with
  | inst i => exact elim (same i)
  | arg n => exact elim (moved.args n)
  | const c => exact .some (.number c)
  | global g => exact elim (moved.globals g.index)
  | undef => exact .some .undefined

theorem Value.number_moved (v : Value) :
    (v.number given' values').toOption = (v.number given values).toOption := by
  have same := v.datum_moved moved same
  simp only [Value.number, toOption_bind]
  generalize (v.datum given values).toOption = x at same ⊢
  generalize (v.datum given' values').toOption = y at same ⊢
  cases same with
  | none => rfl
  | some h => simp only [Option.bind_some, h.toNumber]

theorem Value.unsigned_moved (v : Value) :
    (v.unsigned given' f values').toOption = (v.unsigned given f values).toOption := by
  simp only [Value.unsigned, toOption_bind, v.number_moved moved same]

/-- An operation asks for the same in the buffers that stand for others. -/
theorem Operation.act_moved (op : Operation) (i : InstId) : Option.Rel (Action.Moved R)
    (op.act given f values i).toOption (op.act given' f values' i).toOption := by
  have number := fun v : Value => v.number_moved moved same
  have unsigned := fun v : Value => v.unsigned_moved (f := f) moved same
  have datum := fun v : Value => v.datum_moved moved same
  cases op with
  | binary op l r =>
    simp only [act, toOption_bind, number, unsigned]
    iterate 5 refine rel_bind_same fun _ => ?_
    exact .some (.value (.number _))
  | compare rel l r =>
    simp only [act, toOption_bind, number, unsigned]
    iterate 4 refine rel_bind_same fun _ => ?_
    exact .some (.value (.number _))
  | convert o v =>
    cases o with
    | zext =>
      simp only [act, toOption_bind, unsigned]
      exact rel_bind_same fun _ => .some (.value (.number _))
    | sext | trunc =>
      simp only [act, toOption_bind, number]
      exact rel_bind_same fun _ => .some (.value (.number _))
    | addrSpaceCast =>
      simp only [act, toOption_bind]
      exact rel_bind (datum v) fun d d' h => .some (.value h)
    | siToFp | fpToSi => exact .none
  | select c t e =>
    simp only [act, toOption_bind, number]
    refine rel_bind_same fun n => ?_
    split
    · simp only [toOption_bind]
      exact rel_bind (datum t) fun d d' h => .some (.value h)
    · simp only [toOption_bind]
      exact rel_bind (datum e) fun d d' h => .some (.value h)
  | element b n =>
    simp only [act, toOption_bind, number]
    refine rel_bind (datum b) fun d d' h => rel_bind h.toAddress fun a a' ha => ?_
    refine rel_bind_same fun n => .some (.value (.address ⟨ha.buffer, ?_⟩))
    rw [ha.offset]
  | load p =>
    simp only [act, toOption_bind]
    exact rel_bind (datum p) fun d d' h => rel_bind h.toAddress fun a a' ha => .some (.read ha)
  | store p v =>
    simp only [act, toOption_bind, number]
    refine rel_bind_same fun n => rel_bind (datum p) fun d d' h => ?_
    exact rel_bind h.toAddress fun a a' ha => .some (.write ha n)
  | call callee args =>
    simp only [act]
    split
    · exact .some (.register _ _)
    · exact .none
  | phi _ | jump _ | branch _ _ _ | ret _ | unreachable => exact .none

/-- The accessed address is the same place of a buffer that stands for the other. -/
theorem Operation.accessed_moved (op : Operation) : Option.Rel (Address.Moved R)
    (op.accessed? given values) (op.accessed? given' values') := by
  have address : ∀ p : Value, Option.Rel (Address.Moved R)
      ((load p).accessed? given values) ((load p).accessed? given' values') := by
    intro p
    refine rel_bind (p.datum_moved moved same) fun d d' h => ?_
    cases h with
    | number n => exact .none
    | address h => exact .some h
    | undefined => exact .none
  cases op with
  | load p => exact address p
  | store p v => exact address p
  | _ => exact .none

end

/-- An action finds the same in buffers that stand for others, and does the same to them. -/
theorem Action.Moved.perform (unique : Relator.BiUnique R) {action action' : Action}
    (h : action.Moved R action') {m m' : Memory} (memory : m.Moved R m') (p : Position) :
    Option.Rel (fun x y : Datum × Memory => x.1.Moved R y.1 ∧ x.2.Moved R y.2)
      (action.perform p m).toOption (action'.perform p m').toOption := by
  cases h with
  | value h => exact .some ⟨h, memory⟩
  | register r d => exact .some ⟨.number _, memory⟩
  | @read a a' h =>
    simp only [Action.perform, memory.read h]
    cases m.read a with
    | none => exact .none
    | some n => exact .some ⟨.number n, memory⟩
  | @write a a' h n =>
    have after := memory.write unique h n
    simp only [Action.perform]
    generalize m.write a n = x at after ⊢
    generalize m'.write a' n = y at after ⊢
    cases after with
    | none => exact .none
    | some h' => exact .some ⟨.undefined, h'⟩

/-! ### Steps -/

/-- Threads at the same point of a function, whose buffers lie elsewhere. -/
structure ThreadState.Moved (R : Nat → Nat → Prop) (s s' : ThreadState) : Prop where
  block : s'.block = s.block
  rest : s'.rest = s.rest
  values : s.values.Moved R s'.values
  memory : s.memory.Moved R s'.memory

/-- Both threads go on, or both end, or both are trapped. -/
inductive Transition.Moved (R : Nat → Nat → Prop) : Transition → Transition → Prop where
  | next {s s' : ThreadState} (h : s.Moved R s') : Moved R (.next s) (.next s')
  | finish {m m' : Memory} (h : m.Moved R m') : Moved R (.finish m) (.finish m')
  | trap (cause cause' : Trap) : Moved R (.trap cause) (.trap cause')

theorem Transition.moved_ofExcept {x y : Except Trap ThreadState}
    (h : Option.Rel (ThreadState.Moved R) x.toOption y.toOption) :
    Transition.Moved R (.ofExcept x) (.ofExcept y) := by
  cases x with
  | ok s =>
    cases y with
    | ok s' =>
      cases h with
      | some h => exact .next h
    | error cause => cases h
  | error cause =>
    cases y with
    | ok s' => cases h
    | error cause' => exact .trap _ _

namespace Func

variable {f : Func} {given given' : Surroundings} {m m' : Memory} {s s' : ThreadState}

section

variable (moved : given.Moved R given')
include moved

theorem phiValues_moved {values values' : Values} (same : values.Moved R values')
    (source : Option BlockId) (phis : List InstId) :
    Option.Rel (List.Forall₂ fun p q : InstId × Datum => q.1 = p.1 ∧ p.2.Moved R q.2)
      (f.phiValues given values source phis).toOption
      (f.phiValues given' values' source phis).toOption := by
  induction phis with
  | nil => exact .some .nil
  | cons i rest ih =>
    rw [phiValues_toOption, phiValues_toOption]
    have phi : Option.Rel (Datum.Moved R) (f.phiDatum? given values source i)
        (f.phiDatum? given' values' source i) := by
      unfold phiDatum?
      split
      · exact rel_bind_same fun p => p.1.datum_moved moved same
      · exact .none
    refine rel_bind phi fun d d' hd => ?_
    generalize (f.phiValues given values source rest).toOption = x at ih ⊢
    generalize (f.phiValues given' values' source rest).toOption = y at ih ⊢
    cases ih with
    | none => exact .none
    | some later => exact .some (.cons ⟨rfl, hd⟩ later)

theorem enter_moved {values values' : Values} (same : values.Moved R values')
    (memory : m.Moved R m') (source : Option BlockId) (b : BlockId) :
    Option.Rel (ThreadState.Moved R) (f.enter given values m source b).toOption
      (f.enter given' values' m' source b).toOption := by
  unfold enter
  simp only [toOption_bind, toOption_pure]
  refine rel_bind_same fun block => rel_bind_same fun phis => ?_
  refine rel_bind (phiValues_moved moved same source phis) fun new new' h => ?_
  refine .some ⟨rfl, rfl, ?_, memory⟩
  induction h generalizing values values' with
  | nil => exact same
  | @cons p q new new' hp _ ih =>
    obtain ⟨i, d⟩ := p
    obtain ⟨j, d'⟩ := q
    obtain ⟨rfl, hd⟩ : j = i ∧ d.Moved R d' := hp
    exact ih (same.set j hd)

/-- One step of a thread whose buffers lie elsewhere. -/
theorem step_moved (unique : Relator.BiUnique R) (h : s.Moved R s') :
    Transition.Moved R (f.step given s) (f.step given' s') := by
  obtain ⟨b, rest, values, memory⟩ := s
  obtain ⟨b', rest', values', memory'⟩ := s'
  obtain ⟨rfl, rfl, same, memories⟩ : b' = b ∧ rest' = rest ∧ values.Moved R values' ∧
      memory.Moved R memory' := ⟨h.block, h.rest, h.values, h.memory⟩
  cases rest' with
  | nil => exact .trap _ _
  | cons i rest =>
    cases hi : f.inst i with
    | error fault => simpa [step, hi] using .trap _ _
    | ok inst =>
      have line := line_of_inst hi
      cases hop : inst.op with
      | jump t =>
        rw [hop] at line
        rw [step_of_jump rfl line, step_of_jump rfl line]
        exact Transition.moved_ofExcept (enter_moved moved same memories _ _)
      | branch c t e =>
        rw [hop] at line
        rw [step_of_branch rfl line, step_of_branch rfl line]
        refine Transition.moved_ofExcept ?_
        simp only [toOption_bind, c.number_moved moved same]
        exact rel_bind_same fun n => enter_moved moved same memories _ _
      | ret v =>
        rw [hop] at line
        rw [step_of_ret rfl line, step_of_ret rfl line]
        exact .finish memories
      | unreachable =>
        rw [hop] at line
        rw [step_of_unreachable rfl line, step_of_unreachable rfl line]
        exact .trap _ _
      | _ =>
        rw [hop] at line
        rw [step_of_plain rfl line rfl, step_of_plain rfl line rfl]
        refine Transition.moved_ofExcept ?_
        rw [Operation.execute_eq, Operation.execute_eq, moved.position]
        simp only [map_eq_pure_bind, toOption_bind]
        refine rel_bind (rel_bind (Operation.act_moved moved same _ i) fun a a' ha =>
          ha.perform unique memories _) fun x x' hx => ?_
        exact .some ⟨rfl, rfl, same.set i (hx.1.fit inst.ty), hx.2⟩

/-! ### Runs -/

theorem finishes_moved (unique : Relator.BiUnique R) {T U : Transition}
    (ends : f.Finishes given T m) (h : T.Moved R U) :
    ∃ m', f.Finishes given' U m' ∧ m.Moved R m' := by
  induction ends generalizing U with
  | done m =>
    cases h with
    | finish h => exact ⟨_, .done _, h⟩
  | more _ ih =>
    cases h with
    | next h =>
      obtain ⟨m', ends, h'⟩ := ih (step_moved moved unique h)
      exact ⟨m', .more ends, h'⟩

/-- A thread that finds the contents of its buffers elsewhere runs as before. -/
theorem runs_moved (unique : Relator.BiUnique R) (same : m.Moved R m') {μ : Memory}
    (runs : f.Runs given m μ) : ∃ μ', f.Runs given' m' μ' ∧ μ.Moved R μ' :=
  finishes_moved moved unique runs
    (Transition.moved_ofExcept (enter_moved moved (fun _ => .none) same _ _))

theorem visits_of_moved (unique : Relator.BiUnique R) {T U : Transition}
    (visits : f.Visits given' U s') (h : T.Moved R U) :
    ∃ s, f.Visits given T s ∧ s.Moved R s' := by
  induction visits generalizing T with
  | here s' =>
    cases h with
    | next h => exact ⟨_, .here _, h⟩
  | later _ ih =>
    cases h with
    | next h =>
      obtain ⟨s, visits, h'⟩ := ih (step_moved moved unique h)
      exact ⟨s, .later visits, h'⟩

/-- What the thread accesses elsewhere it accesses at the same place of its own buffers. -/
theorem accessed_of_moved (unique : Relator.BiUnique R) (same : m.Moved R m') {i : InstId}
    {rest : List InstId} {op : Operation} {a' : Address} {c' : Nat × Nat}
    (visits : f.Visits given' (f.begin given' m') s') (head : s'.rest = i :: rest)
    (accessed : op.accessed? given' s'.values = some a') (cell : a'.cell? = some c') :
    ∃ s a b, f.Visits given (f.begin given m) s ∧ s.rest = i :: rest ∧
      op.accessed? given s.values = some a ∧ R b c'.1 ∧ a.cell? = some (b, c'.2) := by
  obtain ⟨s, visits, h⟩ := visits_of_moved moved unique visits
    (T := f.begin given m) (Transition.moved_ofExcept (enter_moved moved (fun _ => .none) same _ _))
  have both := op.accessed_moved moved h.values
  rw [accessed] at both
  generalize found : op.accessed? given s.values = x at both
  cases both with
  | some ha =>
    obtain ⟨b, hb, cell⟩ := ha.cell? cell
    exact ⟨s, _, b, visits, h.rest ▸ head, found, hb, cell⟩

theorem accessesAt_of_moved (unique : Relator.BiUnique R) (same : m.Moved R m') {c' : Nat × Nat}
    (h : f.AccessesAt given' m' c') : ∃ b, R b c'.1 ∧ f.AccessesAt given m (b, c'.2) := by
  obtain ⟨a', ⟨s', i, rest, op, visits, head, hop, accessed⟩, cell⟩ := h
  obtain ⟨s, a, b, visits, head, accessed, hb, cell⟩ :=
    accessed_of_moved moved unique same visits head accessed cell
  exact ⟨b, hb, a, ⟨s, i, rest, op, visits, head, hop, accessed⟩, cell⟩

theorem writesVia_of_moved (unique : Relator.BiUnique R) (same : m.Moved R m')
    {P : InstId → Prop} {c' : Nat × Nat} (h : f.WritesVia P given' m' c') :
    ∃ b, R b c'.1 ∧ f.WritesVia P given m (b, c'.2) := by
  obtain ⟨s', i, rest, p, v, a', visits, head, kind, hop, accessed, cell⟩ := h
  obtain ⟨s, a, b, visits, head, accessed, hb, cell⟩ :=
    accessed_of_moved moved unique same visits head accessed cell
  exact ⟨b, hb, s, i, rest, p, v, a, visits, head, kind, hop, accessed, cell⟩

end

end Func

end KernelCoarsening
