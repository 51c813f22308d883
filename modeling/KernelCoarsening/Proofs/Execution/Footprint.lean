/-
Where in memory a thread reads and writes.

A thread does not notice what happens to words that it does not access.  So threads that do not
write where others read or write can run one after the other, and each leaves in its words what it
leaves when it runs alone:

* `Memory.ext_word` — a memory is its shape and its words;
* `Func.Accesses`, `Func.Writes` — the addresses that a run reads or writes;
* `Func.runs_elsewhere` — a thread that runs in another memory with the same words where it
  accesses them;
* `Func.exists_runsAll`, `Func.runs_of_runsAll` — threads that run one after the other, and each
  alone.
-/
import KernelCoarsening.Proofs.Coarsening.Meaning
import KernelCoarsening.Proofs.Execution.Simulation

namespace KernelCoarsening

/-! ### Words -/

/-- The buffer of an address and the place in it. -/
def Address.cell? (a : Address) : Option (Nat × Nat) := (Memory.place? a).map (a.buffer, ·)

namespace Memory

variable {m m' : Memory} {a : Address} {n : Int64} {c : Nat × Nat}

/-- The word at a place of a buffer. -/
def word (m : Memory) (c : Nat × Nat) : Option Int64 := m.buffers[c.1]?.bind (·[c.2]?)

/-- The lengths of the buffers. -/
def shape (m : Memory) : List Nat := m.buffers.map List.length

theorem read_eq_word : m.read a = a.cell?.bind m.word := by
  unfold read Address.cell? word
  cases place? a <;> cases found : m.buffers[a.buffer]? <;> simp [found]

/-- Buffers of the same length with the same words are the same. -/
theorem buffer_ext (shape : m.shape = m'.shape) {b : Nat}
    (words : ∀ n, m.word (b, n) = m'.word (b, n)) : m.buffers[b]? = m'.buffers[b]? := by
  have length := congrArg (·[b]?) shape
  simp only [Memory.shape, List.getElem?_map] at length
  cases here : m.buffers[b]? with
  | none =>
    rw [here] at length
    simpa using length
  | some buffer =>
    rw [here] at length
    obtain ⟨buffer', there, -⟩ := Option.map_eq_some_iff.mp length.symm
    rw [there]
    refine congrArg some (List.ext_getElem? fun n => ?_)
    simpa [word, here, there] using words n

theorem ext_word (shape : m.shape = m'.shape) (words : ∀ c, m.word c = m'.word c) : m = m' := by
  have buffers : m.buffers = m'.buffers :=
    List.ext_getElem? fun b => buffer_ext shape fun n => words (b, n)
  cases m
  cases m'
  simpa using buffers

/-- A write changes one word and no length. -/
theorem write_eq_some (h : m.write a n = some m') :
    ∃ c, a.cell? = some c ∧ (m.word c).isSome ∧ m'.shape = m.shape ∧
      ∀ d, m'.word d = if d = c then some n else m.word d := by
  simp only [write, Option.bind_eq_bind, Option.bind_eq_some_iff, Option.ite_none_right_eq_some,
    Option.some.injEq] at h
  obtain ⟨buffer, hbuffer, place, hplace, inside, rfl⟩ := h
  have hsize : a.buffer < m.buffers.length := (List.getElem?_eq_some_iff.mp hbuffer).1
  refine ⟨(a.buffer, place), by simp [Address.cell?, hplace], ?_, ?_, fun d => ?_⟩
  · simp [word, hbuffer, inside]
  · refine List.ext_getElem? fun b => ?_
    simp only [shape, List.getElem?_map]
    by_cases here : a.buffer = b
    · subst here
      simp [List.getElem?_set_self hsize, hbuffer]
    · rw [List.getElem?_set_ne here]
  · obtain ⟨b, k⟩ := d
    simp only [word, Prod.mk.injEq]
    by_cases here : a.buffer = b
    · subst here
      rw [List.getElem?_set_self hsize, hbuffer]
      by_cases there : place = k
      · subst there
        simp [inside]
      · simp [there, Ne.symm there]
    · rw [List.getElem?_set_ne here, if_neg fun h => here h.1.symm]

/-- What can be read can be written. -/
theorem write_isSome (h : (m.read a).isSome) (n : Int64) : (m.write a n).isSome := by
  rw [read_eq_word] at h
  unfold Address.cell? word at h
  cases hplace : place? a with
  | none => simp [hplace] at h
  | some place =>
    cases hbuffer : m.buffers[a.buffer]? with
    | none => simp [hplace, hbuffer] at h
    | some buffer =>
      have inside : place < buffer.length := by simpa [hplace, hbuffer] using h
      simp [write, hplace, hbuffer, inside]

theorem read_isSome_of_write (h : m.write a n = some m') : (m.read a).isSome := by
  obtain ⟨c, hc, inside, -⟩ := write_eq_some h
  simpa [read_eq_word, hc] using inside

end Memory

/-! ### Accesses -/

theorem Operation.accessed_of_act {given : Surroundings} {f : Func} {values : Values} {i : InstId}
    {op : Operation} {a : Address}
    (h : op.act given f values i = .ok (.read a) ∨ ∃ n, op.act given f values i = .ok (.write a n)) :
    op.accessed? given values = some a := by
  have address : ∀ {p : Value}, (p.datum given values >>= Datum.toAddress) = .ok a →
      (load p).accessed? given values = some a := by
    intro p h
    obtain ⟨d, hd, ha⟩ := bind_eq_ok_iff.mp h
    cases d with
    | address a' =>
      obtain rfl : a' = a := by simpa [Datum.toAddress] using ha
      simp [accessed?, hd]
    | _ => simp [Datum.toAddress] at ha
  cases op with
  | load p =>
    refine address (p := p) ?_
    rcases h with h | ⟨n, h⟩
    · obtain ⟨d, hd, h⟩ := bind_eq_ok_iff.mp h
      obtain ⟨a', ha, h⟩ := bind_eq_ok_iff.mp h
      obtain rfl : a' = a := by simpa [pure, Except.pure] using h
      rw [hd]
      exact ha
    · simp [act, bind_eq_ok_iff, pure, Except.pure] at h
  | store p v =>
    refine address (p := p) ?_
    rcases h with h | ⟨n, h⟩
    · simp [act, bind_eq_ok_iff, pure, Except.pure] at h
    · obtain ⟨_, -, h⟩ := bind_eq_ok_iff.mp h
      obtain ⟨d, hd, h⟩ := bind_eq_ok_iff.mp h
      obtain ⟨a', ha, h⟩ := bind_eq_ok_iff.mp h
      obtain ⟨rfl, -⟩ : a' = a ∧ _ := by simpa [pure, Except.pure] using h
      rw [hd]
      exact ha
  | convert o v => cases o <;> simp [act, bind_eq_ok_iff, pure, Except.pure] at h
  | select c t e =>
    simp only [act, bind_eq_ok_iff] at h
    rcases h with ⟨n, -, h⟩ | ⟨_, n, -, h⟩ <;> split at h <;>
      simp [bind_eq_ok_iff, pure, Except.pure] at h
  | call callee args =>
    simp only [act] at h
    split at h <;> simp at h
  | _ => simp [act, bind_eq_ok_iff, pure, Except.pure] at h

namespace Func

variable {f : Func} {given : Surroundings} {m base : Memory}

/-- A run comes to an instruction that writes an address. -/
def Writes (f : Func) (given : Surroundings) (m : Memory) (a : Address) : Prop :=
  ∃ s i rest p v, f.Visits given (f.begin given m) s ∧ s.rest = i :: rest ∧
    f.operation i = .ok (.store p v) ∧ (Operation.store p v).accessed? given s.values = some a

theorem Writes.accesses {a : Address} (h : f.Writes given m a) : f.Accesses given m a := by
  obtain ⟨s, i, rest, p, v, visited, head, hop, ha⟩ := h
  exact ⟨s, i, rest, _, visited, head, hop, ha⟩

/-- A run reads or writes a word. -/
def AccessesAt (f : Func) (given : Surroundings) (m : Memory) (c : Nat × Nat) : Prop :=
  ∃ a, f.Accesses given m a ∧ a.cell? = some c

/-- A run writes a word. -/
def WritesAt (f : Func) (given : Surroundings) (m : Memory) (c : Nat × Nat) : Prop :=
  ∃ a, f.Writes given m a ∧ a.cell? = some c

/-- A run writes a word with an instruction of some kind. -/
def WritesVia (f : Func) (P : InstId → Prop) (given : Surroundings) (m : Memory) (c : Nat × Nat) :
    Prop :=
  ∃ s i rest p v a, f.Visits given (f.begin given m) s ∧ s.rest = i :: rest ∧ P i ∧
    f.operation i = .ok (.store p v) ∧
    (Operation.store p v).accessed? given s.values = some a ∧ a.cell? = some c

theorem WritesVia.writesAt {P : InstId → Prop} {c : Nat × Nat} (h : f.WritesVia P given m c) :
    f.WritesAt given m c := by
  obtain ⟨s, i, rest, p, v, a, visited, head, -, hop, accessed, cell⟩ := h
  exact ⟨a, ⟨s, i, rest, p, v, visited, head, hop, accessed⟩, cell⟩

theorem WritesAt.accessesAt {c : Nat × Nat} (h : f.WritesAt given m c) :
    f.AccessesAt given m c := by
  obtain ⟨a, writes, cell⟩ := h
  exact ⟨a, writes.accesses, cell⟩

section action

variable {s : ThreadState} {i : InstId} {rest : List InstId} {op : Operation} {a : Address}
  {n : Int64} {c : Nat × Nat}

/-- A thread that is about to read accesses the word. -/
theorem accessesAt_of_read (visited : f.Visits given (f.begin given m) s)
    (head : s.rest = i :: rest) (hop : f.operation i = .ok op)
    (act : op.act given f s.values i = .ok (.read a)) (cell : a.cell? = some c) :
    f.AccessesAt given m c :=
  ⟨a, ⟨s, i, rest, op, visited, head, hop, Operation.accessed_of_act (.inl act)⟩, cell⟩

/-- A thread that is about to write writes the word, with the instruction that it has come to. -/
theorem writesVia_of_write {P : InstId → Prop} (visited : f.Visits given (f.begin given m) s)
    (head : s.rest = i :: rest) (kind : P i) (hop : f.operation i = .ok op)
    (act : op.act given f s.values i = .ok (.write a n)) (cell : a.cell? = some c) :
    f.WritesVia P given m c := by
  have accessed := Operation.accessed_of_act (.inr ⟨n, act⟩)
  cases op with
  | store p v => exact ⟨s, i, rest, p, v, a, visited, head, kind, hop, accessed, cell⟩
  | load p => simp [Operation.act, bind_eq_ok_iff, pure, Except.pure] at act
  | _ => simp [Operation.accessed?] at accessed

theorem writesAt_of_write (visited : f.Visits given (f.begin given m) s)
    (head : s.rest = i :: rest) (hop : f.operation i = .ok op)
    (act : op.act given f s.values i = .ok (.write a n)) (cell : a.cell? = some c) :
    f.WritesAt given m c :=
  (writesVia_of_write (P := fun _ => True) visited head trivial hop act cell).writesAt

end action

/-! ### Another memory -/

/-- Two memories during runs of one thread that started in `m` and in `base`: they agree where the
thread accesses them, and elsewhere each is as it was. -/
structure Elsewhere (f : Func) (given : Surroundings) (m base μ μ' : Memory) : Prop where
  shape : μ.shape = m.shape
  shape' : μ'.shape = m.shape
  accessed : ∀ c, f.AccessesAt given m c → μ'.word c = μ.word c
  first : ∀ c, ¬ f.WritesAt given m c → μ.word c = m.word c
  second : ∀ c, ¬ f.WritesAt given m c → μ'.word c = base.word c

/-- Transitions that differ in the memory only. -/
inductive Aside (R : Memory → Memory → Prop) : Transition → Transition → Prop where
  | next {s : ThreadState} {μ' : Memory} (h : R s.memory μ') :
    Aside R (.next s) (.next { s with memory := μ' })
  | finish {μ μ' : Memory} (h : R μ μ') : Aside R (.finish μ) (.finish μ')
  | trap (cause cause' : Trap) : Aside R (.trap cause) (.trap cause')

theorem enter_aside {R : Memory → Memory → Prop} {μ μ' : Memory} (h : R μ μ') (values : Values)
    (source : Option BlockId) (b : BlockId) :
    Aside R (.ofExcept (f.enter given values μ source b))
      (.ofExcept (f.enter given values μ' source b)) := by
  have same : f.enter given values μ' source b =
      (fun s : ThreadState => { s with memory := μ' }) <$> f.enter given values μ source b := by
    unfold enter
    cases (f.block b).mapError Trap.fault with
    | error e => rfl
    | ok block =>
      cases (f.phis b).mapError Trap.fault with
      | error e => rfl
      | ok phis =>
        simp only [bind, Except.bind]
        cases f.phiValues given values source phis <;> rfl
  rw [same]
  cases result : f.enter given values μ source b with
  | error e => exact .trap e e
  | ok s =>
    obtain ⟨block, phis, enters⟩ := enter_eq_ok result
    exact .next (enters.memory ▸ h)

/-- An action of the thread finds the same in both memories. -/
theorem perform_elsewhere {s : ThreadState} {μ' : Memory} {i : InstId} {rest : List InstId}
    {op : Operation} {action : Action} (visited : f.Visits given (f.begin given m) s)
    (head : s.rest = i :: rest) (hop : f.operation i = .ok op)
    (act : op.act given f s.values i = .ok action) (h : f.Elsewhere given m base s.memory μ') :
    (∃ cause cause', action.perform given.position s.memory = .error cause ∧
        action.perform given.position μ' = .error cause') ∨
      ∃ d ν ν', action.perform given.position s.memory = .ok (d, ν) ∧
        action.perform given.position μ' = .ok (d, ν') ∧ f.Elsewhere given m base ν ν' := by
  -- the words agree at the address, if there is one
  have agree : ∀ a : Address, (∀ c, a.cell? = some c → f.AccessesAt given m c) →
      μ'.read a = s.memory.read a := by
    intro a accessed
    rw [Memory.read_eq_word, Memory.read_eq_word]
    cases cell : a.cell? with
    | none => rfl
    | some c => exact h.accessed c (accessed c cell)
  cases action with
  | value d => exact .inr ⟨d, _, _, rfl, rfl, h⟩
  | register r d => exact .inr ⟨_, _, _, rfl, rfl, h⟩
  | read a =>
    have same := agree a fun c => accessesAt_of_read visited head hop act
    simp only [Action.perform, same]
    cases s.memory.read a with
    | none => exact .inl ⟨_, _, rfl, rfl⟩
    | some n => exact .inr ⟨_, _, _, rfl, rfl, h⟩
  | write a n =>
    have written := fun c => writesAt_of_write (c := c) visited head hop act
    have same := agree a fun c cell => (written c cell).accessesAt
    simp only [Action.perform]
    cases first : s.memory.write a n with
    | none =>
      cases second : μ'.write a n with
      | none => exact .inl ⟨_, _, rfl, rfl⟩
      | some ν' =>
        have := Memory.write_isSome (by rw [← same]; exact Memory.read_isSome_of_write second) n
        simp [first] at this
    | some ν =>
      have also := Memory.write_isSome (by rw [same]; exact Memory.read_isSome_of_write first) n
      obtain ⟨ν', second⟩ := Option.isSome_iff_exists.mp also
      rw [second]
      refine .inr ⟨_, ν, ν', rfl, rfl, ?_⟩
      obtain ⟨c, cell, -, shape, words⟩ := Memory.write_eq_some first
      obtain ⟨c', cell', -, shape', words'⟩ := Memory.write_eq_some second
      obtain rfl : c = c' := by simpa [cell] using cell'
      have hc := written c cell
      refine ⟨by rw [shape, h.shape], by rw [shape', h.shape'], fun d hd => ?_, fun d hd => ?_,
        fun d hd => ?_⟩
      · rw [words', words, h.accessed d hd]
      · rw [words, if_neg fun here : d = c => hd (here ▸ hc), h.first d hd]
      · rw [words', if_neg fun here : d = c => hd (here ▸ hc), h.second d hd]

/-- One step of the thread in both memories. -/
theorem step_elsewhere {s : ThreadState} {μ' : Memory}
    (visited : f.Visits given (f.begin given m) s) (h : f.Elsewhere given m base s.memory μ') :
    Aside (f.Elsewhere given m base) (f.step given s) (f.step given { s with memory := μ' }) := by
  obtain ⟨b, rest, values, μ⟩ := s
  dsimp only at h ⊢
  cases rest with
  | nil => exact .trap _ _
  | cons i rest =>
    cases hi : f.line i with
    | none =>
      have none : ∃ fault, f.inst i = .error fault := by
        cases hinst : f.inst i with
        | error fault => exact ⟨fault, rfl⟩
        | ok inst => simp [line_of_inst hinst] at hi
      obtain ⟨fault, none⟩ := none
      simpa [step, none] using .trap _ _
    | some line =>
      obtain ⟨op, ty⟩ := line
      cases op with
      | jump t =>
        rw [step_of_jump rfl hi, step_of_jump rfl hi]
        exact enter_aside h _ _ _
      | branch v t e =>
        rw [step_of_branch rfl hi, step_of_branch rfl hi]
        dsimp only
        cases v.number given values with
        | error cause => exact .trap _ _
        | ok n => exact enter_aside h _ _ _
      | ret v =>
        rw [step_of_ret rfl hi, step_of_ret rfl hi]
        exact .finish h
      | unreachable =>
        rw [step_of_unreachable rfl hi, step_of_unreachable rfl hi]
        exact .trap _ _
      | _ =>
        have hop := operation_eq_ok_iff.mpr ⟨ty, hi⟩
        rw [step_of_plain rfl hi rfl, step_of_plain rfl hi rfl, Operation.execute_eq,
          Operation.execute_eq]
        dsimp only
        cases act : Operation.act given f values i _ with
        | error cause => exact .trap _ _
        | ok action =>
          rcases perform_elsewhere visited rfl hop act h with
            ⟨cause, cause', first, second⟩ | ⟨d, ν, ν', first, second, h'⟩
          · simp only [bind, Except.bind, first, second]
            exact .trap _ _
          · simp only [bind, Except.bind, first, second]
            exact .next (s := computed ⟨b, i :: rest, values, μ⟩ i rest ty (d, ν)) h'

/-- A run that goes on from one of its transitions, in both memories. -/
theorem finishes_elsewhere {T U : Transition}
    (inside : ∀ s, f.Visits given T s → f.Visits given (f.begin given m) s)
    (aside : Aside (f.Elsewhere given m base) T U) :
    (∀ μ, f.Finishes given T μ → ∃ μ', f.Finishes given U μ' ∧ f.Elsewhere given m base μ μ') ∧
      ∀ μ', f.Finishes given U μ' → ∃ μ, f.Finishes given T μ ∧ f.Elsewhere given m base μ μ' := by
  -- each way along the run that is known to end; the other one follows it step by step
  constructor
  · intro μ ends
    induction ends generalizing U with
    | done μ =>
      cases aside with
      | finish h => exact ⟨_, .done _, h⟩
    | @more s μ _ ih =>
      cases aside with
      | next h =>
        obtain ⟨μ', ends, h'⟩ := ih (fun s' v => inside s' (.later v))
          (step_elsewhere (inside s (.here s)) h)
        exact ⟨μ', .more ends, h'⟩
  · intro μ' ends
    induction ends generalizing T with
    | done μ' =>
      cases aside with
      | finish h => exact ⟨_, .done _, h⟩
    | @more _ μ' _ ih =>
      cases aside with
      | @next s _ h =>
        obtain ⟨μ, ends, h'⟩ := ih (fun s' v => inside s' (.later v))
          (step_elsewhere (inside s (.here s)) h)
        exact ⟨μ, .more ends, h'⟩

/-- A thread does the same in a memory that has the same words where the thread accesses it. -/
theorem runs_elsewhere (shape : base.shape = m.shape)
    (agree : ∀ c, f.AccessesAt given m c → base.word c = m.word c) :
    (∀ μ, f.Runs given m μ → ∃ μ', f.Runs given base μ' ∧ f.Elsewhere given m base μ μ') ∧
      ∀ μ', f.Runs given base μ' → ∃ μ, f.Runs given m μ ∧ f.Elsewhere given m base μ μ' :=
  finishes_elsewhere (fun _ v => v)
    (enter_aside ⟨rfl, shape, agree, fun _ _ => rfl, fun _ _ => rfl⟩ _ _ _)

/-- A thread leaves the words as they are that it does not write. -/
theorem Runs.elsewhere {μ : Memory} (h : f.Runs given m μ) : f.Elsewhere given m m μ μ := by
  obtain ⟨μ', h', same⟩ := (runs_elsewhere rfl fun _ _ => rfl).1 μ h
  exact h.unique h' ▸ same

/-! ### Threads that run one after the other -/

/-- What one thread writes the other does not access. -/
def Apart (f : Func) (m : Memory) (t u : Surroundings) : Prop :=
  ∀ c, (f.WritesAt t m c → ¬ f.AccessesAt u m c) ∧ (f.WritesAt u m c → ¬ f.AccessesAt t m c)

theorem pairwise_apart {thread : Nat → Surroundings} {n : Nat}
    (apart : ∀ j < n, ∀ k < n, j ≠ k → ∀ c, f.WritesAt (thread j) m c →
      ¬ f.AccessesAt (thread k) m c) : ((List.range n).map thread).Pairwise (f.Apart m) := by
  rw [List.pairwise_map]
  refine List.nodup_range.imp_of_mem fun {j k} hj hk other c => ?_
  exact ⟨apart j (List.mem_range.mp hj) k (List.mem_range.mp hk) other c,
    apart k (List.mem_range.mp hk) j (List.mem_range.mp hj) (Ne.symm other) c⟩

/-- Threads that keep apart and end when they run alone can run one after the other. -/
theorem exists_runsAll {threads : List Surroundings} (apart : threads.Pairwise (f.Apart m))
    (alone : ∀ t ∈ threads, ∃ μ, f.Runs t m μ) (shape : base.shape = m.shape)
    (agree : ∀ t ∈ threads, ∀ c, f.AccessesAt t m c → base.word c = m.word c) :
    ∃ μ', f.RunsAll threads base μ' ∧ μ'.shape = m.shape ∧
      (∀ c, (∀ t ∈ threads, ¬ f.WritesAt t m c) → μ'.word c = base.word c) ∧
      ∀ t ∈ threads, ∀ μ, f.Runs t m μ → ∀ c, f.WritesAt t m c → μ'.word c = μ.word c := by
  induction threads generalizing base with
  | nil => exact ⟨base, .none base, shape, by simp, by simp⟩
  | cons t threads ih =>
    obtain ⟨here, later⟩ := List.pairwise_cons.mp apart
    obtain ⟨μ, hμ⟩ := alone t (by simp)
    obtain ⟨ν, hν, same⟩ := (runs_elsewhere shape (agree t (by simp))).1 μ hμ
    -- the others do not notice what the first one has written
    have agree' : ∀ u ∈ threads, ∀ c, f.AccessesAt u m c → ν.word c = m.word c := by
      intro u hu c accessed
      rw [same.second c fun written => (here u hu c).1 written accessed]
      exact agree u (List.mem_cons_of_mem _ hu) c accessed
    obtain ⟨μ', runs, shape'', others, own⟩ := ih later
      (fun u hu => alone u (List.mem_cons_of_mem _ hu)) same.shape' agree'
    refine ⟨μ', .one hν runs, shape'', fun c untouched => ?_, fun u hu μ₁ hμ₁ c written => ?_⟩
    · rw [others c fun u hu => untouched u (List.mem_cons_of_mem _ hu),
        same.second c (untouched t (by simp))]
    · rcases List.mem_cons.mp hu with rfl | hu
      · obtain rfl := hμ.unique hμ₁
        rw [others c fun v hv written' => (here v hv c).2 written' written.accessesAt,
          same.accessed c written.accessesAt]
      · exact own u hu μ₁ hμ₁ c written

/-- Threads that keep apart and end when they run one after the other end when they run alone. -/
theorem runs_of_runsAll {threads : List Surroundings} (apart : threads.Pairwise (f.Apart m))
    (shape : base.shape = m.shape)
    (agree : ∀ t ∈ threads, ∀ c, f.AccessesAt t m c → base.word c = m.word c) {μ' : Memory}
    (runs : f.RunsAll threads base μ') : ∀ t ∈ threads, ∃ μ, f.Runs t m μ := by
  induction runs with
  | none base => simp
  | @one t threads base ν μ' first _ ih =>
    obtain ⟨here, later⟩ := List.pairwise_cons.mp apart
    obtain ⟨μ, hμ, same⟩ := (runs_elsewhere shape (agree t (by simp))).2 ν first
    intro u hu
    rcases List.mem_cons.mp hu with rfl | hu
    · exact ⟨μ, hμ⟩
    · refine ih later same.shape' (fun v hv c accessed => ?_) u hu
      rw [same.second c fun written => (here v hv c).1 written accessed]
      exact agree v (List.mem_cons_of_mem _ hv) c accessed

/-- Threads that keep apart leave, one after the other, the memory that agrees with what each of
them leaves alone, except where the others write. -/
theorem runsAll_of_words {thread : Nat → Surroundings} {n : Nat} (some : 0 < n)
    (apart : ∀ j < n, ∀ k < n, j ≠ k → ∀ c, f.WritesAt (thread j) m c →
      ¬ f.AccessesAt (thread k) m c)
    (alone : ∀ k < n, ∃ μ, f.Runs (thread k) m μ) {μ' : Memory} (shape : μ'.shape = m.shape)
    (words : ∀ k < n, ∀ μ, f.Runs (thread k) m μ → ∀ c,
      (∀ j < n, j ≠ k → ¬ f.WritesAt (thread j) m c) → μ'.word c = μ.word c) :
    f.RunsAll ((List.range n).map thread) m μ' := by
  have each : ∀ t ∈ (List.range n).map thread, ∃ μ, f.Runs t m μ := by
    intro t ht
    obtain ⟨k, hk, rfl⟩ := List.mem_map.mp ht
    exact alone k (List.mem_range.mp hk)
  obtain ⟨ν, runs, shape', others, own⟩ :=
    exists_runsAll (pairwise_apart apart) each rfl fun _ _ _ _ => rfl
  suffices ν = μ' from this ▸ runs
  -- a word is written by one thread, or by none
  refine Memory.ext_word (shape'.trans shape.symm) fun c => ?_
  by_cases written : ∃ k < n, f.WritesAt (thread k) m c
  · obtain ⟨k, hk, written⟩ := written
    obtain ⟨μ, hμ⟩ := alone k hk
    rw [own _ (List.mem_map_of_mem (List.mem_range.mpr hk)) μ hμ c written]
    refine (words k hk μ hμ c fun j hj other written' => ?_).symm
    exact apart j hj k hk other c written' written.accessesAt
  · have none : ∀ k < n, ¬ f.WritesAt (thread k) m c := fun k hk h => written ⟨k, hk, h⟩
    obtain ⟨μ, hμ⟩ := alone 0 some
    rw [words 0 some μ hμ c fun j hj _ => none j hj, hμ.elsewhere.first c (none 0 some)]
    refine others c fun t ht => ?_
    obtain ⟨k, hk, rfl⟩ := List.mem_map.mp ht
    exact none k (List.mem_range.mp hk)

end Func

end KernelCoarsening
