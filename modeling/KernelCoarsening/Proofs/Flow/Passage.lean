/-
Runs through a loop over unbounded integers.

The values of a function are taken as integers.  Phis and comparisons with sign are exact, and so
is one sum or difference, whose result is not cut to a width; every other instruction may give
anything.  A run of a function whose sum stays within its width is such a run as well.

* `Func.Visit` — control enters a block from another and comes to its end;
* `Func.Proceeds` — where control goes at the end of a block;
* `Func.Traverses` — control enters a loop, stays in it for some blocks and leaves it;
* `Func.Visit.value` — what an instruction has computed from is still there at the end of its block.
-/
import KernelCoarsening.Proofs.Flow.RoundCount
import KernelCoarsening.Proofs.Ir.Shape

namespace KernelCoarsening

/-- The integers that the instructions of a function have as values. -/
abbrev Numbers := InstId → Int

/-- An operand may stand for an integer. -/
def Value.MayBe (s : Numbers) : Value → Int → Prop
  | inst i, n => s i = n
  | const c, n => c.toInt = n
  | arg _, _ | global _, _ | undef, _ => True

/-- An operation that is no phi may give an integer.  Sums and differences are known where they are
`exact`. -/
def Operation.MayGive (s : Numbers) (exact : Prop) : Operation → Int → Prop
  | binary .add l r, n => exact → ∃ a b, l.MayBe s a ∧ r.MayBe s b ∧ n = a + b
  | binary .sub l r, n => exact → ∃ a b, l.MayBe s a ∧ r.MayBe s b ∧ n = a - b
  | compare rel l r, n => rel.isUnsigned = false →
    ∃ a b, l.MayBe s a ∧ r.MayBe s b ∧ n = if rel.Relates a b then 1 else 0
  | _, _ => True

/-- Control may go to a block where an operation ends its own.  A number stands for true if it is
odd. -/
def Operation.MayLead (s : Numbers) : Operation → BlockId → Prop
  | jump t, b => b = t
  | branch c t e, b => ∃ n, c.MayBe s n ∧ b = if n % 2 = 1 then t else e
  | _, _ => False

theorem Operation.MayLead.mem_successors {s : Numbers} {op : Operation} {b : BlockId}
    (h : op.MayLead s b) : b ∈ op.successors := by
  cases op with
  | jump t => simpa [MayLead, successors] using h
  | branch c t e =>
    obtain ⟨n, -, rfl⟩ := h
    by_cases odd : n % 2 = 1 <;> simp [successors, odd]
  | _ => exact h.elim

namespace Func

/-- The phis of a block take the values that they name for the block that control comes from, all
of them at once. -/
def Receives (f : Func) (source : BlockId) (phis : List InstId) (s s' : Numbers) : Prop :=
  (∀ i, i ∉ phis → s' i = s i) ∧ ∀ i ∈ phis, ∀ incoming v, f.operation i = .ok (.phi incoming) →
    incomingFor? incoming source = some v → v.MayBe s (s' i)

/-- Instructions are executed one by one; the sum or difference `exact` is not cut to a width. -/
inductive Executes (f : Func) (exact : InstId) : List InstId → Numbers → Numbers → Prop where
  | done (s : Numbers) : Executes f exact [] s s
  | step {i : InstId} {rest : List InstId} {s s' : Numbers} {op : Operation} {n : Int}
    (hop : f.operation i = .ok op) (gives : op.MayGive s (i = exact) n)
    (later : Executes f exact rest (Function.update s i n) s') : Executes f exact (i :: rest) s s'

/-- Control comes from a block to another and to its end. -/
def Visit (f : Func) (exact : InstId) (source b : BlockId) (s s' : Numbers) : Prop :=
  ∃ phis mid, f.phis b = .ok phis ∧ f.Receives source phis s mid ∧
    f.Executes exact ((f.code b).drop phis.length) mid s'

/-- Control goes from the end of a block to another. -/
def Proceeds (f : Func) (s : Numbers) (b c : BlockId) : Prop :=
  ∃ term op, f.terminator b = .ok (some term) ∧ f.operation term = .ok op ∧ op.MayLead s c

/-- Control comes from a block to a block of a loop, runs through blocks of the loop and leaves it
from the last of them. -/
inductive Traverses (f : Func) (exact : InstId) (lp : Loop) :
    BlockId → Numbers → BlockId → List BlockId → Prop where
  | leave {source b c : BlockId} {s s' : Numbers} (inside : b ∈ lp.blocks)
    (visit : f.Visit exact source b s s') (proceeds : f.Proceeds s' b c) (outside : c ∉ lp.blocks) :
    Traverses f exact lp source s b [b]
  | stay {source b c : BlockId} {s s' : Numbers} {blocks : List BlockId} (inside : b ∈ lp.blocks)
    (visit : f.Visit exact source b s s') (proceeds : f.Proceeds s' b c)
    (rest : Traverses f exact lp b s' c blocks) : Traverses f exact lp source s b (b :: blocks)

variable {f : Func} {exact : InstId} {lp : Loop} {source b c : BlockId} {s s' : Numbers}
  {i j : InstId}

theorem Proceeds.leadsTo (h : f.Proceeds s b c) : f.LeadsTo b c := by
  obtain ⟨term, op, hterm, hop, leads⟩ := h
  exact ⟨op.successors, by simp [successors, hterm, hop, bind, Except.bind, pure, Except.pure],
    leads.mem_successors⟩

theorem Traverses.mem {blocks : List BlockId} (h : f.Traverses exact lp source s b blocks) :
    b ∈ lp.blocks := by
  cases h <;> assumption

theorem Traverses.exists_cons {blocks : List BlockId} (h : f.Traverses exact lp source s b blocks) :
    ∃ rest, blocks = b :: rest := by
  cases h with
  | leave => exact ⟨[], rfl⟩
  | stay => exact ⟨_, rfl⟩

/-! ### Values at the end of a block -/

theorem Executes.keeps {insts : List InstId} (h : f.Executes exact insts s s') (out : j ∉ insts) :
    s' j = s j := by
  induction h with
  | done s => rfl
  | step hop gives later ih =>
    obtain ⟨other, out⟩ : j ≠ _ ∧ j ∉ _ := by simpa using out
    rw [ih out, Function.update_of_ne other]

/-- The values that are there when an instruction is executed. -/
theorem Executes.split {before after : List InstId}
    (h : f.Executes exact (before ++ i :: after) s s') (once : i ∉ after) :
    ∃ mid op, f.operation i = .ok op ∧ op.MayGive mid (i = exact) (s' i) ∧
      ∀ j, j ∉ i :: after → s' j = mid j := by
  induction before generalizing s with
  | nil =>
    cases h with
    | step hop gives later =>
      refine ⟨s, _, hop, ?_, fun j out => ?_⟩
      · rw [later.keeps once, Function.update_self]
        exact gives
      · obtain ⟨other, out⟩ : j ≠ i ∧ j ∉ after := by simpa using out
        rw [later.keeps out, Function.update_of_ne other]
  | cons k before ih =>
    cases h with
    | step hop gives later => exact ih later

namespace Visit

variable (consistent : f.Consistent) {phis body : List InstId} {last : InstId}
  (shape : f.outline.Shape b phis body last) (h : f.Visit exact source b s s')

include shape h

/-- The two parts of a visit. -/
theorem split : ∃ mid, f.Receives source phis s mid ∧ f.Executes exact (body ++ [last]) mid s' := by
  obtain ⟨phis', mid, hphis, receives, executes⟩ := h
  obtain rfl : phis = phis' := by simpa [phis_of_shape shape] using hphis
  have rest : (f.code b).drop phis.length = body ++ [last] := by
    rw [show f.code b = phis ++ (body ++ [last]) from shape.code, List.drop_left]
  exact ⟨mid, receives, rest ▸ executes⟩

/-- Only instructions of the block get values. -/
theorem keeps (out : j ∉ f.code b) : s' j = s j := by
  obtain ⟨mid, receives, executes⟩ := h.split shape
  rw [executes.keeps fun mem => out (shape.mem_of_rest mem),
    receives.1 j fun mem => out (shape.mem_of_phi mem)]

include consistent

/-- A phi has the value for the block that control came from. -/
theorem phi (mem : i ∈ phis) {incoming : List (Value × BlockId)} {v : Value}
    (hop : f.operation i = .ok (.phi incoming)) (named : incomingFor? incoming source = some v) :
    v.MayBe s (s' i) := by
  obtain ⟨mid, receives, executes⟩ := h.split shape
  have once : (phis ++ (body ++ [last])).Nodup := shape.code ▸ consistent.code_nodup b
  rw [executes.keeps fun later => (List.nodup_append.mp once).2.2 i mem i later rfl]
  exact receives.2 i mem incoming v hop named

/-- An instruction that is no phi has computed from values that are still there, as far as they
come from before it or from other blocks. -/
theorem value {before after : List InstId} (code : f.code b = before ++ i :: after) {op : Operation}
    (hop : f.operation i = .ok op) (plain : op.isPhi = false) :
    ∃ mid, op.MayGive mid (i = exact) (s' i) ∧
      ∀ j, j ∈ before ∨ j ∉ f.code b → s' j = mid j := by
  obtain ⟨mid, -, executes⟩ := h.split shape
  have once : (before ++ i :: after).Nodup := code ▸ consistent.code_nodup b
  have whole : before ++ i :: after = phis ++ (body ++ [last]) := code ▸ shape.code
  -- the phis come before the instruction
  obtain ⟨front, rfl, rest⟩ : ∃ front, before = phis ++ front ∧
      body ++ [last] = front ++ i :: after := by
    rcases List.append_eq_append_iff.mp whole with ⟨front, hphis, rest⟩ | ⟨front, hbefore, rest⟩
    · cases front with
      | nil => exact ⟨[], by simpa using hphis.symm, by simpa using rest.symm⟩
      | cons k front =>
        obtain ⟨rfl, -⟩ := List.cons.inj rest
        obtain ⟨op', ty, line, phi⟩ := shape.phis i (by simp [hphis])
        obtain rfl : op' = op := by simpa [operation_eq_ok_iff.mpr ⟨ty, line⟩] using hop
        simp [plain] at phi
    · exact ⟨front, hbefore, rest⟩
  have last : i ∉ after := by
    have := (List.nodup_append.mp once).2.1
    exact (List.nodup_cons.mp this).1
  obtain ⟨mid, op', hop', gives, kept⟩ := Executes.split (rest ▸ executes) last
  obtain rfl : op' = op := by simpa [hop'] using hop
  refine ⟨mid, gives, fun j hj => kept j fun later => ?_⟩
  rcases hj with hj | hj
  · exact (List.nodup_append.mp once).2.2 j hj j later rfl
  · exact hj (code ▸ List.mem_append_right _ later)

end Visit

end Func

end KernelCoarsening
