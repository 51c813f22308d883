/-
What a function without flaws is like.

* `Func.wellFormed_block` — the questions that are asked of a block, with their answers;
* `Func.successors_of_terminator` — a terminator is the last instruction of its block, so that
  the successors of the block are its own.
-/
import KernelCoarsening.Flow.WellFormed
import KernelCoarsening.Proofs.Flow.FunctionGraph

namespace KernelCoarsening

/-- No member of a list has an answer if there is no first one. -/
theorem firstM?_eq_none {ε α β : Type} {ask : α → Except ε (Option β)} {xs : List α}
    (h : firstM? ask xs = .ok none) {x : α} (hx : x ∈ xs) : ask x = .ok none := by
  induction xs with
  | nil => simp at hx
  | cons y ys ih =>
    rw [firstM?, bind_eq_ok_iff] at h
    obtain ⟨answer, hy, h⟩ := h
    cases answer with
    | some answer => simp [pure, Except.pure] at h
    | none =>
      rcases List.mem_cons.mp hx with rfl | hx
      · exact hy
      · exact ih h hx

namespace Func

variable {f : Func} {b : BlockId} {block : Block}

/-- A block of a function without flaws ends in a terminator, and its instructions have no
flaw. -/
theorem wellFormed_block (flawless : f.firstFlaw? = .ok none) (listed : b ∈ f.layout)
    (hb : f.block b = .ok block) :
    (∃ t, f.terminator b = .ok (some t)) ∧ f.instFlaw? b false block.insts = .ok none := by
  unfold firstFlaw? at flawless
  simp only [bind_eq_ok_iff] at flawless
  obtain ⟨g, _, reachable, _, flawless⟩ := flawless
  have none := firstM?_eq_none flawless listed
  unfold blockFlaw? at none
  rw [bind_eq_ok_iff] at none
  obtain ⟨block', hb', none⟩ := none
  obtain rfl : block' = block := by simpa [hb'] using hb
  rw [bind_eq_ok_iff] at none
  obtain ⟨term, hterm, none⟩ := none
  cases term with
  | none =>
    simp only [Option.isNone_none, if_true, bind_eq_ok_iff] at none
    obtain ⟨_, _, none⟩ := none
    simp [pure, Except.pure] at none
  | some t =>
    refine ⟨⟨t, hterm⟩, ?_⟩
    simp only [Option.isNone_some, Bool.false_eq_true, if_false, bind_eq_ok_iff] at none
    obtain ⟨flaw, hflaw, none⟩ := none
    cases flaw with
    | some flaw => simp [pure, Except.pure] at none
    | none => exact hflaw

/-- A terminator that is looked at without finding a flaw is the last instruction. -/
theorem last_of_instFlaw? {body : Bool} {before rest : List InstId} {i : InstId} {inst : Inst}
    (h : f.instFlaw? b body (before ++ i :: rest) = .ok none) (hi : f.inst i = .ok inst)
    (term : inst.op.isTerminator) : rest = [] := by
  induction before generalizing body with
  | nil =>
    rw [List.nil_append, instFlaw?, bind_eq_ok_iff] at h
    obtain ⟨inst', hi', h⟩ := h
    obtain rfl : inst' = inst := by simpa [hi'] using hi
    by_contra more
    simp only [term, List.isEmpty_eq_false_iff.mpr more, Bool.not_false, Bool.and_true, if_true,
      bind_eq_ok_iff] at h
    obtain ⟨_, _, h⟩ := h
    simp [pure, Except.pure] at h
  | cons j before ih =>
    rw [List.cons_append, instFlaw?, bind_eq_ok_iff] at h
    obtain ⟨_, _, h⟩ := h
    split at h
    · simp only [bind_eq_ok_iff] at h
      obtain ⟨_, _, h⟩ := h
      simp [pure, Except.pure] at h
    split at h
    · simp only [bind_eq_ok_iff] at h
      obtain ⟨_, _, h⟩ := h
      simp [pure, Except.pure] at h
    split at h
    · simp [pure, Except.pure] at h
    exact ih h

theorem successors_of_terminator (flawless : f.firstFlaw? = .ok none) (listed : b ∈ f.layout)
    (hb : f.block b = .ok block) {before rest : List InstId} {i : InstId} {inst : Inst}
    (shape : block.insts = before ++ i :: rest) (hi : f.inst i = .ok inst)
    (term : inst.op.isTerminator) : rest = [] ∧ f.successors b = .ok inst.op.successors := by
  have none := (wellFormed_block flawless listed hb).2
  rw [shape] at none
  obtain rfl := last_of_instFlaw? none hi term
  have hop : f.operation i = .ok inst.op := by simp [operation, hi, Functor.map, Except.map]
  have last : f.terminator b = .ok (some i) := by
    simp [terminator, hb, shape, hop, term, bind, Except.bind, pure, Except.pure]
  exact ⟨rfl, by simp [successors, last, hop, bind, Except.bind, pure, Except.pure]⟩

end Func

end KernelCoarsening
