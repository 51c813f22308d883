/-
Walks along addresses.

The analysis of divergence looks for the global that an address starts from.  It goes back from the
result of an address computation, or of a conversion, to what that starts from, and it does not
remember where it has been.  In a function without flaws all that is read is placed, but nothing
keeps an instruction from starting from its own result, in a block that control does not come to
or behind an instruction that comes later:

* `Func.Walks`, `Func.Circles` — walks, and values from which a walk comes back to where it was;
* `Func.exists_final_walk_iff` — a walk ends exactly if it does not come back, and then within as
  many steps as there are instructions;
* `Func.rootGlobal?_circling`, `Func.answers_rootGlobal?_iff` — for these addresses, and for no
  others, there is no answer.
-/
import KernelCoarsening.Divergence.Analysis
import KernelCoarsening.Proofs.Ir.Shape
import KernelCoarsening.Proofs.Ir.Wiring
import Mathlib.Data.List.Perm.Subperm

namespace KernelCoarsening

theorem Operation.mem_usedInsts_of_address? {op : Operation} {i : InstId}
    (h : op.address? = some (.inst i)) : i ∈ op.usedInsts := by
  have mem : .inst i ∈ op.operands := by cases op <;> simp_all [address?, operands]
  exact List.mem_filterMap.mpr ⟨_, mem, rfl⟩

namespace Func

variable {f : Func} {i : InstId} {u v w : Value} {is js : List InstId}

/-! ### Walks -/

/-- An address computation or a conversion starts from a value. -/
inductive StartsFrom (f : Func) (i : InstId) : Value → Prop where
  | element {base index : Value} (does : f.operation i = .ok (.element base index)) :
      StartsFrom f i base
  | convert {op : Conversion} {v : Value} (does : f.operation i = .ok (.convert op v)) :
      StartsFrom f i v

/-- A walk goes back from a value to another, over the results of instructions. -/
inductive Walks (f : Func) : Value → List InstId → Value → Prop where
  | stay (v : Value) : Walks f v [] v
  | step {i : InstId} {v w : Value} {is : List InstId} (link : f.StartsFrom i v)
      (rest : Walks f v is w) : Walks f (.inst i) (i :: is) w

/-- A walk does not go on from a value: it is no result of an address computation or of a
conversion. -/
def Final (f : Func) (v : Value) : Prop := ∀ i w, v = .inst i → ¬ f.StartsFrom i w

/-- A walk from a value comes to an instruction and back to it. -/
def Circles (f : Func) (v : Value) : Prop := ∃ lead round i,
  f.Walks v lead (.inst i) ∧ f.Walks (.inst i) (i :: round) (.inst i)

theorem StartsFrom.unique (h : f.StartsFrom i v) (h' : f.StartsFrom i w) : v = w := by
  cases h with
  | element does =>
    cases h' with
    | element does' =>
      obtain ⟨rfl, -⟩ : _ = _ ∧ _ = _ := by simpa using does.symm.trans does'
      rfl
    | convert does' => simp [does] at does'
  | convert does =>
    cases h' with
    | element does' => simp [does] at does'
    | convert does' =>
      obtain ⟨-, rfl⟩ : _ = _ ∧ _ = _ := by simpa using does.symm.trans does'
      rfl

theorem StartsFrom.reads (h : f.StartsFrom i v) :
    ∃ op, f.operation i = .ok op ∧ ∀ j, v = .inst j → j ∈ op.usedInsts := by
  cases h with
  | element does =>
    refine ⟨_, does, ?_⟩
    rintro j rfl
    simp [Operation.usedInsts, Operation.operands, Value.inst?]
  | convert does =>
    refine ⟨_, does, ?_⟩
    rintro j rfl
    simp [Operation.usedInsts, Operation.operands, Value.inst?]

namespace Walks

theorem append (h : f.Walks u is v) (h' : f.Walks v js w) : f.Walks u (is ++ js) w := by
  induction h with
  | stay v => exact h'
  | step link _ ih => exact .step link (ih h')

/-- A walk can be divided at each of its instructions. -/
theorem divide (h : f.Walks u (is ++ i :: js) w) :
    f.Walks u is (.inst i) ∧ f.Walks (.inst i) (i :: js) w := by
  induction is generalizing u with
  | nil =>
    cases h with
    | step link rest => exact ⟨.stay _, .step link rest⟩
  | cons j is ih =>
    cases h with
    | step link rest =>
      obtain ⟨front, back⟩ := ih rest
      exact ⟨.step link front, back⟩

/-- There is only one way to go, so that no walk is longer than one that ends. -/
theorem length_le (h : f.Walks u is v) (final : f.Final v) (h' : f.Walks u js w) :
    js.length ≤ is.length := by
  induction h generalizing js with
  | stay v =>
    cases h' with
    | stay => exact Nat.le_refl _
    | step link rest => exact absurd link (final _ _ rfl)
  | step link rest ih =>
    cases h' with
    | stay => exact Nat.zero_le _
    | step link' rest' =>
      obtain rfl := link.unique link'
      exact Nat.succ_le_succ (ih final rest')

theorem slot (h : f.Walks u is v) : ∀ i ∈ is, i.index < f.insts.size := by
  induction h with
  | stay v => simp
  | step link rest ih =>
    obtain ⟨op, does, -⟩ := link.reads
    obtain ⟨ty, line⟩ := operation_eq_ok_iff.mp does
    obtain ⟨inst, there, -⟩ := inst_of_line line
    have slot := (Array.getElem?_eq_some_iff.mp (inst_eq_ok_iff.mp there)).1
    exact List.forall_mem_cons.mpr ⟨slot, ih⟩

/-- A walk with more steps than there are instructions passes one of them twice. -/
theorem circles (h : f.Walks u is v) (long : f.insts.size < is.length) : f.Circles u := by
  have twice : ¬ is.Nodup := by
    intro nodup
    have sub : is ⊆ (List.range f.insts.size).map InstId.mk := by
      intro i hi
      exact List.mem_map.mpr ⟨i.index, List.mem_range.mpr (h.slot i hi), rfl⟩
    have le := (List.subperm_of_subset nodup sub).length_le
    rw [List.length_map, List.length_range] at le
    omega
  obtain ⟨i, pair⟩ : ∃ i, [i, i].Sublist is := by
    simpa [List.nodup_iff_sublist] using twice
  obtain ⟨front, back, rfl, first, second⟩ := List.cons_sublist_iff.mp pair
  obtain ⟨before, between, rfl⟩ := List.append_of_mem first
  obtain ⟨more, behind, rfl⟩ := List.append_of_mem (List.singleton_sublist.mp second)
  have parts : (before ++ i :: between) ++ (more ++ i :: behind) =
      before ++ i :: (between ++ more ++ i :: behind) := by simp
  obtain ⟨lead, later⟩ := (parts ▸ h).divide
  have whole : i :: (between ++ more ++ i :: behind) = (i :: (between ++ more)) ++ i :: behind := by
    simp
  exact ⟨before, between ++ more, i, lead, (whole ▸ later).divide.1⟩

end Walks

/-- Rounds can be walked for ever. -/
theorem Circles.exists_walk (h : f.Circles v) (n : Nat) :
    ∃ is w, f.Walks v is w ∧ n ≤ is.length := by
  obtain ⟨lead, round, i, front, back⟩ := h
  have rounds : ∀ n, ∃ is, f.Walks v is (.inst i) ∧ n ≤ is.length := by
    intro n
    induction n with
    | zero => exact ⟨lead, front, Nat.zero_le _⟩
    | succ n ih =>
      obtain ⟨is, walk, long⟩ := ih
      exact ⟨_, walk.append back, by rw [List.length_append, List.length_cons]; omega⟩
  obtain ⟨is, walk, long⟩ := rounds n
  exact ⟨is, _, walk, long⟩

/-- A walk ends before a number of steps, or it has that many. -/
theorem exists_walk (f : Func) (v : Value) (n : Nat) :
    (∃ is w, f.Walks v is w ∧ f.Final w ∧ is.length < n) ∨
      ∃ is w, f.Walks v is w ∧ is.length = n := by
  induction n generalizing v with
  | zero => exact .inr ⟨[], v, .stay v, rfl⟩
  | succ n ih =>
    by_cases final : f.Final v
    · exact .inl ⟨[], v, .stay v, final, Nat.succ_pos n⟩
    · unfold Final at final
      push Not at final
      obtain ⟨i, u, rfl, link⟩ := final
      obtain ⟨is, w, walk, final, short⟩ | ⟨is, w, walk, long⟩ := ih u
      · exact .inl ⟨i :: is, w, .step link walk, final, Nat.succ_lt_succ short⟩
      · exact .inr ⟨i :: is, w, .step link walk, congrArg Nat.succ long⟩

/-- A walk comes to an end exactly if it does not come back to where it was, and it does so after
as many steps as there are instructions at most. -/
theorem exists_final_walk_iff :
    (∃ is w, f.Walks v is w ∧ f.Final w ∧ is.length ≤ f.insts.size) ↔ ¬ f.Circles v := by
  constructor
  · rintro ⟨is, w, walk, final, -⟩ circles
    obtain ⟨js, x, longer, le⟩ := circles.exists_walk (is.length + 1)
    have := walk.length_le final longer
    omega
  · intro straight
    obtain ⟨is, w, walk, final, short⟩ | ⟨is, w, walk, long⟩ := f.exists_walk v (f.insts.size + 1)
    · exact ⟨is, w, walk, final, Nat.le_of_lt_succ short⟩
    · exact absurd (walk.circles (by omega)) straight

/-! ### The walk of the analysis -/

/-- A walk that is too long is given up. -/
theorem addressRoot_of_long {start : InstId} {fuel : Nat} (walk : f.Walks v is w)
    (long : fuel ≤ is.length) : f.addressRoot start fuel v = .error (.addressCycle start) := by
  induction fuel generalizing v is with
  | zero => rw [addressRoot]
  | succ fuel ih =>
    cases walk with
    | stay => simp at long
    | step link rest =>
      have rest := ih rest (Nat.le_of_succ_le_succ long)
      cases link with
      | element does => simp [addressRoot, does, rest, bind, Except.bind]
      | convert does => simp [addressRoot, does, rest, bind, Except.bind]

/-- A walk that ends has an answer. -/
theorem answers_addressRoot {start : InstId} {fuel : Nat} (walk : f.Walks v is w)
    (final : f.Final w) (known : ∀ i, w = .inst i → i.index < f.insts.size)
    (short : is.length < fuel) : Answers (f.addressRoot start fuel v) := by
  induction fuel generalizing v is with
  | zero => simp at short
  | succ fuel ih =>
    cases walk with
    | stay =>
      cases w with
      | inst i =>
        obtain ⟨op, does⟩ := answers_operation (known i rfl)
        refine Answers.bind ⟨op, does⟩ fun op' same => ?_
        obtain rfl : op = op' := Except.ok.inj (does.symm.trans same)
        cases op with
        | element => exact absurd (.element does) (final i _ rfl)
        | convert => exact absurd (.convert does) (final i _ rfl)
        | _ => exact .pure
      | _ => exact .pure
    | step link rest =>
      obtain ⟨root, rest⟩ := ih rest (Nat.lt_of_succ_lt_succ short)
      cases link with
      | element does => exact ⟨root, by simp [addressRoot, does, rest, bind, Except.bind]⟩
      | convert does => exact ⟨root, by simp [addressRoot, does, rest, bind, Except.bind]⟩

/-- The address of an access circles. -/
def Circling (f : Func) (i : InstId) : Prop :=
  ∃ op v, f.operation i = .ok op ∧ op.address? = some v ∧ f.Circles v

theorem circling_iff {op : Operation} (does : f.operation i = .ok op)
    (address : op.address? = some v) : f.Circling i ↔ f.Circles v := by
  constructor
  · rintro ⟨op', v', does', address', circles⟩
    obtain rfl := Except.ok.inj (does.symm.trans does')
    obtain rfl := Option.some.inj (address.symm.trans address')
    exact circles
  · exact fun circles => ⟨op, v, does, address, circles⟩

/-- What a walk comes to is placed. -/
theorem Walks.placed (formed : f.outline.Formed) (h : f.Walks v is w)
    (known : ∀ i, v = .inst i → (f.blockOf i).isSome) : ∀ i, w = .inst i → (f.blockOf i).isSome := by
  induction h with
  | stay v => exact known
  | @step i u w is link rest ih =>
    obtain ⟨op, does, reads⟩ := link.reads
    obtain ⟨ty, line⟩ := operation_eq_ok_iff.mp does
    exact ih fun j same => formed.operands i op ty (known i rfl) line j (reads j same)

theorem rootGlobal?_circling (circling : f.Circling i) :
    f.rootGlobal? i = .error (.addressCycle i) := by
  obtain ⟨op, v, does, address, circles⟩ := circling
  obtain ⟨is, w, walk, long⟩ := circles.exists_walk (f.insts.size + 1)
  have given : f.addressRoot i (f.insts.size + 1) v = .error (.addressCycle i) :=
    addressRoot_of_long walk long
  simp [rootGlobal?, does, address, given, bind, Except.bind]

/-- An access of a function without flaws has an answer exactly if its address does not circle. -/
theorem answers_rootGlobal?_iff (formed : f.outline.Formed) (placed : (f.blockOf i).isSome) :
    Answers (f.rootGlobal? i) ↔ ¬ f.Circling i := by
  constructor
  · rintro ⟨root, answer⟩ circling
    simp [rootGlobal?_circling circling] at answer
  · intro straight
    obtain ⟨op, ty, line⟩ := exists_line placed
    have does := operation_eq_ok_iff.mpr ⟨ty, line⟩
    refine Answers.bind ⟨op, does⟩ fun op' same => ?_
    obtain rfl : op = op' := Except.ok.inj (does.symm.trans same)
    cases address : op.address? with
    | none => exact .pure
    | some v =>
      have ends : ¬ f.Circles v := (circling_iff does address).not.mp straight
      obtain ⟨is, w, walk, final, short⟩ := exists_final_walk_iff.mpr ends
      have known : ∀ j, v = .inst j → (f.blockOf j).isSome := by
        rintro j rfl
        exact formed.operands i op ty placed line j (Operation.mem_usedInsts_of_address? address)
      have slot : ∀ j, w = .inst j → j.index < f.insts.size := fun j same =>
        lt_of_placed (walk.placed formed known j same)
      exact answers_addressRoot walk final slot (Nat.lt_succ_of_le short)

end Func

end KernelCoarsening
