/-
Runs in step.

One function does what another does, and takes one or more steps for each of its steps:

* `Transition.InStep` — what is seen of one run is what is seen of another, in the same order;
* `Func.inStep_of_answers` — it is enough to answer every step;
* `Func.finishes_iff_of_inStep` — runs in step end in the same memories.
-/
import KernelCoarsening.Proofs.Execution.Simulation

namespace KernelCoarsening

namespace Transition

variable {R Q : ThreadState → ThreadState → Prop} {T U : Transition}

theorem Alike.mono (alike : Alike R T U) (weaken : ∀ s t, R s t → Q s t) : Alike Q T U := by
  cases alike with
  | next h => exact .next (weaken _ _ h)
  | finish m => exact .finish m
  | trap cause cause' => exact .trap cause cause'

/-- Two computations with the same result lead to related states. -/
theorem alike_map {α : Type} {x y : Except Trap α} {k k' : α → ThreadState}
    (same : x.toOption = y.toOption) (related : ∀ a, R (k a) (k' a)) :
    Alike R (.ofExcept (k <$> x)) (.ofExcept (k' <$> y)) := by
  cases x with
  | ok a =>
    obtain rfl : y = .ok a := toOption_eq_some_iff.mp same.symm
    exact .next (related a)
  | error cause =>
    cases y with
    | ok a => simp at same
    | error cause' => exact .trap cause cause'

/-- Two sequences of transitions show the same, in the same order; the second takes one or more
steps to show what the first shows in one. -/
def InStep (R : ThreadState → ThreadState → Prop) (T U : Nat → Transition) : Prop :=
  ∃ clock : Nat → Nat, clock 0 = 0 ∧ StrictMono clock ∧
    ∀ n k, clock n ≤ k → k < clock (n + 1) → Alike R (T n) (U k)

/-- Every moment belongs to a tick of the clock. -/
theorem exists_tick {clock : Nat → Nat} (zero : clock 0 = 0) (mono : StrictMono clock) (k : Nat) :
    ∃ n, clock n ≤ k ∧ k < clock (n + 1) := by
  induction k with
  | zero =>
    have next : clock 0 < clock (0 + 1) := mono (Nat.lt_add_one 0)
    exact ⟨0, zero.le, by omega⟩
  | succ k ih =>
    obtain ⟨n, from_n, below⟩ := ih
    by_cases later : k + 1 < clock (n + 1)
    · exact ⟨n, by omega, later⟩
    · have next : clock (n + 1) < clock (n + 1 + 1) := mono (Nat.lt_add_one (n + 1))
      exact ⟨n + 1, by omega, by omega⟩

/-- Some further steps answer a transition: they show what it leads to, and the state behind the
last of them is related to it. -/
def Answers (g : Func) (given : Surroundings) (R Q : ThreadState → ThreadState → Prop)
    (T U : Transition) : Prop :=
  ∃ d, (∀ j < d, Alike Q T (g.run given j U)) ∧ Alike R T (g.run given d U)

theorem Answers.of_alike {g : Func} {given : Surroundings} (alike : Alike R T U) :
    Answers g given R Q T U :=
  ⟨0, fun j hj => absurd hj (Nat.not_lt_zero j), alike⟩

end Transition

namespace Func

variable {R Q : ThreadState → ThreadState → Prop} {f g : Func} {given given' : Surroundings}
  {T U : Transition}

theorem run_succ (n : Nat) (T : Transition) :
    f.run given (n + 1) T = f.run given 1 (f.run given n T) := run_add ..

/-- If every step of one function is answered by one or more steps of another, their runs are in
step. -/
theorem inStep_of_answers (weaken : ∀ s t, R s t → Q s t)
    (answers : ∀ s t, R s t →
      Transition.Answers g given' R Q (f.step given s) (g.step given' t))
    (start : Transition.Alike R T U) :
    Transition.InStep Q (f.run given · T) (g.run given' · U) := by
  have more : ∀ n e, Transition.Alike R (f.run given n T) (g.run given' e U) →
      Transition.Answers g given' R Q (f.run given (n + 1) T) (g.run given' (e + 1) U) := by
    intro n e alike
    rw [run_succ n, run_succ e]
    generalize f.run given n T = T' at alike
    generalize g.run given' e U = U' at alike
    cases alike with
    | next related => exact answers _ _ related
    | finish m => exact .of_alike (.finish m)
    | trap cause cause' => exact .of_alike (.trap cause cause')
  choose! extra shown ends using more
  -- `last n` is when the second run has done what the first does in `n` steps
  let last : Nat → Nat := fun n => Nat.rec 0 (fun n e => e + 1 + extra n e) n
  have last_succ : ∀ n, last (n + 1) = last n + 1 + extra n (last n) := fun _ => rfl
  have related : ∀ n, Transition.Alike R (f.run given n T) (g.run given' (last n) U) := by
    intro n
    induction n with
    | zero => exact start
    | succ n ih =>
      rw [last_succ, g.run_add]
      exact ends n _ ih
  refine ⟨fun n => n.casesOn 0 (last · + 1), rfl, strictMono_nat_of_lt_succ fun n => ?_,
    fun n k from_n below => ?_⟩
  · cases n with
    | zero => exact Nat.succ_pos _
    | succ n =>
      show last n + 1 < last (n + 1) + 1
      rw [last_succ]
      omega
  · cases n with
    | zero =>
      obtain rfl : k = 0 := Nat.lt_one_iff.mp below
      exact start.mono weaken
    | succ n =>
      replace from_n : last n + 1 ≤ k := from_n
      replace below : k < last (n + 1) + 1 := below
      rw [last_succ] at below
      obtain ⟨j, rfl⟩ := Nat.exists_eq_add_of_le from_n
      by_cases final : j = extra n (last n)
      · rw [final, ← last_succ]
        exact (related (n + 1)).mono weaken
      · show Transition.Alike Q _ (g.run given' (last n + 1 + j) U)
        rw [run_add]
        exact shown n _ (related n) j (by omega)

/-- Runs in step end in the same memories. -/
theorem finishes_iff_of_inStep
    (inStep : Transition.InStep R (f.run given · T) (g.run given' · U)) {m : Memory} :
    f.Finishes given T m ↔ g.Finishes given' U m := by
  obtain ⟨clock, zero, mono, alike⟩ := inStep
  rw [finishes_iff_run, finishes_iff_run]
  constructor
  · rintro ⟨n, ends⟩
    have same : Transition.Alike R (f.run given n T) (g.run given' (clock n) U) :=
      alike n (clock n) (Nat.le_refl _) (mono (Nat.lt_add_one n))
    rw [ends] at same
    generalize ended : g.run given' (clock n) U = V at same
    cases same
    exact ⟨clock n, ended⟩
  · rintro ⟨k, ends⟩
    obtain ⟨n, from_n, below⟩ := Transition.exists_tick zero mono k
    have same : Transition.Alike R (f.run given n T) (g.run given' k U) := alike n k from_n below
    rw [ends] at same
    generalize ended : f.run given n T = V at same
    cases same
    exact ⟨n, ended⟩

end Func

end KernelCoarsening
