/-
Questions that may have no answer.

A computation in `Except` that answers has had an answer at each of its steps:

* `bind_eq_ok_iff` — to ask one question after the other;
* `mapM_eq_ok_iff` — to ask a question of every member of a list;
* `mem_of_filterM_eq_ok` — to keep the members of a list for which the answer is yes.

`Yields` says that the answer, if there is one, has a property, `Answers` that there is one,
`Gives` both, and `Faults` what there is instead; their rules follow the steps of a computation.
-/
import Mathlib.Data.List.Forall2

namespace KernelCoarsening

variable {ε α β : Type}

theorem bind_eq_ok_iff {x : Except ε α} {k : α → Except ε β} {b : β} :
    (x >>= k) = .ok b ↔ ∃ a, x = .ok a ∧ k a = .ok b := by
  cases x with
  | error e => simp [bind, Except.bind]
  | ok a => simp [bind, Except.bind]

theorem map_eq_ok_iff {x : Except ε α} {k : α → β} {b : β} :
    k <$> x = .ok b ↔ ∃ a, x = .ok a ∧ k a = b := by
  cases x with
  | error e => simp [Functor.map, Except.map]
  | ok a => simp [Functor.map, Except.map]

theorem mapError_eq_ok_iff {ε' : Type} {x : Except ε α} {k : ε → ε'} {a : α} :
    x.mapError k = .ok a ↔ x = .ok a := by
  cases x with
  | error e => simp [Except.mapError]
  | ok a => simp [Except.mapError]

/-- A list of questions that all have answers: the answers, in order. -/
theorem mapM_eq_ok_iff {ask : α → Except ε β} {xs : List α} {ys : List β} :
    xs.mapM ask = .ok ys ↔ List.Forall₂ (fun x y => ask x = .ok y) xs ys := by
  induction xs generalizing ys with
  | nil =>
    constructor
    · intro h
      obtain rfl : [] = ys := by simpa [pure, Except.pure] using h
      exact .nil
    · intro h
      cases h
      rfl
  | cons x xs ih =>
    rw [List.mapM_cons, bind_eq_ok_iff]
    constructor
    · rintro ⟨y, hy, h⟩
      rw [bind_eq_ok_iff] at h
      obtain ⟨rest, hrest, h⟩ := h
      obtain rfl : y :: rest = ys := by simpa [pure, Except.pure] using h
      exact .cons hy (ih.mp hrest)
    · intro h
      cases h with
      | cons hy hrest =>
        refine ⟨_, hy, ?_⟩
        rw [bind_eq_ok_iff]
        exact ⟨_, ih.mpr hrest, rfl⟩

theorem mem_of_mapM_eq_ok {ask : α → Except ε β} {xs : List α} {ys : List β}
    (h : xs.mapM ask = .ok ys) {y : β} : y ∈ ys ↔ ∃ x ∈ xs, ask x = .ok y := by
  have each := mapM_eq_ok_iff.mp h
  clear h
  induction each with
  | nil => simp
  | @cons x z xs ys hz _ ih =>
    constructor
    · intro hy
      rcases List.mem_cons.mp hy with rfl | hy
      · exact ⟨x, by simp, hz⟩
      · obtain ⟨x', hx', answer⟩ := ih.mp hy
        exact ⟨x', List.mem_cons_of_mem _ hx', answer⟩
    · rintro ⟨x', hx', answer⟩
      rcases List.mem_cons.mp hx' with rfl | hx'
      · obtain rfl : z = y := by simpa [answer] using hz.symm
        simp
      · exact List.mem_cons_of_mem _ (ih.mpr ⟨x', hx', answer⟩)

/-- What is made of the answers is made of what was asked. -/
theorem flatMap_of_mapM_eq_ok {γ : Type} {ask : α → Except ε β} {xs : List α} {ys : List β}
    {k : β → List γ} {k' : α → List γ} (h : xs.mapM ask = .ok ys)
    (same : ∀ x y, ask x = .ok y → k y = k' x) : ys.flatMap k = xs.flatMap k' := by
  have each := mapM_eq_ok_iff.mp h
  clear h
  induction each with
  | nil => rfl
  | cons answer _ ih => simp [same _ _ answer, ih]

/-- Every member of a list has an answer if the list of answers is there. -/
theorem exists_of_mapM_eq_ok {ask : α → Except ε β} {xs : List α} {ys : List β}
    (h : xs.mapM ask = .ok ys) {x : α} (hx : x ∈ xs) : ∃ y ∈ ys, ask x = .ok y := by
  have each := mapM_eq_ok_iff.mp h
  clear h
  induction each with
  | nil => simp at hx
  | @cons x' z xs ys hz _ ih =>
    rcases List.mem_cons.mp hx with rfl | hx
    · exact ⟨z, by simp, hz⟩
    · obtain ⟨y, hy, answer⟩ := ih hx
      exact ⟨y, List.mem_cons_of_mem _ hy, answer⟩

/-- A list of questions has an answer if each of them has one. -/
theorem exists_mapM_eq_ok (ask : α → Except ε β) (xs : List α)
    (each : ∀ x ∈ xs, ∃ y, ask x = .ok y) : ∃ ys, xs.mapM ask = .ok ys := by
  induction xs with
  | nil => exact ⟨[], rfl⟩
  | cons x xs ih =>
    obtain ⟨y, hy⟩ := each x (by simp)
    obtain ⟨ys, hys⟩ := ih fun x' hx' => each x' (List.mem_cons_of_mem _ hx')
    exact ⟨y :: ys, mapM_eq_ok_iff.mpr (.cons hy (mapM_eq_ok_iff.mp hys))⟩

theorem mapM_eq_ok_map {ask : α → Except ε β} {k : α → β} {xs : List α}
    (each : ∀ x ∈ xs, ask x = .ok (k x)) : xs.mapM ask = .ok (xs.map k) :=
  mapM_eq_ok_iff.mpr (List.forall₂_map_right_iff.mpr (List.forall₂_same.mpr each))

/-- The members that are kept are those for which the answer is yes. -/
theorem mem_of_filterM_eq_ok {ask : α → Except ε Bool} {xs ys : List α}
    (h : xs.filterM ask = .ok ys) {x : α} : x ∈ ys ↔ x ∈ xs ∧ ask x = .ok true := by
  -- the loop of `filterM` collects what it keeps in an accumulator
  have aux : ∀ (xs acc ys : List α), xs.filterAuxM ask acc = .ok ys →
      (x ∈ ys ↔ x ∈ acc ∨ x ∈ xs ∧ ask x = .ok true) := by
    intro xs
    induction xs with
    | nil =>
      intro acc ys h
      obtain rfl : acc = ys := by simpa [List.filterAuxM, pure, Except.pure] using h
      simp
    | cons y xs ih =>
      intro acc ys h
      rw [List.filterAuxM, bind_eq_ok_iff] at h
      obtain ⟨keep, answer, h⟩ := h
      rw [ih _ _ h]
      cases keep with
      | true =>
        simp only [cond_true, List.mem_cons]
        constructor
        · rintro ((rfl | old) | ⟨later, yes⟩)
          · exact .inr ⟨.inl rfl, answer⟩
          · exact .inl old
          · exact .inr ⟨.inr later, yes⟩
        · rintro (old | ⟨rfl | later, yes⟩)
          · exact .inl (.inr old)
          · exact .inl (.inl rfl)
          · exact .inr ⟨later, yes⟩
      | false =>
        simp only [cond_false, List.mem_cons]
        constructor
        · rintro (old | ⟨later, yes⟩)
          · exact .inl old
          · exact .inr ⟨.inr later, yes⟩
        · rintro (old | ⟨rfl | later, yes⟩)
          · exact .inl old
          · simp [answer] at yes
          · exact .inr ⟨later, yes⟩
  rw [List.filterM, bind_eq_ok_iff] at h
  obtain ⟨kept, hk, h⟩ := h
  obtain rfl : kept.reverse = ys := by simpa [pure, Except.pure] using h
  rw [List.mem_reverse, aux xs [] kept hk]
  simp

/-! ### Properties of answers -/

/-- The answer of a computation has a property, if there is one. -/
def Yields (x : Except ε α) (p : α → Prop) : Prop := ∀ a, x = .ok a → p a

namespace Yields

variable {x : Except ε α} {p q : α → Prop} {k : α → Except ε β} {r : β → Prop}

theorem pure {a : α} (h : p a) : Yields (Pure.pure a : Except ε α) p := by
  rintro b same
  obtain rfl : a = b := by simpa [Pure.pure, Except.pure] using same
  exact h

theorem of_answer {a : α} (answer : x = .ok a) (h : p a) : Yields x p := by
  rintro b same
  obtain rfl : a = b := by simpa [answer] using same
  exact h

theorem mono (h : Yields x p) (sub : ∀ a, p a → q a) : Yields x q :=
  fun a answer => sub a (h a answer)

theorem bind (h : Yields x p) (next : ∀ a, p a → Yields (k a) r) : Yields (x >>= k) r := by
  intro b answer
  obtain ⟨a, ha, answer⟩ := bind_eq_ok_iff.mp answer
  exact next a (h a ha) b answer

theorem map {m : α → β} (h : Yields x fun a => r (m a)) : Yields (m <$> x) r := by
  intro b answer
  obtain ⟨a, ha, rfl⟩ := map_eq_ok_iff.mp answer
  exact h a ha

/-- A question whose answer does not matter. -/
theorem ask (next : ∀ a, x = .ok a → Yields (k a) r) : Yields (x >>= k) r :=
  bind (p := fun a => x = .ok a) (fun _ answer => answer) next

/-- A step that keeps a property is taken for every member of a list. -/
theorem foldlM {step : β → α → Except ε β} {xs : List α} {b : β} (h : r b)
    (keep : ∀ b, r b → ∀ a ∈ xs, Yields (step b a) r) : Yields (xs.foldlM step b) r := by
  induction xs generalizing b with
  | nil => exact pure h
  | cons a xs ih =>
    rw [List.foldlM_cons]
    refine bind (keep b h a (by simp)) fun c hc => ih hc fun d hd a' ha' => ?_
    exact keep d hd a' (List.mem_cons_of_mem _ ha')

end Yields

/-- A computation has an answer. -/
def Answers (x : Except ε α) : Prop := ∃ a, x = .ok a

namespace Answers

variable {x : Except ε α} {k : α → Except ε β} {r : β → Prop}

theorem pure {a : α} : Answers (Pure.pure a : Except ε α) := ⟨a, rfl⟩

theorem bind (h : Answers x) (next : ∀ a, x = .ok a → Answers (k a)) : Answers (x >>= k) := by
  obtain ⟨a, answer⟩ := h
  obtain ⟨b, rest⟩ := next a answer
  exact ⟨b, bind_eq_ok_iff.mpr ⟨a, answer, rest⟩⟩

theorem map {m : α → β} (h : Answers x) : Answers (m <$> x) := by
  obtain ⟨a, rfl⟩ := h
  exact ⟨m a, rfl⟩

/-- Steps for the members of a list have answers, if a property that they keep lets each of them
have one. -/
theorem foldlM {step : β → α → Except ε β} {xs : List α} {b : β} (h : r b)
    (keep : ∀ b, r b → ∀ a ∈ xs, Yields (step b a) r)
    (each : ∀ b, r b → ∀ a ∈ xs, Answers (step b a)) : Answers (xs.foldlM step b) := by
  induction xs generalizing b with
  | nil => exact pure
  | cons a xs ih =>
    rw [List.foldlM_cons]
    refine bind (each b h a (by simp)) fun c answer => ih (keep b h a (by simp) c answer) ?_ ?_
    · exact fun d hd a' ha' => keep d hd a' (List.mem_cons_of_mem _ ha')
    · exact fun d hd a' ha' => each d hd a' (List.mem_cons_of_mem _ ha')

theorem filterM {ask : α → Except ε Bool} {xs : List α} (each : ∀ a ∈ xs, Answers (ask a)) :
    Answers (xs.filterM ask) := by
  have aux : ∀ (xs acc : List α), (∀ a ∈ xs, Answers (ask a)) →
      Answers (xs.filterAuxM ask acc) := by
    intro xs
    induction xs with
    | nil => exact fun acc _ => pure
    | cons a xs ih =>
      intro acc each
      rw [List.filterAuxM]
      refine (each a (by simp)).bind fun keep _ => ih _ fun a' ha' => ?_
      exact each a' (List.mem_cons_of_mem _ ha')
  exact (aux xs [] each).bind fun _ _ => pure

end Answers

section

variable {x : Except ε α} {k : α → Except ε β}

theorem answers_iff : Answers x ↔ ∃ a, x = .ok a := .rfl

theorem answers_bind_iff : Answers (x >>= k) ↔ ∃ a, x = .ok a ∧ Answers (k a) := by
  simp only [Answers, bind_eq_ok_iff]
  tauto

@[simp] theorem answers_pure {a : α} : Answers (Pure.pure a : Except ε α) := .pure

@[simp] theorem answers_ok {a : α} : Answers (.ok a : Except ε α) := .pure

@[simp] theorem answers_map_iff {m : α → β} : Answers (m <$> x) ↔ Answers x := by
  cases x <;> simp [Answers, Functor.map, Except.map]

/-- A list of questions has an answer exactly if each of them has one. -/
@[simp] theorem answers_mapM_iff {ask : α → Except ε β} {xs : List α} :
    Answers (xs.mapM ask) ↔ ∀ x ∈ xs, Answers (ask x) := by
  constructor
  · rintro ⟨ys, h⟩ x hx
    obtain ⟨y, -, answer⟩ := exists_of_mapM_eq_ok h hx
    exact ⟨y, answer⟩
  · exact exists_mapM_eq_ok ask xs

end

/-- A computation has an answer, and the answer has a property. -/
def Gives (x : Except ε α) (p : α → Prop) : Prop := ∃ a, x = .ok a ∧ p a

theorem Answers.gives {x : Except ε α} {p : α → Prop} (h : Answers x) (yields : Yields x p) :
    Gives x p := by
  obtain ⟨a, answer⟩ := h
  exact ⟨a, answer, yields a answer⟩

namespace Gives

variable {x : Except ε α} {p q : α → Prop} {k : α → Except ε β} {r : β → Prop}

theorem answers (h : Gives x p) : Answers x := by
  obtain ⟨a, answer, -⟩ := h
  exact ⟨a, answer⟩

theorem yields (h : Gives x p) : Yields x p := by
  obtain ⟨a, answer, ha⟩ := h
  exact .of_answer answer ha

theorem pure {a : α} (h : p a) : Gives (Pure.pure a : Except ε α) p := ⟨a, rfl, h⟩

theorem mono (h : Gives x p) (sub : ∀ a, x = .ok a → p a → q a) : Gives x q := by
  obtain ⟨a, answer, ha⟩ := h
  exact ⟨a, answer, sub a answer ha⟩

theorem bind (h : Gives x p) (next : ∀ a, x = .ok a → p a → Gives (k a) r) :
    Gives (x >>= k) r := by
  obtain ⟨a, answer, ha⟩ := h
  obtain ⟨b, rest, hb⟩ := next a answer ha
  exact ⟨b, bind_eq_ok_iff.mpr ⟨a, answer, rest⟩, hb⟩

/-- A question whose answer does not matter. -/
theorem ask (h : Answers x) (next : ∀ a, x = .ok a → Gives (k a) r) : Gives (x >>= k) r := by
  obtain ⟨a, answer⟩ := h
  exact bind ⟨a, answer, trivial⟩ fun a answer (_ : True) => next a answer

theorem foldlM {step : β → α → Except ε β} {xs : List α} {b : β} (h : r b)
    (keep : ∀ b, r b → ∀ a ∈ xs, Gives (step b a) r) : Gives (xs.foldlM step b) r :=
  (Answers.foldlM h (fun b hb a ha => (keep b hb a ha).yields)
    fun b hb a ha => (keep b hb a ha).answers).gives
      (.foldlM h fun b hb a ha => (keep b hb a ha).yields)

end Gives

/-- The fault of a computation has a property, if there is one. -/
def Faults (x : Except ε α) (q : ε → Prop) : Prop := ∀ e, x = .error e → q e

namespace Faults

variable {x : Except ε α} {k : α → Except ε β} {q : ε → Prop}

theorem of_answers (h : Answers x) : Faults x q := by
  obtain ⟨a, rfl⟩ := h
  rintro e ⟨⟩

theorem pure {a : α} : Faults (Pure.pure a : Except ε α) q := of_answers .pure

theorem bind (h : Faults x q) (next : ∀ a, x = .ok a → Faults (k a) q) : Faults (x >>= k) q := by
  intro e fault
  cases x with
  | error e' =>
    obtain rfl : e' = e := Except.error.inj fault
    exact h e' rfl
  | ok a => exact next a rfl e fault

theorem mapM {ask : α → Except ε β} {xs : List α} (each : ∀ a ∈ xs, Faults (ask a) q) :
    Faults (xs.mapM ask) q := by
  induction xs with
  | nil => exact pure
  | cons a xs ih =>
    rw [List.mapM_cons]
    refine bind (each a (by simp)) fun _ _ => bind (ih fun b hb => ?_) fun _ _ => pure
    exact each b (List.mem_cons_of_mem _ hb)

/-- A computation that has no fault has an answer. -/
theorem answers (h : Faults x q) (none : ∀ e, ¬ q e) : Answers x := by
  cases x with
  | error e => exact absurd (h e rfl) (none e)
  | ok a => exact .pure

end Faults

end KernelCoarsening
