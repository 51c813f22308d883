/-
What a trip count is computed from.

The search for a trip count ends at the first phi that is changed by a constant in every round and
compared with a constant where control leaves the loop.  That phi and the branch that is recognised
with it are the counter of the loop, and the trip count follows from the counter alone:

* `Func.counter?` — the counter of a loop;
* `Func.tripCount?_eq` — the trip count is that of the counter;
* `Func.answers_tripCount?_iff` — when there is a trip count, known or not;
* `Func.counts_of_counter?` — what has been seen of a function when a counter is found.
-/
import KernelCoarsening.Proofs.Flow.RoundCount
import KernelCoarsening.Proofs.Data.Answers

namespace KernelCoarsening

/-- A phi that counts the rounds of a loop, and the test that ends the count. -/
structure Counter where
  phi : InstId
  preheader : BlockId
  latch : BlockId
  start : Int64
  /-- The value that the phi has in the next round. -/
  next : InstId
  step : Int64
  /-- The value of the phi in the second round. -/
  second : Int64
  /-- The latch tests the value for the next round; otherwise the header tests the phi. -/
  late : Bool
  /-- The comparison under which the loop goes on. -/
  rel : Comparison
  bound : Int64

namespace Counter

/-- What is compared with the bound. -/
def tested (c : Counter) : InstId := if c.late then c.next else c.phi

/-- The block that ends with the test. -/
def tester (c : Counter) (lp : Loop) : BlockId := if c.late then c.latch else lp.header

/-- The number that is compared in the first round. -/
def first (c : Counter) : Int64 := if c.late then c.second else c.start

/-- The number of rounds that reach the latch.  The round in which the test fails is one of them
if the latch tests. -/
def tripCount? (c : Counter) : Except Fault (Option Nat) :=
  (·.map (· + if c.late then 1 else 0)) <$> countRounds c.first c.step c.rel c.bound

/-- The trip count of a loop that may have a counter. -/
def tripCountOf? : Option Counter → Except Fault (Option Nat)
  | none => .ok none
  | some c => c.tripCount?

/-- A counter goes down by one, to a bound that it differs from until it meets it, over a distance
that is the least of all words. -/
def Overflows (c : Counter) : Prop :=
  c.rel = .ne ∧ c.step = -1 ∧ c.bound.toInt - c.first.toInt = -2 ^ 63

instance (c : Counter) : Decidable c.Overflows := inferInstanceAs (Decidable (_ ∧ _ ∧ _))

theorem exists_rounds {c : Counter} {n : Nat} (h : c.tripCount? = .ok (some n)) :
    ∃ m, countRounds c.first c.step c.rel c.bound = .ok (some m) ∧
      n = m + if c.late then 1 else 0 := by
  obtain ⟨found, answer, rounds⟩ := map_eq_ok_iff.mp h
  obtain ⟨m, rfl, rfl⟩ := Option.map_eq_some_iff.mp rounds
  exact ⟨m, answer, rfl⟩

/-- A counter has a trip count, known or not, but for the one case in which it is computed with a
quotient that has no word. -/
theorem answers_tripCount?_iff {c : Counter} : Answers c.tripCount? ↔ ¬ c.Overflows := by
  rw [tripCount?, answers_map_iff, answers_countRounds_iff]
  exact Iff.rfl

end Counter

namespace Func

/-- Looks for a phi that counts the rounds of a loop. -/
def counterAmong? (f : Func) (lp : Loop) (preheader latch : BlockId) :
    List InstId → Except Fault (Option Counter)
  | [] => .ok none
  | phi :: rest => do
    let .phi incoming ← f.operation phi | f.counterAmong? lp preheader latch rest
    let some (.const start) := incomingFor? incoming preheader
      | f.counterAmong? lp preheader latch rest
    let some (.inst next) := incomingFor? incoming latch
      | f.counterAmong? lp preheader latch rest
    let some step := (← f.operation next).stepOf? phi
      | f.counterAmong? lp preheader latch rest
    let some second := int64Of? (start.toInt + step.toInt) | return none
    let counter : Bool → Comparison → Int64 → Counter := fun late rel bound =>
      { phi, preheader, latch, start, next, step, second, late, rel, bound }
    match ← f.exitTest? lp lp.header phi with
    | some (rel, bound) => return some (counter false rel bound)
    | none =>
      match ← f.exitTest? lp latch next with
      | some (rel, bound) => return some (counter true rel bound)
      | none => f.counterAmong? lp preheader latch rest

/-- The counter of a loop with one latch and one block before it. -/
def counter? (f : Func) (g : Graph) (lp : Loop) : Except Fault (Option Counter) := do
  let [latch] := lp.latches | return none
  let some preheader := g.preheader? lp | return none
  f.counterAmong? lp preheader latch (← f.phis lp.header)

variable {f : Func} {g : Graph} {lp : Loop}

theorem countedBy?_eq (preheader latch : BlockId) (phis : List InstId) :
    f.countedBy? lp preheader latch phis =
      f.counterAmong? lp preheader latch phis >>= Counter.tripCountOf? := by
  induction phis with
  | nil => rfl
  | cons phi rest ih =>
    unfold countedBy? counterAmong?
    simp only [ih, bind, Except.bind]
    -- both searches ask the same questions, up to the last answer
    rcases f.operation phi with fault | op
    · rfl
    rcases op with - | - | - | - | incoming | - | - | - | - | - | - | - | -
    case ok.phi =>
      dsimp only
      rcases incomingFor? incoming preheader with - | ⟨- | - | start | - | -⟩
      case some.const =>
        dsimp only
        rcases incomingFor? incoming latch with - | ⟨next | - | - | - | -⟩
        case some.inst =>
          dsimp only
          rcases f.operation next with fault | op
          · rfl
          dsimp only
          rcases op.stepOf? phi with - | step
          · rfl
          dsimp only
          rcases int64Of? (start.toInt + step.toInt) with - | second
          · rfl
          dsimp only
          rcases f.exitTest? lp lp.header phi with fault | - | ⟨rel, bound⟩
          · rfl
          · dsimp only
            rcases f.exitTest? lp latch next with fault | - | ⟨rel, bound⟩ <;> rfl
          · -- the header tests, and nothing is added
            show countRounds start step rel bound =
              (·.map (· + 0)) <$> countRounds start step rel bound
            simp
        all_goals rfl
      all_goals rfl
    all_goals rfl

/-- The trip count of a loop is that of its counter. -/
theorem tripCount?_eq :
    f.tripCount? g lp = f.counter? g lp >>= Counter.tripCountOf? := by
  unfold tripCount? counter?
  rcases lp.latches with - | ⟨latch, - | ⟨other, more⟩⟩
  · rfl
  · cases g.preheader? lp with
    | none => rfl
    | some preheader =>
      cases f.phis lp.header with
      | error fault => rfl
      | ok phis => exact countedBy?_eq preheader latch phis
  · rfl

/-- What has been seen of a phi when it is found to count the rounds of a loop. -/
structure CountsBy (f : Func) (lp : Loop) (c : Counter) : Prop where
  incoming : ∃ incoming, f.operation c.phi = .ok (.phi incoming) ∧
    incomingFor? incoming c.preheader = some (.const c.start) ∧
    incomingFor? incoming c.latch = some (.inst c.next)
  step : ∃ op, f.operation c.next = .ok op ∧ op.stepOf? c.phi = some c.step
  second : c.second.toInt = c.start.toInt + c.step.toInt
  test : f.exitTest? lp (c.tester lp) c.tested = .ok (some (c.rel, c.bound))

theorem counts_of_counterAmong? {preheader latch : BlockId} {phis : List InstId} {c : Counter}
    (h : f.counterAmong? lp preheader latch phis = .ok (some c)) :
    c.preheader = preheader ∧ c.latch = latch ∧ c.phi ∈ phis ∧ f.CountsBy lp c := by
  induction phis with
  | nil => simp [counterAmong?] at h
  | cons phi rest ih =>
    have later : f.counterAmong? lp preheader latch rest = .ok (some c) →
        c.preheader = preheader ∧ c.latch = latch ∧ c.phi ∈ phi :: rest ∧ f.CountsBy lp c :=
      fun h => ⟨(ih h).1, (ih h).2.1, List.mem_cons_of_mem _ (ih h).2.2.1, (ih h).2.2.2⟩
    unfold counterAmong? at h
    obtain ⟨op, hphi, h⟩ := bind_eq_ok_iff.mp h
    split at h
    · rename_i incoming
      split at h
      · rename_i start hstart
        split at h
        · rename_i next hnext
          obtain ⟨op, hop, h⟩ := bind_eq_ok_iff.mp h
          split at h
          · rename_i step hstep
            split at h
            · rename_i second hsecond
              obtain ⟨early, hearly, h⟩ := bind_eq_ok_iff.mp h
              split at h
              · rename_i rel bound
                obtain rfl := Option.some.inj (Except.ok.inj h)
                exact ⟨rfl, rfl, by simp, ⟨incoming, hphi, hstart, hnext⟩, ⟨op, hop, hstep⟩,
                  int64Of?_eq_some_iff.mp hsecond, hearly⟩
              · obtain ⟨late, hlate, h⟩ := bind_eq_ok_iff.mp h
                split at h
                · rename_i rel bound
                  obtain rfl := Option.some.inj (Except.ok.inj h)
                  exact ⟨rfl, rfl, by simp, ⟨incoming, hphi, hstart, hnext⟩, ⟨op, hop, hstep⟩,
                    int64Of?_eq_some_iff.mp hsecond, hlate⟩
                · exact later h
            · simp [pure, Except.pure] at h
          · exact later h
        · exact later h
      · exact later h
    · exact later h

/-- What has been seen of a function when the counter of a loop is found. -/
theorem counts_of_counter? {c : Counter} (h : f.counter? g lp = .ok (some c)) :
    lp.latches = [c.latch] ∧ g.preheader? lp = some c.preheader ∧
      (∃ phis, f.phis lp.header = .ok phis ∧ c.phi ∈ phis) ∧ f.CountsBy lp c := by
  unfold counter? at h
  split at h
  · rename_i latch latches
    split at h
    · rename_i preheader hpreheader
      obtain ⟨phis, hphis, h⟩ := bind_eq_ok_iff.mp h
      obtain ⟨rfl, rfl, mem, counts⟩ := counts_of_counterAmong? h
      exact ⟨latches, hpreheader, ⟨phis, hphis, mem⟩, counts⟩
    · simp [pure, Except.pure] at h
  · simp [pure, Except.pure] at h

/-- A known trip count comes from a counter. -/
theorem exists_counter {n : Nat} (h : f.tripCount? g lp = .ok (some n)) :
    ∃ c, f.counter? g lp = .ok (some c) ∧ c.tripCount? = .ok (some n) := by
  rw [tripCount?_eq, bind_eq_ok_iff] at h
  obtain ⟨found, hfound, h⟩ := h
  cases found with
  | none => cases h
  | some c => exact ⟨c, hfound, h⟩

/-- A loop has a trip count, known or not, exactly if the search for its counter comes to an end and
no quotient without a word is asked for. -/
theorem answers_tripCount?_iff : Answers (f.tripCount? g lp) ↔
    ∃ found, f.counter? g lp = .ok found ∧ ∀ c ∈ found, ¬ c.Overflows := by
  rw [tripCount?_eq, answers_bind_iff]
  refine exists_congr fun found => and_congr_right fun _ => ?_
  cases found with
  | none => simp [Counter.tripCountOf?]
  | some c => simp [Counter.tripCountOf?, Counter.answers_tripCount?_iff]

end Func

end KernelCoarsening
