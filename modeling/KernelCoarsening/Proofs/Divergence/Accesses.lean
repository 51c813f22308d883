/-
Accesses to shared globals.

The address of an access leads to a global, if it does, through address computations and conversions.
An analysis at block level walks along the addresses of all placed instructions for the shared globals
that they lead to:

* `Func.RootedAt`, `Func.Touches` — the global that an access starts from, told from the function;
* `Func.touches_iff_of_rootGlobal?` — a walk that comes to an end finds it;
* `Func.mem_accessesAt_iff` — the accesses that an analysis looks at.
-/
import KernelCoarsening.Proofs.Divergence.Discovery
import KernelCoarsening.Proofs.Ir.Shape

namespace KernelCoarsening

namespace Func

variable {f : Func} {shared : List GlobalId} {level : Level} {accesses : List (InstId × GlobalId)}
  {i : InstId} {g : GlobalId}

/-- An address leads to a global, through address computations and conversions. -/
inductive RootedAt (f : Func) (g : GlobalId) : Value → Prop where
  | here : RootedAt f g (.global g)
  | element {i : InstId} {base index : Value} (does : f.operation i = .ok (.element base index))
      (rest : RootedAt f g base) : RootedAt f g (.inst i)
  | convert {i : InstId} {op : Conversion} {v : Value} (does : f.operation i = .ok (.convert op v))
      (rest : RootedAt f g v) : RootedAt f g (.inst i)

/-- The address of a memory access or an address computation leads to a global. -/
def Touches (f : Func) (i : InstId) (g : GlobalId) : Prop :=
  ∃ op v, f.operation i = .ok op ∧ op.address? = some v ∧ f.RootedAt g v

/-- A walk along an address that comes to an end ends where the address leads. -/
theorem rootedAt_iff_of_addressRoot {start : InstId} {fuel : Nat} {v : Value}
    {root : Option GlobalId} (h : f.addressRoot start fuel v = .ok root) :
    f.RootedAt g v ↔ root = some g := by
  induction fuel generalizing v with
  | zero => simp [addressRoot] at h
  | succ fuel ih =>
    cases v with
    | global g' =>
      obtain rfl : some g' = root := by simpa [addressRoot] using h
      constructor
      · rintro ⟨⟩
        rfl
      · rintro ⟨⟩
        exact .here
    | inst i =>
      obtain ⟨op, hop, h⟩ := bind_eq_ok_iff.mp h
      -- an instruction does one thing, so that at most one way leads on from it
      cases op with
      | element base index =>
        rw [← ih h]
        refine ⟨fun rooted => ?_, fun rest => .element hop rest⟩
        cases rooted with
        | element does rest =>
          obtain ⟨rfl, rfl⟩ : _ = base ∧ _ = index := by simpa [hop] using does.symm
          exact rest
        | convert does rest => simp [hop] at does
      | convert kind inner =>
        rw [← ih h]
        refine ⟨fun rooted => ?_, fun rest => .convert hop rest⟩
        cases rooted with
        | element does rest => simp [hop] at does
        | convert does rest =>
          obtain ⟨rfl, rfl⟩ : _ = kind ∧ _ = inner := by simpa [hop] using does.symm
          exact rest
      | _ =>
        obtain rfl := Except.ok.inj h
        refine iff_of_false (fun rooted => ?_) (by simp)
        cases rooted with
        | element does rest => simp [hop] at does
        | convert does rest => simp [hop] at does
    | _ =>
      obtain rfl : none = root := by simpa [addressRoot] using h
      exact iff_of_false (fun rooted => by cases rooted) (by simp)

theorem touches_iff_of_rootGlobal? {root : Option GlobalId} (h : f.rootGlobal? i = .ok root) :
    f.Touches i g ↔ root = some g := by
  obtain ⟨op, hop, h⟩ := bind_eq_ok_iff.mp h
  have only : f.Touches i g ↔ ∃ v, op.address? = some v ∧ f.RootedAt g v := by
    simp [Touches, hop]
  rw [only]
  cases address : op.address? with
  | none =>
    obtain rfl : none = root := by simpa [address, pure, Except.pure] using h
    simp
  | some v =>
    rw [address] at h
    simpa using rootedAt_iff_of_addressRoot h

/-- The accesses that a level looks at are the placed ones of shared globals, at block level. -/
theorem mem_accessesAt_iff (consistent : f.Consistent)
    (h : f.accessesAt shared level = .ok accesses) :
    (i, g) ∈ accesses ↔ level = .block ∧ g ∈ shared ∧ (f.blockOf i).isSome ∧ f.Touches i g := by
  cases level with
  | thread =>
    obtain rfl := Except.ok.inj h
    simp
  | block =>
    simp only [accessesAt, sharedAccesses] at h
    split at h
    · rename_i none
      obtain rfl := Except.ok.inj h
      simp [List.isEmpty_iff.mp none]
    · obtain ⟨all, instructions, placed⟩ := consistent.instructions
      simp only [instructions, bind_eq_ok_iff, Except.ok.injEq, exists_eq_left'] at h
      obtain ⟨rooted, answers, h⟩ := h
      obtain rfl := Except.ok.inj h
      have listed : ∀ root, (i, root) ∈ rooted ↔
          (f.blockOf i).isSome ∧ f.rootGlobal? i = .ok root := by
        intro root
        rw [mem_of_mapM_eq_ok answers, ← placed i]
        constructor
        · rintro ⟨j, hj, answer⟩
          obtain ⟨root', hr, answer⟩ := bind_eq_ok_iff.mp answer
          obtain ⟨rfl, rfl⟩ : j = i ∧ root' = root := by simpa [pure, Except.pure] using answer
          exact ⟨hj, hr⟩
        · rintro ⟨hi, hr⟩
          exact ⟨i, hi, by simp [hr, bind, Except.bind, pure, Except.pure]⟩
      have kept : (i, g) ∈ rooted.filterMap (fun (entry : InstId × Option GlobalId) => do
          let g ← entry.2
          if shared.contains g then some (entry.1, g) else none) ↔
          (i, some g) ∈ rooted ∧ g ∈ shared := by
        rw [List.mem_filterMap]
        constructor
        · rintro ⟨⟨j, root⟩, hj, kept⟩
          obtain ⟨g', rfl, kept⟩ := Option.bind_eq_some_iff.mp kept
          obtain ⟨member, rfl, rfl⟩ : g' ∈ shared ∧ j = i ∧ g' = g := by
            simpa [Option.ite_none_right_eq_some] using kept
          exact ⟨hj, member⟩
        · rintro ⟨hi, member⟩
          exact ⟨(i, some g), hi, by simp [member]⟩
      refine kept.trans ?_
      rw [listed]
      constructor
      · rintro ⟨⟨home, answer⟩, member⟩
        exact ⟨rfl, member, home, (touches_iff_of_rootGlobal? answer).mpr rfl⟩
      · rintro ⟨-, member, home, touches⟩
        obtain ⟨root, -, answer⟩ := exists_of_mapM_eq_ok answers ((placed i).mpr home)
        obtain ⟨root', hr, -⟩ := bind_eq_ok_iff.mp answer
        obtain rfl := (touches_iff_of_rootGlobal? hr).mp touches
        exact ⟨⟨home, hr⟩, member⟩

/-- An access that an analysis looks at is placed and has an address. -/
theorem mem_accessesAt (consistent : f.Consistent) (h : f.accessesAt shared level = .ok accesses)
    {p : InstId × GlobalId} (hp : p ∈ accesses) :
    (f.blockOf p.1).isSome ∧ f.outline.Does p.1 fun op => op.address?.isSome := by
  obtain ⟨-, -, placed, op, v, hop, address, -⟩ := (mem_accessesAt_iff consistent h).mp hp
  obtain ⟨ty, line⟩ := operation_eq_ok_iff.mp hop
  exact ⟨placed, op, ty, line, by simp [address]⟩

end Func

end KernelCoarsening
