/-
How a launch is divided.

A launch that a configuration applies to is carried out by a variant, on a launch of which one
extent is divided by the factor; every other launch stays as it is:

* `Launch.Divided` — one extent of a launch is divided and the other five are kept;
* `KernelRegistry.Applies` — the configurations that apply to a launch;
* `KernelRegistry.exists_resolve_iff`, `KernelRegistry.shrinks_of_resolve` — these are resolved,
  and what they are resolved to;
* `KernelRegistry.dispatch_exact` — what is launched under an optional text.
-/
import KernelCoarsening.Proofs.Launch.ConfigText
import KernelCoarsening.Proofs.Launch.Registry

namespace KernelCoarsening

/-- Dividing one extent divides the number of places. -/
theorem Extent.volume_set_div {e : Extent} {d : Dimension} {k : Nat} (even : k ∣ e.get d) :
    (e.set d (e.get d / k)).volume * k = e.volume := by
  have whole := Nat.div_mul_cancel even
  cases d <;> simp only [get] at whole <;> simp only [set, get, volume]
  · calc e.x / k * e.y * e.z * k = e.x / k * k * e.y * e.z := by ring
      _ = e.x * e.y * e.z := by rw [whole]
  · calc e.x * (e.y / k) * e.z * k = e.x * (e.y / k * k) * e.z := by ring
      _ = e.x * e.y * e.z := by rw [whole]
  · rw [Nat.mul_assoc, whole]

namespace Launch

/-- The product of the six extents. -/
def size (l : Launch) : Nat := l.grid.volume * l.block.volume

/-- One extent of a launch is divided, without a rest and not to nothing, and the other five are
kept. -/
structure Divided (v : CoarseningParams) (l l' : Launch) : Prop where
  even : v.factor ∣ (l.extentOf v.level).get v.dim
  quotient : (l'.extentOf v.level).get v.dim = (l.extentOf v.level).get v.dim / v.factor
  positive : 1 ≤ (l'.extentOf v.level).get v.dim
  others : ∀ level dim, level ≠ v.level ∨ dim ≠ v.dim →
    (l'.extentOf level).get dim = (l.extentOf level).get dim
  size : l'.size * v.factor = l.size

theorem Divided.ne {v : CoarseningParams} {l l' : Launch} (h : Divided v l l')
    (factor : 2 ≤ v.factor) : l' ≠ l := by
  rintro rfl
  have whole := Nat.div_mul_cancel h.even
  rw [← h.quotient] at whole
  have : (l'.extentOf v.level).get v.dim * 2 ≤ (l'.extentOf v.level).get v.dim * v.factor :=
    Nat.mul_le_mul_left _ factor
  have := h.positive
  omega

end Launch

namespace KernelRegistry

variable {r : KernelRegistry} {c : DispatchConfig} {l l' : Launch}

/-- A configuration applies to a launch: it names the kernel, the variant is registered, and the
extent can be divided. -/
structure Applies (r : KernelRegistry) (c : DispatchConfig) (l : Launch) : Prop where
  named : baseName l.kernel = c.kernel
  known : (r.lookup? c.variantName).isSome
  even : c.params.factor ∣ (l.extentOf c.params.level).get c.params.dim
  some : (l.extentOf c.params.level).get c.params.dim ≠ 0
  wide : c.params.level = .thread →
    c.params.stride ≤ (l.extentOf c.params.level).get c.params.dim / c.params.factor

/-- A launch of the variant that a configuration asks for, divided as it asks for. -/
structure Shrinks (r : KernelRegistry) (c : DispatchConfig) (l l' : Launch) : Prop where
  symbol : r.lookup? c.variantName = some l'.kernel
  divided : Launch.Divided c.params l l'

theorem exists_resolve_iff (factor : 2 ≤ c.params.factor) :
    (∃ l', r.resolve c l = .ok l') ↔ r.Applies c l := by
  constructor
  · rintro ⟨l', h⟩
    obtain ⟨named, divides, symbol, found, -⟩ := resolve_eq_ok_iff.mp h
    refine ⟨named, Option.isSome_of_eq_some found, Nat.dvd_of_mod_eq_zero divides.even, ?_,
      divides.wide⟩
    intro zero
    exact divides.some (by rw [zero, Nat.zero_div])
  · intro h
    obtain ⟨symbol, found⟩ := Option.isSome_iff_exists.mp h.known
    have least : c.params.factor ≤ (l.extentOf c.params.level).get c.params.dim :=
      Nat.le_of_dvd (Nat.pos_of_ne_zero h.some) h.even
    have quotient := Nat.div_pos least (by omega)
    exact ⟨_, resolve_eq_ok_iff.mpr ⟨h.named,
      ⟨h.wide, Nat.ne_of_gt quotient, Nat.mod_eq_zero_of_dvd h.even⟩, symbol, found, rfl⟩⟩

/-- What a launch is resolved to. -/
theorem shrinks_of_resolve (h : r.resolve c l = .ok l') : r.Shrinks c l l' := by
  obtain ⟨-, divides, symbol, found, rfl⟩ := resolve_eq_ok_iff.mp h
  obtain ⟨kernel, level, dim, factor, stride⟩ := c
  have even := Nat.dvd_of_mod_eq_zero divides.even
  have smaller := Extent.volume_set_div even
  refine ⟨found, ?_⟩
  generalize hl' : { l.withExtent level ((l.extentOf level).set dim
    ((l.extentOf level).get dim / factor)) with kernel := symbol } = l'
  have extents : ∀ level', l'.extentOf level' = if level = level' then
      (l.extentOf level).set dim ((l.extentOf level).get dim / factor) else l.extentOf level' := by
    intro level'
    rw [← hl']
    cases level <;> cases level' <;> rfl
  have quotient : (l'.extentOf level).get dim = (l.extentOf level).get dim / factor := by
    rw [extents, if_pos rfl, Extent.get_set, if_pos rfl]
  refine ⟨even, quotient, quotient ▸ Nat.pos_of_ne_zero divides.some, fun level' dim' other => ?_, ?_⟩
  · rw [extents]
    split
    · rename_i same
      obtain rfl := same
      rw [Extent.get_set, if_neg fun same => other.elim (absurd rfl) (absurd same.symm)]
    · rfl
  · rw [← hl']
    cases level <;> simp only [Launch.size, Launch.withExtent, Launch.extentOf] at smaller ⊢
    · rw [Nat.mul_assoc, smaller]
    · rw [Nat.mul_right_comm, smaller]

/-- What is launched: the variant that a text asks for if it can be read and applies, on the
divided launch, and otherwise the launch as it is. -/
theorem dispatch_exact (r : KernelRegistry) (config : Option String) (l : Launch) :
    (r.dispatch config l = l ∨
      ∃ c, DispatchConfig.parse? config = .ok c ∧ r.Shrinks c l (r.dispatch config l)) ∧
    ((∃ c, DispatchConfig.parse? config = .ok c ∧ r.Shrinks c l (r.dispatch config l)) ↔
      ∃ text c, config = some text ∧ DispatchConfig.parse text = .ok c ∧ r.Applies c l) ∧
    (r.dispatch config l = l ↔
      ¬ ∃ text c, config = some text ∧ DispatchConfig.parse text = .ok c ∧ r.Applies c l) := by
  have asked : ∀ c, DispatchConfig.parse? config = .ok c ↔
      ∃ text, config = some text ∧ DispatchConfig.parse text = .ok c := by
    intro c
    cases config <;> simp [DispatchConfig.parse?]
  cases answer : DispatchConfig.parse? config with
  | error reason =>
    have stays : r.dispatch config l = l := by simp only [dispatch, answer]
    have none : ¬ ∃ text c, config = some text ∧ DispatchConfig.parse text = .ok c ∧
        r.Applies c l := by
      rintro ⟨text, c, same, read, -⟩
      simp [(asked c).mpr ⟨text, same, read⟩] at answer
    exact ⟨.inl stays, iff_of_false (by simp) none, iff_of_true stays none⟩
  | ok c =>
    obtain ⟨text, rfl, read⟩ := (asked c).mp answer
    have factor : 2 ≤ c.params.factor := (DispatchConfig.parse_eq_ok_iff.mp read).1.factor.1
    have applies : (∃ text' c', some text = some text' ∧ DispatchConfig.parse text' = .ok c' ∧
        r.Applies c' l) ↔ r.Applies c l := by
      constructor
      · rintro ⟨_, c', same, read', h⟩
        obtain rfl := Option.some.inj same
        obtain rfl : c = c' := by simpa [read] using read'
        exact h
      · exact fun h => ⟨text, c, rfl, read, h⟩
    rw [applies, ← exists_resolve_iff factor]
    cases resolved : r.resolve c l with
    | ok l' =>
      have launched : r.dispatch (some text) l = l' := by simp only [dispatch, answer, resolved]
      have shrinks := shrinks_of_resolve resolved
      rw [launched]
      exact ⟨.inr ⟨c, rfl, shrinks⟩, iff_of_true ⟨c, rfl, shrinks⟩ ⟨l', rfl⟩,
        iff_of_false (shrinks.divided.ne factor) (by simp)⟩
    | error reason =>
      have stays : r.dispatch (some text) l = l := by simp only [dispatch, answer, resolved]
      refine ⟨.inl stays, iff_of_false ?_ (by simp), iff_of_true stays (by simp)⟩
      rintro ⟨c', same, shrinks⟩
      obtain rfl := Except.ok.inj same
      exact shrinks.divided.ne factor stays

end KernelRegistry

end KernelCoarsening
