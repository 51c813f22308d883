/-
Variants of a catalog.

A catalog holds lists of levels, dimensions, factors and strides, and its variants are their
combinations.  The lists have no repetitions, whatever was asked for, so neither have the variants;
and since every factor is at least two, the symbol of a variant tells the variant:

* `VariantCatalog.ofLists_eq_ok_iff` — which factors and strides are taken;
* `VariantCatalog.Tidy` — what building a catalog gives it and restricting it keeps;
* `VariantCatalog.Tidy.nodup_variants`, `VariantCatalog.Tidy.nodup_symbols` — each variant is listed
  once, and no two variants of a kernel have one symbol;
* `VariantCatalog.variants_apart` — both, for all catalogs that can be built, with the variants
  that they list.
-/
import KernelCoarsening.Proofs.Variant.Naming

namespace KernelCoarsening

namespace VariantCatalog

variable {c : VariantCatalog}

/-! ### Combinations -/

/-- The variants of a catalog are the combinations of its lists. -/
theorem variants_eq (c : VariantCatalog) : c.variants =
    (c.levels ×ˢ c.dims ×ˢ c.factors ×ˢ c.strides).map fun (level, dim, factor, stride) =>
      { level, dim, factor, stride } := by
  simp only [variants, SProd.sprod, List.product, List.map_flatMap, List.map_map, Function.comp_def]

theorem length_variants (c : VariantCatalog) : c.variants.length = c.size := by
  simp only [variants_eq, List.length_map, List.length_product, size, Nat.mul_assoc]

@[simp] theorem mem_variants {v : CoarseningParams} : v ∈ c.variants ↔
    v.level ∈ c.levels ∧ v.dim ∈ c.dims ∧ v.factor ∈ c.factors ∧ v.stride ∈ c.strides := by
  obtain ⟨level, dim, factor, stride⟩ := v
  rw [variants_eq, List.mem_map]
  constructor
  · rintro ⟨⟨level', dim', factor', stride'⟩, mem, same⟩
    obtain ⟨rfl, rfl, rfl, rfl⟩ : level' = level ∧ dim' = dim ∧ factor' = factor ∧
        stride' = stride := by
      simpa using same
    simpa [List.pair_mem_product] using mem
  · intro mem
    exact ⟨(level, dim, factor, stride), by simpa [List.pair_mem_product] using mem, rfl⟩

/-- The factors and strides that a catalog can be built of, and the catalog. -/
theorem ofLists_eq_ok_iff {factors strides : List Nat} : ofLists factors strides = .ok c ↔
    (∀ factor ∈ factors, 2 ≤ factor) ∧ (∀ stride ∈ strides, 0 < stride) ∧
      c = { standard with factors := factors.eraseDups, strides := strides.eraseDups } := by
  unfold ofLists
  split
  · rename_i factor small
    have mem := List.mem_of_find?_eq_some small
    have small : factor < 2 := by simpa using List.find?_some small
    simp only [reduceCtorEq, false_iff]
    rintro ⟨large, -⟩
    exact absurd (large factor mem) (by omega)
  · rename_i none
    have large : ∀ factor ∈ factors, 2 ≤ factor := by simpa [Nat.lt_iff_add_one_le] using none
    split
    · rename_i zero
      simp only [reduceCtorEq, false_iff]
      rintro ⟨-, positive, -⟩
      exact absurd (positive 0 (by simpa using zero)) (by omega)
    · rename_i noZero
      have positive : ∀ stride ∈ strides, 0 < stride := by
        intro stride mem
        refine Nat.pos_of_ne_zero ?_
        rintro rfl
        exact noZero (by simpa using mem)
      simp only [Except.ok.injEq, and_iff_right large, and_iff_right positive]
      exact eq_comm

/-! ### Repetitions -/

/-- The lists of a catalog have no repetitions, and every factor merges something. -/
structure Tidy (c : VariantCatalog) : Prop where
  levels : c.levels.Nodup
  dims : c.dims.Nodup
  factors : c.factors.Nodup
  strides : c.strides.Nodup
  merging : ∀ factor ∈ c.factors, 2 ≤ factor

namespace Tidy

theorem ofLists {factors strides : List Nat} (h : ofLists factors strides = .ok c) : c.Tidy := by
  obtain ⟨large, -, rfl⟩ := ofLists_eq_ok_iff.mp h
  exact {
    levels := show Level.all.Nodup by decide
    dims := show Dimension.all.Nodup by decide
    factors := nodup_eraseDups factors
    strides := nodup_eraseDups strides
    merging := fun factor mem => large factor (List.mem_eraseDups.mp mem) }

theorem withLevels (h : c.Tidy) (levels : List Level) : (c.withLevels levels).Tidy :=
  { h with levels := nodup_eraseDups levels }

theorem withDims (h : c.Tidy) (dims : List Dimension) : (c.withDims dims).Tidy :=
  { h with dims := nodup_eraseDups dims }

/-- A catalog lists no variant twice. -/
theorem nodup_variants (h : c.Tidy) : c.variants.Nodup := by
  rw [variants_eq]
  refine List.Nodup.map ?_ (h.levels.product (h.dims.product (h.factors.product h.strides)))
  rintro ⟨level, dim, factor, stride⟩ ⟨level', dim', factor', stride'⟩ same
  simpa using same

/-- The variants of a kernel have different symbols. -/
theorem nodup_symbols (h : c.Tidy) (kernel : String) :
    (c.variants.map (·.symbol kernel)).Nodup := by
  refine (List.nodup_map_iff_inj_on h.nodup_variants).mpr fun v hv w hw same => ?_
  exact CoarseningParams.symbol_inj (h.merging _ (mem_variants.mp hv).2.2.1)
    (h.merging _ (mem_variants.mp hw).2.2.1) same

end Tidy

/-! ### Restrictions -/

/-- A step that gives a catalog other levels or dimensions. -/
inductive Restriction where
  | levels (levels : List Level)
  | dims (dims : List Dimension)

/-- The catalog after a step. -/
def restrict (c : VariantCatalog) : Restriction → VariantCatalog
  | .levels levels => c.withLevels levels
  | .dims dims => c.withDims dims

theorem Tidy.restrict (h : c.Tidy) (step : Restriction) : (c.restrict step).Tidy := by
  cases step with
  | levels levels => exact h.withLevels levels
  | dims dims => exact h.withDims dims

theorem Tidy.restrict_all (h : c.Tidy) (steps : List Restriction) :
    (steps.foldl VariantCatalog.restrict c).Tidy := by
  induction steps generalizing c with
  | nil => exact h
  | cons step steps ih => exact ih (h.restrict step)

/-- The levels that remain: those of the last step that gives levels, if there is one. -/
def levelsAfter (steps : List Restriction) (levels : List Level) : List Level :=
  steps.foldl (fun levels step => match step with
    | .levels given => given
    | .dims _ => levels) levels

/-- The dimensions that remain: those of the last step that gives dimensions, if there is one. -/
def dimsAfter (steps : List Restriction) (dims : List Dimension) : List Dimension :=
  steps.foldl (fun dims step => match step with
    | .levels _ => dims
    | .dims given => given) dims

/-- Restricting a catalog changes its levels and dimensions to those that are given last. -/
theorem mem_restrict_all (steps : List Restriction) {levels : List Level} {dims : List Dimension}
    (hl : ∀ level, level ∈ c.levels ↔ level ∈ levels) (hd : ∀ dim, dim ∈ c.dims ↔ dim ∈ dims) :
    (∀ level, level ∈ (steps.foldl restrict c).levels ↔ level ∈ levelsAfter steps levels) ∧
    (∀ dim, dim ∈ (steps.foldl restrict c).dims ↔ dim ∈ dimsAfter steps dims) ∧
    (steps.foldl restrict c).factors = c.factors ∧
    (steps.foldl restrict c).strides = c.strides := by
  induction steps generalizing c levels dims with
  | nil => exact ⟨hl, hd, rfl, rfl⟩
  | cons step steps ih =>
    cases step with
    | levels given => exact ih (c := c.withLevels given) (fun _ => List.mem_eraseDups) hd
    | dims given => exact ih (c := c.withDims given) hl fun _ => List.mem_eraseDups

/-- A catalog that is built of factors and strides and then restricted lists each combination of
the levels, dimensions, factors and strides that are left once, as many as its size says; and the
symbols that they give a kernel are distinct, whether its symbol is mangled or not. -/
theorem variants_apart {factors strides : List Nat} (h : ofLists factors strides = .ok c)
    (steps : List Restriction) (kernel : String) :
    (steps.foldl restrict c).variants.length = (steps.foldl restrict c).size ∧
    (steps.foldl restrict c).variants.Nodup ∧
    (∀ v, v ∈ (steps.foldl restrict c).variants ↔
      v.level ∈ levelsAfter steps Level.all ∧ v.dim ∈ dimsAfter steps Dimension.all ∧
        v.factor ∈ factors ∧ v.stride ∈ strides) ∧
    ((steps.foldl restrict c).variants.map (·.symbol kernel)).Nodup := by
  have tidy := (Tidy.ofLists h).restrict_all steps
  refine ⟨length_variants _, tidy.nodup_variants, fun v => ?_, tidy.nodup_symbols kernel⟩
  obtain ⟨-, -, rfl⟩ := ofLists_eq_ok_iff.mp h
  obtain ⟨levels, dims, same, same'⟩ := mem_restrict_all steps
    (c := { standard with factors := factors.eraseDups, strides := strides.eraseDups })
    (fun _ => Iff.rfl) fun _ => Iff.rfl
  rw [mem_variants, same, same', levels, dims, List.mem_eraseDups, List.mem_eraseDups]
  rfl

/-- Factors and a level that are given twice count once, and a kernel whose length has nine for its
last digit gets longer symbols, all different. -/
theorem variants_nested :
    (∃ c, ofLists [2, 16, 2] [1, 10] = .ok c) ∧
    (CoarseningParams.mk .block .y 16 10 ∈
      ([.levels [.block, .block], .dims [.y]].foldl restrict
        { standard with factors := [2, 16], strides := [1, 10] }).variants) ∧
    (([.levels [.block, .block], .dims [.y]].foldl restrict
        { standard with factors := [2, 16], strides := [1, 10] }).variants.map
      (·.symbol "_ZN2ns9kernelOneEPi")).Nodup := by
  have built : ofLists [2, 16, 2] [1, 10] =
      .ok { standard with factors := [2, 16], strides := [1, 10] } := by decide
  obtain ⟨-, -, mem, symbols⟩ := variants_apart built [.levels [.block, .block], .dims [.y]]
    "_ZN2ns9kernelOneEPi"
  exact ⟨⟨_, built⟩, (mem _).mpr (by decide), symbols⟩

end VariantCatalog

end KernelCoarsening
