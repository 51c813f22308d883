/-
Which variant a launch gets.

The pass names variants by symbols, and the registry knows symbols by base names, of which a
later entry replaces an earlier one:

* `AnnotationCache.kernels_of_faithful` — a cache that is true to a program finds its kernels;
* `KernelRegistry.lookup?_registered` — a base name stands for the last symbol with that name;
* `KernelRegistry.right_iff` — launches get variants of the launched kernel exactly if kernels
  with one base name have the same variants;
* `overloads_not_right` — overloads have one base name and other variants.
-/
import KernelCoarsening.Launch.Dispatch
import KernelCoarsening.Pass.Run
import KernelCoarsening.Proofs.Coarsening.Growth
import KernelCoarsening.Proofs.Ir.Assembly
import KernelCoarsening.Proofs.Variant.Catalog
import Mathlib

namespace KernelCoarsening

/-! ### Caches -/

namespace AnnotationCache

variable {c : AnnotationCache} {id : Nat} {p : Program}

/-- What a cache holds for the program with a number is what the annotations of that program
say. -/
def Faithful (c : AnnotationCache) (id : Nat) (p : Program) : Prop :=
  ∀ symbol found, c.entries.get? (id, symbol) = some found → found = p.properties symbol

theorem faithful_empty : empty.Faithful id p := by
  intro symbol found h
  simp [empty, Assoc.get?] at h

/-- A cache that holds nothing for a number is true to any program. -/
theorem faithful_evict : (c.evict id).Faithful id p := by
  have gone : ∀ entries : Assoc (Nat × String) Properties, ∀ symbol,
      Assoc.get? (entries.filter fun entry => entry.1.1 != id) (id, symbol) = none := by
    intro entries symbol
    induction entries with
    | nil => rfl
    | cons entry entries ih =>
      obtain ⟨⟨owner, name⟩, held⟩ := entry
      by_cases same : owner = id
      · simpa [List.filter_cons, same] using ih
      · simpa [List.filter_cons, same, Assoc.get?] using ih
  intro symbol found h
  simp [evict, gone] at h

theorem properties_of_faithful (h : c.Faithful id p) (symbol : String) :
    (c.properties id p symbol).1 = p.properties symbol ∧
      (c.properties id p symbol).2.Faithful id p := by
  unfold properties
  split
  · rename_i found held
    exact ⟨h symbol found held, h⟩
  · refine ⟨rfl, fun other found held => ?_⟩
    rw [Assoc.get?_insert] at held
    split at held
    · rename_i same
      obtain rfl : symbol = other := by simpa using same
      exact (Option.some.inj held).symm
    · exact h other found held

theorem isKernel_of_faithful (h : c.Faithful id p) (f : Func) :
    (c.isKernel id p f).1 = p.isKernel f ∧ (c.isKernel id p f).2.Faithful id p := by
  unfold isKernel
  split
  · rename_i declaration
    exact ⟨by simp [Program.isKernel, Func.isKernelWith, declaration], h⟩
  · obtain ⟨found, kept⟩ := properties_of_faithful h f.name
    exact ⟨by simp only [found]; rfl, kept⟩

/-- A cache that is true to a program finds the kernels among functions, and stays so. -/
theorem kernels_of_faithful (h : c.Faithful id p) (fs : List Func) :
    (c.kernels id p fs).1 = fs.filter p.isKernel ∧ (c.kernels id p fs).2.Faithful id p := by
  induction fs generalizing c with
  | nil => exact ⟨rfl, h⟩
  | cons f fs ih =>
    obtain ⟨answer, kept⟩ := isKernel_of_faithful h f
    obtain ⟨found, kept⟩ := ih kept
    refine ⟨?_, kept⟩
    simp only [kernels, answer, found, List.filter_cons]

end AnnotationCache

/-! ### Registries -/

namespace KernelRegistry

/-- The last symbol of a list with a base name. -/
def lastNamed? (base : String) (symbols : List String) : Option String :=
  (symbols.filter (baseName · == base)).getLast?

/-- A base name stands for the last symbol with that name. -/
theorem lookup?_registered (symbols : List String) (base : String) :
    (symbols.foldl register empty).lookup? base = lastNamed? base symbols := by
  have general : ∀ r : KernelRegistry, (symbols.foldl register r).lookup? base =
      (lastNamed? base symbols).or (r.lookup? base) := by
    induction symbols with
    | nil => exact fun r => rfl
    | cons symbol symbols ih =>
      intro r
      rw [List.foldl_cons, ih, register, lookup?, Assoc.get?_insert, lastNamed?, lastNamed?,
        List.filter_cons]
      by_cases same : baseName symbol = base
      · rw [if_pos same, if_pos (by simpa using same), List.getLast?_cons]
        cases (symbols.filter (baseName · == base)).getLast? <;> rfl
      · rw [if_neg same, if_neg (by simpa using same)]
        rfl
  rw [general empty]
  simp [lookup?, empty, Assoc.get?]

/-- A launch can be divided as a variant asks for. -/
structure Divides (v : CoarseningParams) (l : Launch) : Prop where
  wide : v.level = .thread → v.stride ≤ (l.extentOf v.level).get v.dim / v.factor
  some : (l.extentOf v.level).get v.dim / v.factor ≠ 0
  even : (l.extentOf v.level).get v.dim % v.factor = 0

/-- A launch is resolved if the configuration names its kernel, the variant is registered and the
launch can be divided. -/
theorem resolve_eq_ok_iff {r : KernelRegistry} {c : DispatchConfig} {l l' : Launch} :
    r.resolve c l = .ok l' ↔ baseName l.kernel = c.kernel ∧ Divides c.params l ∧
      ∃ symbol, r.lookup? c.variantName = some symbol ∧
        { l.withExtent c.params.level ((l.extentOf c.params.level).set c.params.dim
          ((l.extentOf c.params.level).get c.params.dim / c.params.factor)) with
            kernel := symbol } = l' := by
  obtain ⟨kernel, level, dim, factor, stride⟩ := c
  unfold resolve
  simp only [bind, Except.bind, pure, Except.pure, throw, throwThe, MonadExceptOf.throw]
  split
  · rename_i other
    exact iff_of_false (by simp) fun h => other h.1
  · rename_i named
    cases r.lookup? (DispatchConfig.variantName ⟨kernel, ⟨level, dim, factor, stride⟩⟩) with
    | none => simp
    | some symbol =>
      dsimp only
      split
      · rename_i narrow
        exact iff_of_false (by simp) fun h => absurd (h.2.1.wide narrow.1) (Nat.not_le.mpr narrow.2)
      · rename_i wide
        split
        · rename_i zero
          exact iff_of_false (by simp) fun h => h.2.1.some zero
        · rename_i some
          split
          · rename_i odd
            exact iff_of_false (by simp) fun h => odd h.2.1.even
          · rename_i even
            have divides : Divides ⟨level, dim, factor, stride⟩ l :=
              ⟨fun thread => Nat.le_of_not_lt fun narrow => wide ⟨thread, narrow⟩, some,
                not_not.mp even⟩
            simp [not_not.mp named, divides]

/-- A launch that is resolved launches what is registered under the name of the variant. -/
theorem lookup?_of_resolve {r : KernelRegistry} {c : DispatchConfig} {l l' : Launch}
    (h : r.resolve c l = .ok l') : r.lookup? c.variantName = some l'.kernel := by
  obtain ⟨-, -, symbol, found, rfl⟩ := resolve_eq_ok_iff.mp h
  exact found

/-- A registered variant of a kernel can be launched: on as many threads or blocks as it merges
in one step. -/
theorem exists_resolve {r : KernelRegistry} {c : DispatchConfig} {symbol kernel : String}
    (factor : 0 < c.params.factor) (stride : 0 < c.params.stride)
    (named : baseName kernel = c.kernel) (h : r.lookup? c.variantName = some symbol) :
    ∃ l l', l.kernel = kernel ∧ r.resolve c l = .ok l' ∧ l'.kernel = symbol := by
  let n := c.params.factor * c.params.stride
  let l : Launch := ⟨kernel, ⟨n, n, n⟩, ⟨n, n, n⟩⟩
  have extent : (l.extentOf c.params.level).get c.params.dim = n := by
    cases c.params.level <;> cases c.params.dim <;> rfl
  have quotient : n / c.params.factor = c.params.stride := Nat.mul_div_cancel_left _ factor
  refine ⟨l, _, rfl, resolve_eq_ok_iff.mpr ⟨named, ⟨?_, ?_, ?_⟩, symbol, h, rfl⟩, rfl⟩
  · intro _
    exact Nat.le_of_eq (by rw [extent, quotient])
  · rw [extent, quotient]
    omega
  · rw [extent]
    exact Nat.mul_mod_right _ _

end KernelRegistry

/-! ### Runs in dynamic mode -/

namespace Settings

variable {s : Settings} {catalog : VariantCatalog}

/-- The catalog that settings ask for is built of their factors and strides, and lists
something. -/
theorem catalog_eq_ok (h : s.catalog = .ok catalog) :
    VariantCatalog.ofLists s.factors s.strides = .ok catalog ∧ catalog.isEmpty = false := by
  unfold Settings.catalog at h
  split at h
  · simp at h
  · rename_i made built
    split at h
    · simp at h
    · rename_i some
      obtain rfl : made = catalog := by simpa using h
      exact ⟨built, by simpa using some⟩

theorem variants_ne_nil (h : s.catalog = .ok catalog) : catalog.variants ≠ [] := by
  obtain ⟨-, some⟩ := catalog_eq_ok h
  rw [← List.length_pos_iff, VariantCatalog.length_variants]
  exact Nat.pos_of_ne_zero (by simpa [VariantCatalog.isEmpty] using some)

/-- The variants of a catalog that settings ask for merge at least two, and have a stride. -/
theorem valid_of_catalog (h : s.catalog = .ok catalog) {v : CoarseningParams}
    (hv : v ∈ catalog.variants) : 2 ≤ v.factor ∧ 0 < v.stride := by
  obtain ⟨large, positive, rfl⟩ := VariantCatalog.ofLists_eq_ok_iff.mp (catalog_eq_ok h).1
  obtain ⟨-, -, factor, stride⟩ := VariantCatalog.mem_variants.mp hv
  exact ⟨large _ (List.mem_eraseDups.mp factor), positive _ (List.mem_eraseDups.mp stride)⟩

end Settings

namespace Pass

variable {run : Pass} {cache : AnnotationCache} {id : Nat} {p : Program}

/-- A symbol is that of a kernel which a run works on. -/
def Selects (run : Pass) (p : Program) (k : String) : Prop :=
  ∃ f ∈ p.functions, p.isKernel f ∧ run.settings.kernel.selects f.name ∧ f.name = k

theorem selected_of_faithful (run : Pass) (h : cache.Faithful id p) (fs : List (Func × Nat)) :
    (run.selected cache id p fs).1 =
        fs.filter (fun (f, _) => p.isKernel f && run.settings.kernel.selects f.name) ∧
      (run.selected cache id p fs).2.Faithful id p := by
  induction fs generalizing cache with
  | nil => exact ⟨rfl, h⟩
  | cons entry fs ih =>
    obtain ⟨f, n⟩ := entry
    obtain ⟨answer, kept⟩ := AnnotationCache.isKernel_of_faithful h f
    obtain ⟨found, kept⟩ := ih kept
    refine ⟨?_, kept⟩
    simp only [selected, answer, found, List.filter_cons]

theorem mem_selected (run : Pass) (h : cache.Faithful id p) {f : Func} :
    (∃ n, (f, n) ∈ (run.selected cache id p p.functions.zipIdx).1) ↔
      f ∈ p.functions ∧ p.isKernel f ∧ run.settings.kernel.selects f.name := by
  rw [(selected_of_faithful run h p.functions.zipIdx).1]
  simp only [List.mem_filter, List.mem_zipIdx_iff_getElem?, Bool.and_eq_true]
  constructor
  · rintro ⟨n, hn, isKernel⟩
    exact ⟨List.mem_of_getElem? hn, isKernel⟩
  · rintro ⟨hf, isKernel⟩
    obtain ⟨n, hn⟩ := List.mem_iff_getElem?.mp hf
    exact ⟨n, hn, isKernel⟩

theorem mem_names_selected (run : Pass) (h : cache.Faithful id p) {k : String} :
    k ∈ (run.selected cache id p p.functions.zipIdx).1.map (·.1.name) ↔ run.Selects p k := by
  rw [List.mem_map]
  constructor
  · rintro ⟨⟨f, n⟩, hf, rfl⟩
    obtain ⟨mem, isKernel, selects⟩ := (mem_selected run h).mp ⟨n, hf⟩
    exact ⟨f, mem, isKernel, selects, rfl⟩
  · rintro ⟨f, mem, isKernel, selects, rfl⟩
    obtain ⟨n, hn⟩ := (mem_selected run h).mpr ⟨mem, isKernel, selects⟩
    exact ⟨(f, n), hn, rfl⟩

/-- A function is a kernel that was coarsened as wanted, under the symbol of the variant. -/
def Makes (run : Pass) (shared : List GlobalId) (wanted : Func × CoarseningParams) (g : Func) :
    Prop :=
  ∃ made, wanted.1.coarsen shared wanted.2 run.costs = .ok (.ok made) ∧
    g = { made.func with name := wanted.2.symbol wanted.1.name }

theorem Makes.name_eq {shared : List GlobalId} {w : Func × CoarseningParams} {g : Func}
    (h : run.Makes shared w g) : g.name = w.2.symbol w.1.name := by
  obtain ⟨made, -, rfl⟩ := h
  rfl

theorem Makes.isDeclaration {shared : List GlobalId} {w : Func × CoarseningParams} {g : Func}
    (h : run.Makes shared w g) (body : w.1.isDeclaration = false) : g.isDeclaration = false := by
  obtain ⟨made, hmade, rfl⟩ := h
  exact (Func.grows_coarsen _ hmade made rfl).isDeclaration body

/-- The variants that are made are those that were asked for, in order. -/
theorem makeVariants_spec {shared : List GlobalId} {outcome : PassOutcome}
    {wanted : List (Func × CoarseningParams)} :
    Yields (run.makeVariants shared outcome wanted) fun r => ∀ variants outcome',
      r = .ok (variants, outcome') →
        List.Forall₂ (run.Makes shared) wanted variants ∧
          outcome'.changed = (outcome.changed || !wanted.isEmpty) ∧
          outcome'.diagnostics = outcome.diagnostics := by
  induction wanted generalizing outcome with
  | nil =>
    refine .pure ?_
    rintro variants outcome' same
    obtain ⟨rfl, rfl⟩ : [] = variants ∧ outcome = outcome' := by simpa using same
    simp
  | cons entry wanted ih =>
    obtain ⟨f, v⟩ := entry
    rw [makeVariants]
    refine .ask fun answer coarsened => ?_
    split
    · exact .pure (by simp)
    · rename_i made
      refine ih.bind fun rest hrest => ?_
      split
      · exact .pure (by simp)
      · rename_i variants outcome'
        obtain ⟨makes, changed, diagnostics⟩ := hrest variants outcome' rfl
        refine .pure ?_
        rintro all outcome'' same
        obtain ⟨rfl, rfl⟩ : { made.func with name := v.symbol f.name } :: variants = all ∧
            outcome' = outcome'' := by simpa using same
        exact ⟨.cons ⟨made, coarsened, rfl⟩ makes, by simp [changed, PassOutcome.addKernel],
          diagnostics⟩

section

variable {shared : List GlobalId} {wanted : List (Func × CoarseningParams)} {variants : List Func}

theorem names_of_makes (makes : List.Forall₂ (run.Makes shared) wanted variants) :
    variants.map (·.name) = wanted.map fun (f, v) => v.symbol f.name := by
  induction makes with
  | nil => rfl
  | cons first _ ih => simp [first.name_eq, ih]

theorem isDeclaration_of_makes (makes : List.Forall₂ (run.Makes shared) wanted variants)
    (bodies : ∀ w ∈ wanted, w.1.isDeclaration = false) :
    ∀ g ∈ variants, g.isDeclaration = false := by
  induction makes with
  | nil => simp
  | cons first _ ih =>
    rw [List.forall_mem_cons] at bodies ⊢
    exact ⟨first.isDeclaration bodies.1, ih bodies.2⟩

end

/-- What a run in dynamic mode leaves: the program with variants of the selected kernels, and a
cache that is true to it. -/
theorem run_dynamic {result : Result} {outcome : PassOutcome} {catalog : VariantCatalog}
    (device : p.isDevice) (dynamic : run.settings.mode = .dynamic)
    (hc : run.settings.catalog = .ok catalog) (faithful : cache.Faithful id p)
    (h : run.run cache id p = .ok result) (ok : result.outcome = .ok outcome) :
    result.cache.Faithful id result.program ∧ ∃ (variants : List Func) (kernels : List String),
      result.program = addKernels p variants ∧
      (∀ g ∈ variants, g.isDeclaration = false) ∧
      (∀ k, k ∈ kernels ↔ run.Selects p k) ∧
      variants.map (·.name) = kernels.flatMap fun k => catalog.variants.map (·.symbol k) := by
  obtain ⟨-, kept⟩ := selected_of_faithful run faithful p.functions.zipIdx
  have usable : run.settings.error? = none := by simp [Settings.error?, dynamic, hc]
  rw [Pass.run, usable] at h
  simp only [device, if_true] at h
  unfold runDevice at h
  simp only [dynamic, hc] at h
  split at h
  · -- no kernel is selected, and the program stays as it is
    rename_i none
    obtain rfl : _ = result := by simpa [pure, Except.pure] using h
    refine ⟨kept, [], [], by simp [addKernels], by simp, fun k => ?_, by simp⟩
    rw [← mem_names_selected run faithful, List.isEmpty_iff.mp none]
    simp
  · obtain ⟨answer, made, h⟩ := bind_eq_ok_iff.mp h
    have bodies : ∀ w ∈ (run.selected cache id p p.functions.zipIdx).1.flatMap fun (f, _) =>
        catalog.variants.map (f, ·), w.1.isDeclaration = false := by
      intro w hw
      obtain ⟨⟨f, n⟩, hf, hw⟩ := List.mem_flatMap.mp hw
      obtain ⟨v, hv, rfl⟩ := List.mem_map.mp hw
      obtain ⟨-, isKernel, -⟩ := (mem_selected run faithful).mp ⟨n, hf⟩
      by_contra declaration
      simp [Program.isKernel, Func.isKernelWith, declaration] at isKernel
    split at h
    · obtain rfl : _ = result := by simpa [pure, Except.pure] using h
      simp at ok
    · rename_i variants outcome'
      obtain rfl : _ = result := by simpa [pure, Except.pure] using h
      obtain ⟨makes, -⟩ := makeVariants_spec _ made variants outcome' rfl
      refine ⟨AnnotationCache.faithful_evict, variants, _, rfl, isDeclaration_of_makes makes bodies,
        fun k => mem_names_selected run faithful, ?_⟩
      rw [names_of_makes makes]
      simp only [List.map_flatMap, List.flatMap_map, List.map_map, Function.comp_def]

end Pass

/-! ### Overloads -/

namespace KernelRegistry

/-- Launches of kernels are resolved to variants of these kernels. -/
def Right (r : KernelRegistry) (kernels : String → Prop) (catalog : VariantCatalog) : Prop :=
  ∀ k, kernels k → ∀ v ∈ catalog.variants, ∀ l l' : Launch, l.kernel = k →
    r.resolve ⟨baseName k, v⟩ l = .ok l' → l'.kernel = v.symbol k

theorem lastNamed?_append (base : String) (xs ys : List String) :
    lastNamed? base (xs ++ ys) = (lastNamed? base ys).or (lastNamed? base xs) := by
  simp [lastNamed?, List.getLast?_append]

/-- Launches get variants of the launched kernel exactly if every variant is the last kernel of
its base name, where that name is registered at all. -/
theorem right_registered_iff {kernels : String → Prop} {catalog : VariantCatalog}
    {symbols : List String} (valid : ∀ v ∈ catalog.variants, 2 ≤ v.factor ∧ 0 < v.stride) :
    (symbols.foldl register empty).Right kernels catalog ↔
      ∀ k, kernels k → ∀ v ∈ catalog.variants, ∀ s,
        lastNamed? (baseName k ++ v.suffix) symbols = some s → s = v.symbol k := by
  constructor
  · intro right k hk v hv s last
    rw [← lookup?_registered] at last
    obtain ⟨factor, stride⟩ := valid v hv
    have named : baseName k = DispatchConfig.kernel ⟨baseName k, v⟩ := rfl
    obtain ⟨l, l', hl, resolved, rfl⟩ :=
      exists_resolve (Nat.lt_of_lt_of_le (by decide) factor) stride named last
    exact right k hk v hv l l' hl resolved
  · intro right k hk v hv l l' hl resolved
    refine right k hk v hv l'.kernel ?_
    rw [← lookup?_registered]
    exact lookup?_of_resolve resolved

/-- The last symbol of a base name with a suffix, where every kernel has all its variants behind
other symbols, is that variant of a kernel with this base name. -/
theorem lastNamed?_variants {catalog : VariantCatalog} {kernels others : List String}
    (valid : ∀ v ∈ catalog.variants, 2 ≤ v.factor ∧ 0 < v.stride)
    (readable : ∀ k ∈ kernels, Readable k) {k : String} (hk : k ∈ kernels) {v : CoarseningParams}
    (hv : v ∈ catalog.variants) :
    ∃ k' ∈ kernels, baseName k' = baseName k ∧ lastNamed? (baseName k ++ v.suffix)
      (others ++ kernels.flatMap fun k => catalog.variants.map (·.symbol k)) =
        some (v.symbol k') := by
  rw [lastNamed?_append]
  cases last : lastNamed? (baseName k ++ v.suffix)
      (kernels.flatMap fun k => catalog.variants.map (·.symbol k)) with
  | none =>
    -- the variant of the kernel itself has the name
    have gone := List.getLast?_eq_none_iff.mp last
    rw [List.filter_eq_nil_iff] at gone
    have own := gone (v.symbol k)
      (List.mem_flatMap.mpr ⟨k, hk, List.mem_map.mpr ⟨v, hv, rfl⟩⟩)
    simp [v.baseName_symbol (readable k hk)] at own
  | some s =>
    obtain ⟨mem, named⟩ := List.mem_filter.mp (List.mem_of_getLast? last)
    obtain ⟨k', hk', hs⟩ := List.mem_flatMap.mp mem
    obtain ⟨v', hv', rfl⟩ := List.mem_map.mp hs
    have named : baseName k' ++ v'.suffix = baseName k ++ v.suffix := by
      rw [← v'.baseName_symbol (readable k' hk')]
      simpa using named
    obtain ⟨same, rfl⟩ := CoarseningParams.append_suffix_inj (valid v' hv').1 (valid v hv).1 named
    exact ⟨k', hk', same, rfl⟩

/-- After a run in dynamic mode, launches of the selected kernels get variants of the launched
kernel exactly if every such variant is the last registered kernel of its base name.  Where the
symbols of the selected kernels can be read, this is so exactly if kernels with one base name have
the same variants. -/
theorem right_iff {run : Pass} {cache : AnnotationCache} {id : Nat} {p : Program}
    {result : Pass.Result} {outcome : PassOutcome} {catalog : VariantCatalog}
    (device : p.isDevice) (dynamic : run.settings.mode = .dynamic)
    (hc : run.settings.catalog = .ok catalog) (faithful : cache.Faithful id p)
    (h : run.run cache id p = .ok result) (ok : result.outcome = .ok outcome) :
    ((empty.registerProgram result.cache id result.program).1.Right (run.Selects p) catalog ↔
      ∀ k, run.Selects p k → ∀ v ∈ catalog.variants, ∀ s,
        lastNamed? (baseName k ++ v.suffix)
          ((result.program.functions.filter result.program.isKernel).map (·.name)) = some s →
            s = v.symbol k) ∧
    ((∀ k, run.Selects p k → Readable k) →
      ((empty.registerProgram result.cache id result.program).1.Right (run.Selects p) catalog ↔
        ∀ k k', run.Selects p k → run.Selects p k' → baseName k = baseName k' →
          ∀ v ∈ catalog.variants, v.symbol k = v.symbol k')) := by
  have valid : ∀ v ∈ catalog.variants, 2 ≤ v.factor ∧ 0 < v.stride :=
    fun v hv => Settings.valid_of_catalog hc hv
  obtain ⟨kept, variants, kernels, shape, bodies, named, names⟩ :=
    Pass.run_dynamic device dynamic hc faithful h ok
  have registry : (empty.registerProgram result.cache id result.program).1 =
      ((result.program.functions.filter result.program.isKernel).map (·.name)).foldl register
        empty := by
    simp only [registerProgram, (AnnotationCache.kernels_of_faithful kept _).1]
  rw [registry]
  refine ⟨right_registered_iff valid, fun readable => ?_⟩
  rw [right_registered_iff valid]
  -- the variants are kernels, and they come behind all other kernels
  have marked : ∀ g ∈ variants, result.program.isKernel g := by
    intro g hg
    have annotated : (kernelKey, (1 : Int64)) ∈ result.program.properties g.name := by
      rw [shape]
      refine List.mem_map.mpr ⟨⟨g.name, kernelKey, 1⟩, List.mem_filter.mpr ⟨?_, by simp⟩, rfl⟩
      exact List.mem_append_right _ (List.mem_map.mpr ⟨g, hg, rfl⟩)
    have some : result.program.properties g.name ≠ [] := List.ne_nil_of_mem annotated
    simp [Program.isKernel, Func.isKernelWith, bodies g hg, some, annotated]
  have symbols : (result.program.functions.filter result.program.isKernel).map (·.name) =
      (p.functions.filter result.program.isKernel).map (·.name) ++
        kernels.flatMap fun k => catalog.variants.map (·.symbol k) := by
    rw [← names]
    have functions : result.program.functions = p.functions ++ variants := by rw [shape]; rfl
    rw [functions, List.filter_append, List.map_append, List.filter_eq_self.mpr marked]
  rw [symbols]
  have readable' : ∀ k ∈ kernels, Readable k := fun k hk => readable k ((named k).mp hk)
  constructor
  · intro right k k' hk hk' same v hv
    obtain ⟨last, -, -, found⟩ := lastNamed?_variants valid readable' ((named k).mpr hk) hv
    have first := right k hk v hv _ found
    rw [same] at found
    exact first.symm.trans (right k' hk' v hv _ found)
  · intro agree k hk v hv s found
    obtain ⟨last, hlast, same, found'⟩ := lastNamed?_variants valid readable' ((named k).mpr hk) hv
    obtain rfl : v.symbol last = s := by
      rw [found'] at found
      exact Option.some.inj found
    exact agree last k ((named last).mp hlast) hk same v hv

end KernelRegistry

/-- Variants are made if every kernel can be coarsened as wanted. -/
theorem Pass.exists_makeVariants {run : Pass} {shared : List GlobalId} {outcome : PassOutcome}
    {wanted : List (Func × CoarseningParams)}
    (each : ∀ w ∈ wanted, ∃ made, w.1.coarsen shared w.2 run.costs = .ok (.ok made)) :
    ∃ made, run.makeVariants shared outcome wanted = .ok (.ok made) := by
  induction wanted generalizing outcome with
  | nil => exact ⟨_, rfl⟩
  | cons w wanted ih =>
    obtain ⟨f, v⟩ := w
    obtain ⟨made, hmade⟩ := each (f, v) (by simp)
    obtain ⟨⟨variants, last⟩, hrest⟩ := @ih (outcome.addKernel f.name (v.symbol f.name) made)
      fun w hw => each w (List.mem_cons_of_mem _ hw)
    refine ⟨({ made.func with name := v.symbol f.name } :: variants, last), ?_⟩
    simp only [makeVariants, hmade, bind, Except.bind, hrest]
    rfl

/-- A kernel that does nothing. -/
def idleKernel (name : String) : Func := .assemble name [] [("entry", [⟨.ret none, .void, ""⟩])]

/-- A program with two overloads of a kernel. -/
def overloads : Program where
  name := "overloads"
  target := "nvptx64-nvidia-cuda"
  functions := [idleKernel "_Z1fi", idleKernel "_Z1fPi"]
  globals := []
  annotations := []

/-- A run that makes variants of all kernels with factor two and stride one. -/
def makeAll : Pass :=
  ⟨{ Settings.standard with mode := .dynamic, factors := [2], strides := [1] }, none⟩

def catalogAll : VariantCatalog := { VariantCatalog.standard with factors := [2], strides := [1] }

theorem catalog_makeAll : makeAll.settings.catalog = .ok catalogAll := by decide

theorem coarsen_idleKernel (name : String) {v : CoarseningParams} (hv : v ∈ catalogAll.variants) :
    (idleKernel name).coarsen [] v none = .ok (.ok ⟨idleKernel name, none, ⟨0, 0, 0, 0⟩⟩) := by
  have cases : v = ⟨.thread, .x, 2, 1⟩ ∨ v = ⟨.thread, .y, 2, 1⟩ ∨ v = ⟨.thread, .z, 2, 1⟩ ∨
      v = ⟨.block, .x, 2, 1⟩ ∨ v = ⟨.block, .y, 2, 1⟩ ∨ v = ⟨.block, .z, 2, 1⟩ := by
    simpa [catalogAll, VariantCatalog.variants, VariantCatalog.standard, Level.all, Dimension.all]
      using hv
  rcases cases with rfl | rfl | rfl | rfl | rfl | rfl
  all_goals cbv

theorem run_overloads : ∃ result outcome,
    makeAll.run .empty 0 overloads = .ok result ∧ result.outcome = .ok outcome ∧
      outcome.changed = true := by
  let kernels := [(idleKernel "_Z1fi", 0), (idleKernel "_Z1fPi", 1)]
  have each : ∀ w ∈ kernels.flatMap fun (f, _) => catalogAll.variants.map (f, ·),
      ∃ made, w.1.coarsen [] w.2 makeAll.costs = .ok (.ok made) := by
    intro w hw
    obtain ⟨⟨f, n⟩, hf, hw⟩ := List.mem_flatMap.mp hw
    obtain ⟨v, hv, rfl⟩ := List.mem_map.mp hw
    have named : f = idleKernel "_Z1fi" ∨ f = idleKernel "_Z1fPi" := by
      simp only [kernels, List.mem_cons, Prod.mk.injEq, List.not_mem_nil, or_false] at hf
      exact hf.imp And.left And.left
    rcases named with rfl | rfl
    · exact ⟨_, coarsen_idleKernel _ hv⟩
    · exact ⟨_, coarsen_idleKernel _ hv⟩
  have makes : ∃ made, makeAll.makeVariants [] .idle
      (kernels.flatMap fun (f, _) => catalogAll.variants.map (f, ·)) = .ok (.ok made) :=
    Pass.exists_makeVariants each
  obtain ⟨⟨variants, outcome⟩, made⟩ := makes
  have changed := (Pass.makeVariants_spec _ made variants outcome rfl).2.1
  have selected : makeAll.selected .empty 0 overloads overloads.functions.zipIdx =
      (kernels, (makeAll.selected .empty 0 overloads overloads.functions.zipIdx).2) := rfl
  refine ⟨⟨.ok outcome, Pass.addKernels overloads variants,
    (makeAll.selected .empty 0 overloads overloads.functions.zipIdx).2.evict 0⟩, outcome, ?_, rfl,
    changed⟩
  have device : makeAll.run .empty 0 overloads = makeAll.runDevice .empty 0 overloads := rfl
  have dynamic : makeAll.settings.mode = .dynamic := rfl
  have shared : overloads.sharedGlobals = [] := rfl
  rw [device]
  unfold Pass.runDevice
  rw [selected]
  simp only [dynamic, catalog_makeAll, shared, made]
  rfl

/-- Launches of one of two overloads get variants of the other. -/
theorem overloads_not_right : ∃ result outcome,
    makeAll.run .empty 0 overloads = .ok result ∧ result.outcome = .ok outcome ∧
      ¬ (KernelRegistry.empty.registerProgram result.cache 0 result.program).1.Right
        (makeAll.Selects overloads) catalogAll := by
  obtain ⟨result, outcome, h, ok, -⟩ := run_overloads
  refine ⟨result, outcome, h, ok, fun right => ?_⟩
  have first : makeAll.Selects overloads "_Z1fi" :=
    ⟨idleKernel "_Z1fi", by simp [overloads], rfl, rfl, rfl⟩
  have second : makeAll.Selects overloads "_Z1fPi" :=
    ⟨idleKernel "_Z1fPi", by simp [overloads], rfl, rfl, rfl⟩
  have readable : ∀ k, makeAll.Selects overloads k → Readable k := by
    rintro k ⟨f, hf, -, -, rfl⟩
    simp only [overloads, List.mem_cons, List.not_mem_nil, or_false] at hf
    rcases hf with rfl | rfl
    · exact .inl (by cbv)
    · exact .inl (by cbv)
  have named : baseName "_Z1fi" = baseName "_Z1fPi" := by cbv
  have agree := ((KernelRegistry.right_iff (by decide) rfl catalog_makeAll
    AnnotationCache.faithful_empty h ok).2 readable).mp right _ _ first second named
    ⟨.thread, .x, 2, 1⟩ (by decide)
  have one : CoarseningParams.symbol ⟨.thread, .x, 2, 1⟩ "_Z1fi" = "_Z9f_0_1_2_1i" := by cbv
  have other : CoarseningParams.symbol ⟨.thread, .x, 2, 1⟩ "_Z1fPi" = "_Z9f_0_1_2_1Pi" := by cbv
  rw [one, other] at agree
  exact absurd agree (by decide)

end KernelCoarsening
