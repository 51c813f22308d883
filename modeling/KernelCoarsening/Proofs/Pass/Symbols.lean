/-
Names in a program after a run in dynamic mode.

A run adds variants under the symbols that they get from their kernels, and does not look whether
the program has such a function already:

* `Pass.names_of_run_dynamic` — the names that a run leaves;
* `Pass.nodup_names_iff` — they are distinct exactly if no function of the program had the symbol
  of a variant, and no two selected kernels give their variants one symbol;
* `repeated_names` — variants that are already there, and a kernel whose length was counted one
  short beside one whose length was not, are added again.
-/
import KernelCoarsening.Proofs.Pass.Effect

namespace KernelCoarsening

open MangledName

namespace Pass

variable {run : Pass} {cache : AnnotationCache} {id : Nat} {p : Program}

/-- The names of the kernels that a run works on. -/
def kernelNames (run : Pass) (cache : AnnotationCache) (id : Nat) (p : Program) : List String :=
  (run.kernelsOf cache id p).map (·.1.name)

theorem kernelNames_sublist :
    (run.kernelNames cache id p).Sublist (p.functions.map (·.name)) := by
  have names : p.functions.zipIdx.map (·.1.name) = p.functions.map (·.name) := by
    rw [← Function.comp_def Func.name Prod.fst, ← List.map_map, List.zipIdx_map_fst]
  rw [← names]
  exact List.filter_sublist.map _

/-- The names of a program after a run in dynamic mode: those it had, and the symbols of the
variants of the selected kernels. -/
theorem names_of_run_dynamic {result : Result} {outcome : PassOutcome} {catalog : VariantCatalog}
    (device : p.isDevice) (dynamic : run.settings.mode = .dynamic)
    (hc : run.settings.catalog = .ok catalog) (h : run.run cache id p = .ok result)
    (ok : result.outcome = .ok outcome) :
    result.program.functions.map (·.name) = p.functions.map (·.name) ++
      (run.kernelNames cache id p).flatMap fun k => catalog.variants.map (·.symbol k) := by
  have kernels : (run.selected cache id p p.functions.zipIdx).1 = run.kernelsOf cache id p :=
    selected_eq _
  have usable : run.settings.error? = none := by simp [Settings.error?, dynamic, hc]
  rw [Pass.run, usable] at h
  simp only [device, if_true] at h
  unfold runDevice at h
  simp only [kernels, dynamic, hc] at h
  split at h
  · -- where no kernel is selected, nothing is added
    rename_i none
    obtain rfl : _ = result := by simpa [pure, Except.pure] using h
    simp [kernelNames, List.isEmpty_iff.mp none]
  · obtain ⟨answer, made, h⟩ := bind_eq_ok_iff.mp h
    split at h
    · obtain rfl : _ = result := by simpa [pure, Except.pure] using h
      simp at ok
    · rename_i variants outcome'
      obtain rfl : _ = result := by simpa [pure, Except.pure] using h
      obtain ⟨makes, -⟩ := makeVariants_spec _ made variants outcome' rfl
      have names := names_of_makes makes
      simp only [addKernels, List.map_append, names, kernelNames, List.map_flatMap,
        List.flatMap_map, List.map_map, Function.comp_def]

/-- No two of the selected kernels give variants one symbol. -/
def SymbolsApart (kernels : List String) (variants : List CoarseningParams) : Prop :=
  ∀ k ∈ kernels, ∀ k' ∈ kernels, k ≠ k' → ∀ v ∈ variants, ∀ w ∈ variants,
    v.symbol k ≠ w.symbol k'

theorem nodup_symbols_iff {kernels : List String} {variants : List CoarseningParams}
    (distinct : kernels.Nodup) (once : variants.Nodup) (valid : ∀ v ∈ variants, 2 ≤ v.factor) :
    (kernels.flatMap fun k => variants.map (·.symbol k)).Nodup ↔ SymbolsApart kernels variants := by
  -- the symbol of a variant of one kernel tells the variant
  have each : ∀ k ∈ kernels, (variants.map (·.symbol k)).Nodup := fun k _ =>
    (List.nodup_map_iff_inj_on once).mpr fun v hv w hw same =>
      CoarseningParams.symbol_inj (valid v hv) (valid w hw) same
  rw [List.nodup_flatMap, and_iff_right each]
  constructor
  · intro disjoint k hk k' hk' other v hv w hw same
    have symmetric : Std.Symm (Function.onFun List.Disjoint fun k => variants.map (·.symbol k)) :=
      ⟨fun _ _ h => List.Disjoint.symm h⟩
    exact disjoint.forall hk hk' other (List.mem_map.mpr ⟨v, hv, rfl⟩)
      (List.mem_map.mpr ⟨w, hw, same.symm⟩)
  · intro apart
    refine distinct.pairwise_of_forall_ne fun k hk k' hk' other symbol first second => ?_
    obtain ⟨v, hv, rfl⟩ := List.mem_map.mp first
    obtain ⟨w, hw, same⟩ := List.mem_map.mp second
    exact apart k hk k' hk' other v hv w hw same.symm

/-- Where symbols can be read, kernels give variants one symbol if their own symbols differ only
in a length that was counted in two ways. -/
theorem symbolsApart_iff {kernels : List String} {variants : List CoarseningParams}
    (valid : ∀ v ∈ variants, 2 ≤ v.factor) (some : variants ≠ [])
    (readable : ∀ k ∈ kernels, Readable k) :
    SymbolsApart kernels variants ↔ ∀ k ∈ kernels, ∀ k' ∈ kernels, k ≠ k' →
      ∀ m, ofChars? k.toList = .some m → ofChars? k'.toList ≠ .some m := by
  obtain ⟨v, hv⟩ := List.exists_mem_of_ne_nil _ some
  constructor
  · intro apart k hk k' hk' other m read read'
    refine apart k hk k' hk' other v hv v hv ?_
    exact (CoarseningParams.symbol_eq_symbol_iff (valid v hv) (valid v hv) (readable k hk)
      (readable k' hk')).mpr ⟨rfl, .inr ⟨m, read, read'⟩⟩
  · intro apart k hk k' hk' other v hv w hw same
    obtain ⟨-, rfl | ⟨m, read, read'⟩⟩ := (CoarseningParams.symbol_eq_symbol_iff (valid v hv)
      (valid w hw) (readable k hk) (readable k' hk')).mp same
    · exact other rfl
    · exact apart k hk k' hk' other m read read'

/-- The names of a program after a run in dynamic mode are distinct exactly if no function had the
symbol of a variant, and the selected kernels give their variants different symbols.  Where the
symbols of kernels can be read, they do so unless the symbols of two of them differ only in how the
length of the innermost identifier is written. -/
theorem nodup_names_iff {result : Result} {outcome : PassOutcome} {catalog : VariantCatalog}
    (device : p.isDevice) (dynamic : run.settings.mode = .dynamic)
    (hc : run.settings.catalog = .ok catalog) (h : run.run cache id p = .ok result)
    (ok : result.outcome = .ok outcome) (distinct : (p.functions.map (·.name)).Nodup) :
    ((result.program.functions.map (·.name)).Nodup ↔
      (∀ f ∈ p.functions, ∀ k ∈ run.kernelNames cache id p, ∀ v ∈ catalog.variants,
        f.name ≠ v.symbol k) ∧
      SymbolsApart (run.kernelNames cache id p) catalog.variants) ∧
    ((∀ k ∈ run.kernelNames cache id p, Readable k) →
      (SymbolsApart (run.kernelNames cache id p) catalog.variants ↔
        ∀ k ∈ run.kernelNames cache id p, ∀ k' ∈ run.kernelNames cache id p, k ≠ k' →
          ∀ m, ofChars? k.toList = some m → ofChars? k'.toList ≠ some m)) := by
  have valid : ∀ v ∈ catalog.variants, 2 ≤ v.factor :=
    fun v hv => (Settings.valid_of_catalog hc hv).1
  refine ⟨?_, symbolsApart_iff valid (Settings.variants_ne_nil hc)⟩
  rw [names_of_run_dynamic device dynamic hc h ok, List.nodup_append, and_iff_right distinct,
    nodup_symbols_iff (kernelNames_sublist.nodup distinct)
      (VariantCatalog.Tidy.ofLists (Settings.catalog_eq_ok hc).1).nodup_variants valid,
    and_comm]
  refine and_congr_left fun _ => ?_
  constructor
  · intro apart f hf k hk v hv
    exact apart _ (List.mem_map.mpr ⟨f, hf, rfl⟩) _
      (List.mem_flatMap.mpr ⟨k, hk, List.mem_map.mpr ⟨v, hv, rfl⟩⟩)
  · intro apart name hname symbol hsymbol
    obtain ⟨f, hf, rfl⟩ := List.mem_map.mp hname
    obtain ⟨k, hk, hsymbol⟩ := List.mem_flatMap.mp hsymbol
    obtain ⟨v, hv, rfl⟩ := List.mem_map.mp hsymbol
    exact apart f hf k hk v hv

end Pass

/-! ### Symbols that are given twice -/

/-- A program for the device with kernels that do nothing. -/
def idleProgram (names : List String) : Program where
  name := "idle"
  target := "nvptx64-nvidia-cuda"
  functions := names.map idleKernel
  globals := []
  annotations := []

/-- Variants can be made of kernels that do nothing. -/
theorem exists_run_idleProgram (names : List String) : ∃ result outcome,
    makeAll.run .empty 0 (idleProgram names) = .ok result ∧ result.outcome = .ok outcome := by
  have kernels : (makeAll.selected .empty 0 (idleProgram names)
      (idleProgram names).functions.zipIdx).1 = makeAll.kernelsOf .empty 0 (idleProgram names) :=
    Pass.selected_eq _
  have usable : makeAll.settings.error? = none := by decide
  have device : (idleProgram names).isDevice = true :=
    show (idleProgram []).isDevice = true by decide
  have dynamic : makeAll.settings.mode = .dynamic := rfl
  have shared : (idleProgram names).sharedGlobals = [] := rfl
  obtain ⟨⟨variants, outcome⟩, made⟩ : ∃ made, makeAll.makeVariants [] .idle
      (makeAll.wanted .empty 0 (idleProgram names) catalogAll) = .ok (.ok made) := by
    refine Pass.exists_makeVariants fun w hw => ?_
    obtain ⟨⟨f, n⟩, hf, hw⟩ := List.mem_flatMap.mp hw
    obtain ⟨v, hv, rfl⟩ := List.mem_map.mp hw
    obtain ⟨name, -, rfl⟩ := List.mem_map.mp (List.mem_of_getElem? (Pass.mem_kernelsOf.mp hf).1)
    exact ⟨_, coarsen_idleKernel name hv⟩
  rw [Pass.run, usable]
  simp only [device, if_true]
  unfold Pass.runDevice
  simp only [kernels, dynamic, catalog_makeAll, shared]
  split
  · exact ⟨_, _, rfl, rfl⟩
  · refine ⟨_, _, bind_eq_ok_iff.mpr ⟨_, made, rfl⟩, rfl⟩

/-- A program that has a variant of a kernel already gets it again; and two kernels of one name,
of which one is counted short, get the same variants. -/
theorem repeated_names :
    (∃ result outcome, makeAll.run .empty 0 (idleProgram ["f", "f_0_1_2_1"]) = .ok result ∧
      result.outcome = .ok outcome ∧ ¬ (result.program.functions.map (·.name)).Nodup) ∧
    (∃ result outcome, makeAll.run .empty 0 (idleProgram ["_Z7myKernelPi", "_Z8myKernelPi"]) =
      .ok result ∧ result.outcome = .ok outcome ∧
        ¬ (result.program.functions.map (·.name)).Nodup) := by
  constructor
  · obtain ⟨result, outcome, h, ok⟩ := exists_run_idleProgram ["f", "f_0_1_2_1"]
    refine ⟨result, outcome, h, ok, fun nodup => ?_⟩
    have free := ((Pass.nodup_names_iff (by decide) rfl catalog_makeAll h ok (by decide)).1.mp
      nodup).1
    refine free (idleKernel "f_0_1_2_1") (by simp [idleProgram]) "f" (by decide)
      ⟨.thread, .x, 2, 1⟩ (by decide) ?_
    cbv
  · obtain ⟨result, outcome, h, ok⟩ := exists_run_idleProgram ["_Z7myKernelPi", "_Z8myKernelPi"]
    refine ⟨result, outcome, h, ok, fun nodup => ?_⟩
    have apart := ((Pass.nodup_names_iff (by decide) rfl catalog_makeAll h ok (by decide)).1.mp
      nodup).2
    refine apart "_Z7myKernelPi" (by decide) "_Z8myKernelPi" (by decide) (by decide)
      ⟨.thread, .x, 2, 1⟩ (by decide) ⟨.thread, .x, 2, 1⟩ (by decide) ?_
    cbv

end KernelCoarsening
