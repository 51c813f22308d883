/-
What a run changes in a program.

A run that fails, finds a fault in its settings or has nothing to do leaves the program as it
was.  Otherwise what it does depends on the kind of program and on the mode:

* `Pass.Replaces` — on the device, selected kernels give way to their coarsened versions;
* `Pass.Extends` — on the device in dynamic mode, variants of them are added and marked;
* `Pass.Redirects` — on the host, launches call the dispatcher, which is declared if need be.

`Pass.run_effect` says that there is nothing else.  It holds of every cache: a kernel is what
the cache takes for one.
-/
import KernelCoarsening.Proofs.Divergence.Discovery
import KernelCoarsening.Proofs.Launch.Registry

namespace KernelCoarsening

/-! ### Caches -/

namespace AnnotationCache

variable (c : AnnotationCache) (id : Nat) (p : Program)

/-- A question does not change the answers to others. -/
theorem properties_properties (symbol other : String) :
    ((c.properties id p symbol).2.properties id p other).1 = (c.properties id p other).1 := by
  cases held : c.entries.get? (id, symbol) with
  | some found => simp [properties, held]
  | none =>
    by_cases same : symbol = other
    · subst same
      simp [properties, held]
    · cases held' : c.entries.get? (id, other) <;> simp [properties, held, held', same]

theorem isKernel_isKernel (f g : Func) :
    ((c.isKernel id p f).2.isKernel id p g).1 = (c.isKernel id p g).1 := by
  by_cases bare : f.isDeclaration
  · simp [isKernel, bare]
  · by_cases bare' : g.isDeclaration <;> simp [isKernel, bare, bare', properties_properties]

/-- What a cache takes for a kernel has a body. -/
theorem isDeclaration_of_isKernel {f : Func} (h : (c.isKernel id p f).1 = true) :
    f.isDeclaration = false := by
  by_contra bare
  rw [Bool.not_eq_false] at bare
  simp [isKernel, bare] at h

end AnnotationCache

namespace Pass

variable {run : Pass} {cache : AnnotationCache} {id : Nat} {p : Program}

/-! ### Programs for the device -/

/-- The kernels that a run works on, with their places: those that the cache takes for kernels
and that the settings select. -/
def kernelsOf (run : Pass) (cache : AnnotationCache) (id : Nat) (p : Program) : List (Func × Nat) :=
  p.functions.zipIdx.filter fun (f, _) =>
    (cache.isKernel id p f).1 && run.settings.kernel.selects f.name

theorem selected_eq (fs : List (Func × Nat)) :
    (run.selected cache id p fs).1 = fs.filter fun (f, _) =>
      (cache.isKernel id p f).1 && run.settings.kernel.selects f.name := by
  induction fs generalizing cache with
  | nil => rfl
  | cons entry fs ih =>
    obtain ⟨f, n⟩ := entry
    simp only [selected, ih, AnnotationCache.isKernel_isKernel, List.filter_cons]

theorem mem_kernelsOf {f : Func} {n : Nat} : (f, n) ∈ run.kernelsOf cache id p ↔
    p.functions[n]? = some f ∧ (cache.isKernel id p f).1 = true ∧
      run.settings.kernel.selects f.name = true := by
  simp [kernelsOf, List.mem_filter, List.mem_zipIdx_iff_getElem?]

theorem nodup_kernelsOf : ((run.kernelsOf cache id p).map (·.2)).Nodup := by
  refine List.Nodup.sublist (List.filter_sublist.map _) ?_
  rw [List.zipIdx_map_snd]
  exact List.nodup_range'

/-- The variants of the selected kernels: by kernel, then in the order of the catalog. -/
def wanted (run : Pass) (cache : AnnotationCache) (id : Nat) (p : Program)
    (catalog : VariantCatalog) : List (Func × CoarseningParams) :=
  (run.kernelsOf cache id p).flatMap fun (f, _) => catalog.variants.map (f, ·)

/-- A program in which the selected kernels have given way to their coarsened versions, which
keep their names; nothing else is different. -/
structure Replaces (run : Pass) (cache : AnnotationCache) (id : Nat) (p q : Program) : Prop where
  frame : q = { p with functions := q.functions }
  length : q.functions.length = p.functions.length
  kept : ∀ n, (∀ f, (f, n) ∉ run.kernelsOf cache id p) → q.functions[n]? = p.functions[n]?
  replaced : ∃ params, run.settings.params = .ok params ∧ ∀ f n, (f, n) ∈ run.kernelsOf cache id p →
    ∃ made, f.coarsen p.sharedGlobals params run.costs = .ok (.ok made) ∧
      made.func.name = f.name ∧ q.functions[n]? = some made.func

/-- A program with one function and one annotation for each selected kernel and each variant of
the catalog behind those it had.  The cache takes all these functions for kernels. -/
def Extends (run : Pass) (cache : AnnotationCache) (id : Nat) (p : Program) (result : Result) :
    Prop :=
  ∃ catalog variants, run.settings.catalog = .ok catalog ∧
    result.program = { p with
      functions := p.functions ++ variants
      annotations := p.annotations ++ (run.wanted cache id p catalog).map fun (f, v) =>
        ⟨v.symbol f.name, kernelKey, 1⟩ } ∧
    List.Forall₂ (run.Makes p.sharedGlobals) (run.wanted cache id p catalog) variants ∧
    ∀ g ∈ variants, (result.cache.isKernel id result.program g).1 = true

/-- Kernels are replaced at their places, one after the other, if all can be coarsened. -/
theorem replaceKernels_spec {shared : List GlobalId} {params : CoarseningParams}
    {functions : List Func} {outcome : PassOutcome} {kernels : List (Func × Nat)}
    (distinct : (kernels.map (·.2)).Nodup) (inside : ∀ k ∈ kernels, k.2 < functions.length) :
    Yields (run.replaceKernels shared params functions outcome kernels) fun r => ∀ made outcome',
      r = .ok (made, outcome') →
        made.length = functions.length ∧
        (∀ n, n ∉ kernels.map (·.2) → made[n]? = functions[n]?) ∧
        (∀ k ∈ kernels, ∃ m, k.1.coarsen shared params run.costs = .ok (.ok m) ∧
          made[k.2]? = some m.func) ∧
        outcome'.changed = (outcome.changed || !kernels.isEmpty) ∧
        outcome'.diagnostics = outcome.diagnostics := by
  induction kernels generalizing functions outcome with
  | nil =>
    intro r same made outcome' answer
    obtain rfl : .ok (functions, outcome) = r := by simpa [replaceKernels] using same
    obtain ⟨rfl, rfl⟩ : functions = made ∧ outcome = outcome' := by simpa using answer
    simp
  | cons entry kernels ih =>
    obtain ⟨f, n⟩ := entry
    rw [List.forall_mem_cons] at inside
    obtain ⟨fresh, distinct⟩ : n ∉ kernels.map (·.2) ∧ (kernels.map (·.2)).Nodup := by
      simpa using distinct
    rw [replaceKernels]
    refine .ask fun answer coarsened => ?_
    split
    · exact .pure (by simp)
    · rename_i m
      refine (ih distinct fun k hk => ?_).mono fun r spec made outcome' answer => ?_
      · rw [List.length_set]
        exact inside.2 k hk
      obtain ⟨length, kept, replaced, changed, diagnostics⟩ := spec made outcome' answer
      refine ⟨by simpa using length, fun j hj => ?_, ?_, by simp [changed, PassOutcome.addKernel],
        diagnostics⟩
      · obtain ⟨other, later⟩ : j ≠ n ∧ j ∉ kernels.map (·.2) := by simpa using hj
        rw [kept j later, List.getElem?_set_ne (Ne.symm other)]
      · rw [List.forall_mem_cons]
        refine ⟨⟨m, coarsened, ?_⟩, replaced⟩
        rw [kept n fresh, List.getElem?_set_self inside.1]

/-- A function with a body that an annotation marks is a kernel, whatever other annotations
say. -/
theorem isKernel_of_annotated {q : Program} {g : Func} (body : g.isDeclaration = false)
    (marked : ⟨g.name, kernelKey, 1⟩ ∈ q.annotations) : q.isKernel g = true := by
  have listed : (kernelKey, 1) ∈ q.properties g.name := by
    simp only [Program.properties, List.mem_map, List.mem_filter]
    exact ⟨_, ⟨marked, by simp⟩, rfl⟩
  have some : (q.properties g.name).isEmpty = false := by
    rw [List.isEmpty_eq_false_iff]
    exact List.ne_nil_of_mem listed
  simp [Program.isKernel, Func.isKernelWith, body, some, listed]

/-- The settings of a static mode are used: kernels are replaced, or the run fails. -/
theorem replaces_of_replaceKernels {params : CoarseningParams} {made : List Func}
    {outcome : PassOutcome} (hp : run.settings.params = .ok params)
    (h : run.replaceKernels p.sharedGlobals params p.functions .idle (run.kernelsOf cache id p) =
      .ok (.ok (made, outcome))) :
    run.Replaces cache id p { p with functions := made } ∧
      outcome.changed = !(run.kernelsOf cache id p).isEmpty ∧ outcome.diagnostics = [] := by
  have inside : ∀ k ∈ run.kernelsOf cache id p, k.2 < p.functions.length := by
    rintro ⟨f, n⟩ hk
    exact (List.getElem?_eq_some_iff.mp (mem_kernelsOf.mp hk).1).1
  obtain ⟨length, kept, replaced, changed, diagnostics⟩ :=
    replaceKernels_spec nodup_kernelsOf inside _ h made outcome rfl
  refine ⟨⟨rfl, length, fun n none => kept n ?_, params, hp, fun f n hk => ?_⟩,
    by simpa [PassOutcome.idle] using changed, diagnostics⟩
  · rw [List.mem_map]
    rintro ⟨⟨f, n⟩, hk, rfl⟩
    exact none f hk
  · obtain ⟨m, coarsened, there⟩ := replaced (f, n) hk
    exact ⟨m, coarsened, (Func.grows_coarsen _ coarsened m rfl).name, there⟩

/-- The catalog of dynamic mode is used: variants are added, or the run fails. -/
theorem extends_of_makeVariants {catalog : VariantCatalog} {variants : List Func}
    {outcome : PassOutcome} (hc : run.settings.catalog = .ok catalog)
    (h : run.makeVariants p.sharedGlobals .idle (run.wanted cache id p catalog) =
      .ok (.ok (variants, outcome))) (kept : AnnotationCache) :
    run.Extends cache id p ⟨.ok outcome, addKernels p variants, kept.evict id⟩ ∧
      outcome.changed = !(run.wanted cache id p catalog).isEmpty ∧ outcome.diagnostics = [] := by
  obtain ⟨makes, changed, diagnostics⟩ := makeVariants_spec _ h variants outcome rfl
  have bodies : ∀ w ∈ run.wanted cache id p catalog, w.1.isDeclaration = false := by
    intro w hw
    obtain ⟨⟨f, n⟩, hf, hw⟩ := List.mem_flatMap.mp hw
    obtain ⟨v, hv, rfl⟩ := List.mem_map.mp hw
    exact cache.isDeclaration_of_isKernel id p (mem_kernelsOf.mp hf).2.1
  have marks : variants.map (fun g => (⟨g.name, kernelKey, 1⟩ : Annotation)) =
      (run.wanted cache id p catalog).map fun (f, v) => ⟨v.symbol f.name, kernelKey, 1⟩ := by
    have names := congrArg (List.map fun symbol => (⟨symbol, kernelKey, 1⟩ : Annotation))
      (names_of_makes makes)
    simpa [Function.comp_def] using names
  refine ⟨⟨catalog, variants, hc, by rw [← marks]; rfl, makes, fun g hg => ?_⟩,
    by simpa [PassOutcome.idle] using changed, diagnostics⟩
  rw [(AnnotationCache.isKernel_of_faithful AnnotationCache.faithful_evict g).1]
  refine isKernel_of_annotated (isDeclaration_of_makes makes bodies g hg) ?_
  exact List.mem_append_right _ (List.mem_map.mpr ⟨g, hg, rfl⟩)

/-! ### Programs for the host -/

/-- An instruction is a launch: a block of the layout lists it, and it calls the launching
function. -/
def IsLaunch (f : Func) (i : InstId) : Prop :=
  (∃ b ∈ f.layout, ∃ block, f.block b = .ok block ∧ i ∈ block.insts) ∧
    ∃ args, f.operation i = .ok (.call launchSymbol args)

/-- A function in which launches call the dispatcher instead; nothing else is different. -/
structure RedirectsFunc (f g : Func) : Prop where
  frame : g = { f with insts := g.insts }
  size : g.insts.size = f.insts.size
  kept : ∀ i, ¬IsLaunch f i → g.insts[i.index]? = f.insts[i.index]?
  renamed : ∀ i inst args, IsLaunch f i → f.insts[i.index]? = some inst →
    inst.op = .call launchSymbol args →
      g.insts[i.index]? = some { inst with op := .call dispatchSymbol args }

/-- A program in which launches call the dispatcher instead, with at most one declaration more;
nothing else is different. -/
def Redirects (p q : Program) : Prop :=
  ∃ functions declared, q = { p with functions := functions ++ declared } ∧
    List.Forall₂ RedirectsFunc p.functions functions ∧ declared.length ≤ 1 ∧
    ∀ d ∈ declared, d.isDeclaration = true ∧ d.name = dispatchSymbol

section

variable {f g : Func} {i : InstId} {found : List InstId}

theorem mem_launchesAmong {is : List InstId} (h : launchesAmong f is = .ok (.ok found)) :
    i ∈ found ↔ i ∈ is ∧ ∃ args, f.operation i = .ok (.call launchSymbol args) := by
  induction is generalizing found with
  | nil =>
    obtain rfl : [] = found := by simpa [launchesAmong] using h
    simp
  | cons j is ih =>
    rw [launchesAmong, bind_eq_ok_iff] at h
    obtain ⟨op, hop, h⟩ := h
    -- an instruction that is passed over is no launch
    have skip : (∀ args, op ≠ .call launchSymbol args) → launchesAmong f is = .ok (.ok found) →
        (i ∈ found ↔ i ∈ j :: is ∧ ∃ args, f.operation i = .ok (.call launchSymbol args)) := by
      intro other rest
      rw [ih rest, List.mem_cons]
      constructor
      · rintro ⟨hi, launch⟩
        exact ⟨.inr hi, launch⟩
      · rintro ⟨rfl | hi, args, launch⟩
        · exact absurd (by simpa [hop] using launch) (other args)
        · exact ⟨hi, args, launch⟩
    split at h
    · rename_i callee args
      split at h
      · rename_i other
        exact skip (by simp [other]) h
      · rename_i same
        obtain rfl : callee = launchSymbol := by simpa using same
        split at h
        · simp [pure, Except.pure] at h
        · obtain ⟨answer, rest, h⟩ := bind_eq_ok_iff.mp h
          cases answer with
          | error e => simp [pure, Except.pure, Except.map] at h
          | ok more =>
            obtain rfl : j :: more = found := by simpa [pure, Except.pure, Except.map] using h
            rw [List.mem_cons, ih rest, List.mem_cons]
            constructor
            · rintro (rfl | ⟨hi, launch⟩)
              · exact ⟨.inl rfl, args, hop⟩
              · exact ⟨.inr hi, launch⟩
            · rintro ⟨rfl | hi, launch⟩
              · exact .inl rfl
              · exact .inr ⟨hi, launch⟩
    · rename_i other
      exact skip (other _) h

theorem mem_launchesOfBlocks {bs : List BlockId} (h : launchesOfBlocks f bs = .ok (.ok found)) :
    i ∈ found ↔ (∃ b ∈ bs, ∃ block, f.block b = .ok block ∧ i ∈ block.insts) ∧
      ∃ args, f.operation i = .ok (.call launchSymbol args) := by
  induction bs generalizing found with
  | nil =>
    obtain rfl : [] = found := by simpa [launchesOfBlocks] using h
    simp
  | cons b bs ih =>
    rw [launchesOfBlocks, bind_eq_ok_iff] at h
    obtain ⟨block, hblock, h⟩ := h
    obtain ⟨first, hfirst, h⟩ := bind_eq_ok_iff.mp h
    split at h
    · simp [pure, Except.pure] at h
    · obtain ⟨answer, rest, h⟩ := bind_eq_ok_iff.mp h
      cases answer with
      | error e => simp [pure, Except.pure, Except.map] at h
      | ok more =>
        obtain rfl : _ ++ more = found := by simpa [pure, Except.pure, Except.map] using h
        rw [List.mem_append, mem_launchesAmong hfirst, ih rest, List.exists_mem_cons_iff]
        simp only [hblock, Except.ok.injEq, exists_eq_left']
        tauto

/-- Launches are sent through the dispatcher one after the other; to do so twice is to do it
once. -/
theorem redirect_spec {launches : List InstId} (h : redirect f launches = .ok g) :
    g = { f with insts := g.insts } ∧ g.insts.size = f.insts.size ∧
      ∀ i : InstId, g.insts[i.index]? = if i ∈ launches then
        f.insts[i.index]?.map fun inst => { inst with op := renameCallee dispatchSymbol inst.op }
        else f.insts[i.index]? := by
  induction launches generalizing f with
  | nil =>
    obtain rfl : f = g := by simpa [redirect, pure, Except.pure] using h
    simp
  | cons j launches ih =>
    rw [redirect, List.foldlM_cons, bind_eq_ok_iff] at h
    obtain ⟨f', h', h⟩ := h
    obtain ⟨frame, size, insts⟩ := ih h
    rw [Func.modifyOperation, Func.modifyInst, bind_eq_ok_iff] at h'
    obtain ⟨inst, hinst, h'⟩ := h'
    obtain rfl : _ = f' := by simpa [pure, Except.pure] using h'
    rw [Func.inst_eq_ok_iff] at hinst
    have inside : j.index < f.insts.size := (Array.getElem?_eq_some_iff.mp hinst).1
    refine ⟨frame, by simpa using size, fun i => ?_⟩
    rw [insts i]
    by_cases same : i = j
    · subst same
      have twice : renameCallee dispatchSymbol (renameCallee dispatchSymbol inst.op) =
          renameCallee dispatchSymbol inst.op := by
        cases inst.op <;> rfl
      simp only [Array.getElem?_setIfInBounds_self_of_lt inside, hinst, Option.map_some, twice,
        ite_self, List.mem_cons_self, if_true]
    · have other : j.index ≠ i.index := by
        rintro index
        cases i
        cases j
        exact same (congrArg InstId.mk index.symm)
      simp only [Array.getElem?_setIfInBounds_ne other, List.mem_cons, same, false_or]

theorem redirectsFunc_of_redirect (found : launchesOfBlocks f f.layout = .ok (.ok launches))
    (h : redirect f launches = .ok g) : RedirectsFunc f g := by
  obtain ⟨frame, size, insts⟩ := redirect_spec h
  have listed : ∀ i, i ∈ launches ↔ IsLaunch f i := fun i => mem_launchesOfBlocks found
  refine ⟨frame, size, fun i none => ?_, fun i inst args launch hi hop => ?_⟩
  · rw [insts i, if_neg ((listed i).not.mpr none)]
  · rw [insts i, if_pos ((listed i).mpr launch), hi]
    simp [hop, renameCallee]

end

theorem launchesOf_spec {fs : List Func} {found : List (Func × List InstId)}
    (h : launchesOf fs = .ok (.ok found)) :
    List.Forall₂ (fun f entry => entry.1 = f ∧ launchesOfBlocks f f.layout = .ok (.ok entry.2))
      fs found := by
  induction fs generalizing found with
  | nil =>
    obtain rfl : [] = found := by simpa [launchesOf] using h
    exact .nil
  | cons f fs ih =>
    rw [launchesOf, bind_eq_ok_iff] at h
    obtain ⟨answer, first, h⟩ := h
    split at h
    · simp [pure, Except.pure] at h
    · obtain ⟨answer, rest, h⟩ := bind_eq_ok_iff.mp h
      cases answer with
      | error e => simp [pure, Except.pure, Except.map] at h
      | ok more =>
        obtain rfl : _ :: more = found := by simpa [pure, Except.pure, Except.map] using h
        exact .cons ⟨rfl, first⟩ (ih rest)

theorem forall₂_redirectsFunc {fs gs : List Func} {found : List (Func × List InstId)}
    (listed : launchesOf fs = .ok (.ok found))
    (made : found.mapM (fun (f, calls) => redirect f calls) = .ok gs) :
    List.Forall₂ RedirectsFunc fs gs := by
  have first := launchesOf_spec listed
  have second := mapM_eq_ok_iff.mp made
  clear listed made
  induction first generalizing gs with
  | nil =>
    cases second
    exact .nil
  | cons entry _ ih =>
    cases second with
    | cons redirected rest =>
      obtain ⟨rfl, calls⟩ := entry
      exact .cons (redirectsFunc_of_redirect calls redirected) (ih rest)

/-- The dispatcher is declared as the launching function is, if it was not there. -/
theorem declareDispatcher_spec (p : Program) :
    ∃ declared, declareDispatcher p = { p with functions := p.functions ++ declared } ∧
      (declared = [] ∨ p.function? dispatchSymbol = none ∧
        ∃ launch, p.function? launchSymbol = some launch ∧
          declared = [Func.empty dispatchSymbol launch.params launch.returnTy]) := by
  unfold declareDispatcher
  split
  · rename_i launch none there
    exact ⟨_, rfl, .inr ⟨none, launch, there, rfl⟩⟩
  · exact ⟨[], by simp, .inl rfl⟩

/-- What a run leaves of a program for the host. -/
theorem runHost_effect {outcome : PassOutcome} {q : Program}
    (h : run.runHost p = .ok (outcome, q)) :
    outcome.changed = false ∧ q = p ∨
      outcome.changed = true ∧ outcome.diagnostics = [] ∧ Redirects p q := by
  rw [runHost, bind_eq_ok_iff] at h
  obtain ⟨answer, found, h⟩ := h
  split at h
  · obtain ⟨rfl, rfl⟩ : _ = outcome ∧ p = q := by simpa [pure, Except.pure] using h
    exact .inl ⟨rfl, rfl⟩
  · rename_i entries
    dsimp only at h
    split at h
    · obtain ⟨rfl, rfl⟩ : _ = outcome ∧ p = q := by simpa [pure, Except.pure] using h
      exact .inl ⟨rfl, rfl⟩
    · split at h
      · obtain ⟨rfl, rfl⟩ : _ = outcome ∧ p = q := by simpa [pure, Except.pure] using h
        exact .inl ⟨rfl, rfl⟩
      · obtain ⟨functions, made, h⟩ := bind_eq_ok_iff.mp h
        obtain ⟨rfl, rfl⟩ : _ = outcome ∧ _ = q := by simpa [pure, Except.pure] using h
        obtain ⟨declared, same, bare⟩ := declareDispatcher_spec { p with functions }
        refine .inr ⟨rfl, rfl, functions, declared, same, forall₂_redirectsFunc found made, ?_⟩
        rcases bare with rfl | ⟨-, launch, -, rfl⟩
        · simp
        · simp [Func.empty, Func.isDeclaration]

/-! ### All or nothing -/

/-- A run leaves a program as it was, unless it says that it has changed it; then it has made a
certain change.  A run that reports a fault in its settings has changed nothing. -/
structure AllOrNothing (p : Program) (result : Result) (change : Prop) : Prop where
  failed : ∀ e, result.outcome = .error e → result.program = p
  rejected : ∀ outcome, result.outcome = .ok outcome → outcome.diagnostics ≠ [] →
    outcome.changed = false
  unchanged : ∀ outcome, result.outcome = .ok outcome → outcome.changed = false → result.program = p
  changed : ∀ outcome, result.outcome = .ok outcome → outcome.changed = true → change

theorem AllOrNothing.nothing {result : Result} {change : Prop} (same : result.program = p)
    (still : ∀ outcome, result.outcome = .ok outcome → outcome.changed = false) :
    AllOrNothing p result change where
  failed _ _ := same
  rejected outcome h _ := still outcome h
  unchanged _ _ _ := same
  changed outcome h changed := by simp [still outcome h] at changed

theorem AllOrNothing.all {result : Result} {change : Prop} {outcome : PassOutcome}
    (ok : result.outcome = .ok outcome) (made : outcome.changed = true)
    (fine : outcome.diagnostics = []) (h : change) : AllOrNothing p result change where
  failed e he := by simp [ok] at he
  rejected outcome' h' some := by
    obtain rfl : outcome = outcome' := by simpa [ok] using h'
    exact absurd fine some
  unchanged outcome' h' still := by
    obtain rfl : outcome = outcome' := by simpa [ok] using h'
    simp [made] at still
  changed _ _ _ := h

/-- What a run leaves of a program for the device. -/
theorem runDevice_effect {result : Result} (h : run.runDevice cache id p = .ok result) :
    AllOrNothing p result (if run.settings.mode = .dynamic then run.Extends cache id p result
      else run.Replaces cache id p result.program) := by
  have kernels : (run.selected cache id p p.functions.zipIdx).1 = run.kernelsOf cache id p :=
    selected_eq _
  unfold runDevice at h
  simp only [kernels] at h
  split at h
  · obtain rfl : _ = result := by simpa [pure, Except.pure] using h
    exact .nothing rfl (by simp [PassOutcome.idle])
  · -- there are kernels, so in a static mode there is a change unless the run fails
    rename_i some
    split at h
    · rename_i dynamic
      rw [if_pos dynamic]
      split at h
      · obtain rfl : _ = result := by simpa [pure, Except.pure] using h
        exact .nothing rfl (by simp [PassOutcome.rejected, PassOutcome.idle])
      · rename_i catalog hc
        obtain ⟨answer, made, h⟩ := bind_eq_ok_iff.mp h
        change run.makeVariants _ _ (run.wanted cache id p catalog) = _ at made
        split at h
        · obtain rfl : _ = result := by simpa [pure, Except.pure] using h
          exact .nothing rfl (by simp)
        · rename_i variants outcome
          obtain rfl : _ = result := by simpa [pure, Except.pure] using h
          obtain ⟨extended, changed, fine⟩ := extends_of_makeVariants hc made
            (run.selected cache id p p.functions.zipIdx).2
          -- an empty catalog adds nothing, and the run does not claim a change
          by_cases none : run.wanted cache id p catalog = []
          · obtain rfl : variants = [] := by
              have makes := (makeVariants_spec _ made variants outcome rfl).1
              rwa [none, List.forall₂_nil_left_iff] at makes
            exact .nothing (by simp [addKernels]) (by simp [changed, none])
          · exact .all rfl (by simp [changed, none]) fine extended
    · rename_i static
      rw [if_neg static]
      split at h
      · obtain rfl : _ = result := by simpa [pure, Except.pure] using h
        exact .nothing rfl (by simp [PassOutcome.rejected, PassOutcome.idle])
      · rename_i params hp
        obtain ⟨answer, made, h⟩ := bind_eq_ok_iff.mp h
        split at h
        · obtain rfl : _ = result := by simpa [pure, Except.pure] using h
          exact .nothing rfl (by simp)
        · rename_i functions outcome
          obtain rfl : _ = result := by simpa [pure, Except.pure] using h
          obtain ⟨replaced, changed, fine⟩ := replaces_of_replaceKernels hp made
          exact .all rfl (by simp [changed, some]) fine replaced

/-- A run is all or nothing.  What it changes in a program for the device are the selected
kernels, or what stands behind all that was there; in a program for the host, launches and at
most one declaration. -/
theorem run_effect {result : Result} (h : run.run cache id p = .ok result) :
    AllOrNothing p result (
      if p.isDevice then
        if run.settings.mode = .dynamic then run.Extends cache id p result
        else run.Replaces cache id p result.program
      else Redirects p result.program) := by
  unfold Pass.run at h
  split at h
  · obtain rfl : _ = result := by simpa [pure, Except.pure] using h
    exact .nothing rfl (by simp [PassOutcome.rejected, PassOutcome.idle])
  · split at h
    · rename_i device
      rw [if_pos device]
      exact runDevice_effect h
    · rename_i host
      rw [if_neg host]
      obtain ⟨⟨outcome, q⟩, ran, h⟩ := bind_eq_ok_iff.mp h
      obtain rfl : _ = result := by simpa [pure, Except.pure] using h
      rcases runHost_effect ran with ⟨still, rfl⟩ | ⟨changed, fine, redirected⟩
      · exact .nothing rfl (by simp [still])
      · exact .all rfl changed fine redirected

end Pass

/-- A kernel whose threads store to their own words. -/
def marker : Func := .assemble "marker" [⟨"out", .ptr .global⟩] [("entry", [
  ⟨.call "llvm.nvvm.read.ptx.sreg.tid.x" [], .i32, "t"⟩,
  ⟨.element (.arg 0) (.inst ⟨0⟩), .ptr .global, "p"⟩,
  ⟨.store (.inst ⟨1⟩) (.const 7), .void, ""⟩,
  ⟨.ret none, .void, ""⟩])]

/-- What coarsening makes of it if pairs of threads are merged. -/
def markerMerged : Func where
  name := "marker"
  params := [⟨"out", .ptr .global⟩]
  returnTy := .void
  convention := .kernel
  blocks := #[⟨"entry", [⟨0⟩, ⟨4⟩, ⟨5⟩, ⟨6⟩, ⟨7⟩, ⟨8⟩, ⟨1⟩, ⟨9⟩, ⟨2⟩, ⟨10⟩, ⟨3⟩]⟩]
  layout := [⟨0⟩]
  insts := #[
    ⟨.call "llvm.nvvm.read.ptx.sreg.tid.x" [], .i32, "t", some ⟨0⟩⟩,
    ⟨.element (.arg 0) (.inst ⟨7⟩), .ptr .global, "p", some ⟨0⟩⟩,
    ⟨.store (.inst ⟨1⟩) (.const 7), .void, "", some ⟨0⟩⟩,
    ⟨.ret none, .void, "", some ⟨0⟩⟩,
    ⟨.binary .udiv (.inst ⟨0⟩) (.const 1), .i32, "t.div", some ⟨0⟩⟩,
    ⟨.binary .mul (.inst ⟨4⟩) (.const 2), .i32, "t.mul", some ⟨0⟩⟩,
    ⟨.binary .urem (.inst ⟨0⟩) (.const 1), .i32, "t.rem", some ⟨0⟩⟩,
    ⟨.binary .add (.inst ⟨5⟩) (.inst ⟨6⟩), .i32, "t.base", some ⟨0⟩⟩,
    ⟨.binary .add (.inst ⟨7⟩) (.const 1), .i32, "t.cf2", some ⟨0⟩⟩,
    ⟨.element (.arg 0) (.inst ⟨8⟩), .ptr .global, "p.cf2", some ⟨0⟩⟩,
    ⟨.store (.inst ⟨9⟩) (.const 7), .void, "", some ⟨0⟩⟩]

/-- What the analysis finds in the kernel. -/
def markerFound : DivergentFunc where
  func := marker
  flow := .ofOneBlock
  grid := ⟨[(⟨0⟩, .threadId, .x)], []⟩
  divergence :=
    { level := .thread
      dim := .x
      set := [⟨2⟩, ⟨1⟩, ⟨0⟩]
      placed := [(⟨0⟩, ⟨0⟩), (⟨1⟩, ⟨0⟩), (⟨2⟩, ⟨0⟩)]
      branches := []
      regions := []
      reads := [⟨0⟩] }

theorem analyze_marker : marker.analyze (.only .x) [] .thread .x = .ok (.ok markerFound) :=
  Func.analyze_eq_ok_iff.mpr ⟨by cbv, by rfl, by cbv, rfl⟩

theorem coarsen_marker : marker.coarsen [] ⟨.thread, .x, 2, 1⟩ none =
    .ok (.ok ⟨markerMerged, none, ⟨2, 0, 0, 0⟩⟩) := by
  have normalized : marker.normalize [] ⟨.thread, .x, 2, 1⟩ = .ok (.ok markerFound) :=
    Func.normalize_of_regions rfl analyze_marker
  simp only [Func.coarsen, normalized, bind, Except.bind, pure, Except.pure]
  cbv

/-- A program for the device with two kernels. -/
def markers (kernel : Func) : Program where
  name := "markers"
  target := "nvptx64-nvidia-cuda"
  functions := [idleKernel "idle", kernel]
  globals := []
  annotations := []

/-- A run that merges pairs of threads of one of them. -/
def mergeMarker : Pass := ⟨{ Settings.standard with kernel := .named "marker" }, none⟩

theorem run_mergeMarker : ∃ result, mergeMarker.run .empty 0 (markers marker) = .ok result ∧
    result.outcome = .ok ⟨true, [⟨"marker", "marker", ⟨2, 0, 0, 0⟩⟩], [], 0, 0, []⟩ ∧
    result.program = markers markerMerged := by
  have selected : mergeMarker.selected .empty 0 (markers marker)
      (markers marker).functions.zipIdx = ([(marker, 1)], (mergeMarker.selected .empty 0
        (markers marker) (markers marker).functions.zipIdx).2) := rfl
  have replaced : mergeMarker.replaceKernels [] ⟨.thread, .x, 2, 1⟩ (markers marker).functions .idle
      [(marker, 1)] = .ok (.ok ((markers markerMerged).functions,
        ⟨true, [⟨"marker", "marker", ⟨2, 0, 0, 0⟩⟩], [], 0, 0, []⟩)) := by
    have costs : mergeMarker.costs = none := rfl
    simp only [Pass.replaceKernels, costs, coarsen_marker, bind, Except.bind]
    rfl
  have device : mergeMarker.run .empty 0 (markers marker) =
    mergeMarker.runDevice .empty 0 (markers marker) := rfl
  have static : mergeMarker.settings.mode = .thread := rfl
  have params : mergeMarker.settings.params = .ok ⟨.thread, .x, 2, 1⟩ := rfl
  have shared : (markers marker).sharedGlobals = [] := rfl
  refine ⟨⟨.ok _, markers markerMerged, (mergeMarker.selected .empty 0 (markers marker)
    (markers marker).functions.zipIdx).2⟩, ?_, rfl, rfl⟩
  rw [device]
  unfold Pass.runDevice
  rw [selected]
  simp only [static, params, shared, replaced]
  rfl

/-- A program for the host that launches a kernel through a function. -/
def launcher (callee : String) (declared : List Func) : Program where
  name := "launcher"
  target := "x86_64-unknown-linux-gnu"
  functions := [.assemble "main" [] [("entry", [
    ⟨.call callee [.const 0, .const 1, .const 32, .undef, .const 0, .undef], .i32, "status"⟩,
    ⟨.ret none, .void, ""⟩])]] ++ declared
  globals := []
  annotations := []

/-- On the device a kernel is replaced, or variants of kernels are added; on the host a launch is
sent through the dispatcher, which is declared for it. -/
theorem run_changes_programs :
    (∃ result, mergeMarker.run .empty 0 (markers marker) = .ok result ∧
      result.outcome = .ok ⟨true, [⟨"marker", "marker", ⟨2, 0, 0, 0⟩⟩], [], 0, 0, []⟩ ∧
      result.program = markers markerMerged ∧
      mergeMarker.Replaces .empty 0 (markers marker) (markers markerMerged)) ∧
    (∃ result outcome, makeAll.run .empty 0 overloads = .ok result ∧
      result.outcome = .ok outcome ∧ outcome.changed = true ∧
      makeAll.Extends .empty 0 overloads result) ∧
    makeAll.run .empty 0 (launcher launchSymbol [.empty launchSymbol [] .i32]) =
        .ok ⟨.ok ⟨true, [], [], 1, 1, []⟩, launcher dispatchSymbol
          [.empty launchSymbol [] .i32, .empty dispatchSymbol [] .i32], .empty⟩ ∧
      Pass.Redirects (launcher launchSymbol [.empty launchSymbol [] .i32])
        (launcher dispatchSymbol [.empty launchSymbol [] .i32, .empty dispatchSymbol [] .i32]) := by
  refine ⟨?_, ?_, ?_⟩
  · obtain ⟨result, ran, ok, same⟩ := run_mergeMarker
    have replaces := (Pass.run_effect ran).changed _ ok rfl
    rw [same] at replaces
    exact ⟨result, ran, ok, same, replaces⟩
  · obtain ⟨result, outcome, ran, ok, changed⟩ := run_overloads
    have extends' := (Pass.run_effect ran).changed outcome ok changed
    exact ⟨result, outcome, ran, ok, changed, extends'⟩
  · have usable : makeAll.settings.error? = none := by decide
    have host : (launcher launchSymbol [.empty launchSymbol [] .i32]).isDevice = false := by decide
    have ran : makeAll.runHost (launcher launchSymbol [.empty launchSymbol [] .i32]) =
        .ok (⟨true, [], [], 1, 1, []⟩, launcher dispatchSymbol
          [.empty launchSymbol [] .i32, .empty dispatchSymbol [] .i32]) := by rfl
    have ran : makeAll.run .empty 0 (launcher launchSymbol [.empty launchSymbol [] .i32]) =
        .ok ⟨.ok ⟨true, [], [], 1, 1, []⟩, launcher dispatchSymbol
          [.empty launchSymbol [] .i32, .empty dispatchSymbol [] .i32], .empty⟩ := by
      rw [Pass.run, usable, host, ran]
      rfl
    have changed := (Pass.run_effect ran).changed _ rfl rfl
    rw [host] at changed
    exact ⟨ran, changed⟩

end KernelCoarsening
