/-
Launches and the dispatcher.

In dynamic mode a run sends the launches of a program for the host through the dispatcher.  It
lists them first, function by function, and then changes what it has listed:

* `Pass.exists_launchesOf` — if functions are consistent and launches have their arguments, all
  launches are listed, each once, and can be changed;
* `Pass.RedirectsFunc.consistent`, `Pass.RedirectsFunc.not_isLaunch` — a function without launches
  is left, as consistent as before;
* `Pass.run_of_not_isLaunch` — a program without launches is left as it is;
* `Pass.run_redirects` — a run redirects every launch, and has then nothing to do.
-/
import KernelCoarsening.Proofs.Ir.EditSequences
import KernelCoarsening.Proofs.Pass.Effect

namespace KernelCoarsening

namespace Pass

variable {f g : Func} {i : InstId} {fs gs : List Func}

/-! ### Launches -/

/-- The launches of a function have the arguments that a launch has. -/
def LaunchesFit (f : Func) : Prop :=
  ∀ i args, IsLaunch f i → f.operation i = .ok (.call launchSymbol args) → args.length = launchArity

/-- The number of launches in functions. -/
noncomputable def launchCount (fs : List Func) : Nat :=
  (fs.map fun f => {i | IsLaunch f i}.ncard).sum

/-- In a consistent function a launch is a placed call of the launching function. -/
theorem isLaunch_iff (consistent : f.Consistent) :
    IsLaunch f i ↔ i ∈ f.layout.flatMap f.code ∧
      ∃ args, f.operation i = .ok (.call launchSymbol args) := by
  refine and_congr_left fun _ => ?_
  rw [List.mem_flatMap]
  refine exists_congr fun b => and_congr_right fun hb => ?_
  obtain ⟨block, hblock, insts⟩ := Func.exists_block ((consistent.mem_layout b).mp hb)
  simp [hblock, insts]

/-! ### The list of launches -/

/-- Instructions are looked through to the end if launches have their arguments. -/
theorem exists_launchesAmong {is : List InstId} (inside : ∀ i ∈ is, i.index < f.insts.size)
    (fit : ∀ i ∈ is, ∀ args, f.operation i = .ok (.call launchSymbol args) →
      args.length = launchArity) :
    ∃ found, launchesAmong f is = .ok (.ok found) ∧ found.Sublist is := by
  induction is with
  | nil => exact ⟨[], rfl, .slnil⟩
  | cons j is ih =>
    obtain ⟨found, rest, sublist⟩ := ih (fun i hi => inside i (List.mem_cons_of_mem _ hi))
      fun i hi => fit i (List.mem_cons_of_mem _ hi)
    obtain ⟨inst, hinst⟩ := Func.exists_inst (inside j (by simp))
    have hop : f.operation j = .ok inst.op := by rw [Func.operation, hinst]; rfl
    by_cases launch : ∃ args, inst.op = .call launchSymbol args
    · obtain ⟨args, call⟩ := launch
      rw [call] at hop
      refine ⟨j :: found, ?_, sublist.cons_cons j⟩
      simp [launchesAmong, hop, rest, fit j (by simp) args hop, bind, Except.bind, pure,
        Except.pure, Except.map]
    · refine ⟨found, ?_, sublist.cons j⟩
      rw [launchesAmong, hop]
      cases call : inst.op with
      | call callee args =>
        have other : callee ≠ launchSymbol := fun same => launch ⟨args, same ▸ call⟩
        simpa [bind, Except.bind, other] using rest
      | _ => exact rest

theorem exists_launchesOfBlocks {bs : List BlockId} (slots : ∀ b ∈ bs, b.index < f.blocks.size)
    (inside : ∀ i ∈ bs.flatMap f.code, i.index < f.insts.size)
    (fit : ∀ i ∈ bs.flatMap f.code, ∀ args, f.operation i = .ok (.call launchSymbol args) →
      args.length = launchArity) :
    ∃ found, launchesOfBlocks f bs = .ok (.ok found) ∧ found.Sublist (bs.flatMap f.code) := by
  induction bs with
  | nil => exact ⟨[], rfl, .slnil⟩
  | cons b bs ih =>
    simp only [List.forall_mem_cons, List.flatMap_cons, List.mem_append, or_imp, forall_and] at *
    obtain ⟨block, hblock, insts⟩ := Func.exists_block slots.1
    obtain ⟨first, hfirst, sublist⟩ := exists_launchesAmong inside.1 fit.1
    obtain ⟨found, rest, sublist'⟩ := ih slots.2 inside.2 fit.2
    refine ⟨first ++ found, ?_, sublist.append sublist'⟩
    simp [launchesOfBlocks, hblock, insts, hfirst, rest, bind, Except.bind, pure, Except.pure,
      Except.map]

/-- The launches of a consistent function are listed, each once. -/
theorem exists_launches (consistent : f.Consistent) (fit : LaunchesFit f) :
    ∃ found, launchesOfBlocks f f.layout = .ok (.ok found) ∧ found.Nodup ∧
      ∀ i, i ∈ found ↔ IsLaunch f i := by
  have slots : ∀ b ∈ f.layout, b.index < f.blocks.size := fun b hb => (consistent.mem_layout b).mp hb
  have inside : ∀ i ∈ f.layout.flatMap f.code, i.index < f.insts.size := fun i hi => by
    obtain ⟨b, -, mem⟩ := List.mem_flatMap.mp hi
    exact consistent.lt_of_mem_code mem
  obtain ⟨found, listed, sublist⟩ := exists_launchesOfBlocks slots inside fun i hi args call =>
    fit i args ((isLaunch_iff consistent).mpr ⟨hi, args, call⟩) call
  exact ⟨found, listed,
    sublist.nodup (Func.nodup_flatMap_code consistent consistent.layout_nodup),
    fun i => mem_launchesOfBlocks listed⟩

/-- The launches of consistent functions are listed, as many as there are, and can be sent through
the dispatcher. -/
theorem exists_launchesOf (consistent : ∀ f ∈ fs, f.Consistent) (fit : ∀ f ∈ fs, LaunchesFit f) :
    ∃ found gs, launchesOf fs = .ok (.ok found) ∧
      (found.flatMap (·.2)).length = launchCount fs ∧
      found.mapM (fun (f, calls) => redirect f calls) = .ok gs := by
  induction fs with
  | nil => exact ⟨[], [], rfl, rfl, rfl⟩
  | cons f fs ih =>
    rw [List.forall_mem_cons] at consistent fit
    obtain ⟨first, listed, nodup, mem⟩ := exists_launches consistent.1 fit.1
    obtain ⟨found, gs, rest, count, made⟩ := ih consistent.2 fit.2
    obtain ⟨g, redirected, -⟩ := Func.alter_foldlM (f := f) (k := renameCallee dispatchSymbol)
      (fun op => by cases op <;> rfl) first fun i hi => by
        obtain ⟨mem, -⟩ := (isLaunch_iff consistent.1).mp ((mem i).mp hi)
        obtain ⟨b, -, mem⟩ := List.mem_flatMap.mp mem
        exact consistent.1.lt_of_mem_code mem
    have size : first.length = {i | IsLaunch f i}.ncard := by
      have same : {i | IsLaunch f i} = (first.toFinset : Set InstId) := by
        ext i
        simp [mem]
      rw [same, Set.ncard_coe_finset, List.toFinset_card_of_nodup nodup]
    refine ⟨(f, first) :: found, g :: gs, ?_, ?_, ?_⟩
    · simp [launchesOf, listed, rest, bind, Except.bind, pure, Except.pure, Except.map]
    · rw [List.flatMap_cons, List.length_append, count, size]
      rfl
    · exact mapM_eq_ok_iff.mpr (.cons redirected (mapM_eq_ok_iff.mp made))

/-! ### Functions without launches -/

/-- A function without launches is what is left of it. -/
theorem RedirectsFunc.of_not_isLaunch (none : ∀ i, ¬IsLaunch f i) : RedirectsFunc f f where
  frame := rfl
  size := rfl
  kept _ _ := rfl
  renamed i _ _ launch := absurd launch (none i)

namespace RedirectsFunc

theorem layout (h : RedirectsFunc f g) : g.layout = f.layout := by
  rw [h.frame]

theorem blocks (h : RedirectsFunc f g) : g.blocks = f.blocks := by
  rw [h.frame]

theorem params (h : RedirectsFunc f g) : g.params = f.params := by
  rw [h.frame]

theorem returnTy (h : RedirectsFunc f g) : g.returnTy = f.returnTy := by
  rw [h.frame]

theorem name (h : RedirectsFunc f g) : g.name = f.name := by
  rw [h.frame]

/-- The slot of an instruction is as it was, or it holds a launch that calls the dispatcher. -/
theorem slot (h : RedirectsFunc f g) (i : InstId) :
    ¬IsLaunch f i ∧ g.insts[i.index]? = f.insts[i.index]? ∨
      ∃ inst args, f.insts[i.index]? = some inst ∧
        g.insts[i.index]? = some { inst with op := .call dispatchSymbol args } := by
  by_cases launch : IsLaunch f i
  · obtain ⟨args, call⟩ := launch.2
    obtain ⟨inst, hinst, op⟩ := map_eq_ok_iff.mp call
    have held := Func.inst_eq_ok_iff.mp hinst
    exact .inr ⟨inst, args, held, h.renamed i inst args launch held op⟩
  · exact .inl ⟨launch, h.kept i launch⟩

theorem blockOf (h : RedirectsFunc f g) (i : InstId) : g.blockOf i = f.blockOf i := by
  rcases h.slot i with ⟨-, same⟩ | ⟨inst, args, held, held'⟩
  · rw [Func.blockOf, Func.blockOf, same]
  · simp [Func.blockOf, held, held']

theorem consistent (h : RedirectsFunc f g) (consistent : f.Consistent) : g.Consistent := by
  obtain ⟨nodup, layout, code, home⟩ := Func.consistent_iff.mp consistent
  have same : g.outline = { f.outline with line := g.line } := by
    ext1
    · exact h.params
    · exact h.layout
    · exact congrArg Array.size h.blocks
    · exact h.size
    · exact funext fun b => by simp only [Func.outline, Func.code, h.blocks]
    · rfl
    · exact funext h.blockOf
  exact Func.consistent_iff.mpr (same ▸ ⟨nodup, layout, code, home⟩)

/-- What called the launching function calls the dispatcher, and there is nothing else that would
call it. -/
theorem not_isLaunch (h : RedirectsFunc f g) (i : InstId) : ¬IsLaunch g i := by
  rintro ⟨⟨b, hb, block, hblock, mem⟩, args, call⟩
  obtain ⟨inst, hinst, op⟩ := map_eq_ok_iff.mp call
  have held := Func.inst_eq_ok_iff.mp hinst
  rcases h.slot i with ⟨other, same⟩ | ⟨old, args', -, held'⟩
  · refine other ⟨⟨b, h.layout ▸ hb, block, ?_, mem⟩, args, ?_⟩
    · rw [Func.block_eq_ok_iff] at hblock ⊢
      rw [← h.blocks, hblock]
    · exact map_eq_ok_iff.mpr ⟨inst, Func.inst_eq_ok_iff.mpr (same ▸ held), op⟩
  · obtain rfl : _ = inst := Option.some.inj (held'.symm.trans held)
    simp [dispatchSymbol, launchSymbol] at op

end RedirectsFunc

theorem forall₂_not_isLaunch (h : List.Forall₂ RedirectsFunc fs gs) :
    ∀ g ∈ gs, ∀ i, ¬IsLaunch g i := by
  induction h with
  | nil => simp
  | cons first _ ih => exact List.forall_mem_cons.mpr ⟨first.not_isLaunch, ih⟩

theorem forall₂_consistent (h : List.Forall₂ RedirectsFunc fs gs)
    (consistent : ∀ f ∈ fs, f.Consistent) : ∀ g ∈ gs, g.Consistent := by
  induction h with
  | nil => simp
  | cons first _ ih =>
    rw [List.forall_mem_cons] at consistent ⊢
    exact ⟨first.consistent consistent.1, ih consistent.2⟩

/-- A name stands for what is left of the function that it stood for. -/
theorem function?_of_forall₂ {p : Program} (name : String)
    (h : List.Forall₂ RedirectsFunc p.functions gs) :
    Option.Rel RedirectsFunc (p.function? name) ({ p with functions := gs }.function? name) := by
  simp only [Program.function?]
  generalize p.functions = fs at h
  induction h with
  | nil => exact .none
  | @cons f g fs gs first _ ih =>
    by_cases here : f.name == name
    · simpa [first.name, here] using Option.Rel.some first
    · simpa [first.name, here] using ih

/-! ### Numbers of launches -/

theorem finite_launches (f : Func) : {i | IsLaunch f i}.Finite := by
  refine ((Finset.range f.insts.size).image InstId.mk).finite_toSet.subset fun i launch => ?_
  obtain ⟨args, call⟩ := launch.2
  obtain ⟨ty, line⟩ := Func.operation_eq_ok_iff.mp call
  have inside : i.index < f.insts.size := Func.line_isSome_iff.mp (by simp [line])
  exact Finset.mem_coe.mpr (Finset.mem_image.mpr ⟨i.index, by simpa using inside, rfl⟩)

theorem launchCount_eq_zero_iff : launchCount fs = 0 ↔ ∀ f ∈ fs, ∀ i, ¬IsLaunch f i := by
  simp [launchCount, List.sum_eq_zero_iff, Set.ncard_eq_zero (finite_launches _),
    Set.eq_empty_iff_forall_notMem]

/-! ### Runs -/

variable {run : Pass} {cache : AnnotationCache} {id : Nat} {p : Program}

/-- A run leaves a program for the host without launches as it is. -/
theorem run_of_not_isLaunch (host : p.isDevice = false) (usable : run.settings.error? = none)
    (consistent : ∀ f ∈ p.functions, f.Consistent)
    (none : ∀ f ∈ p.functions, ∀ i, ¬IsLaunch f i) :
    run.run cache id p = .ok ⟨.ok .idle, p, cache⟩ := by
  obtain ⟨found, -, listed, count, -⟩ := exists_launchesOf consistent
    fun f hf i args launch => absurd launch (none f hf i)
  rw [launchCount_eq_zero_iff.mpr none] at count
  have ran : run.runHost p = .ok (.idle, p) := by
    simp [runHost, listed, count, bind, Except.bind, pure, Except.pure]
  rw [Pass.run, usable, host, ran]
  rfl

/-- What is declared beside functions whose launches are redirected: the dispatcher, as the
launching function is, unless it was there. -/
def Declares (p : Program) (declared : List Func) : Prop :=
  declared = [] ∨ p.function? dispatchSymbol = none ∧
    ∃ launch, p.function? launchSymbol = some launch ∧
      declared = [.empty dispatchSymbol launch.params launch.returnTy]

theorem exists_declares (h : List.Forall₂ RedirectsFunc p.functions gs) :
    ∃ declared, declareDispatcher { p with functions := gs } =
      { p with functions := gs ++ declared } ∧ Declares p declared := by
  obtain ⟨declared, same, bare⟩ := declareDispatcher_spec { p with functions := gs }
  refine ⟨declared, same, bare.imp_right ?_⟩
  rintro ⟨missing, launch, there, rfl⟩
  have dispatch := function?_of_forall₂ dispatchSymbol h
  rw [missing] at dispatch
  cases hd : p.function? dispatchSymbol with
  | some => simp [hd] at dispatch
  | none =>
    have launches := function?_of_forall₂ launchSymbol h
    rw [there] at launches
    cases hl : p.function? launchSymbol with
    | none => simp [hl] at launches
    | some old =>
      have left : RedirectsFunc old launch := by simpa [hl] using launches
      exact ⟨rfl, old, rfl, by rw [left.params, left.returnTy]⟩

/-- What a run in dynamic mode leaves of a program for the host with launches. -/
theorem runHost_of_launches (dynamic : run.settings.mode = .dynamic)
    (consistent : ∀ f ∈ p.functions, f.Consistent) (fit : ∀ f ∈ p.functions, LaunchesFit f)
    (some : launchCount p.functions ≠ 0) :
    ∃ gs declared, List.Forall₂ RedirectsFunc p.functions gs ∧ Declares p declared ∧
      run.runHost p = .ok (⟨true, [], [], launchCount p.functions, launchCount p.functions, []⟩,
        { p with functions := gs ++ declared }) := by
  obtain ⟨found, gs, listed, count, made⟩ := exists_launchesOf consistent fit
  have redirects := forall₂_redirectsFunc listed made
  obtain ⟨declared, same, declares⟩ := exists_declares redirects
  refine ⟨gs, declared, redirects, declares, ?_⟩
  simp [runHost, listed, count, some, dynamic, made, same, bind, Except.bind, pure, Except.pure,
    PassOutcome.idle]

/-- A run in dynamic mode sends every launch of a program for the host through the dispatcher, with
its arguments, and counts it.  The dispatcher is declared as the launching function is, unless it
was there, and nothing else changes.  Another run finds no launches. -/
theorem run_redirects (host : p.isDevice = false) (dynamic : run.settings.mode = .dynamic)
    (usable : run.settings.error? = none) (consistent : ∀ f ∈ p.functions, f.Consistent)
    (fit : ∀ f ∈ p.functions, LaunchesFit f) :
    ∃ functions declared,
      run.run cache id p = .ok ⟨.ok ⟨decide (launchCount p.functions ≠ 0), [], [],
          launchCount p.functions, launchCount p.functions, []⟩,
        { p with functions := functions ++ declared }, cache⟩ ∧
      List.Forall₂ RedirectsFunc p.functions functions ∧
      (declared.length ≤ 1 ∧ ((p.function? dispatchSymbol).isSome → declared = []) ∧
        ∀ d ∈ declared, ∃ launch, p.function? launchSymbol = some launch ∧
          d = .empty dispatchSymbol launch.params launch.returnTy) ∧
      (∀ g ∈ functions ++ declared, ∀ i, ¬IsLaunch g i) ∧
      ∀ cache id, run.run cache id { p with functions := functions ++ declared } =
        .ok ⟨.ok .idle, { p with functions := functions ++ declared }, cache⟩ := by
  by_cases some : launchCount p.functions = 0
  · have none := launchCount_eq_zero_iff.mp some
    have idle : ∀ cache id, run.run cache id p = .ok ⟨.ok .idle, p, cache⟩ :=
      fun cache id => run_of_not_isLaunch host usable consistent none
    refine ⟨p.functions, [], ?_, ?_, by simp, by simpa using none, ?_⟩
    · simp [idle, some, PassOutcome.idle]
    · exact List.forall₂_same.mpr fun f hf => .of_not_isLaunch (none f hf)
    · simpa using idle
  · obtain ⟨gs, declared, redirects, declares, ran⟩ := runHost_of_launches dynamic consistent fit some
    -- what is declared has no body, so it has no launches
    have bare : ∀ d ∈ declared, d.Consistent ∧ ∀ i, ¬IsLaunch d i := by
      rcases declares with rfl | ⟨-, launch, -, rfl⟩
      · simp
      · rintro d hd
        obtain rfl := List.mem_singleton.mp hd
        exact ⟨Func.consistent_empty _ _ _, fun i => by simp [IsLaunch, Func.empty]⟩
    have none : ∀ g ∈ gs ++ declared, ∀ i, ¬IsLaunch g i := List.forall_mem_append.mpr
      ⟨forall₂_not_isLaunch redirects, fun d hd => (bare d hd).2⟩
    have consistent' : ∀ g ∈ gs ++ declared, g.Consistent := List.forall_mem_append.mpr
      ⟨forall₂_consistent redirects consistent, fun d hd => (bare d hd).1⟩
    refine ⟨gs, declared, ?_, redirects, ?_, none, fun cache id => ?_⟩
    · rw [Pass.run, usable, host, ran]
      simp [some, bind, Except.bind, pure, Except.pure]
    · rcases declares with rfl | ⟨missing, launch, there, rfl⟩
      · simp
      · simp [missing, there]
    · exact run_of_not_isLaunch (p := { p with functions := gs ++ declared }) host usable
        consistent' none

end Pass

/-- The launch of a program is counted and redirected, and nothing is left for another run. -/
theorem run_launcher_again :
    Pass.launchCount (launcher launchSymbol [.empty launchSymbol [] .i32]).functions = 1 ∧
      makeAll.run .empty 0 (launcher launchSymbol [.empty launchSymbol [] .i32]) =
        .ok ⟨.ok ⟨true, [], [], 1, 1, []⟩, launcher dispatchSymbol
          [.empty launchSymbol [] .i32, .empty dispatchSymbol [] .i32], .empty⟩ ∧
      makeAll.run .empty 0 (launcher dispatchSymbol
          [.empty launchSymbol [] .i32, .empty dispatchSymbol [] .i32]) =
        .ok ⟨.ok .idle, launcher dispatchSymbol
          [.empty launchSymbol [] .i32, .empty dispatchSymbol [] .i32], .empty⟩ := by
  have usable : makeAll.settings.error? = none := by decide
  have host : (launcher launchSymbol [.empty launchSymbol [] .i32]).isDevice = false := by decide
  have consistent : ∀ f ∈ (launcher launchSymbol [.empty launchSymbol [] .i32]).functions,
      f.Consistent := by
    simp only [launcher, List.cons_append, List.nil_append, List.forall_mem_cons]
    exact ⟨Func.consistent_assemble _ _ _, Func.consistent_empty _ _ _, by simp⟩
  have fit : ∀ f ∈ (launcher launchSymbol [.empty launchSymbol [] .i32]).functions,
      Pass.LaunchesFit f := by
    intro f hf i args launch call
    obtain ⟨mem, -⟩ := (Pass.isLaunch_iff (consistent f hf)).mp launch
    simp only [launcher, List.cons_append, List.nil_append, List.mem_cons, List.not_mem_nil,
      or_false] at hf
    rcases hf with rfl | rfl
    · have code : i ∈ [InstId.mk 0, InstId.mk 1] := mem
      rcases List.mem_cons.mp code with rfl | code
      · obtain rfl : _ = args := (Operation.call.inj (Except.ok.inj call)).2
        rfl
      · obtain rfl := List.mem_singleton.mp code
        simp [Func.operation, Func.inst, Func.assemble, Func.slots] at call
    · exact absurd mem List.not_mem_nil
  obtain ⟨functions, declared, ran, -, -, -, again⟩ :=
    @Pass.run_redirects makeAll .empty 0 _ host rfl usable consistent fit
  have same : makeAll.run .empty 0 (launcher launchSymbol [.empty launchSymbol [] .i32]) =
      .ok ⟨.ok ⟨true, [], [], 1, 1, []⟩, launcher dispatchSymbol
        [.empty launchSymbol [] .i32, .empty dispatchSymbol [] .i32], .empty⟩ := by rfl
  rw [same, Except.ok.injEq, Pass.Result.mk.injEq, Except.ok.injEq, PassOutcome.mk.injEq] at ran
  obtain ⟨⟨-, -, -, count, -⟩, left, -⟩ := ran
  exact ⟨count.symm, same, left ▸ again .empty 0⟩

end KernelCoarsening
