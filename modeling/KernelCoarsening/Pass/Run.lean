/-
A run over a whole program.

In a program for the device the selected kernels are coarsened: in place, or in
dynamic mode in all variants beside the kernel, each marked as a kernel.  In a
program for the host the launches of kernels are looked at, and in dynamic mode
sent through the dispatcher.  If a kernel cannot be coarsened, the program stays
as it was.
-/
import KernelCoarsening.Coarsening.Kernel
import KernelCoarsening.Ir.Kernels
import KernelCoarsening.Pass.Settings

namespace KernelCoarsening

/-- The function that launches kernels. -/
def launchSymbol : String := "cudaLaunchKernel"

/-- The function that chooses a variant and launches it. -/
def dispatchSymbol : String := "rpcLaunchKernel"

/-- The number of arguments of a launch. -/
def launchArity : Nat := 6

/-- A kernel that cannot be coarsened, which ends the run. -/
structure PassError where
  kernel : String
  cause : CoarseningError
  deriving DecidableEq

def PassError.message (e : PassError) : String :=
  "cannot coarsen kernel `" ++ e.kernel ++ "`: " ++ e.cause.message

/-- A kernel that a run produced: what it was made from, its symbol, and what was repeated. -/
structure KernelSummary where
  kernel : String
  symbol : String
  stats : ReplicationStats
  deriving DecidableEq

/-- What a run did. -/
structure PassOutcome where
  changed : Bool
  kernels : List KernelSummary
  reports : List CostReport
  /-- The number of launches in a program for the host. -/
  launches : Nat
  /-- The number of launches that were sent through the dispatcher. -/
  redirected : Nat
  diagnostics : List SettingsError
  deriving DecidableEq

namespace PassOutcome

/-- Nothing was done. -/
def idle : PassOutcome := ⟨false, [], [], 0, 0, []⟩

/-- Nothing was done, for a reason. -/
def rejected (e : SettingsError) : PassOutcome := { idle with diagnostics := [e] }

/-- The outcome with one more kernel and its costs. -/
def addKernel (o : PassOutcome) (kernel symbol : String) (made : CoarsenedKernel) : PassOutcome :=
  { o with
    changed := true
    kernels := o.kernels ++ [⟨kernel, symbol, made.stats⟩]
    reports := o.reports ++ made.report.toList }

end PassOutcome

/-- A run: its settings and, if costs are estimated, the costs of instructions. -/
structure Pass where
  settings : Settings
  costs : Option CostTable

namespace Pass

/-- The run that settings ask for. -/
def ofSettings (s : Settings) : Pass :=
  ⟨s, if s.costs then some .standard else none⟩

/-! ### Programs for the device -/

/-- The places of the functions that are kernels and selected. -/
def selected (run : Pass) (cache : AnnotationCache) (id : Nat) (p : Program) :
    List (Func × Nat) → List (Func × Nat) × AnnotationCache
  | [] => ([], cache)
  | (f, n) :: rest =>
    let (isKernel, cache) := cache.isKernel id p f
    let (found, cache) := run.selected cache id p rest
    (if isKernel && run.settings.kernel.selects f.name then (f, n) :: found else found, cache)

/-- Coarsens kernels in place. -/
def replaceKernels (run : Pass) (shared : List GlobalId) (params : CoarseningParams)
    (functions : List Func) (outcome : PassOutcome) :
    List (Func × Nat) → Except Fault (Except PassError (List Func × PassOutcome))
  | [] => .ok (.ok (functions, outcome))
  | (f, n) :: rest => do
    match ← f.coarsen shared params run.costs with
    | .error cause => return .error ⟨f.name, cause⟩
    | .ok made =>
      run.replaceKernels shared params (functions.set n made.func)
        (outcome.addKernel made.func.name made.func.name made) rest

/-- Makes variants of kernels. -/
def makeVariants (run : Pass) (shared : List GlobalId) (outcome : PassOutcome) :
    List (Func × CoarseningParams) → Except Fault (Except PassError (List Func × PassOutcome))
  | [] => .ok (.ok ([], outcome))
  | (f, variant) :: rest => do
    match ← f.coarsen shared variant run.costs with
    | .error cause => return .error ⟨f.name, cause⟩
    | .ok made =>
      let symbol := variant.symbol f.name
      match ← run.makeVariants shared (outcome.addKernel f.name symbol made) rest with
      | .error e => return .error e
      | .ok (variants, outcome) => return .ok ({ made.func with name := symbol } :: variants, outcome)

/-- The program with functions added and marked as kernels. -/
def addKernels (p : Program) (kernels : List Func) : Program :=
  { p with
    functions := p.functions ++ kernels
    annotations := p.annotations ++ kernels.map fun f => ⟨f.name, kernelKey, 1⟩ }

/-- What a run leaves: the outcome, the program and the cache. -/
structure Result where
  outcome : Except PassError PassOutcome
  program : Program
  cache : AnnotationCache

/-- Coarsens the selected kernels of a program for the device. -/
def runDevice (run : Pass) (cache : AnnotationCache) (id : Nat) (p : Program) :
    Except Fault Result := do
  let (kernels, cache) := run.selected cache id p p.functions.zipIdx
  if kernels.isEmpty then
    return ⟨.ok .idle, p, cache⟩
  let shared := p.sharedGlobals
  match run.settings.mode with
  | .dynamic =>
    match run.settings.catalog with
    | .error e => return ⟨.ok (.rejected e), p, cache⟩
    | .ok catalog =>
      let wanted := kernels.flatMap fun (f, _) => catalog.variants.map (f, ·)
      match ← run.makeVariants shared .idle wanted with
      | .error e => return ⟨.error e, p, cache⟩
      | .ok (variants, outcome) => return ⟨.ok outcome, addKernels p variants, cache.evict id⟩
  | _ =>
    match run.settings.params with
    | .error e => return ⟨.ok (.rejected e), p, cache⟩
    | .ok params =>
      match ← run.replaceKernels shared params p.functions .idle kernels with
      | .error e => return ⟨.error e, p, cache⟩
      | .ok (functions, outcome) => return ⟨.ok outcome, { p with functions }, cache⟩

/-! ### Programs for the host -/

/-- The launches among instructions, up to the first with a wrong number of arguments. -/
def launchesAmong (f : Func) : List InstId → Except Fault (Except SettingsError (List InstId))
  | [] => .ok (.ok [])
  | i :: rest => do
    match ← f.operation i with
    | .call callee args =>
      if callee ≠ launchSymbol then
        launchesAmong f rest
      else if args.length ≠ launchArity then
        return .error (.unsupportedLaunch f.name args.length launchArity)
      else
        return (← launchesAmong f rest).map (i :: ·)
    | _ => launchesAmong f rest

/-- The launches of blocks, up to the first with a wrong number of arguments. -/
def launchesOfBlocks (f : Func) : List BlockId → Except Fault (Except SettingsError (List InstId))
  | [] => .ok (.ok [])
  | b :: rest => do
    match ← launchesAmong f (← f.block b).insts with
    | .error e => return .error e
    | .ok found => return (← launchesOfBlocks f rest).map (found ++ ·)

/-- The launches of each function, up to the first with a wrong number of arguments. -/
def launchesOf : List Func → Except Fault (Except SettingsError (List (Func × List InstId)))
  | [] => .ok (.ok [])
  | f :: rest => do
    match ← launchesOfBlocks f f.layout with
    | .error e => return .error e
    | .ok found => return (← launchesOf rest).map ((f, found) :: ·)

/-- The call of another function with the same arguments. -/
def renameCallee (callee : String) : Operation → Operation
  | .call _ args => .call callee args
  | op => op

/-- Sends launches through the dispatcher. -/
def redirect (f : Func) (launches : List InstId) : Except Fault Func :=
  launches.foldlM (fun f i => f.modifyOperation i (renameCallee dispatchSymbol)) f

/-- Declares the dispatcher if it is missing and the launching function is there. -/
def declareDispatcher (p : Program) : Program :=
  match p.function? dispatchSymbol, p.function? launchSymbol with
  | none, some launch =>
    { p with functions :=
        p.functions ++ [Func.empty dispatchSymbol launch.params launch.returnTy] }
  | _, _ => p

/-- Looks at the launches of a program for the host, and redirects them in dynamic mode. -/
def runHost (run : Pass) (p : Program) : Except Fault (PassOutcome × Program) := do
  match ← launchesOf p.functions with
  | .error e => return (.rejected e, p)
  | .ok found =>
    let launches := (found.flatMap (·.2)).length
    if launches = 0 then
      return (.idle, p)
    if run.settings.mode ≠ .dynamic then
      return ({ PassOutcome.idle with launches }, p)
    let functions ← found.mapM fun (f, calls) => redirect f calls
    return ({ PassOutcome.idle with changed := true, launches, redirected := launches },
      declareDispatcher { p with functions })

/-- Runs over a program; `id` is its number in the cache. -/
def run (run : Pass) (cache : AnnotationCache) (id : Nat) (p : Program) : Except Fault Result := do
  if let some e := run.settings.error? then
    return ⟨.ok (.rejected e), p, cache⟩
  if p.isDevice then
    run.runDevice cache id p
  else
    let (outcome, p) ← run.runHost p
    return ⟨.ok outcome, p, cache⟩

end Pass

end KernelCoarsening
