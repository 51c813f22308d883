/-
Settings of a run, and the arguments that give them.

Arguments have the form `--key=value`, with `-o` for the output, whose value is the
next argument; the one argument that starts with no dash is the input.  Reading
refuses what it does not understand, `Settings.error?` what a run cannot use.
-/
import KernelCoarsening.Data.Text
import KernelCoarsening.Variant.Catalog

namespace KernelCoarsening

/-- What a run produces. -/
inductive Mode where
  /-- Every selected kernel with threads merged, in its place. -/
  | thread
  /-- Every selected kernel with blocks merged, in its place. -/
  | block
  /-- All variants of every selected kernel beside it; launches choose among them. -/
  | dynamic
  deriving DecidableEq

namespace Mode

def text : Mode → String
  | thread => "thread"
  | block => "block"
  | dynamic => "dynamic"

/-- The mode that a text names. -/
def ofText? : String → Option Mode
  | "thread" => some thread
  | "block" => some block
  | "dynamic" => some dynamic
  | _ => none

/-- The level of a mode that has one. -/
def level? : Mode → Option Level
  | thread => some .thread
  | block => some .block
  | dynamic => none

end Mode

/-- Which kernels a run changes. -/
inductive KernelSelector where
  | all
  /-- Kernels of a base name; the empty name selects all. -/
  | named (name : String)
  deriving DecidableEq

namespace KernelSelector

def ofText (text : String) : KernelSelector := if text = "all" then all else named text

/-- The kernel of a symbol is selected. -/
def selects : KernelSelector → String → Bool
  | all, _ => true
  | named name, symbol => name.isEmpty || baseName symbol == name

end KernelSelector

/-- How a program is written. -/
inductive OutputFormat where
  | json
  | listing
  deriving DecidableEq

/-- The format that a text names. -/
def OutputFormat.ofText? : String → Option OutputFormat
  | "json" => some json
  | "text" => some listing
  | _ => none

/-- Why settings cannot be read or used, or a program cannot be changed as they say. -/
inductive SettingsError where
  | unknownOption (text : String)
  | missingValue (option : String)
  | unexpectedArgument (text : String)
  | unknownDimension (text : String)
  | unknownMode (text : String)
  | unknownFormat (text : String)
  | invalidNumber (option value : String)
  | invalidFactor (factor : Nat)
  | invalidStride
  | emptyKernelName (mode : Mode)
  | emptyCatalog
  | unsupportedLaunch (function : String) (args expected : Nat)
  deriving DecidableEq

namespace SettingsError

def message : SettingsError → String
  | unknownOption text => s!"unknown option `{text}`"
  | missingValue option => s!"option `{option}` needs a value"
  | unexpectedArgument text => s!"unexpected argument `{text}`"
  | unknownDimension text => s!"unknown dimension `{text}`, expected x, y or z"
  | unknownMode text => s!"unknown mode `{text}`, expected thread, block or dynamic"
  | unknownFormat text => s!"unknown emit format `{text}`, expected json or text"
  | invalidNumber option value => s!"`{value}` is not a valid value for {option}"
  | invalidFactor factor => s!"coarsening factor must be at least 2, got {factor}"
  | invalidStride => "coarsening stride must be at least 1"
  | emptyKernelName mode => mode.text ++ " mode needs a kernel name"
  | emptyCatalog => "dynamic mode needs at least one factor and one stride"
  | unsupportedLaunch function args expected =>
    s!"launch in `{function}` passes {args} arguments, expected {expected}"

/-- An unusable factor, or else an unusable stride. -/
def ofCoarsening : CoarseningError → SettingsError
  | .invalidFactor factor => invalidFactor factor
  | _ => invalidStride

end SettingsError

/-- The settings of a run. -/
structure Settings where
  input : Option String
  kernel : KernelSelector
  factor : Nat
  stride : Nat
  dim : Dimension
  mode : Mode
  /-- The factors of the catalog. -/
  factors : List Nat
  /-- The strides of the catalog. -/
  strides : List Nat
  output : Option String
  format : OutputFormat
  /-- Costs are estimated and reported. -/
  costs : Bool
  deriving DecidableEq

namespace Settings

/-- The settings that no argument changes. -/
def standard : Settings where
  input := none
  kernel := .all
  factor := 2
  stride := 1
  dim := .x
  mode := .thread
  factors := VariantCatalog.standard.factors
  strides := VariantCatalog.standard.strides
  output := none
  format := .json
  costs := false

/-! ### Arguments -/

/-- The number that an option has as its value. -/
def number (option value : String) : Except SettingsError Nat :=
  match Text.word? (Text.trim value) with
  | some n => .ok n
  | none => .error (.invalidNumber option value)

/-- The numbers that an option has as its value, with commas between them; blank items are
passed over. -/
def numbers (option value : String) : Except SettingsError (List Nat) :=
  ((Text.split ',' value).filter fun item => !(Text.trim item).isEmpty).mapM (number option)

/-- Applies the value of an option to settings. -/
def setOption (s : Settings) (key value : String) : Except SettingsError Settings :=
  match key with
  | "--kernel" => .ok { s with kernel := .ofText value }
  | "--factor" => do return { s with factor := ← number "--factor" value }
  | "--stride" => do return { s with stride := ← number "--stride" value }
  | "--dimension" =>
    match Dimension.ofText? value with
    | some dim => .ok { s with dim }
    | none => .error (.unknownDimension value)
  | "--mode" =>
    match Mode.ofText? value with
    | some mode => .ok { s with mode }
    | none => .error (.unknownMode value)
  | "--factors" => do return { s with factors := ← numbers "--factors" value }
  | "--strides" => do return { s with strides := ← numbers "--strides" value }
  | "--output" => .ok { s with output := some value }
  | "--emit" =>
    match OutputFormat.ofText? value with
    | some format => .ok { s with format }
    | none => .error (.unknownFormat value)
  | _ => .error (.unknownOption (key ++ "=" ++ value))

/-- Applies an argument that is not `-o`. -/
def setArgument (s : Settings) (arg : String) : Except SettingsError Settings :=
  if Text.startsWith "-" arg then
    if arg = "--benefit" then .ok { s with costs := true }
    else match Text.splitOnce? '=' arg with
      | some (key, value) => s.setOption key value
      | none => .error (.unknownOption arg)
  else
    match s.input with
    | none => .ok { s with input := some arg }
    | some _ => .error (.unexpectedArgument arg)

/-- Applies arguments, one after the other. -/
def setArguments (s : Settings) : List String → Except SettingsError Settings
  | [] => .ok s
  | ["-o"] => .error (.missingValue "-o")
  | "-o" :: path :: rest => { s with output := some path }.setArguments rest
  | arg :: rest => do (← s.setArgument arg).setArguments rest

/-- The settings that arguments give. -/
def ofArguments (args : List String) : Except SettingsError Settings :=
  standard.setArguments args

/-! ### Use -/

/-- How kernels are coarsened in place. -/
def params (s : Settings) : Except SettingsError CoarseningParams :=
  let p := { level := s.mode.level?.getD .thread, dim := s.dim, factor := s.factor,
             stride := s.stride : CoarseningParams }
  match p.error? with
  | some e => .error (.ofCoarsening e)
  | none => .ok p

/-- The catalog of variants. -/
def catalog (s : Settings) : Except SettingsError VariantCatalog :=
  match VariantCatalog.ofLists s.factors s.strides with
  | .error e => .error (.ofCoarsening e)
  | .ok catalog => if catalog.isEmpty then .error .emptyCatalog else .ok catalog

/-- Why a run cannot use the settings. -/
def error? (s : Settings) : Option SettingsError :=
  match s.mode with
  | .dynamic =>
    match s.catalog with
    | .error e => some e
    | .ok _ => none
  | mode =>
    if s.kernel = .named "" then some (.emptyKernelName mode)
    else match s.params with
      | .error e => some e
      | .ok _ => none

end Settings

end KernelCoarsening
