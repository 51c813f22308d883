/-
The command line.

An invocation is a dialogue with its surroundings: it prints to one of two
streams, asks for a file, asks for a file to be written, and ends with an exit
code.  What becomes of the program is decided here; whoever leads the dialogue only
reads, writes and prints, in the order that is asked for.
-/
import KernelCoarsening.CommandLine.FileSystem
import KernelCoarsening.Ir.Listing
import KernelCoarsening.Pass.Run
import KernelCoarsening.ProgramFile.Decode
import KernelCoarsening.ProgramFile.Encode

namespace KernelCoarsening

/-- The rest of an invocation. -/
inductive Dialogue where
  /-- The invocation ends. -/
  | exit (code : Nat)
  /-- A text is printed. -/
  | print (stream : OutputStream) (text : String) (rest : Dialogue)
  /-- A file is read: its text or what went wrong is the answer. -/
  | read (path : String) (next : Except String String → Dialogue)
  /-- A file is written: what went wrong is the answer. -/
  | write (path text : String) (next : Option String → Dialogue)

namespace CommandLine

def usage : String :=
  String.join
    ["GPU thread/block coarsening\n",
     "\n",
     "Usage: coarsen <module.json> [options]\n",
     "\n",
     "Options:\n",
     "  --kernel=<name|all>      Kernel to coarsen, by demangled name (default: all)\n",
     "  --factor=<n>             Coarsening factor, at least 2 (default: 2)\n",
     "  --stride=<n>             Distance between merged ids (default: 1)\n",
     "  --dimension=<x|y|z>      Dimension to coarsen (default: x)\n",
     "  --mode=<mode>            thread, block or dynamic (default: thread)\n",
     "  --factors=<a,b,..>       Dynamic mode factors (default: 2,4,8,16)\n",
     "  --strides=<a,b,..>       Dynamic mode strides (default: 1,2,4,8)\n",
     "  --emit=<json|text>       Output format (default: json)\n",
     "  --benefit                Print the estimated cost of each kernel\n",
     "  -o <path>                Output file (default: stdout)\n",
     "\n",
     "Commands:\n",
     "  help                     Show this help message\n",
     "  version                  Show version information\n"]

def version : String := "coarsen 0.1.0-alpha.1\n"

/-- What went wrong when a run came to a question that has no answer. -/
def faultText : Fault → String
  | .noBlock b => "block " ++ toString b.index ++ " does not exist"
  | .noInst i => "instruction " ++ toString i.index ++ " does not exist"
  | .cutPastEnd b n => "block " ++ toString b.index ++ " has no place " ++ toString n
  | .addressCycle i => "the address of instruction " ++ toString i.index ++ " has no root"
  | .noQuotient a b =>
    "the quotient of " ++ toString a.toInt ++ " by " ++ toString b.toInt ++ " has no word"

/-- The exit code of an invocation that comes to a question without an answer. -/
def faultCode : Nat := 101

/-- The invocation prints what it was asked for and ends. -/
def answer (text : String) : Dialogue := .print .out text (.exit 0)

/-- The invocation says what is wrong and ends. -/
def fail (code : Nat) (text : String) : Dialogue :=
  .print .err ("error: " ++ text ++ "\n") (.exit code)

/-- The lines that say what a run did. -/
def reportText (s : Settings) (o : PassOutcome) : String :=
  String.join (o.diagnostics.map fun e => "warning: " ++ e.message ++ "; module left unchanged\n")
    ++ String.join (o.kernels.map fun k =>
      "coarsened " ++ k.kernel ++ " -> " ++ k.symbol ++ ": " ++ toString k.stats.instructions
        ++ " instructions, " ++ toString k.stats.regions ++ " regions\n")
    ++ (if o.redirected > 0 then
      "redirected " ++ toString o.redirected ++ " kernel launches\n" else "")
    ++ (if s.costs then
      String.join (o.reports.map fun r => "benefit: " ++ r.text ++ "\n") else "")

/-- The text of a program in a format. -/
def render (format : OutputFormat) (p : Program) : Except Fault String :=
  match format with
  | .json => .ok p.fileText
  | .listing => p.listing

/-- Writes the text of a program to the output. -/
def emit (s : Settings) (text : String) : Dialogue :=
  match s.output with
  | none => answer (text ++ "\n")
  | some path => .write path text fun
    | none => .exit 0
    | some cause => fail 1 ("cannot write '" ++ path ++ "': " ++ cause)

/-- Runs over a program and writes what it becomes. -/
def process (s : Settings) (p : Program) : Dialogue :=
  match (Pass.ofSettings s).run .empty 0 p with
  | .error fault => fail faultCode (faultText fault)
  | .ok result =>
    match result.outcome with
    | .error e => fail 1 e.message
    | .ok outcome => .print .err (reportText s outcome) <|
      match render s.format result.program with
      | .error fault => fail faultCode (faultText fault)
      | .ok text => emit s text

/-- Runs with settings. -/
def runWith (s : Settings) : Dialogue :=
  match s.input with
  | none => fail 1 "missing module path\nUsage: coarsen <module.json> [options]"
  | some path => .read path fun
    | .error cause => fail 1 ("cannot read '" ++ path ++ "': " ++ cause)
    | .ok text =>
      match Program.ofFileText text with
      | .error e => fail 1 ("'" ++ path ++ "' is not a module: " ++ e.message)
      | .ok p => process s p

/-- The invocation with arguments. -/
def start (args : List String) : Dialogue :=
  match args with
  | [] | "help" :: _ | "--help" :: _ | "-h" :: _ => answer usage
  | "version" :: _ | "--version" :: _ | "-V" :: _ => answer version
  | args =>
    match Settings.ofArguments args with
    | .error e => fail 1 (e.message ++ "\nRun `coarsen help` for usage.")
    | .ok s => runWith s

end CommandLine

end KernelCoarsening
