/-
The program: leads the dialogue of an invocation with files and streams.
-/
import KernelCoarsening.CommandLine.Dialogue

namespace KernelCoarsening

namespace CommandLine

/-- The number of an error, which some calls report negated. -/
def errorNumber (code : UInt32) : UInt32 := if code < 0x80000000 then code else 0 - code

/-- What the system says about an error. -/
def systemText (e : IO.Error) : String :=
  let said (text : String) (code : UInt32) : String :=
    text ++ " (os error " ++ toString (errorNumber code) ++ ")"
  match e with
  | .noFileOrDirectory _ code _ => said "No such file or directory" code
  | .permissionDenied _ code _ => said "Permission denied" code
  | .inappropriateType _ code _ =>
    said (if errorNumber code = 21 then "Is a directory" else "Not a directory") code
  | .invalidArgument _ code _ =>
    said (if errorNumber code = 36 then "File name too long" else "Invalid argument") code
  | .resourceExhausted _ code _ => said "No space left on device" code
  | e => e.toString

/-- The stream of the system. -/
def handle : OutputStream → BaseIO IO.FS.Stream
  | .out => IO.getStdout
  | .err => IO.getStderr

/-- Writes a file; an error shows at the latest when the text has left for the device. -/
def writeFile (path text : String) : IO Unit :=
  IO.FS.withFile path .write fun h => do
    h.putStr text
    h.flush

/-- Leads a dialogue to its end. -/
def lead : Dialogue → IO UInt32
  | .exit code => return code.toUInt32
  | .print stream text rest => do
    let target ← handle stream
    target.putStr text
    target.flush
    lead rest
  | .read path next => do
    match ← EIO.toBaseIO (IO.FS.readFile path) with
    | .ok text => lead (next (.ok text))
    | .error e => lead (next (.error (systemText e)))
  | .write path text next => do
    match ← EIO.toBaseIO (writeFile path text) with
    | .ok () => lead (next none)
    | .error e => lead (next (some (systemText e)))

end CommandLine

end KernelCoarsening

def main (args : List String) : IO UInt32 :=
  KernelCoarsening.CommandLine.lead (KernelCoarsening.CommandLine.start args)
