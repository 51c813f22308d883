/-
An invocation and what it leaves behind.

A session is what an invocation can touch: the files and what has been printed.
With it an invocation is a function of its arguments and the files that it finds.

* `Session.read_write` — what was written to a file reads back.
-/
import KernelCoarsening.CommandLine.Dialogue
import KernelCoarsening.CommandLine.FileSystem

namespace KernelCoarsening

/-- What an invocation can touch. -/
structure Session where
  files : FileSystem
  stdout : String
  stderr : String

namespace Session

/-- The session with a text behind what a stream has printed. -/
def print (s : Session) : OutputStream → String → Session
  | .out, text => { s with stdout := s.stdout ++ text }
  | .err, text => { s with stderr := s.stderr ++ text }

/-- The session after a text was given to what takes it. -/
def give (s : Session) (text : String) : FileSystem.Outlet → Except PathError Session
  | .file location => .ok { s with files := s.files.put location text }
  | .device .null => .ok s
  | .device .full => if text = "" then .ok s else .error .noSpace
  | .device (.stream stream) => .ok (s.print stream text)

/-- The session after a text was written to a path. -/
def write (s : Session) (path text : String) : Except PathError Session :=
  match s.files.outlet path with
  | .error e => .error e
  | .ok outlet => s.give text outlet

/-- Only devices let a text get lost. -/
theorem read_write {s s' : Session} {path text : String} {location : Location}
    (h : s.files.outlet path = .ok (.file location)) (hw : s.write path text = .ok s') :
    s'.files.read path = .ok text := by
  simp only [write, h, give, Except.ok.injEq] at hw
  subst hw
  exact FileSystem.read_put text h

end Session

/-- Leads a dialogue to its end: the exit code, and what the session has become. -/
def Dialogue.runIn (s : Session) : Dialogue → Nat × Session
  | .exit code => (code, s)
  | .print stream text rest => rest.runIn (s.print stream text)
  | .read path next => (next ((s.files.read path).mapError (·.message))).runIn s
  | .write path text next =>
    match s.write path text with
    | .ok s => (next none).runIn s
    | .error e => (next (some e.message)).runIn s

namespace CommandLine

/-- The invocation with arguments among files. -/
def runIn (args : List String) (files : FileSystem) : Nat × Session :=
  (start args).runIn ⟨files, "", ""⟩

end CommandLine

end KernelCoarsening
