/-
Files and the paths that lead to them.

A location is the list of names from the root to a file, a directory or a device.
A path is a text: names with slashes between them, from the root if it starts with
a slash and from the working directory otherwise.  Every name but the last has to
name a directory; `.` stays in a directory and `..` goes up, at the root nowhere.

* `FileSystem.walk_put` — a file put where no directory was leaves every way open;
* `FileSystem.read_put` — a file that was put where a path leads reads back.

Design notes: asked to open for writing, the system refuses a name with a slash
behind it before it looks for the name, asked to open for reading, afterwards.
-/
import KernelCoarsening.Data.Assoc
import KernelCoarsening.Data.Text

namespace KernelCoarsening

/-- The streams that an invocation prints to. -/
inductive OutputStream where
  | out
  | err
  deriving DecidableEq

/-- What is no file and yet can be written to; reading from it gives nothing. -/
inductive Device where
  /-- Takes everything. -/
  | null
  /-- Has no room. -/
  | full
  /-- Passes everything on. -/
  | stream (s : OutputStream)
  deriving DecidableEq

/-- What stands at a location. -/
inductive Entry where
  | file (text : String)
  | directory
  | device (d : Device)
  deriving DecidableEq

/-- The names that lead to a place from the root. -/
abbrev Location := List String

/-- Why a path cannot be read or written. -/
inductive PathError where
  | missing
  | notDirectory
  | isDirectory
  | noSpace
  | nameTooLong
  deriving DecidableEq

/-- The wording of the system. -/
def PathError.message : PathError → String
  | missing => "No such file or directory (os error 2)"
  | notDirectory => "Not a directory (os error 20)"
  | isDirectory => "Is a directory (os error 21)"
  | noSpace => "No space left on device (os error 28)"
  | nameTooLong => "File name too long (os error 36)"

/-- Everything that a path can lead to. -/
structure FileSystem where
  entries : Assoc Location Entry

namespace FileSystem

/-- The working directory.  Its name is empty, which no path spells: only paths that do not
start at the root lead there. -/
def workplace : Location := ["tmp", ""]

/-- The directories at the root of every system. -/
def rootDirectories : List String :=
  ["bin", "boot", "dev", "etc", "home", "lib", "media", "mnt", "opt", "proc", "root", "run",
    "sbin", "srv", "sys", "tmp", "usr", "var"]

/-- A system with an empty working directory. -/
def standard : FileSystem where
  entries := rootDirectories.map (fun name => ([name], .directory)) ++
    [(workplace, .directory), (["dev", "null"], .device .null), (["dev", "full"], .device .full),
      (["dev", "stdin"], .device .null), (["dev", "stdout"], .device (.stream .out)),
      (["dev", "stderr"], .device (.stream .err))]

/-- Puts a file at a location. -/
def put (fs : FileSystem) (location : Location) (text : String) : FileSystem :=
  ⟨fs.entries.insert location (.file text)⟩

/-! ### Paths -/

/-- A name has more bytes than the system allows. -/
def isTooLong (name : String) : Bool := 255 < name.utf8ByteSize

/-- What a name stands for in a directory. -/
def find (fs : FileSystem) (here : Location) (name : String) : Except PathError (Option Entry) :=
  if isTooLong name then .error .nameTooLong else .ok (fs.entries.get? (here ++ [name]))

/-- The directory that names lead to from a directory. -/
def walk (fs : FileSystem) (here : Location) : List String → Except PathError Location
  | [] => .ok here
  | "." :: rest => fs.walk here rest
  | ".." :: rest => fs.walk here.dropLast rest
  | name :: rest =>
    match fs.find here name with
    | .error e => .error e
    | .ok none => .error .missing
    | .ok (some .directory) => fs.walk (here ++ [name]) rest
    | .ok (some _) => .error .notDirectory

/-- Where a path ends. -/
inductive Target where
  /-- At a directory that it reached by its dots and slashes. -/
  | directory
  /-- At a name in a directory, perhaps with a slash behind it. -/
  | name (here : Location) (name : String) (slash : Bool)

/-- The directory that a path starts from. -/
def base (path : String) : Location := if Text.startsWith "/" path then [] else workplace

/-- The names of a path, dots among them. -/
def names (path : String) : List String := (Text.split '/' path).filter (· ≠ "")

/-- A path ends with a slash. -/
def endsInSlash (path : String) : Bool := (Text.split '/' path).getLast? = some ""

/-- Where a path ends; whether the last name stands for something is left open. -/
def locate (fs : FileSystem) (path : String) : Except PathError Target :=
  if path = "" then .error .missing
  else if 4096 ≤ path.utf8ByteSize then .error .nameTooLong
  else
    match (names path).getLast? with
    | none => .ok .directory
    | some last =>
      match fs.walk (base path) (names path).dropLast with
      | .error e => .error e
      | .ok here =>
        if last = "." ∨ last = ".." then .ok .directory
        else .ok (.name here last (endsInSlash path))

/-- The text that is read at a path. -/
def read (fs : FileSystem) (path : String) : Except PathError String :=
  match fs.locate path with
  | .error e => .error e
  | .ok .directory => .error .isDirectory
  | .ok (.name here name slash) =>
    match fs.find here name with
    | .error e => .error e
    | .ok none => .error .missing
    | .ok (some .directory) => .error .isDirectory
    | .ok (some (.file text)) => if slash then .error .notDirectory else .ok text
    | .ok (some (.device _)) => if slash then .error .notDirectory else .ok ""

/-- What takes a text that is written. -/
inductive Outlet where
  | file (location : Location)
  | device (d : Device)

/-- What takes a text that is written to a path. -/
def outlet (fs : FileSystem) (path : String) : Except PathError Outlet :=
  match fs.locate path with
  | .error e => .error e
  | .ok .directory => .error .isDirectory
  | .ok (.name here name slash) =>
    if slash then .error .isDirectory
    else
      match fs.find here name with
      | .error e => .error e
      | .ok none => .ok (.file (here ++ [name]))
      | .ok (some .directory) => .error .isDirectory
      | .ok (some (.file _)) => .ok (.file (here ++ [name]))
      | .ok (some (.device d)) => .ok (.device d)

/-- Puts a file where a path leads, if it leads to a place for one. -/
def place (fs : FileSystem) (path text : String) : FileSystem :=
  match fs.outlet path with
  | .ok (.file location) => fs.put location text
  | _ => fs

/-- The files of the working directory that were not there before with this text. -/
def changedSince (fs before : FileSystem) : List (String × String) :=
  fs.entries.filterMap fun (location, entry) =>
    match entry, location.getLast? with
    | .file text, some name =>
      if location = workplace ++ [name] ∧ before.entries.get? location ≠ some entry then
        some (name, text)
      else none
    | _, _ => none

/-! ### Files that were put -/

theorem find_put (fs : FileSystem) (location here : Location) (name text : String) :
    (fs.put location text).find here name
      = if isTooLong name then .error .nameTooLong
        else .ok (if location = here ++ [name] then some (.file text)
          else fs.entries.get? (here ++ [name])) := by
  simp [find, put]

theorem walk_put {fs : FileSystem} {location : Location} (text : String)
    (free : fs.entries.get? location ≠ some .directory) {here there : Location}
    {names : List String} (h : fs.walk here names = .ok there) :
    (fs.put location text).walk here names = .ok there := by
  induction here, names using walk.induct fs with
  | case1 here => simpa [walk] using h
  | case2 here rest ih => simpa [walk] using ih (by simpa [walk] using h)
  | case3 here rest ih => simpa [walk] using ih (by simpa [walk] using h)
  | case4 here name rest dot dots e he => simp_all [walk]
  | case5 here name rest dot dots he => simp_all [walk]
  | case6 here name rest dot dots he ih =>
    have hlong : isTooLong name = false := by
      cases hl : isTooLong name with
      | false => rfl
      | true => simp [find, hl] at he
    have hget : fs.entries.get? (here ++ [name]) = some .directory := by
      simpa [find, hlong] using he
    have hne : location ≠ here ++ [name] := fun heq => free (heq ▸ hget)
    have hput : (fs.put location text).find here name = .ok (some .directory) := by
      simp [find_put, hlong, hne, hget]
    simp only [walk, hput]
    exact ih (by simpa [walk, he] using h)
  | case7 here name rest dot dots entry hentry he => simp_all [walk]

theorem locate_put {fs : FileSystem} {location : Location} (text : String)
    (free : fs.entries.get? location ≠ some .directory) {path : String} {target : Target}
    (h : fs.locate path = .ok target) : (fs.put location text).locate path = .ok target := by
  unfold locate at h ⊢
  split at h
  · simp at h
  · split at h
    · simp at h
    · split at h
      · simp_all
      · split at h
        · simp at h
        · rename_i hwalk
          simp_all [walk_put text free hwalk]

theorem read_put {fs : FileSystem} {path : String} {location : Location} (text : String)
    (h : fs.outlet path = .ok (.file location)) :
    (fs.put location text).read path = .ok text := by
  unfold outlet at h
  split at h
  · simp at h
  · simp at h
  · rename_i here name slash hlocate
    cases slash with
    | true => simp at h
    | false =>
      simp only [Bool.false_eq_true, if_false] at h
      have hlong : isTooLong name = false := by
        cases hl : isTooLong name with
        | false => rfl
        | true => simp [find, hl] at h
      have hfree : here ++ [name] = location ∧
          fs.entries.get? (here ++ [name]) ≠ some .directory := by
        revert h
        simp only [find, hlong, Bool.false_eq_true, if_false]
        cases hget : fs.entries.get? (here ++ [name]) with
        | none => simp
        | some entry => cases entry <;> simp
      obtain ⟨rfl, free⟩ := hfree
      simp [read, locate_put text free hlocate, find_put, hlong]

end FileSystem

end KernelCoarsening
