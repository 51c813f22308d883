/-
JSON values.

Integers are kept exactly; every other number, `-0` included, is kept as it was
written.  An object keeps its members in order, repeated keys included, because
a reader of records has to see them.  Escapes can spell code units that belong to
no Unicode text; a string or an object with such a text is `illFormed`, which no
reader of strings or records accepts but which may stand where nobody looks.
-/
import KernelCoarsening.Data.Word

namespace KernelCoarsening

/-- A JSON value. -/
inductive Json where
  | null
  | bool (b : Bool)
  | int (n : Int)
  /-- A number that is written with a fraction, an exponent or as `-0`. -/
  | real (literal : String)
  | str (s : String)
  | arr (items : List Json)
  | obj (members : List (String × Json))
  /-- A string that is no Unicode text, or an object with such a key. -/
  | illFormed

namespace Json

/-- The last member of a key. -/
def get? : Json → String → Option Json
  | obj members, key => (members.reverse.find? (·.1 == key)).map (·.2)
  | _, _ => none

/-- A list of values, each written by a function. -/
def list {α : Type} (write : α → Json) (items : List α) : Json := arr (items.map write)

/-- The value of an option, or null. -/
def option {α : Type} (write : α → Json) : Option α → Json
  | some a => write a
  | none => null

/-- A natural number. -/
def nat (n : Nat) : Json := int n

/-! ### Readers of single values -/

def str? : Json → Option String
  | str s => some s
  | _ => none

def bool? : Json → Option Bool
  | bool b => some b
  | _ => none

def arr? : Json → Option (List Json)
  | arr items => some items
  | _ => none

/-- A number below a bound. -/
def natBelow? (bound : Nat) : Json → Option Nat
  | int (.ofNat n) => if n < bound then some n else none
  | _ => none

/-- A number of 32 bits without sign. -/
def word? : Json → Option Nat := natBelow? limit32

/-- A number of 64 bits with sign. -/
def int64? : Json → Option Int64
  | int n => int64Of? n
  | _ => none

/-- A list whose items are all read by a function. -/
def list? {α : Type} (read : Json → Option α) (v : Json) : Option (List α) := do
  (← v.arr?).mapM read

/-- A value or null. -/
def option? {α : Type} (read : Json → Option α) : Json → Option (Option α)
  | null => some none
  | v => some <$> read v

/-! ### Records and tagged values -/

/-- A field of a record: its key, and what stands for it where an object lacks it and where
a list of field values ends before it. -/
structure Field where
  key : String
  absent : Option Json
  cut : Option Json

/-- Fields that must be given. -/
def required (keys : List String) : List Field := keys.map fun key => ⟨key, none, none⟩

/-- The values of the fields of a record, in the order of the fields.  A record is an
object, whose other members do not matter and whose fields occur once, or the list of its
field values. -/
def record (fields : List Field) : Json → Option (List Json)
  | obj members => fields.mapM fun field =>
    match members.filter (·.1 == field.key) with
    | [] => field.absent
    | [(_, v)] => some v
    | _ => none
  | arr items =>
    if items.length ≤ fields.length then
      fields.zipIdx.mapM fun (field, n) => (items[n]?).or field.cut
    else none
  | _ => none

/-- A tag without content: a string, or the only key of an object with null. -/
def tag? : Json → Option String
  | str s => some s
  | obj [(s, null)] => some s
  | _ => none

/-- A tag with content: the only key of an object. -/
def tagged? : Json → Option (String × Json)
  | obj [(s, v)] => some (s, v)
  | _ => none

/-- A tag with content. -/
def tagged (tag : String) (content : Json) : Json := obj [(tag, content)]

end Json

end KernelCoarsening
