/-
Finite maps as lists of entries.

A key has at most one entry that counts, the first one of its name.  `insert`
replaces an entry in place or adds one at the end, so the entries stay in the
order in which their keys came.

* `Assoc.get?_insert` — what a map answers after an insertion.
-/

namespace KernelCoarsening

/-- A finite map: a list of keys with their values. -/
abbrev Assoc (κ : Type) (ν : Type) := List (κ × ν)

namespace Assoc

variable {κ ν : Type} [DecidableEq κ]

/-- The value of a key. -/
def get? : Assoc κ ν → κ → Option ν
  | [], _ => none
  | (k, v) :: rest, key => if k = key then some v else get? rest key

/-- Gives a key a value, in place of the one it had. -/
def insert : Assoc κ ν → κ → ν → Assoc κ ν
  | [], key, value => [(key, value)]
  | (k, v) :: rest, key, value =>
    if k = key then (key, value) :: rest else (k, v) :: insert rest key value

/-- The keys of a map, in order. -/
def keys (m : Assoc κ ν) : List κ := m.map (·.1)

@[simp] theorem get?_insert (m : Assoc κ ν) (key other : κ) (value : ν) :
    (m.insert key value).get? other = if key = other then some value else m.get? other := by
  induction m with
  | nil => simp [insert, get?]
  | cons entry rest ih =>
    obtain ⟨k, v⟩ := entry
    grind [insert, get?]

end Assoc

end KernelCoarsening
