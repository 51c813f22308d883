/-
What has been repeated so far.

A value that coarsening repeats has a replica for every merged thread but the
first.  `ReplicaMap` knows the replicas of a value.  Where a replica is needed
before it exists, a placeholder is read in its place; `Placeholders` knows the
placeholders of a value and what each stands for once that is known.

* `ReplicaMap.get?_insert` — the first replicas that a value gets are its replicas.
-/
import KernelCoarsening.Data.Assoc
import KernelCoarsening.Ir.Operation

namespace KernelCoarsening

/-- The replicas of values. -/
structure ReplicaMap where
  entries : Assoc InstId (List InstId)

namespace ReplicaMap

def empty : ReplicaMap := ⟨[]⟩

/-- The replicas of a value. -/
def get? (m : ReplicaMap) (i : InstId) : Option (List InstId) := m.entries.get? i

/-- A value has replicas. -/
def contains (m : ReplicaMap) (i : InstId) : Bool := (m.get? i).isSome

/-- Gives a value its replicas, unless it has some. -/
def insert (m : ReplicaMap) (i : InstId) (replicas : List InstId) : ReplicaMap :=
  if m.contains i then m else ⟨m.entries.insert i replicas⟩

theorem get?_insert (m : ReplicaMap) (i j : InstId) (replicas : List InstId) :
    (m.insert i replicas).get? j
      = if i = j then some ((m.get? i).getD replicas) else m.get? j := by
  unfold insert contains get?
  cases h : m.entries.get? i <;> by_cases hij : i = j <;> simp_all

end ReplicaMap

/-- The placeholders of values, in the order in which the values got them, and what
placeholders stand for. -/
structure Placeholders where
  held : Assoc InstId (List InstId)
  replacements : Assoc InstId InstId

namespace Placeholders

def empty : Placeholders := ⟨[], []⟩

/-- The placeholders of a value. -/
def get? (p : Placeholders) (i : InstId) : Option (List InstId) := p.held.get? i

/-- Gives a value placeholders, in place of those it had. -/
def insert (p : Placeholders) (i : InstId) (placeholders : List InstId) : Placeholders :=
  { p with held := p.held.insert i placeholders }

/-- Lets the placeholders of a value stand for its replicas, as far as both go. -/
def record (p : Placeholders) (i : InstId) (replicas : List InstId) : Placeholders :=
  match p.get? i with
  | none => p
  | some placeholders =>
    let replacements := (placeholders.zip replicas).foldl
      (fun (m : Assoc InstId InstId) entry => m.insert entry.1 entry.2) p.replacements
    { p with replacements }

/-- What a placeholder stands for. -/
def replacement? (p : Placeholders) (placeholder : InstId) : Option InstId :=
  p.replacements.get? placeholder

/-- All placeholders. -/
def all (p : Placeholders) : List InstId := p.held.flatMap (·.2)

end Placeholders

end KernelCoarsening
