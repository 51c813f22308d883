/-
Memory: buffers of words.

An address is a buffer and a place in it.  What is computed at run time is a
number, an address, or undefined.

* `Memory.read_write` — what a write does to reads.
-/

namespace KernelCoarsening

/-- An address: a buffer and a place in it, which may lie outside. -/
structure Address where
  buffer : Nat
  offset : Int64
  deriving DecidableEq

/-- A value at run time. -/
inductive Datum where
  | number (n : Int64)
  | address (a : Address)
  | undefined
  deriving DecidableEq

/-- The contents of all buffers. -/
structure Memory where
  buffers : List (List Int64)
  deriving DecidableEq

namespace Memory

/-- The place of an address in its buffer, unless it lies before it. -/
def place? (a : Address) : Option Nat :=
  if 0 ≤ a.offset.toInt then some a.offset.toInt.toNat else none

/-- The word at an address. -/
def read (m : Memory) (a : Address) : Option Int64 := do
  (← m.buffers[a.buffer]?)[← place? a]?

/-- Changes the word at an address. -/
def write (m : Memory) (a : Address) (n : Int64) : Option Memory := do
  let buffer ← m.buffers[a.buffer]?
  let place ← place? a
  if place < buffer.length then some ⟨m.buffers.set a.buffer (buffer.set place n)⟩ else none

/-- Adds a buffer of zeros, and says where it starts. -/
def allocate (m : Memory) (length : Nat) : Memory × Address :=
  (⟨m.buffers ++ [List.replicate length 0]⟩, ⟨m.buffers.length, 0⟩)

/-- Different addresses have different places. -/
theorem place?_inj {a b : Address} {n : Nat} (hb : a.buffer = b.buffer) (ha : place? a = some n)
    (h : place? b = some n) : a = b := by
  obtain ⟨ab, ao⟩ := a
  obtain ⟨bb, bo⟩ := b
  simp only [place?, Option.ite_none_right_eq_some, Option.some.injEq] at ha h hb
  obtain ⟨ha, ha'⟩ := ha
  obtain ⟨h, h'⟩ := h
  subst hb
  have : ao.toInt = bo.toInt := by omega
  rw [Int64.toInt_inj] at this
  rw [this]

theorem read_write {m m' : Memory} {a : Address} {n : Int64} (h : m.write a n = some m')
    (b : Address) : m'.read b = if a = b then some n else m.read b := by
  simp only [write, Option.bind_eq_bind, Option.bind_eq_some_iff, Option.ite_none_right_eq_some,
    Option.some.injEq] at h
  obtain ⟨buffer, hbuffer, place, hplace, hlt, rfl⟩ := h
  have hsize : a.buffer < m.buffers.length := (List.getElem?_eq_some_iff.mp hbuffer).1
  by_cases hab : a.buffer = b.buffer
  · cases hb : place? b with
    | none =>
      have : a ≠ b := by rintro rfl; simp [hplace] at hb
      simp [read, hb, this]
    | some other =>
      have old : m.buffers[b.buffer]? = some buffer := hab ▸ hbuffer
      have new : (m.buffers.set a.buffer (buffer.set place n))[b.buffer]?
          = some (buffer.set place n) := by
        rw [← hab, List.getElem?_set_self hsize]
      by_cases hp : place = other
      · subst hp
        have : a = b := place?_inj hab hplace hb
        subst this
        simp [read, new, hb, hlt]
      · have : a ≠ b := by
          rintro rfl
          exact hp (Option.some.inj (hplace.symm.trans hb))
        simp [read, new, old, hb, this, hp]
  · have : a ≠ b := by
      rintro rfl
      exact hab rfl
    simp [read, List.getElem?_set_ne hab, this]

end Memory

end KernelCoarsening
