/-
Functions written down block by block.

The instructions of such a function are numbered in the order in which they are written, and so
are its blocks:

* `Func.assemble` — the function of a list of blocks;
* `Func.consistent_assemble` — its arenas and its layout agree, whatever is written.
-/
import KernelCoarsening.Ir.Func
import Mathlib.Data.List.Nodup

namespace KernelCoarsening

/-- An instruction as it is written: what it does, and the type and name of its result. -/
structure Line where
  op : Operation
  ty : Ty
  name : String

namespace Func

/-- The slots of written blocks, of which the first has number `b` and begins with instruction
number `n`. -/
def slots (b n : Nat) : List (String × List Line) → List Block × List Inst
  | [] => ([], [])
  | (name, lines) :: rest =>
    let (blocks, insts) := slots (b + 1) (n + lines.length) rest
    (⟨name, (List.range' n lines.length).map InstId.mk⟩ :: blocks,
      lines.map (fun line => ⟨line.op, line.ty, line.name, some ⟨b⟩⟩) ++ insts)

/-- The kernel that is written down as a list of blocks. -/
def assemble (name : String) (params : List Param) (written : List (String × List Line)) : Func :=
  let (blocks, insts) := slots 0 0 written
  { name, params, returnTy := .void, convention := .kernel, blocks := blocks.toArray
    layout := (List.range blocks.length).map BlockId.mk, insts := insts.toArray }

section slots

variable {b n : Nat} {name : String} {lines : List Line} {rest : List (String × List Line)}

theorem slots_own {j : Nat} (inside : j < lines.length) :
    (slots b n ((name, lines) :: rest)).2[j]? =
      some ⟨lines[j].op, lines[j].ty, lines[j].name, some ⟨b⟩⟩ := by
  simp [slots, List.getElem?_append_left, inside]

theorem slots_later {j : Nat} (beyond : lines.length ≤ j) :
    (slots b n ((name, lines) :: rest)).2[j]? =
      (slots (b + 1) (n + lines.length) rest).2[j - lines.length]? := by
  simp [slots, List.getElem?_append_right, beyond]

/-- Every written instruction is placed in one of the written blocks. -/
theorem block_of_slots {written : List (String × List Line)} {j : Nat} {inst : Inst}
    (h : (slots b n written).2[j]? = some inst) :
    ∃ k, k < (slots b n written).1.length ∧ inst.block = some ⟨b + k⟩ := by
  induction written generalizing b n j with
  | nil => simp [slots] at h
  | cons first rest ih =>
    obtain ⟨name, lines⟩ := first
    by_cases inside : j < lines.length
    · rw [slots_own inside] at h
      obtain rfl : _ = inst := by simpa using h
      exact ⟨0, by simp [slots], rfl⟩
    · rw [slots_later (by omega)] at h
      obtain ⟨k, small, place⟩ := ih h
      exact ⟨k + 1, by simpa [slots] using small, by rw [place]; congr 2; omega⟩

/-- A block lists an instruction exactly if the instruction is placed in it. -/
theorem mem_slots {written : List (String × List Line)} {k : Nat} {block : Block}
    (h : (slots b n written).1[k]? = some block) (i : InstId) :
    i ∈ block.insts ↔ n ≤ i.index ∧ ∃ inst, (slots b n written).2[i.index - n]? = some inst ∧
      inst.block = some ⟨b + k⟩ := by
  induction written generalizing b n k with
  | nil => simp [slots] at h
  | cons first rest ih =>
    obtain ⟨name, lines⟩ := first
    cases k with
    | zero =>
      obtain rfl : _ = block := by simpa [slots] using h
      simp only [List.mem_map, List.mem_range'_1]
      constructor
      · rintro ⟨j, ⟨low, high⟩, rfl⟩
        exact ⟨low, _, slots_own (show j - n < lines.length by omega), rfl⟩
      · rintro ⟨low, inst, hi, place⟩
        refine ⟨i.index, ⟨low, ?_⟩, rfl⟩
        -- instructions behind those of the block are placed in later blocks
        by_contra high
        rw [slots_later (by omega)] at hi
        obtain ⟨k, -, later⟩ := block_of_slots hi
        have same : b + 1 + k = b + 0 := by simpa [later] using place
        omega
    | succ k =>
      have h' : (slots (b + 1) (n + lines.length) rest).1[k]? = some block := by
        simpa [slots] using h
      rw [ih h', show b + 1 + k = b + (k + 1) by omega]
      constructor
      · rintro ⟨low, inst, hi, place⟩
        refine ⟨by omega, inst, ?_, place⟩
        rw [slots_later (by omega),
          show i.index - n - lines.length = i.index - (n + lines.length) by omega]
        exact hi
      · rintro ⟨low, inst, hi, place⟩
        by_cases inside : i.index - n < lines.length
        · rw [slots_own inside] at hi
          obtain rfl : _ = inst := by simpa using hi
          exact absurd place (by simp)
        · rw [slots_later (by omega)] at hi
          refine ⟨by omega, inst, ?_, place⟩
          rw [show i.index - (n + lines.length) = i.index - n - lines.length by omega]
          exact hi

theorem nodup_slots {written : List (String × List Line)} {k : Nat} {block : Block}
    (h : (slots b n written).1[k]? = some block) : block.insts.Nodup := by
  induction written generalizing b n k with
  | nil => simp [slots] at h
  | cons first rest ih =>
    obtain ⟨name, lines⟩ := first
    cases k with
    | zero =>
      obtain rfl : _ = block := by simpa [slots] using h
      exact List.Nodup.map (fun _ _ same => by simpa using same) List.nodup_range'
    | succ k => exact ih (k := k) (by simpa [slots] using h)

end slots

/-- A function that is written down block by block is consistent. -/
theorem consistent_assemble (name : String) (params : List Param)
    (written : List (String × List Line)) : (assemble name params written).Consistent where
  layout_nodup := List.Nodup.map (fun _ _ same => by simpa using same) List.nodup_range
  mem_layout := by
    intro b
    simp only [assemble, List.mem_map, List.mem_range, List.size_toArray]
    constructor
    · rintro ⟨k, small, rfl⟩
      exact small
    · intro small
      exact ⟨b.index, small, rfl⟩
  insts_nodup := by
    intro k block h
    exact nodup_slots (b := 0) (n := 0) (by simpa [assemble] using h)
  mem_insts := by
    intro b block h i
    rw [mem_slots (b := 0) (n := 0) (k := b.index) (by simpa [assemble] using h) i]
    simp [assemble]
  block_exists := by
    intro i inst b h place
    have h : (slots 0 0 written).2[i.index]? = some inst := by simpa [assemble] using h
    obtain ⟨k, small, place'⟩ := block_of_slots h
    obtain rfl : b = ⟨0 + k⟩ := by simpa [place] using place'
    simpa [assemble] using small

end Func

end KernelCoarsening
