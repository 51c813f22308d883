/-
When a function has no flaws.

Blocks in shape have no flaws but in their phis, and a phi has none if it names the blocks that
lead to it, as far as control comes to them:

* `Func.PhisMatch` — the phis of a function name the blocks that lead to them;
* `Func.flawless_iff` — a function has no flaws exactly if its blocks are in shape and its phis
  match.
-/
import KernelCoarsening.Proofs.Ir.Shape

namespace KernelCoarsening

theorem firstM?_eq_none_iff {ε α β : Type} {ask : α → Except ε (Option β)} {xs : List α} :
    firstM? ask xs = .ok none ↔ ∀ x ∈ xs, ask x = .ok none := by
  refine ⟨fun none x hx => firstM?_eq_none none hx, fun each => ?_⟩
  induction xs with
  | nil => rfl
  | cons x xs ih =>
    rw [List.forall_mem_cons] at each
    rw [firstM?, each.1]
    exact ih each.2

namespace Func

variable {f : Func} {g : Graph} {b : BlockId} {i : InstId}

theorem sameMembers_iff {xs ys : List BlockId} : sameMembers xs ys = true ↔ ∀ p, p ∈ xs ↔ p ∈ ys := by
  simp only [sameMembers, Bool.and_eq_true, List.all_eq_true, List.contains_iff_mem]
  constructor
  · rintro ⟨there, back⟩ p
    exact ⟨there p, back p⟩
  · intro same
    exact ⟨fun p => (same p).mp, fun p => (same p).mpr⟩

/-- The phis of blocks that control comes to name, of the blocks that control comes to, those
that lead to them. -/
def PhisMatch (f : Func) (g : Graph) : Prop :=
  ∀ i b incoming ty, f.blockOf i = some b → g.Reaches f.entry.index b.index →
    f.line i = some (.phi incoming, ty) → ∀ p : BlockId, g.Reaches f.entry.index p.index →
      (p ∈ incoming.map (·.2) ↔ b.index ∈ g.next p.index)

/-! ### Instructions -/

/-- An instruction at its place that reads placed instructions is passed over. -/
theorem instFlaw?_cons {begun : Bool} {rest : List InstId} {op : Operation} {ty : Ty}
    (line : f.line i = some (op, ty)) (alone : op.isTerminator = true → rest = [])
    (early : op.isPhi = true → begun = false) (live : ∀ j ∈ op.usedInsts, f.isLive j) :
    f.instFlaw? b begun (i :: rest) = f.instFlaw? b (begun || !op.isPhi) rest := by
  obtain ⟨inst, hi, rfl, rfl⟩ := inst_of_line line
  have inside : (inst.op.isTerminator && !rest.isEmpty) = false := by
    by_contra bad
    obtain ⟨term, more⟩ : inst.op.isTerminator = true ∧ rest ≠ [] := by simpa using bad
    exact more (alone term)
  have first : (inst.op.isPhi && begun) = false := by
    by_contra bad
    obtain ⟨phi, late⟩ : inst.op.isPhi = true ∧ begun = true := by simpa using bad
    simp [early phi] at late
  have read : (inst.op.usedInsts.any fun used => !f.isLive used) = false := by
    simpa using live
  rw [instFlaw?, hi]
  simp only [bind, Except.bind, inside, first, read, Bool.false_eq_true, if_false]

/-- A block in shape whose instructions read placed instructions has no flaw in its
instructions. -/
theorem instFlaw?_of_shape {phis body : List InstId} {last : InstId}
    (shape : f.outline.Shape b phis body last)
    (live : ∀ i ∈ f.code b, ∀ op ty, f.line i = some (op, ty) → ∀ j ∈ op.usedInsts, f.isLive j) :
    f.instFlaw? b false (f.code b) = .ok none := by
  have code : f.code b = phis ++ (body ++ [last]) := shape.code
  -- behind the phis it does not matter whether something that is no phi came before
  have tail : ∀ (rest : List InstId) (begun : Bool), (∀ i ∈ rest, i ∈ body) →
      f.instFlaw? b begun (rest ++ [last]) = .ok none := by
    intro rest
    induction rest with
    | nil =>
      intro begun _
      obtain ⟨op, ty, line, term⟩ := shape.last
      rw [List.nil_append, instFlaw?_cons line (fun _ => rfl)
        (fun phi => by simp [Operation.not_isPhi_of_isTerminator term] at phi)
        (live last (by simp [code]) op ty line)]
      rfl
    | cons i rest ih =>
      intro begun sub
      rw [List.forall_mem_cons] at sub
      obtain ⟨op, ty, line, phi, term⟩ := shape.body i sub.1
      rw [List.cons_append, instFlaw?_cons line (by simp [term]) (by simp [phi])
        (live i (by simp [code, sub.1]) op ty line)]
      exact ih _ sub.2
  have all : ∀ rest : List InstId, (∀ i ∈ rest, i ∈ phis) →
      f.instFlaw? b false (rest ++ (body ++ [last])) = .ok none := by
    intro rest
    induction rest with
    | nil => exact fun _ => tail body false fun i hi => hi
    | cons i rest ih =>
      intro sub
      rw [List.forall_mem_cons] at sub
      obtain ⟨op, ty, line, phi⟩ := shape.phis i sub.1
      have noEnd : op.isTerminator = false := by
        by_contra term
        simp [Operation.not_isPhi_of_isTerminator (by simpa using term)] at phi
      rw [List.cons_append, instFlaw?_cons line (by simp [noEnd]) (fun _ => rfl)
        (live i (by simp [code, sub.1]) op ty line), phi]
      exact ih sub.2
  rw [code]
  exact all phis fun i hi => hi

/-! ### Phis -/

section

variable {reachable : List BlockId}

/-- The blocks that a phi should name. -/
theorem mem_expected (consistent : f.Consistent) (hg : f.graph = .ok g)
    (listed : f.reversePostorder = .ok reachable) {p : BlockId} :
    p ∈ (((g.sources b.index).map BlockId.mk).filter fun p =>
      f.layout.contains p && reachable.contains p) ↔ b.index ∈ g.next p.index ∧ p ∈ reachable := by
  simp only [List.mem_filter, List.mem_map, Graph.mem_sources, Bool.and_eq_true,
    List.contains_iff_mem]
  constructor
  · rintro ⟨⟨u, edge, rfl⟩, -, mem⟩
    exact ⟨edge, mem⟩
  · rintro ⟨edge, mem⟩
    obtain ⟨body, reached⟩ := (mem_reversePostorder consistent hg listed).mp mem
    refine ⟨⟨p.index, edge, rfl⟩, (consistent.mem_layout p).mpr ?_, mem⟩
    rw [← size_graph hg]
    exact reached.lt_size (entry_lt_size consistent body hg)

/-- The phis of a block have no flaw exactly if they match. -/
theorem phiFlaw?_eq_none_iff (consistent : f.Consistent) (hg : f.graph = .ok g)
    (listed : f.reversePostorder = .ok reachable) {phis : List InstId}
    (hphis : f.phis b = .ok phis) (does : ∀ i ∈ phis, f.outline.Does i fun op => op.isPhi = true) :
    f.phiFlaw? reachable b (((g.sources b.index).map BlockId.mk).filter fun p =>
        f.layout.contains p && reachable.contains p) = .ok none ↔
      ∀ i ∈ phis, ∀ incoming ty, f.line i = some (.phi incoming, ty) → ∀ p ∈ reachable,
        (p ∈ incoming.map (·.2) ↔ b.index ∈ g.next p.index) := by
  simp only [phiFlaw?, hphis, bind, Except.bind, firstM?_eq_none_iff]
  refine forall₂_congr fun i hi => ?_
  obtain ⟨op, ty, line, phi⟩ := does i hi
  obtain ⟨inst, hinst, rfl, rfl⟩ := inst_of_line (show f.line i = _ from line)
  cases hop : inst.op with
  | phi incoming =>
    have own : ∀ incoming' ty, f.line i = some (.phi incoming', ty) ↔
        incoming = incoming' ∧ inst.ty = ty := by
      intro incoming' ty
      simp [show f.line i = _ from line, hop]
    have named : ∀ p, p ∈ (incoming.map (·.2)).filter reachable.contains ↔
        p ∈ incoming.map (·.2) ∧ p ∈ reachable := by
      simp [List.mem_filter]
    simp only [hinst, hop, own]
    constructor
    · intro none incoming' ty same p hp
      obtain ⟨rfl, -⟩ := same
      split at none
      · rename_i members
        have := sameMembers_iff.mp members p
        rw [named, mem_expected consistent hg listed] at this
        simpa [hp] using this
      · cases hl : f.label b <;> simp [hl, pure, Except.pure] at none
    · intro match'
      rw [if_pos]
      · rfl
      · rw [sameMembers_iff]
        intro p
        rw [named, mem_expected consistent hg listed]
        constructor
        · rintro ⟨mem, hp⟩
          exact ⟨(match' incoming inst.ty ⟨rfl, rfl⟩ p hp).mp mem, hp⟩
        · rintro ⟨edge, hp⟩
          exact ⟨(match' incoming inst.ty ⟨rfl, rfl⟩ p hp).mpr edge, hp⟩
  | _ => simp [hop, Operation.isPhi] at phi

end

/-! ### Functions -/

/-- A block in shape has no flaw exactly if its phis match, or if control never comes to it. -/
theorem blockFlaw?_eq_none_iff (formed : f.outline.Formed) (hg : f.graph = .ok g)
    {reachable : List BlockId} (listed : f.reversePostorder = .ok reachable)
    (inside : b.index < f.blocks.size) :
    f.blockFlaw? g reachable b = .ok none ↔ (b ∈ reachable → ∀ i incoming ty,
      f.blockOf i = some b → f.line i = some (.phi incoming, ty) → ∀ p ∈ reachable,
        (p ∈ incoming.map (·.2) ↔ b.index ∈ g.next p.index)) := by
  have consistent : f.Consistent := consistent_iff.mpr formed.consistent
  obtain ⟨block, hblock, insts⟩ := exists_block inside
  obtain ⟨phis, body, last, shape⟩ := formed.formed b inside
  have sound : f.instFlaw? b false block.insts = .ok none := by
    rw [insts]
    exact instFlaw?_of_shape shape fun i hi op ty line j hj =>
      formed.operands i op ty (Option.isSome_of_eq_some (consistent.mem_code.mp hi)) line j hj
  have own : ∀ i incoming ty, f.line i = some (.phi incoming, ty) →
      (i ∈ phis ↔ f.blockOf i = some b) := by
    intro i incoming ty line
    rw [← consistent.mem_code, ← shape.phis_eq, shape.mem_phis]
    exact and_iff_left (Outline.isPhi_of_does ⟨_, ty, line, rfl⟩)
  simp only [blockFlaw?, hblock, terminator_of_shape shape, sound, bind, Except.bind,
    Option.isNone_some, Bool.false_eq_true, if_false]
  by_cases comes : b ∈ reachable
  · rw [if_pos (by simpa using comes),
      phiFlaw?_eq_none_iff consistent hg listed (phis_of_shape shape) shape.phis]
    simp only [comes, true_implies]
    constructor
    · intro h i incoming ty placed line
      exact h i ((own i incoming ty line).mpr placed) incoming ty line
    · intro h i hi incoming ty line
      exact h i incoming ty ((own i incoming ty line).mp hi) line
  · rw [if_neg (by simpa using comes)]
    simp [comes, pure, Except.pure]

/-- A function has no flaws exactly if its blocks are in shape and its phis match. -/
theorem flawless_iff (consistent : f.Consistent) (hg : f.graph = .ok g) :
    f.firstFlaw? = .ok none ↔ f.outline.Formed ∧ f.PhisMatch g := by
  obtain ⟨reachable, listed⟩ : ∃ reachable, f.reversePostorder = .ok reachable := by
    simp [reversePostorder, hg, bind, Except.bind, pure, Except.pure]
  have slots : ∀ b, b ∈ f.layout ↔ b.index < f.blocks.size := consistent.mem_layout
  have whole : f.firstFlaw? = firstM? (f.blockFlaw? g reachable) f.layout := by
    simp [firstFlaw?, hg, listed, bind, Except.bind]
  have comes := fun b => mem_reversePostorder (b := b) consistent hg listed
  constructor
  · intro flawless
    have formed := formed_of_flawless consistent flawless
    refine ⟨formed, fun i b incoming ty placed reached line p hp => ?_⟩
    have inside := slot_of_mem_code (consistent.mem_code.mpr placed)
    have body := consistent.isDeclaration_of_slot inside
    rw [whole, firstM?_eq_none_iff] at flawless
    exact (blockFlaw?_eq_none_iff formed hg listed inside).mp
      (flawless b ((slots b).mpr inside)) ((comes b).mpr ⟨body, reached⟩) i incoming ty
        placed line p ((comes p).mpr ⟨body, hp⟩)
  · rintro ⟨formed, matches'⟩
    rw [whole, firstM?_eq_none_iff]
    intro b hb
    rw [blockFlaw?_eq_none_iff formed hg listed ((slots b).mp hb)]
    intro reached i incoming ty placed line p hp
    exact matches' i b incoming ty placed ((comes b).mp reached).2 line p ((comes p).mp hp).2

end Func

end KernelCoarsening
