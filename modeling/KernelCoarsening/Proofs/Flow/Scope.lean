/-
Whether definitions dominate their uses can be computed.

* `Func.ReadsValues` — no operand names a terminator;
* `Func.available_iff_mem`, `Func.available_of_scoped` — what is there at a place of a block;
* `Func.scoped_iff` — a function reads only what is there exactly if a search through its
  instructions, which asks the dominator tree, finds nothing else.
-/
import KernelCoarsening.Proofs.Flow.Loops
import KernelCoarsening.Proofs.Ir.Outline

namespace KernelCoarsening

namespace Func

variable {f : Func} {g : Graph}

/-- No operand of a placed instruction names a terminator. -/
def ReadsValues (f : Func) : Prop :=
  ∀ inst ∈ f.insts.toList, inst.block.isSome → ∀ i ∈ inst.op.usedInsts,
    (f.operation i).toOption.all (!·.isTerminator)

instance (f : Func) : Decidable f.ReadsValues :=
  inferInstanceAs (Decidable (∀ inst ∈ f.insts.toList, _ → ∀ i ∈ inst.op.usedInsts, _))

/-- The dominator tree says that the result of an instruction is there. -/
def isAvailable (f : Func) (dom : DominatorTree) (i : InstId) (b : BlockId) (place : Nat) : Bool :=
  match f.position i with
  | .ok (some (source, n)) =>
    if source = b then n < place else !dom.isReachable b || dom.dominates source b
  | _ => false

/-- The dominator tree says that an instruction reads what is there. -/
def hasReads (f : Func) (dom : DominatorTree) (b : BlockId) (place : Nat) : Operation → Bool
  | .phi incoming => incoming.all fun (v, source) =>
    match v.inst?, f.block source with
    | some i, .ok block => f.isAvailable dom i source block.insts.length
    | _, _ => true
  | op => op.usedInsts.all fun i => f.isAvailable dom i b place

/-- The dominator tree says that the instructions of reachable blocks read what is there. -/
def isScoped (f : Func) (dom : DominatorTree) : Bool :=
  f.blockIds.all fun b => !dom.isReachable b ||
    match f.block b with
    | .ok block => block.insts.zipIdx.all fun (i, place) =>
      match f.operation i with
      | .ok op => f.hasReads dom b place op
      | .error _ => true
    | .error _ => true

/-! ### What is there -/

section

variable {b : BlockId} {j : InstId}

/-- At a place of a block is there what stands before it in the block, and what stands in blocks
that dominate it. -/
theorem available_iff_mem (consistent : f.Consistent) {before after : List InstId}
    (code : f.code b = before ++ after) : f.Available g j b before.length ↔ j ∈ before ∨
      ∃ source, source ≠ b ∧ f.blockOf j = some source ∧
        g.Dominates f.entry.index source.index b.index := by
  have position : ∀ {d}, f.blockOf j = some d → ∃ front back, f.code d = front ++ j :: back ∧
      f.position j = .ok (some (d, front.length)) := fun home => by
    obtain ⟨front, back, split⟩ := List.append_of_mem (consistent.mem_code.mpr home)
    exact ⟨front, back, split, consistent.position split⟩
  constructor
  · rintro ⟨source, n, place, there⟩
    obtain ⟨d, home⟩ : ∃ d, f.blockOf j = some d := by
      cases home : f.blockOf j with
      | none => simp [Func.position, home] at place
      | some d => exact ⟨d, rfl⟩
    obtain ⟨front, back, split, place'⟩ := position home
    obtain ⟨rfl, rfl⟩ : d = source ∧ front.length = n := by simpa [place'] using place
    by_cases here : d = b
    · subst here
      rw [if_pos rfl] at there
      have found : (before ++ after)[front.length]? = some j := by simp [← code, split]
      rw [List.getElem?_append_left there] at found
      exact .inl (List.mem_of_getElem? found)
    · exact .inr ⟨d, here, home, by simpa [here] using there⟩
  · rintro (mem | ⟨source, other, home, dominates⟩)
    · obtain ⟨front, back, rfl⟩ := List.append_of_mem mem
      exact ⟨b, front.length, consistent.position (by rw [code, List.append_assoc]; rfl), by simp⟩
    · obtain ⟨front, back, -, place⟩ := position home
      exact ⟨source, front.length, place, by simpa [other] using dominates⟩

theorem readsAvailable_of_plain {place : Nat} {op : Operation} (plain : op.isPhi = false) :
    f.ReadsAvailable g b place op ↔ ∀ i ∈ op.usedInsts, f.Available g i b place := by
  cases op <;> first | rfl | simp [Operation.isPhi] at plain

theorem blockOf_of_available {x : InstId} {b : BlockId} {place : Nat}
    (h : f.Available g x b place) :
    ∃ j, f.blockOf x = some j ∧ (j = b ∨ g.Dominates f.entry.index j.index b.index) := by
  obtain ⟨source, n, position, available⟩ := h
  refine ⟨source, ?_, ?_⟩
  · unfold Func.position at position
    split at position
    · simp at position
    · rename_i b' place
      obtain ⟨block, -, answer⟩ := bind_eq_ok_iff.mp position
      have answer := Except.ok.inj answer
      simp only [Option.map_eq_some_iff, Prod.mk.injEq] at answer
      obtain ⟨_, _, rfl, _⟩ := answer
      exact place
  · by_cases same : source = b
    · exact .inl same
    · exact .inr (by simpa [same] using available)

/-- A read that is no phi happens where the reader is. -/
theorem available_of_scoped (inScope : f.Scoped g) {b : BlockId} {block : Block}
    {before rest : List InstId} {i x : InstId} {op : Operation}
    (reached : g.Reaches f.entry.index b.index) (hb : f.block b = .ok block)
    (shape : block.insts = before ++ i :: rest) (hop : f.operation i = .ok op)
    (plain : op.isPhi = false) (reads : x ∈ op.usedInsts) :
    f.Available g x b before.length := by
  have here : block.insts[before.length]? = some i := by simp [shape]
  have available := inScope b block before.length i op reached hb here hop
  exact (readsAvailable_of_plain plain).mp available x reads

end

/-! ### The search -/

variable (entry : f.entry.index < g.size) (body : f.isDeclaration = false)

include entry body

theorem available_iff {i : InstId} {b : BlockId} {place : Nat} :
    f.Available g i b place ↔ f.isAvailable (f.dominators g) i b place := by
  unfold Available isAvailable
  constructor
  · rintro ⟨source, n, position, there⟩
    simp only [position]
    split
    · rename_i same
      simpa [same] using there
    · rename_i other
      rw [if_neg other] at there
      by_cases reached : g.Reaches f.entry.index b.index
      · simp [(dominates_dominators entry body reached).mpr there]
      · simp [(isReachable_dominators entry body).not.mpr reached]
  · intro there
    split at there
    · rename_i source n position
      refine ⟨source, n, position, ?_⟩
      split at there
      · rename_i same
        simpa [same] using there
      · rename_i other
        rw [if_neg other]
        intro nodes p
        have reached : g.Reaches f.entry.index b.index := ⟨nodes, p⟩
        rw [(isReachable_dominators entry body).mpr reached] at there
        exact (dominates_dominators entry body reached).mp (by simpa using there) nodes p
    · simp at there

theorem readsAvailable_iff {b : BlockId} {place : Nat} {op : Operation} :
    f.ReadsAvailable g b place op ↔ f.hasReads (f.dominators g) b place op := by
  cases op with
  | phi incoming =>
    simp only [ReadsAvailable, hasReads, List.all_eq_true, Prod.forall]
    constructor
    · intro there v source listed
      split
      · rename_i i block isInst hb
        obtain rfl : v = .inst i := by cases v <;> simp_all [Value.inst?]
        exact (available_iff entry body).mp (there i source listed block hb)
      · rfl
    · intro there i source listed block hb
      have := there (.inst i) source listed
      simp only [Value.inst?, hb] at this
      exact (available_iff entry body).mpr this
  | _ => simp [ReadsAvailable, hasReads, available_iff entry body]

theorem scoped_iff (hg : f.graph = .ok g) : f.Scoped g ↔ f.isScoped (f.dominators g) := by
  simp only [Scoped, isScoped, List.all_eq_true]
  constructor
  · intro reads b _
    by_cases reached : g.Reaches f.entry.index b.index
    · split
      · rename_i block hb
        simp only [Bool.or_eq_true, List.all_eq_true, Prod.forall]
        refine .inr fun i place listed => ?_
        split
        · rename_i op hop
          exact (readsAvailable_iff entry body).mp (reads b block place i op reached hb
            (List.mem_zipIdx_iff_getElem?.mp listed) hop)
        · rfl
      · simp
    · simp [(isReachable_dominators entry body).not.mpr reached]
  · intro check b block place i op reached hb here hop
    have slot : b ∈ f.blockIds := by
      rw [mem_blockIds, ← size_graph hg]
      exact reached.lt_size entry
    have := check b slot
    rw [(isReachable_dominators entry body).mpr reached, hb] at this
    simp only [Bool.not_true, Bool.false_or, List.all_eq_true, Prod.forall] at this
    have := this i place (List.mem_zipIdx_iff_getElem?.mpr here)
    rw [hop] at this
    exact (readsAvailable_iff entry body).mpr this

omit entry in
theorem scoped_iff_flow {flow : Flow} (hflow : f.flow = .ok flow)
    (entry : f.entry.index < f.blocks.size) : f.Scoped flow.graph ↔ f.isScoped flow.dom := by
  obtain ⟨g, hg, rfl⟩ := map_eq_ok_iff.mp hflow
  exact scoped_iff (entry.trans_eq (size_graph hg).symm) body hg

end Func

end KernelCoarsening
