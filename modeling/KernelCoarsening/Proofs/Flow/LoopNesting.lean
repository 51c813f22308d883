/-
Loops are nested as the forest says.

Two natural loops with different headers are disjoint, or one lies inside the other: if they share
a block, one of them holds the header of the other, and then it holds all of it.  In a list where
larger loops come first, the loops around a block are therefore the loops that hold it, read
backwards:

* `Graph.NaturalLoop.head_or_head`, `Graph.NaturalLoop.subset_of_head` — how two loops lie;
* `LoopForest.Nested`, `LoopForest.Settled` — the list that the forest is built from, and what
  building it adds;
* `LoopForest.enclosing_eq`, `LoopForest.depth_eq` — what the forest answers;
* `Func.loops_exact` — what the forest of a function says about its blocks.
-/
import KernelCoarsening.Proofs.Flow.Loops
import KernelCoarsening.Proofs.Ir.Assembly
import Mathlib

namespace KernelCoarsening

/-! ### Two natural loops -/

namespace Graph.NaturalLoop

variable {g : Graph} {root a b v : Nat} {A B : Nat → Prop}

/-- Of two loops that share a node, one holds the header of the other. -/
theorem head_or_head (hA : g.NaturalLoop root a A) (hB : g.NaturalLoop root b B) (inA : A v)
    (inB : B v) : A b ∨ B a := by
  obtain ⟨nodes, p⟩ := hB.reached inB
  obtain ⟨behind, q, stays⟩ := hB.path_inside (.refl g root) p (hB.dominates inB nodes p) inB
  by_cases hb : A b
  · exact .inl hb
  · exact .inr (stays a (hA.header_mem (hB.reached hB.head) hb q inA))

/-- A loop does not hold the header of another that holds its own. -/
theorem not_head (hA : g.NaturalLoop root a A) (hB : g.NaturalLoop root b B) (other : a ≠ b)
    (hb : A b) : ¬ B a := by
  intro ha
  exact other ((hA.dominates hb).antisymm (hB.dominates ha) (hA.reached hA.head))

/-- A loop that holds the header of another holds all of it. -/
theorem subset_of_head (hA : g.NaturalLoop root a A) (hB : g.NaturalLoop root b B) (other : a ≠ b)
    (hb : A b) (hv : B v) : A v := by
  -- a way to the header of the inner loop that stays in it does not pass the outer header
  have back : ∀ {u x nodes}, g.Path u x nodes → A x → (∀ y ∈ nodes, B y) → A u := by
    intro u x nodes p
    induction p with
    | stay x => exact fun hx _ => hx
    | @go u w x nodes edge rest ih =>
      intro hx stays
      have hw : A w := ih hx fun y hy => stays y (List.mem_cons_of_mem _ hy)
      refine hA.closed (hB.reached (stays u (by simp))) edge hw ?_
      rintro rfl
      exact hA.not_head hB other hb (stays w (List.mem_cons_of_mem _ rest.first_mem))
  obtain ⟨nodes, p, stays⟩ := hB.back hv
  exact back p hb stays

end Graph.NaturalLoop

/-! ### Loops in a list -/

namespace Loop

variable {inner outer lp : Loop}

/-- The blocks of a loop are some, but not all, of those of another. -/
def Inside (inner outer : Loop) : Prop :=
  inner.blocks ⊆ outer.blocks ∧ ¬ outer.blocks ⊆ inner.blocks

theorem Inside.length_lt (h : inner.Inside outer) (nodup : inner.blocks.Nodup) :
    inner.blocks.length < outer.blocks.length := by
  by_contra large
  have same := (nodup.subperm h.1).perm_of_length_le (Nat.le_of_not_lt large)
  exact h.2 same.symm.subset

/-- How a loop lies to one that comes earlier in the list: inside it or apart from it, and without
its header. -/
def Follows (outer inner : Loop) : Prop :=
  (inner.Inside outer ∨ inner.blocks.Disjoint outer.blocks) ∧ outer.header ∉ inner.blocks

theorem Follows.inside (h : outer.Follows inner) {b : BlockId} (hi : b ∈ inner.blocks)
    (ho : b ∈ outer.blocks) : inner.Inside outer :=
  h.1.resolve_right fun apart => apart hi ho

/-- Of two natural loops, one that is not larger lies inside the other or apart from it. -/
theorem follows_of_natural {g : Graph} {root : Nat}
    (ho : g.NaturalLoop root outer.header.index fun v => (⟨v⟩ : BlockId) ∈ outer.blocks)
    (hi : g.NaturalLoop root inner.header.index fun v => (⟨v⟩ : BlockId) ∈ inner.blocks)
    (other : outer.header ≠ inner.header) (nodup : outer.blocks.Nodup)
    (size : inner.blocks.length ≤ outer.blocks.length) : outer.Follows inner := by
  have other : outer.header.index ≠ inner.header.index := BlockId.index_inj.not.mpr other
  have free : outer.header ∉ inner.blocks := by
    intro held
    have within : outer.Inside inner :=
      ⟨fun b hb => hi.subset_of_head ho (Ne.symm other) held (v := b.index) hb,
        fun all => hi.not_head ho (Ne.symm other) held (all hi.head)⟩
    exact absurd (within.length_lt nodup) (Nat.not_lt.mpr size)
  refine ⟨?_, free⟩
  by_cases shared : ∃ b, b ∈ inner.blocks ∧ b ∈ outer.blocks
  · obtain ⟨b, inInner, inOuter⟩ := shared
    have held : inner.header ∈ outer.blocks :=
      (ho.head_or_head hi (v := b.index) inOuter inInner).resolve_right free
    exact .inl ⟨fun c hc => ho.subset_of_head hi other held (v := c.index) hc,
      fun all => free (all ho.head)⟩
  · exact .inr fun b inInner inOuter => shared ⟨b, inInner, inOuter⟩

/-- A loop without its place in the forest. -/
def bare (lp : Loop) : Loop := { lp with parent := none, depth := 1 }

end Loop

namespace LoopForest

variable {forest before after more : List Loop} {lp : Loop} {b : BlockId} {n : Nat}

/-- Loops that hold their headers, each inside earlier ones or apart from them. -/
structure Nested (forest : List Loop) : Prop where
  headed : ∀ lp ∈ forest, lp.header ∈ lp.blocks
  nodup : ∀ lp ∈ forest, lp.blocks.Nodup
  follows : forest.Pairwise Loop.Follows

/-- The places in the forest do not matter. -/
theorem Nested.of_bare (h : Nested (forest.map Loop.bare)) : Nested forest where
  headed lp hlp := h.headed lp.bare (List.mem_map.mpr ⟨lp, hlp, rfl⟩)
  nodup lp hlp := h.nodup lp.bare (List.mem_map.mpr ⟨lp, hlp, rfl⟩)
  follows := by
    have places := List.pairwise_map.mp h.follows
    exact places

theorem Nested.follows_of_mem (h : Nested (before ++ lp :: after)) :
    (∀ outer ∈ before, outer.Follows lp) ∧ ∀ inner ∈ after, lp.Follows inner := by
  obtain ⟨-, later, across⟩ := List.pairwise_append.mp h.follows
  exact ⟨fun outer ho => across outer ho lp (by simp), (List.pairwise_cons.mp later).1⟩

/-! ### Building the forest -/

/-- The last of larger loops that holds the header of a loop, with its place. -/
def around (forest : List Loop) (lp : Loop) : Option (Loop × Nat) :=
  (forest.zipIdx.filter fun (outer, _) =>
    lp.blocks.length < outer.blocks.length && outer.blocks.contains lp.header).getLast?

theorem add_eq (forest : List Loop) (new : lp.bare = lp) : add forest lp = forest ++ [{ lp with
    parent := (around forest lp).map (·.2)
    depth := ((around forest lp).map (·.1.depth)).getD 0 + 1 }] := by
  have last : forest.zipIdx.reverse.find? (fun (outer, _) =>
      lp.blocks.length < outer.blocks.length && outer.blocks.contains lp.header) =
        around forest lp := by
    rw [around, ← List.head?_filter, List.filter_reverse, List.head?_reverse]
  rw [add, last]
  cases around forest lp with
  | some entry => rfl
  | none =>
    rw [← new]
    rfl

/-- Every loop has the parent and the depth that it gets behind the loops before it. -/
def Settled (forest : List Loop) : Prop :=
  ∀ before lp after, forest = before ++ lp :: after →
    lp.parent = (around before lp).map (·.2) ∧
    lp.depth = ((around before lp).map (·.1.depth)).getD 0 + 1

theorem Settled.add (h : Settled forest) (new : lp.bare = lp) : Settled (add forest lp) := by
  rw [add_eq forest new]
  intro before last after shape
  rcases List.eq_nil_or_concat' after with rfl | ⟨after, x, rfl⟩
  · obtain ⟨rfl, same⟩ := List.append_inj' shape rfl
    obtain rfl : _ = last := by simpa using same
    exact ⟨rfl, rfl⟩
  · rw [← List.cons_append, ← List.append_assoc] at shape
    exact h before last after (List.append_inj' shape rfl).1

theorem settled_foldl (h : Settled forest) (new : ∀ lp ∈ more, lp.bare = lp) :
    Settled (more.foldl LoopForest.add forest) := by
  induction more generalizing forest with
  | nil => exact h
  | cons lp more ih =>
    exact ih (h.add (new lp (by simp))) fun lp hlp => new lp (List.mem_cons_of_mem _ hlp)

theorem map_bare_foldl (forest : List Loop) (new : ∀ lp ∈ more, lp.bare = lp) :
    (more.foldl LoopForest.add forest).map Loop.bare = forest.map Loop.bare ++ more := by
  induction more generalizing forest with
  | nil => simp
  | cons lp more ih =>
    have here : lp.bare = lp := new lp (by simp)
    rw [List.foldl_cons, ih _ fun lp hlp => new lp (List.mem_cons_of_mem _ hlp), add_eq forest here,
      List.map_append, List.append_assoc]
    congr 1
    rw [← here]
    rfl

/-! ### The loops that hold a block -/

/-- The places of the loops that hold a block. -/
def holders (forest : List Loop) (b : BlockId) : List Nat :=
  (forest.zipIdx.filter fun (lp, _) => lp.blocks.contains b).map (·.2)

theorem holders_concat : holders (before ++ [lp]) b =
    if b ∈ lp.blocks then holders before b ++ [before.length] else holders before b := by
  by_cases held : b ∈ lp.blocks <;> simp [holders, List.zipIdx_append, held]

theorem mem_holders : n ∈ holders forest b ↔ ∃ lp, forest[n]? = some lp ∧ b ∈ lp.blocks := by
  simp [holders, List.mem_zipIdx_iff_getElem?]

theorem filterMap_holders :
    (holders forest b).filterMap (forest[·]?) = forest.filter (·.blocks.contains b) := by
  have there : ∀ entry ∈ forest.zipIdx.filter fun (lp, _) => lp.blocks.contains b,
      forest[entry.2]? = some entry.1 := fun entry mem =>
    List.mem_zipIdx_iff_getElem?.mp (List.mem_of_mem_filter mem)
  calc (holders forest b).filterMap (forest[·]?)
      = (forest.zipIdx.filter fun (lp, _) => lp.blocks.contains b).map (·.1) := by
        rw [holders, List.filterMap_map]
        exact List.filterMap_eq_map_iff_forall_eq_some.mpr there
    _ = (forest.zipIdx.map (·.1)).filter (·.blocks.contains b) := by
        rw [List.filter_map]
        rfl
    _ = forest.filter (·.blocks.contains b) := by rw [List.zipIdx_map_fst]

theorem sorted_holders : (holders forest b).Pairwise (· < ·) := by
  have places : forest.zipIdx.map (·.2) = List.range' 0 forest.length :=
    List.zipIdx_map_snd 0 forest
  refine List.Pairwise.sublist (List.filter_sublist.map _) ?_
  rw [places]
  exact List.pairwise_lt_range'

theorem length_holders_le : (holders forest b).length ≤ forest.length := by
  simpa [holders] using List.length_filter_le (fun entry : Loop × Nat => entry.1.blocks.contains b)
    forest.zipIdx

/-- The loop around a loop is the last of those before it that hold a block of it. -/
theorem Nested.around_eq (h : Nested (before ++ lp :: after)) (hb : b ∈ lp.blocks) :
    (around before lp).map (·.2) = (holders before b).getLast? := by
  have same : ∀ entry ∈ before.zipIdx,
      (lp.blocks.length < entry.1.blocks.length && entry.1.blocks.contains lp.header) =
        entry.1.blocks.contains b := by
    rintro ⟨outer, n⟩ mem
    have listed := List.mem_of_getElem? (List.mem_zipIdx_iff_getElem?.mp mem)
    have follows := h.follows_of_mem.1 outer listed
    have headed := h.headed lp (by simp)
    rw [Bool.eq_iff_iff]
    simp only [Bool.and_eq_true, decide_eq_true_eq, List.contains_iff_mem]
    constructor
    · rintro ⟨-, held⟩
      exact (follows.inside headed held).1 hb
    · intro held
      have within := follows.inside hb held
      exact ⟨within.length_lt (h.nodup lp (by simp)), within.1 headed⟩
  rw [around, holders, List.getLast?_map, List.filter_congr same]

variable (nested : Nested forest) (settled : Settled forest)

include nested settled

/-- Going outward from the last loop of a part of the list that holds a block, one meets all of
that part that do. -/
theorem outward_holders (shape : forest = before ++ after) {fuel : Nat}
    (enough : (holders before b).length ≤ fuel) :
    outward ⟨forest⟩ fuel (holders before b).getLast? = (holders before b).reverse := by
  induction before using List.reverseRecOn generalizing after fuel with
  | nil => cases fuel <;> rfl
  | append_singleton before lp ih =>
    have shape : forest = before ++ lp :: after := by simpa using shape
    by_cases held : b ∈ lp.blocks
    · rw [holders_concat, if_pos held] at enough ⊢
      obtain ⟨fuel, rfl⟩ : ∃ rest, fuel = rest + 1 := ⟨fuel - 1, by simp at enough; omega⟩
      have there : forest[before.length]? = some lp := by simp [shape]
      have whole : Nested (before ++ lp :: after) := shape ▸ nested
      -- the parent is the last of the loops before that hold the block
      have parent : lp.parent = (holders before b).getLast? := by
        rw [(settled before lp after shape).1, whole.around_eq held]
      rw [List.getLast?_append, List.reverse_append]
      simp only [List.getLast?_singleton, Option.some_or, List.reverse_singleton,
        List.singleton_append, outward, there, Option.bind_some, parent]
      rw [ih shape (by simp at enough; omega)]
    · rw [holders_concat, if_neg held] at enough ⊢
      exact ih shape enough

/-- The depth of the last loop of a part of the list that holds a block is the number of those
that do. -/
theorem depth_holders (shape : forest = before ++ after)
    (last : (holders before b).getLast? = some n) (there : forest[n]? = some lp) :
    lp.depth = (holders before b).length := by
  induction before using List.reverseRecOn generalizing after n lp with
  | nil => simp [holders] at last
  | append_singleton before new ih =>
    have shape : forest = before ++ new :: after := by simpa using shape
    by_cases held : b ∈ new.blocks
    · rw [holders_concat, if_pos held] at last ⊢
      obtain rfl : before.length = n := by simpa using last
      obtain rfl : new = lp := by simpa [shape] using there
      have whole : Nested (before ++ new :: after) := shape ▸ nested
      have place := whole.around_eq held
      rw [(settled before new after shape).2, List.length_append]
      cases found : around before new with
      | none =>
        have none : holders before b = [] := by simpa [found] using place.symm
        simp [none]
      | some entry =>
        -- the loop around the new one is as deep as there are loops before that hold the block
        obtain ⟨outer, k⟩ := entry
        have mem := List.mem_of_mem_filter (List.mem_of_getLast? found)
        have old : before[k]? = some outer := List.mem_zipIdx_iff_getElem?.mp mem
        have there : forest[k]? = some outer := by
          rw [shape, List.getElem?_append_left (List.getElem?_eq_some_iff.mp old).1, old]
        have depth := ih shape (by simpa [found] using place.symm) there
        simp [depth]
    · rw [holders_concat, if_neg held] at last ⊢
      exact ih shape last there

/-- The loops around a block are those that hold it, the last one first. -/
theorem enclosing_eq : enclosing ⟨forest⟩ b = (holders forest b).reverse :=
  outward_holders nested settled (List.append_nil forest).symm length_holders_le

theorem depth_eq : depth ⟨forest⟩ b = (holders forest b).length := by
  unfold depth innermost?
  cases last : loopOf? ⟨forest⟩ b with
  | none =>
    have none : holders forest b = [] := List.getLast?_eq_none_iff.mp last
    simp [none]
  | some n =>
    obtain ⟨lp, there, -⟩ := mem_holders.mp (List.mem_of_getLast? last)
    have depth := depth_holders nested settled (List.append_nil forest).symm last there
    simp [there, depth]

omit settled

/-- Loops that hold one block lie inside each other, later ones inside earlier ones. -/
theorem pairwise_holders : (holders forest b).Pairwise fun m n =>
    ∃ outer inner, forest[m]? = some outer ∧ forest[n]? = some inner ∧ inner.Inside outer := by
  refine sorted_holders.imp_of_mem fun {m n} hm hn lt => ?_
  obtain ⟨outer, hm, ho⟩ := mem_holders.mp hm
  obtain ⟨inner, hn, hi⟩ := mem_holders.mp hn
  refine ⟨outer, inner, hm, hn, Loop.Follows.inside ?_ hi ho⟩
  obtain ⟨lm, rfl⟩ := List.getElem?_eq_some_iff.mp hm
  obtain ⟨ln, rfl⟩ := List.getElem?_eq_some_iff.mp hn
  exact List.pairwise_iff_getElem.mp nested.follows m n lm ln lt

/-- The innermost loop around a header is its own. -/
theorem loopOf?_header (there : forest[n]? = some lp) : loopOf? ⟨forest⟩ lp.header = some n := by
  obtain ⟨lt, rfl⟩ := List.getElem?_eq_some_iff.mp there
  have headed := nested.headed forest[n] (List.getElem_mem lt)
  have own : n ∈ holders forest forest[n].header := mem_holders.mpr ⟨_, there, headed⟩
  cases last : loopOf? ⟨forest⟩ forest[n].header with
  | none =>
    have none : holders forest forest[n].header = [] := List.getLast?_eq_none_iff.mp last
    simp [none] at own
  | some m =>
    -- no later loop holds the header
    have late : n ≤ m := by
      have sorted : (holders forest forest[n].header).Pairwise (· < ·) := sorted_holders
      obtain ⟨front, shape⟩ := List.getLast?_eq_some_iff.mp last
      change holders forest _ = _ at shape
      rw [shape] at own sorted
      rcases List.mem_append.mp own with early | same
      · exact Nat.le_of_lt ((List.pairwise_append.mp sorted).2.2 n early m (by simp))
      · exact Nat.le_of_eq (by simpa using same)
    obtain ⟨inner, hm, held⟩ := mem_holders.mp (List.mem_of_getLast? last)
    rcases Nat.lt_or_eq_of_le late with lt' | rfl
    · obtain ⟨lm, rfl⟩ := List.getElem?_eq_some_iff.mp hm
      exact absurd held (List.pairwise_iff_getElem.mp nested.follows n m lt lm lt').2
    · rfl

/-- A block is a header if a loop has it as its header. -/
theorem isHeader_iff : isHeader ⟨forest⟩ b = true ↔
    ∃ (n : Nat) (lp : Loop), forest[n]? = some lp ∧ lp.header = b := by
  simp only [isHeader, innermost?, Option.any_eq_true, Option.bind_eq_some_iff, beq_iff_eq]
  constructor
  · rintro ⟨lp, ⟨n, -, there⟩, same⟩
    exact ⟨n, lp, there, same⟩
  · rintro ⟨n, lp, there, rfl⟩
    exact ⟨lp, ⟨n, loopOf?_header nested there, there⟩, rfl⟩

omit nested

/-- The loop at a place lies inside the loop at another. -/
def Within (forest : LoopForest) (m n : Nat) : Prop :=
  ∃ inner outer, forest.loops[m]? = some inner ∧ forest.loops[n]? = some outer ∧ inner.Inside outer

/-- Loops at two places are disjoint, or one lies inside the other. -/
theorem Nested.disjoint_or_inside (h : Nested forest) {m : Nat} {a c : Loop}
    (hm : forest[m]? = some a) (hn : forest[n]? = some c) (other : m ≠ n) :
    a.blocks.Disjoint c.blocks ∨ a.Inside c ∨ c.Inside a := by
  obtain ⟨lm, rfl⟩ := List.getElem?_eq_some_iff.mp hm
  obtain ⟨ln, rfl⟩ := List.getElem?_eq_some_iff.mp hn
  rcases Nat.lt_or_gt_of_ne other with lt | gt
  · rcases (List.pairwise_iff_getElem.mp h.follows m n lm ln lt).1 with within | apart
    · exact .inr (.inr within)
    · exact .inl apart.symm
  · rcases (List.pairwise_iff_getElem.mp h.follows n m ln lm gt).1 with within | apart
    · exact .inr (.inl within)
    · exact .inl apart

end LoopForest

/-! ### Headers -/

namespace Assoc

variable {κ ν : Type} [DecidableEq κ] {m : Assoc κ ν}

theorem keys_insert (m : Assoc κ ν) (key : κ) (value : ν) :
    (m.insert key value).keys = if key ∈ m.keys then m.keys else m.keys ++ [key] := by
  induction m with
  | nil => rfl
  | cons entry rest ih =>
    obtain ⟨k, v⟩ := entry
    by_cases same : k = key
    · simp [insert, keys, same]
    · by_cases later : key ∈ keys rest
      · rw [if_pos later] at ih
        simp_all [insert, keys]
      · rw [if_neg later] at ih
        simp_all [insert, keys, Ne.symm same]

theorem nodup_insert (nodup : m.keys.Nodup) (key : κ) (value : ν) :
    (m.insert key value).keys.Nodup := by
  rw [keys_insert]
  split
  · exact nodup
  · rename_i new
    simpa [List.nodup_append, nodup] using fun k hk (same : k = key) => new (same ▸ hk)

/-- Entries with different keys count, all of them. -/
theorem get?_of_mem (nodup : m.keys.Nodup) {key : κ} {value : ν} (mem : (key, value) ∈ m) :
    m.get? key = some value := by
  induction m with
  | nil => simp at mem
  | cons entry rest ih =>
    obtain ⟨k, v⟩ := entry
    obtain ⟨out, nodup⟩ := List.nodup_cons.mp nodup
    rcases List.mem_cons.mp mem with same | mem
    · obtain ⟨rfl, rfl⟩ := Prod.mk.inj same
      simp [get?]
    · have other : k ≠ key := by
        rintro rfl
        exact out (List.mem_map.mpr ⟨_, mem, rfl⟩)
      rw [get?, if_neg other]
      exact ih nodup mem

end Assoc

/-- Edges are collected by their heads: every head is there, and once. -/
theorem keys_collect (edges : List (Nat × Nat)) {m : Assoc Nat (List Nat)} (nodup : m.keys.Nodup) :
    (edges.foldl (fun m edge => m.insert edge.1 ((m.get? edge.1).getD [] ++ [edge.2])) m).keys.Nodup ∧
    ∀ k, k ∈ (edges.foldl (fun m edge =>
      m.insert edge.1 ((m.get? edge.1).getD [] ++ [edge.2])) m).keys ↔
        k ∈ m.keys ∨ ∃ t, (k, t) ∈ edges := by
  induction edges generalizing m with
  | nil => simpa using nodup
  | cons edge edges ih =>
    obtain ⟨head, tail⟩ := edge
    have keys := Assoc.keys_insert m head ((m.get? head).getD [] ++ [tail])
    obtain ⟨once, mem⟩ := ih (Assoc.nodup_insert nodup head ((m.get? head).getD [] ++ [tail]))
    refine ⟨once, fun k => ?_⟩
    have here : k ∈ (m.insert head ((m.get? head).getD [] ++ [tail])).keys ↔
        k ∈ m.keys ∨ k = head := by
      rw [keys]
      split
      · rename_i old
        exact ⟨.inl, fun h => h.elim id fun same => same ▸ old⟩
      · simp
    rw [List.foldl_cons, mem k, here]
    simp only [List.mem_cons, Prod.mk.injEq]
    constructor
    · rintro ((old | rfl) | ⟨t, ht⟩)
      · exact .inl old
      · exact .inr ⟨tail, .inl ⟨rfl, rfl⟩⟩
      · exact .inr ⟨t, .inr ht⟩
    · rintro (old | ⟨t, ⟨rfl, rfl⟩ | ht⟩)
      · exact .inl (.inl old)
      · exact .inl (.inr rfl)
      · exact .inr ⟨t, ht⟩

namespace Func

variable {f : Func} {g : Graph}

/-- The headers are the targets of edges from reachable blocks that they dominate. -/
theorem mem_keys_latches (entry : f.entry.index < g.size) (body : f.isDeclaration = false)
    {tails : List Nat} {header : Nat} :
    header ∈ (g.latches (f.dominators g) tails).keys ↔ ∃ t ∈ tails, g.Reaches f.entry.index t ∧
      header ∈ g.next t ∧ g.Dominates f.entry.index header t := by
  have collected := (keys_collect (closingEdges g (f.dominators g) tails) (m := [])
    (by simp [Assoc.keys])).2 header
  calc header ∈ (g.latches (f.dominators g) tails).keys
      ↔ ∃ t, (header, t) ∈ closingEdges g (f.dominators g) tails := by
        exact collected.trans (by simp [Assoc.keys])
    _ ↔ _ := by
        simp only [mem_closingEdges entry body]
        exact ⟨fun ⟨t, ht, c⟩ => ⟨t, ht, c.reached, c.edge, c.dominated⟩,
          fun ⟨t, ht, reached, edge, dom⟩ => ⟨t, ht, reached, edge, dom⟩⟩

/-- The loops of a function in the order of the forest, as yet without their places. -/
def bareLoops (f : Func) (g : Graph) (dom : DominatorTree) : List Loop :=
  ((g.latches dom (f.layout.map (·.index))).map fun (header, latches) =>
    Loop.natural g (g.inverse.keepReachable dom) header latches).mergeSort Loop.precedes

theorem mem_bareLoops {dom : DominatorTree} {lp : Loop} : lp ∈ f.bareLoops g dom ↔
    ∃ header latches, (header, latches) ∈ g.latches dom (f.layout.map (·.index)) ∧
      Loop.natural g (g.inverse.keepReachable dom) header latches = lp := by
  simp [bareLoops, List.mem_mergeSort]

theorem bare_of_mem_bareLoops {dom : DominatorTree} {lp : Loop} (h : lp ∈ f.bareLoops g dom) :
    lp.bare = lp := by
  obtain ⟨header, latches, -, rfl⟩ := mem_bareLoops.mp h
  rfl

theorem map_bare_loops {dom : DominatorTree} :
    (f.loops g dom).loops.map Loop.bare = f.bareLoops g dom :=
  LoopForest.map_bare_foldl [] fun _ hlp => bare_of_mem_bareLoops hlp

theorem settled_loops {dom : DominatorTree} : LoopForest.Settled (f.loops g dom).loops := by
  refine LoopForest.settled_foldl ?_ fun _ hlp => bare_of_mem_bareLoops hlp
  intro before lp after shape
  simp at shape

theorem nodup_headers {dom : DominatorTree} : ((f.bareLoops g dom).map (·.header)).Nodup := by
  have keys : (g.latches dom (f.layout.map (·.index))).keys.Nodup :=
    (keys_collect _ (by simp [Assoc.keys])).1
  have distinct := keys.map (f := BlockId.mk) fun a b same => by simpa using same
  rw [bareLoops, ((List.mergeSort_perm _ _).map _).nodup_iff, List.map_map]
  rwa [Assoc.keys, List.map_map] at distinct

/-- Larger loops come first. -/
theorem sorted_bareLoops {dom : DominatorTree} :
    (f.bareLoops g dom).Pairwise fun outer inner => inner.blocks.length ≤ outer.blocks.length := by
  refine (List.pairwise_mergeSort ?_ ?_ _).imp fun {outer inner} first => ?_
  · intro a b c ab bc
    simp only [Loop.precedes, Bool.or_eq_true, decide_eq_true_eq, Bool.and_eq_true, beq_iff_eq] at *
    omega
  · intro a b
    simp only [Loop.precedes, Bool.or_eq_true, decide_eq_true_eq, Bool.and_eq_true, beq_iff_eq]
    omega
  · simp only [Loop.precedes, Bool.or_eq_true, decide_eq_true_eq, Bool.and_eq_true, beq_iff_eq] at first
    omega

theorem nested_bareLoops (entry : f.entry.index < g.size) (body : f.isDeclaration = false) :
    LoopForest.Nested (f.bareLoops g (f.dominators g)) := by
  have natural : ∀ lp ∈ f.bareLoops g (f.dominators g),
      g.NaturalLoop f.entry.index lp.header.index fun v => (⟨v⟩ : BlockId) ∈ lp.blocks := by
    intro lp hlp
    obtain ⟨header, latches, found, rfl⟩ := mem_bareLoops.mp hlp
    obtain ⟨some, closing⟩ := mem_latches entry body found
    exact naturalLoop_natural entry body some closing
  have nodup : ∀ lp ∈ f.bareLoops g (f.dominators g), lp.blocks.Nodup := by
    intro lp hlp
    obtain ⟨header, latches, -, rfl⟩ := mem_bareLoops.mp hlp
    exact (List.nodup_range.filter _).map fun a b same => by simpa using same
  refine ⟨fun lp hlp => (natural lp hlp).head, nodup, ?_⟩
  refine (sorted_bareLoops.and (List.pairwise_map.mp nodup_headers)).imp_of_mem ?_
  intro outer inner ho hi first
  exact Loop.follows_of_natural (natural outer ho) (natural inner hi) first.2 (nodup outer ho)
    first.1

theorem entry_mem_layout (body : f.isDeclaration = false) : f.entry ∈ f.layout := by
  unfold isDeclaration at body
  unfold entry
  cases hl : f.layout with
  | nil => simp [hl] at body
  | cons b rest => simp

/-- A declaration has no loops. -/
theorem loops_of_declaration {dom : DominatorTree} (bare : f.isDeclaration = true) :
    (f.loops g dom).loops = [] := by
  have none : f.layout = [] := List.isEmpty_iff.mp bare
  simp [loops, none, Graph.latches]

theorem isDeclaration_of_mem_loops {dom : DominatorTree} {lp : Loop}
    (mem : lp ∈ (f.loops g dom).loops) : f.isDeclaration = false := by
  by_contra bare
  rw [loops_of_declaration (by simpa using bare)] at mem
  simp at mem

section

variable (hg : f.graph = .ok g) (layout : ∀ b, b ∈ f.layout ↔ b ∈ f.blockIds)

include hg layout

theorem entry_lt_of_layout (body : f.isDeclaration = false) : f.entry.index < g.size := by
  rw [size_graph hg]
  exact mem_blockIds.mp ((layout _).mp (entry_mem_layout body))

theorem nested_loops : LoopForest.Nested (f.loops g (f.dominators g)).loops := by
  cases body : f.isDeclaration with
  | true =>
    rw [loops_of_declaration body]
    exact ⟨by simp, by simp, .nil⟩
  | false =>
    refine .of_bare ?_
    rw [map_bare_loops]
    exact nested_bareLoops (entry_lt_of_layout hg layout body) body

/-- The headers of loops are the targets of edges from reachable blocks that they dominate. -/
theorem exists_header_iff {b : BlockId} :
    (∃ (n : Nat) (lp : Loop), (f.loops g (f.dominators g)).loops[n]? = some lp ∧ lp.header = b) ↔
      ∃ t : BlockId, g.Reaches f.entry.index t.index ∧ b.index ∈ g.next t.index ∧
        g.Dominates f.entry.index b.index t.index := by
  cases body : f.isDeclaration with
  | true =>
    have none : f.layout = [] := List.isEmpty_iff.mp body
    rw [loops_of_declaration body]
    refine iff_of_false (by simp) ?_
    rintro ⟨t, -, edge, -⟩
    have slot : b ∈ f.blockIds := by
      rw [mem_blockIds, ← size_graph hg]
      exact Graph.next_lt edge
    simp [← layout, none] at slot
  | false =>
    have entry := entry_lt_of_layout hg layout body
    have headers : (f.loops g (f.dominators g)).loops.map (·.header) =
        (f.bareLoops g (f.dominators g)).map (·.header) := by
      rw [← map_bare_loops, List.map_map]
      rfl
    calc (∃ (n : Nat) (lp : Loop), (f.loops g (f.dominators g)).loops[n]? = some lp ∧ lp.header = b)
        ↔ b ∈ (f.bareLoops g (f.dominators g)).map (·.header) := by
          rw [← headers, List.mem_map]
          simp only [List.mem_iff_getElem?]
          exact ⟨fun ⟨n, lp, there, same⟩ => ⟨lp, ⟨n, there⟩, same⟩,
            fun ⟨lp, ⟨n, there⟩, same⟩ => ⟨n, lp, there, same⟩⟩
      _ ↔ b.index ∈ (g.latches (f.dominators g) (f.layout.map (·.index))).keys := by
          simp only [List.mem_map, mem_bareLoops, Assoc.keys, Prod.exists]
          constructor
          · rintro ⟨lp, ⟨header, latches, found, rfl⟩, rfl⟩
            exact ⟨header, latches, found, rfl⟩
          · rintro ⟨header, latches, found, rfl⟩
            exact ⟨_, ⟨_, latches, found, rfl⟩, rfl⟩
      _ ↔ _ := by
          rw [mem_keys_latches entry body]
          constructor
          · rintro ⟨t, -, closing⟩
            exact ⟨⟨t⟩, closing⟩
          · rintro ⟨t, reached, closing⟩
            refine ⟨t.index, List.mem_map.mpr ⟨t, (layout t).mpr ?_, rfl⟩, reached, closing⟩
            rw [mem_blockIds, ← size_graph hg]
            exact reached.lt_size entry

end

/-- The loop forest of a function is exact.  Loops are disjoint or nested; the loops around a block
are those that hold it, each once and inside the next; the depth of a block is their number; and a
block is a header exactly if a reachable block that it dominates leads to it, and then the innermost
loop around it is its own. -/
theorem loops_exact (targets : f.Targeted) (layout : ∀ b, b ∈ f.layout ↔ b ∈ f.blockIds) :
    ∃ flow, f.flow = .ok flow ∧
      (∀ b c, c.index ∈ flow.graph.next b.index ↔ f.LeadsTo b c) ∧
      (∀ (m n : Nat) (a c : Loop), flow.loops.loops[m]? = some a →
        flow.loops.loops[n]? = some c → m ≠ n →
        a.blocks.Disjoint c.blocks ∨ a.Inside c ∨ c.Inside a) ∧
      ∀ b,
        (∀ n : Nat, n ∈ flow.loops.enclosing b ↔
          ∃ lp : Loop, flow.loops.loops[n]? = some lp ∧ b ∈ lp.blocks) ∧
        (flow.loops.enclosing b).Nodup ∧
        (flow.loops.enclosing b).Pairwise flow.loops.Within ∧
        flow.loops.depth b = (flow.loops.enclosing b).length ∧
        (flow.loops.isHeader b = true ↔ ∃ t : BlockId,
          flow.graph.Reaches f.entry.index t.index ∧ f.LeadsTo t b ∧
            flow.graph.Dominates f.entry.index b.index t.index) ∧
        (flow.loops.isHeader b = true → ∃ (n : Nat) (lp : Loop), flow.loops.loopOf? b = some n ∧
          flow.loops.loops[n]? = some lp ∧ lp.header = b) := by
  obtain ⟨g, hg, edges⟩ := exists_graph targets
  have nested := nested_loops hg layout
  have settled : LoopForest.Settled (f.loops g (f.dominators g)).loops := settled_loops
  have enclosing := fun b => LoopForest.enclosing_eq (b := b) nested settled
  have headers := fun b => LoopForest.isHeader_iff (b := b) nested
  refine ⟨_, by rw [flow, hg]; rfl, edges, fun m n a c hm hn => nested.disjoint_or_inside hm hn,
    fun b => ⟨fun n => ?_, ?_, ?_, ?_, ?_, fun header => ?_⟩⟩
  · rw [enclosing b, List.mem_reverse]
    exact LoopForest.mem_holders
  · rw [enclosing b, List.nodup_reverse]
    exact LoopForest.sorted_holders.imp fun lt => Nat.ne_of_lt lt
  · rw [enclosing b, List.pairwise_reverse]
    refine (LoopForest.pairwise_holders nested).imp fun h => ?_
    obtain ⟨outer, inner, hm, hn, within⟩ := h
    exact ⟨inner, outer, hn, hm, within⟩
  · rw [enclosing b, List.length_reverse]
    exact LoopForest.depth_eq nested settled
  · rw [headers b, exists_header_iff hg layout]
    simp only [edges]
  · obtain ⟨n, lp, there, rfl⟩ := (headers b).mp header
    exact ⟨n, lp, LoopForest.loopOf?_header nested there, there, rfl⟩

/-- A loop inside another, whose header leads to itself. -/
def twoLoops : Func := assemble "two_loops" [⟨"c", .i1⟩] [
  ("entry", [⟨.jump ⟨1⟩, .void, ""⟩]),
  ("outer", [⟨.jump ⟨2⟩, .void, ""⟩]),
  ("inner", [⟨.branch (.arg 0) ⟨2⟩ ⟨3⟩, .void, ""⟩]),
  ("latch", [⟨.branch (.arg 0) ⟨1⟩ ⟨4⟩, .void, ""⟩]),
  ("exit", [⟨.ret none, .void, ""⟩])]

/-- The header of the inner loop has both loops around it, and is known by its edge to itself. -/
theorem loops_twoLoops : ∃ flow, twoLoops.flow = .ok flow ∧ flow.loops.enclosing ⟨2⟩ = [1, 0] ∧
    flow.loops.depth ⟨2⟩ = 2 ∧ flow.loops.Within 1 0 ∧ flow.loops.isHeader ⟨2⟩ = true := by
  have layout : twoLoops.layout = twoLoops.blockIds := by decide
  obtain ⟨flow, answer, edges, -, each⟩ := loops_exact (f := twoLoops) (by decide) fun b => by
    rw [layout]
  have around : (fun flow => flow.loops.enclosing ⟨2⟩) <$> twoLoops.flow = .ok [1, 0] := by cbv
  have around : flow.loops.enclosing ⟨2⟩ = [1, 0] := by simpa [answer] using around
  obtain ⟨-, -, within, depth, header, -⟩ := each ⟨2⟩
  rw [around] at within depth
  have leads : twoLoops.LeadsTo ⟨0⟩ ⟨1⟩ ∧ twoLoops.LeadsTo ⟨1⟩ ⟨2⟩ ∧ twoLoops.LeadsTo ⟨2⟩ ⟨2⟩ :=
    ⟨⟨_, rfl, by decide⟩, ⟨_, rfl, by decide⟩, ⟨_, rfl, by decide⟩⟩
  have reached : flow.graph.Reaches 0 2 :=
    ⟨_, .go ((edges ⟨0⟩ ⟨1⟩).mpr leads.1) (.go ((edges ⟨1⟩ ⟨2⟩).mpr leads.2.1) (.stay 2))⟩
  exact ⟨flow, answer, around, depth, by simpa using within,
    header.mpr ⟨⟨2⟩, reached, leads.2.2, .refl _ _ _⟩⟩

end Func

end KernelCoarsening
