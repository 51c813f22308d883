/-
Paths through a graph, and dominance as a statement about them.

A path lists the nodes that it passes, its ends included.  A node dominates another
if it lies on every path from the root to it, and it post-dominates another if it
lies on every path from it to an end.

* `Graph.Path.append`, `Graph.Path.split` — paths can be joined where they meet and
  cut at a node that they pass;
* `Graph.Dominates.trans` — what dominates a dominator dominates.
-/
import KernelCoarsening.Flow.Graph

namespace KernelCoarsening

namespace Graph

/-- A path from one node to another with the nodes that it passes. -/
inductive Path (g : Graph) : Nat → Nat → List Nat → Prop where
  | stay (v : Nat) : Path g v v [v]
  | go {u v w : Nat} {nodes : List Nat} (edge : v ∈ g.next u) (rest : Path g v w nodes) :
    Path g u w (u :: nodes)

/-- One node can be reached from another. -/
def Reaches (g : Graph) (u v : Nat) : Prop := ∃ nodes, g.Path u v nodes

/-- Control ends at a node that leads nowhere. -/
def IsEnd (g : Graph) (v : Nat) : Prop := g.next v = []

/-- A node lies on every path from the root to another. -/
def Dominates (g : Graph) (root a b : Nat) : Prop := ∀ nodes, g.Path root b nodes → a ∈ nodes

/-- A node lies on every path from another to an end. -/
def PostDominates (g : Graph) (a b : Nat) : Prop :=
  ∀ v nodes, g.IsEnd v → g.Path b v nodes → a ∈ nodes

variable {g : Graph} {u v w : Nat} {nodes : List Nat}

namespace Path

theorem first_mem (h : g.Path u v nodes) : u ∈ nodes := by
  cases h <;> simp

theorem last_mem (h : g.Path u v nodes) : v ∈ nodes := by
  induction h with
  | stay v => simp
  | go _ _ ih => exact List.mem_cons_of_mem _ ih

/-- Two paths that meet make one, which passes the nodes of both. -/
theorem append {more : List Nat} (h : g.Path u v nodes) (h' : g.Path v w more) :
    g.Path u w (nodes ++ more.tail) := by
  induction h with
  | stay v => cases h' with
    | stay w => exact .stay w
    | go edge rest => exact .go edge rest
  | go edge _ ih => exact .go edge (ih h')

/-- A path that passes a node is a path to it, followed by a path from it. -/
theorem split {x : Nat} (h : g.Path u v nodes) (hx : x ∈ nodes) :
    ∃ before behind, g.Path u x before ∧ g.Path x v behind ∧ nodes = before ++ behind.tail := by
  induction h with
  | stay v =>
    obtain rfl : x = v := by simpa using hx
    exact ⟨[x], [x], .stay x, .stay x, rfl⟩
  | go edge rest ih =>
    rename_i u v w nodes
    rcases List.mem_cons.mp hx with rfl | hx
    · exact ⟨[x], x :: nodes, .stay x, .go edge rest, rfl⟩
    · obtain ⟨before, behind, h₁, h₂, rfl⟩ := ih hx
      exact ⟨u :: before, behind, .go edge h₁, h₂, rfl⟩

end Path

theorem Reaches.refl (g : Graph) (v : Nat) : g.Reaches v v := ⟨[v], .stay v⟩

theorem Reaches.trans (h : g.Reaches u v) (h' : g.Reaches v w) : g.Reaches u w :=
  let ⟨_, p⟩ := h
  let ⟨_, q⟩ := h'
  ⟨_, p.append q⟩

theorem Dominates.refl (g : Graph) (root v : Nat) : g.Dominates root v v := fun _ p => p.last_mem

/-- The root dominates everything. -/
theorem dominates_root (g : Graph) (root v : Nat) : g.Dominates root root v :=
  fun _ p => p.first_mem

theorem Dominates.trans {root a b c : Nat} (h : g.Dominates root a b)
    (h' : g.Dominates root b c) : g.Dominates root a c := by
  intro nodes p
  obtain ⟨before, behind, q, _, rfl⟩ := p.split (h' nodes p)
  exact List.mem_append_left _ (h before q)

end Graph

namespace Func

/-- The result of an instruction is there when control has come to a place of a block: it was
computed earlier in the block, or in a block that dominates it. -/
def Available (f : Func) (g : Graph) (i : InstId) (b : BlockId) (place : Nat) : Prop :=
  ∃ source n, f.position i = .ok (some (source, n)) ∧
    if source = b then n < place else g.Dominates f.entry.index source.index b.index

/-- What an instruction reads is there when it reads it; a phi reads at the ends of the blocks
that it names. -/
def ReadsAvailable (f : Func) (g : Graph) (b : BlockId) (place : Nat) : Operation → Prop
  | .phi incoming => ∀ i source, (Value.inst i, source) ∈ incoming →
    ∀ block, f.block source = .ok block → f.Available g i source block.insts.length
  | op => ∀ i ∈ op.usedInsts, f.Available g i b place

/-- Every instruction of a reachable block reads only what is there. -/
def Scoped (f : Func) (g : Graph) : Prop :=
  ∀ b block place i op, g.Reaches f.entry.index b.index → f.block b = .ok block →
    block.insts[place]? = some i → f.operation i = .ok op → f.ReadsAvailable g b place op

end Func

end KernelCoarsening
