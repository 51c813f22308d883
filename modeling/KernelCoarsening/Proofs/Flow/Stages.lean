/-
Stages that control goes through one after the other.

A stage is a part of a graph that control leaves only from its last node:

* `Graph.Stage`, `Graph.Stage.Through` — a stage, and a path that goes through it;
* `Graph.Chained` — stages each of which leads to the first node of the next one;
* `Graph.Chained.split` — a path to the node behind chained stages goes through all of them, in
  their order;
* `Graph.InSequence`, `Graph.Chained.inSequence` — this and what else is true of chained stages.
-/
import KernelCoarsening.Flow.Path
import Mathlib.Data.List.Forall2

namespace KernelCoarsening

namespace Graph

variable {g g' : Graph} {u v w after : Nat} {nodes : List Nat}

/-- What can be reached edge by edge can be reached. -/
theorem Reaches.lift (edges : ∀ u v, v ∈ g.next u → g'.Reaches u v) (h : g.Reaches u w) :
    g'.Reaches u w := by
  obtain ⟨nodes, p⟩ := h
  induction p with
  | stay v => exact ⟨_, .stay v⟩
  | go edge _ ih =>
    obtain ⟨before, first⟩ := edges _ _ edge
    obtain ⟨behind, second⟩ := ih
    exact ⟨_, first.append second⟩

theorem Reaches.of_edge (edge : v ∈ g.next u) : g.Reaches u v := ⟨_, .go edge (.stay v)⟩

/-- A way that is copied edge by edge, up to its end, can be gone in the copy. -/
theorem Path.transport (inside : Nat → Prop) (m : Nat → Nat) (p : g.Path u w nodes)
    (start : inside u)
    (edges : ∀ x, inside x → x ≠ w → ∀ y ∈ g.next x, inside y ∧ m y ∈ g'.next (m x)) :
    g'.Reaches (m u) (m w) := by
  induction p with
  | stay v => exact ⟨_, .stay _⟩
  | @go u v w nodes edge _ ih =>
    by_cases here : u = w
    · subst here
      exact ⟨_, .stay _⟩
    · obtain ⟨still, copied⟩ := edges u start here v edge
      exact (Reaches.of_edge copied).trans (ih still edges)

theorem Path.head? (p : g.Path u w nodes) : nodes.head? = some u := by cases p <;> rfl

theorem Path.getLast? (p : g.Path u w nodes) : nodes.getLast? = some w := by
  induction p with
  | stay v => rfl
  | go _ rest ih => cases rest <;> simp_all [List.getLast?_cons_cons]

/-- A part of a graph with the node where control comes in and the one where it goes out. -/
structure Stage where
  first : Nat
  last : Nat
  nodes : List Nat
  deriving DecidableEq

namespace Stage

/-- The node where control goes on behind some stages: where the first of them begins. -/
def begin (after : Nat) : List Stage → Nat
  | [] => after
  | stage :: _ => stage.first

/-- A path goes through a stage: it begins with its first node, ends with its last one and does not
come to that one before. -/
structure Through (g : Graph) (stage : Stage) (part : List Nat) : Prop where
  path : g.Path stage.first stage.last part
  inside : ∀ v ∈ part, v ∈ stage.nodes
  once : stage.last ∉ part.dropLast

/-- Control stays in a stage up to its last node, and goes on to one other node. -/
structure Sealed (g : Graph) (stage : Stage) (after : Nat) : Prop where
  first : stage.first ∈ stage.nodes
  last : stage.last ∈ stage.nodes
  inner : g.Reaches stage.first stage.last
  closed : ∀ u ∈ stage.nodes, u ≠ stage.last → ∀ v ∈ g.next u, v ∈ stage.nodes
  leads : ∀ v, v ∈ g.next stage.last ↔ v = after

variable {stage : Stage}

theorem Sealed.edge (h : stage.Sealed g after) : after ∈ g.next stage.last := (h.leads after).mpr rfl

/-- A path out of a stage goes on from its last node. -/
theorem Sealed.leave (h : stage.Sealed g after) (inside : u ∈ stage.nodes)
    (outside : w ∉ stage.nodes) (p : g.Path u w nodes) :
    ∃ part more, nodes = part ++ more ∧ g.Path u stage.last part ∧ (∀ v ∈ part, v ∈ stage.nodes) ∧
      stage.last ∉ part.dropLast ∧ g.Path after w more := by
  induction p with
  | stay v => exact absurd inside outside
  | @go u v w nodes edge rest ih =>
    by_cases here : u = stage.last
    · subst here
      obtain rfl := (h.leads v).mp edge
      exact ⟨[stage.last], nodes, rfl, .stay _, by simpa using inside, by simp, rest⟩
    · obtain ⟨part, more, rfl, path, within, once, onward⟩ :=
        ih (h.closed u inside here v edge) outside
      refine ⟨u :: part, more, rfl, .go edge path, List.forall_mem_cons.mpr ⟨inside, within⟩, ?_,
        onward⟩
      cases path <;> simp_all [Ne.symm here]

end Stage

/-- Every stage leads to the next one, and the last one to what is behind. -/
def Chained (g : Graph) (after : Nat) : List Stage → Prop
  | [] => True
  | stage :: rest => stage.Sealed g (Stage.begin after rest) ∧ g.Chained after rest

namespace Chained

variable {stage : Stage} {stages : List Stage}

/-- A path from the first of chained stages to what is behind them goes through all of them, one
after the other. -/
theorem split (chained : g.Chained after stages) (apart : ∀ stage ∈ stages, after ∉ stage.nodes)
    (p : g.Path (Stage.begin after stages) after (nodes ++ [after])) (new : after ∉ nodes) :
    ∃ parts, nodes = parts.flatten ∧ List.Forall₂ (Stage.Through g) stages parts := by
  induction stages generalizing nodes with
  | nil =>
    cases nodes with
    | nil => exact ⟨[], rfl, .nil⟩
    | cons v rest =>
      obtain rfl : v = after := by simpa [Stage.begin] using p.head?
      exact absurd List.mem_cons_self new
  | cons stage rest ih =>
    obtain ⟨here, chained⟩ := chained
    rw [List.forall_mem_cons] at apart
    obtain ⟨part, more, same, path, inside, once, onward⟩ := here.leave here.first apart.1 p
    -- what is behind the stage ends as the whole path does
    obtain ⟨between, rfl⟩ : ∃ between, more = between ++ [after] := by
      exact List.getLast?_eq_some_iff.mp onward.getLast?
    obtain rfl : nodes = part ++ between :=
      List.append_cancel_right (by rw [same, List.append_assoc])
    obtain ⟨parts, rfl, through⟩ := ih chained apart.2 onward
      fun mem => new (List.mem_append_right _ mem)
    exact ⟨part :: parts, by simp, .cons ⟨path, inside, once⟩ through⟩

/-- Control gets from the first stage to all others. -/
theorem reaches (chained : g.Chained after stages) (h : stage ∈ stages) :
    g.Reaches (Stage.begin after stages) stage.first := by
  induction stages with
  | nil => simp at h
  | cons first rest ih =>
    obtain ⟨here, chained⟩ := chained
    rcases List.mem_cons.mp h with rfl | later
    · exact ⟨_, .stay _⟩
    · exact (here.inner.trans (.of_edge here.edge)).trans (ih chained later)

/-- Control gets through all stages. -/
theorem reaches_after (chained : g.Chained after stages) :
    g.Reaches (Stage.begin after stages) after := by
  induction stages with
  | nil => exact ⟨_, .stay _⟩
  | cons first rest ih =>
    obtain ⟨here, chained⟩ := chained
    exact (here.inner.trans (.of_edge here.edge)).trans (ih chained)

end Chained

/-- Control goes through stages one after the other.  They are apart from each other and from the
node behind them; a stage is left from its last node only; a path from the first of them to its first
arrival at the node behind them goes through one after the other; and where the first one is reached,
all are. -/
structure InSequence (g : Graph) (stages : List Stage) (after : Nat) : Prop where
  disjoint : stages.Pairwise fun stage stage' => stage.nodes.Disjoint stage'.nodes
  outside : ∀ stage ∈ stages, after ∉ stage.nodes
  leaves : ∀ stage ∈ stages, ∀ u ∈ stage.nodes, ∀ v ∈ g.next u, v ∉ stage.nodes → u = stage.last
  passes : ∀ nodes, g.Path (Stage.begin after stages) after (nodes ++ [after]) → after ∉ nodes →
    ∃ parts, nodes = parts.flatten ∧ List.Forall₂ (Stage.Through g) stages parts
  reaches : ∀ root, g.Reaches root (Stage.begin after stages) →
    ∀ stage ∈ stages, g.Reaches root stage.first

namespace Chained

variable {stage : Stage} {stages : List Stage}

theorem exists_sealed (chained : g.Chained after stages) (h : stage ∈ stages) :
    ∃ next, stage.Sealed g next := by
  induction stages with
  | nil => simp at h
  | cons first rest ih =>
    rcases List.mem_cons.mp h with rfl | later
    · exact ⟨_, chained.1⟩
    · exact ih chained.2 later

theorem inSequence (chained : g.Chained after stages)
    (disjoint : stages.Pairwise fun stage stage' => stage.nodes.Disjoint stage'.nodes)
    (outside : ∀ stage ∈ stages, after ∉ stage.nodes) : g.InSequence stages after where
  disjoint := disjoint
  outside := outside
  leaves stage h u inside v edge out := by
    by_contra other
    obtain ⟨next, here⟩ := chained.exists_sealed h
    exact out (here.closed u inside other v edge)
  passes _ p new := chained.split outside p new
  reaches _ reached _ h := reached.trans (chained.reaches h)

end Chained

end Graph

end KernelCoarsening
