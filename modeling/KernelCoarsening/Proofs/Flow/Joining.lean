/-
Where threads that took different ways are together again.

The ways from a node to an end meet at its meeting node.  What lies inside the two is passed by
some ways and not by others.  A node that lies inside no pair of a family of such pairs is
common.  A way that leaves a common node for one that is not strays until it comes to the next
common node.

* `Graph.Strays.unique` — where a way that strays comes to does not depend on the way;
* `Graph.Arrives.unique_of_start` — nor does it depend on the direction that was taken at a node
  of the family;
* `Graph.MeetsAt.dominates` — what is computed inside a pair and is needed outside lies on all
  ways to the node where the pair starts.
-/
import KernelCoarsening.Proofs.Flow.FunctionGraph

namespace KernelCoarsening

namespace Graph

variable {g : Graph} {h e u v n : Nat}

/-- A node lies on a way from a successor of one node which has not yet come to another. -/
def Inside (g : Graph) (h e v : Nat) : Prop := ∃ t ∈ g.next h, g.Before e t v

/-! ### One pair -/

theorem Inside.ne (i : g.Inside h e v) : v ≠ e := by
  obtain ⟨t, -, before⟩ := i
  exact before.ne

/-- The only way out leads to the end of the pair. -/
theorem Inside.leave (i : g.Inside h e u) (edge : v ∈ g.next u) (out : ¬ g.Inside h e v) :
    v = e := by
  by_contra other
  obtain ⟨t, ht, before⟩ := i
  exact out ⟨t, ht, before.step edge other⟩

/-- A way out passes the end of the pair. -/
theorem Inside.path_out {nodes : List Nat} (i : g.Inside h e u) (p : g.Path u v nodes)
    (out : ¬ g.Inside h e v) : e ∈ nodes := by
  induction p with
  | stay u => exact absurd i out
  | @go u w v nodes edge rest ih =>
    by_cases inner : g.Inside h e w
    · exact List.mem_cons_of_mem _ (ih inner out)
    · obtain rfl := i.leave edge inner
      exact List.mem_cons_of_mem _ rest.first_mem

namespace MeetsAt

theorem before (m : g.MeetsAt h e) (i : g.Inside h e v) : g.Before e h v := by
  obtain ⟨t, edge, before⟩ := i
  exact (Before.step (.refl m.other.symm) edge before.ne_start).trans before

theorem post_inside (m : g.MeetsAt h e) (i : g.Inside h e v) : g.PostDominates e v :=
  m.post.of_before (m.before i)

theorem canEnd (m : g.MeetsAt h e) : g.CanEnd e := m.post.canEnd m.finish

/-- No way ends inside. -/
theorem not_isEnd (m : g.MeetsAt h e) (i : g.Inside h e v) : ¬ g.IsEnd v := by
  intro isEnd
  have mem := m.post_inside i v _ isEnd (.stay v)
  exact i.ne (List.mem_singleton.mp mem).symm

/-- A successor lies inside unless it is the end of the pair. -/
theorem inside_or (edge : v ∈ g.next h) : g.Inside h e v ∨ v = e := by
  by_cases same : v = e
  · exact .inr same
  · exact .inl ⟨v, edge, .refl same⟩

/-- Some way to the end of the pair avoids a node inside, unless the pair starts there. -/
theorem exists_around (m : g.MeetsAt h e) (i : g.Inside h e v) (other : v ≠ h) :
    g.Before v h e := by
  by_contra none
  have post : g.PostDominates v h := by
    intro w nodes hw p
    by_contra avoids
    exact none (Before.of_mem p avoids (m.post w nodes hw p))
  have same := (m.first v other post).antisymm (m.post_inside i)
    ((m.first v other post).canEnd m.canEnd)
  exact i.ne same

/-- What lies inside the pair and dominates a node outside dominates the start of the pair:
otherwise a way goes round it, first to the start, from there to the end, and on. -/
theorem dominates {root r : Nat} (m : g.MeetsAt h e) (i : g.Inside h e v)
    (out : ¬ g.Inside h e r) (reached : g.Reaches root r) (dom : g.Dominates root v r) :
    g.Dominates root v h := by
  by_contra not
  have other : v ≠ h := by
    rintro rfl
    exact not (.refl g root v)
  obtain ⟨front, toStart, avoids⟩ : ∃ nodes, g.Path root h nodes ∧ v ∉ nodes := by
    simpa [Dominates] using not
  have across := m.exists_around i other
  obtain ⟨nodes, p⟩ := reached
  obtain ⟨_, q, -⟩ := p.suffix (dom nodes p)
  obtain ⟨short, q, nodup, -⟩ := q.shorten
  obtain ⟨behind, on, suffix⟩ := q.suffix (i.path_out q out)
  have later : v ∉ behind := by
    cases q with
    | stay => exact absurd i out
    | go edge rest =>
      rcases List.suffix_cons_iff.mp suffix with rfl | suffix
      · cases on <;> exact absurd rfl i.ne
      · exact fun mem => (List.nodup_cons.mp nodup).1 (suffix.subset mem)
  have round : g.Before v root r := (Before.trans ⟨front, toStart, avoids⟩ across).trans
    ⟨behind, on, later⟩
  obtain ⟨nodes, p, avoids⟩ := round
  exact avoids (dom nodes p)

end MeetsAt

/-! ### A family of pairs -/

/-- The pairs of a family start where threads may part and end where they meet again. -/
def Divided (g : Graph) (D : Nat → Nat → Prop) : Prop := ∀ h e, D h e → g.MeetsAt h e

variable {D : Nat → Nat → Prop}

/-- A node that lies inside no pair is passed by all threads. -/
def Common (g : Graph) (D : Nat → Nat → Prop) (v : Nat) : Prop := ∀ h e, D h e → ¬ g.Inside h e v

/-- A way through nodes that are not common comes to one that is. -/
inductive Strays (g : Graph) (D : Nat → Nat → Prop) : Nat → Nat → Prop where
  | arrive {u n : Nat} (away : ¬ g.Common D u) (edge : n ∈ g.next u) (back : g.Common D n) :
    Strays g D u n
  | go {u v n : Nat} (away : ¬ g.Common D u) (edge : v ∈ g.next u) (rest : Strays g D v n) :
    Strays g D u n

theorem not_common : ¬ g.Common D v ↔ ∃ h e, D h e ∧ g.Inside h e v := by
  simp [Common]

namespace Strays

theorem away (s : g.Strays D u n) : ¬ g.Common D u := by
  cases s with
  | arrive away _ _ => exact away
  | go away _ _ => exact away

theorem back (s : g.Strays D u n) : g.Common D n := by
  induction s with
  | arrive _ _ back => exact back
  | go _ _ _ ih => exact ih

/-- A way that strays passes a node, and strays from there, or comes to its goal before it. -/
theorem through {x : Nat} (s : g.Strays D u n) (other : x ≠ n) :
    g.Strays D x n ∨ g.Before x u n := by
  induction s with
  | @arrive u n away edge back =>
    by_cases same : u = x
    · exact .inl (same ▸ .arrive away edge back)
    · exact .inr (.step (.refl same) edge other.symm)
  | @go u v n away edge rest ih =>
    by_cases same : u = x
    · exact .inl (same ▸ .go away edge rest)
    · rcases ih other with later | before
      · exact .inl later
      · exact .inr ((Before.step (.refl same) edge before.ne_start).trans before)

/-- A way that strays comes to the end of a pair. -/
theorem meets (s : g.Strays D u n) : ∃ h, D h n := by
  induction s with
  | @arrive u n away edge back =>
    obtain ⟨h, e, pair, inside⟩ := not_common.mp away
    obtain rfl := inside.leave edge (back h e pair)
    exact ⟨h, pair⟩
  | go _ _ _ ih => exact ih

/-- The common node lies behind the ends of all pairs that the way starts inside. -/
theorem post_end (divided : g.Divided D) (s : g.Strays D u n) (pair : D h e)
    (inside : g.Inside h e u) : g.PostDominates n e := by
  induction s generalizing h e with
  | arrive _ edge back =>
    obtain rfl := inside.leave edge (back h e pair)
    exact .refl g _
  | @go u v n away edge rest ih =>
    by_cases stays : g.Inside h e v
    · exact ih pair stays
    · -- the way leaves this pair while it is still inside another one
      obtain rfl := inside.leave edge stays
      obtain ⟨h', e', pair', inside'⟩ := not_common.mp rest.away
      exact (ih pair' inside').trans ((divided h' e' pair').post_inside inside')

theorem post (divided : g.Divided D) (s : g.Strays D u n) : g.PostDominates n u := by
  obtain ⟨h, e, pair, inside⟩ := not_common.mp s.away
  exact (s.post_end divided pair inside).trans ((divided h e pair).post_inside inside)

theorem canEnd (divided : g.Divided D) (s : g.Strays D u n) : g.CanEnd n := by
  obtain ⟨h, pair⟩ := s.meets
  exact (divided h n pair).canEnd

/-- All ways that stray from a node come to the same common node. -/
theorem unique (divided : g.Divided D) {n' : Nat} (s : g.Strays D u n) (s' : g.Strays D u n') :
    n = n' := by
  by_contra other
  have ahead : ∀ {a b : Nat}, a ≠ b → g.Strays D u a → g.Strays D u b → g.PostDominates a b := by
    intro a b ne sa sb
    rcases sb.through ne with strays | before
    · exact absurd sa.back strays.away
    · exact (sa.post divided).of_before before
  exact other ((ahead other s s').antisymm (ahead (Ne.symm other) s' s) (s.canEnd divided))

end Strays

/-- A way comes to a common node, at once or after it has strayed. -/
inductive Arrives (g : Graph) (D : Nat → Nat → Prop) : Nat → Nat → Prop where
  | here {n : Nat} (common : g.Common D n) : Arrives g D n n
  | strays {u n : Nat} (s : Strays g D u n) : Arrives g D u n

namespace Arrives

theorem common (a : g.Arrives D u n) : g.Common D n := by
  cases a with
  | here common => exact common
  | strays s => exact s.back

theorem unique (divided : g.Divided D) {n' : Nat} (a : g.Arrives D u n) (a' : g.Arrives D u n') :
    n = n' := by
  cases a with
  | here common =>
    cases a' with
    | here _ => rfl
    | strays s => exact absurd common s.away
  | strays s =>
    cases a' with
    | here common => exact absurd common s.away
    | strays s' => exact s.unique divided s'

/-- Behind a node where threads part they are together again at the end of its pair, or where
the way on from there comes to. -/
theorem of_start (divided : g.Divided D) (pair : D h e) (edge : u ∈ g.next h)
    (a : g.Arrives D u n) : g.Arrives D e n := by
  rcases MeetsAt.inside_or (e := e) edge with inside | rfl
  · cases a with
    | here common => exact absurd inside (common h e pair)
    | strays s =>
      by_cases same : e = n
      · subst same
        exact .here s.back
      · rcases s.through same with later | before
        · exact .strays later
        · have ahead := ((divided h e pair).post_inside inside).of_before before
          have := ahead.antisymm (s.post_end divided pair inside) (divided h e pair).canEnd
          exact absurd this same
  · exact a

/-- Threads that part at a node come to the same common node. -/
theorem unique_of_start (divided : g.Divided D) (pair : D h e) {u' n' : Nat}
    (edge : u ∈ g.next h) (edge' : u' ∈ g.next h) (a : g.Arrives D u n)
    (a' : g.Arrives D u' n') : n = n' :=
  (a.of_start divided pair edge).unique divided (a'.of_start divided pair edge')

end Arrives

end Graph

end KernelCoarsening
