/-
The order in which a depth-first search leaves the nodes of a graph.

The nodes on the stack, the deepest last, followed by the finished ones are in the
order of the result already: finishing a node only moves the border between the two
parts.  What holds of this order is therefore kept by every step of the search:

* `Graph.mem_reversePostorder` — it lists exactly the nodes that can be reached;
* `Graph.nodup_reversePostorder` — each of them once;
* `Graph.exists_source_before` — every node but the root comes behind a node that
  leads to it.
-/
import Mathlib.Data.List.Nodup
import Mathlib.Tactic.Common
import KernelCoarsening.Flow.Path

namespace KernelCoarsening

namespace Graph

/-- The nodes of a stack and the finished nodes, in the order of the result. -/
def pending (stack : List (Nat × List Nat)) (done : List Nat) : List Nat :=
  (stack.map (·.1)).reverse ++ done

/-- Every node of a list but the root comes behind a node that leads to it. -/
def Rooted (g : Graph) (root : Nat) (nodes : List Nat) : Prop :=
  ∀ before v behind, nodes = before ++ v :: behind → v = root ∨ ∃ u ∈ before, v ∈ g.next u

theorem Rooted.insert {g : Graph} {root u w : Nat} {xs ys : List Nat}
    (h : g.Rooted root (xs ++ ys)) (mem : u ∈ xs) (edge : w ∈ g.next u) :
    g.Rooted root (xs ++ w :: ys) := by
  intro before v behind eq
  rcases List.append_eq_append_iff.mp eq with ⟨more, rfl, hmore⟩ | ⟨more, rfl, hmore⟩
  · cases more with
    | nil =>
      obtain ⟨rfl, -⟩ : w = v ∧ ys = behind := by simpa using hmore
      exact .inr ⟨u, by simpa using mem, edge⟩
    | cons x more =>
      obtain ⟨rfl, rfl⟩ : w = x ∧ ys = more ++ v :: behind := by simpa using hmore
      rcases h (xs ++ more) v behind (by simp) with root | ⟨source, hs, lead⟩
      · exact .inl root
      · refine .inr ⟨source, ?_, lead⟩
        rcases List.mem_append.mp hs with hs | hs <;> simp [hs]
  · cases more with
    | nil =>
      obtain ⟨rfl, -⟩ : v = w ∧ behind = ys := by simpa using hmore
      exact .inr ⟨u, by simpa using mem, edge⟩
    | cons x more =>
      obtain ⟨rfl, -⟩ : v = x ∧ behind = more ++ w :: ys := by simpa using hmore
      exact h before v (more ++ ys) (by simp)

/-- What holds of a search that started at a root. -/
structure Searched (g : Graph) (root : Nat) (seen : List Nat) (stack : List (Nat × List Nat))
    (done : List Nat) : Prop where
  mem_seen : ∀ v, v ∈ seen ↔ v ∈ pending stack done
  nodup : (pending stack done).Nodup
  reaches : ∀ v ∈ seen, g.Reaches root v
  next_done : ∀ v ∈ done, ∀ w ∈ g.next v, w ∈ seen
  next_stack : ∀ u vs, (u, vs) ∈ stack → ∀ w ∈ g.next u, w ∈ seen ∨ w ∈ vs
  rest_stack : ∀ u vs, (u, vs) ∈ stack → ∀ w ∈ vs, w ∈ g.next u
  rooted : g.Rooted root (pending stack done)

theorem Searched.start {g : Graph} (root : Nat) :
    g.Searched root [root] [(root, g.next root)] [] where
  mem_seen := by simp [pending]
  nodup := by simp [pending]
  reaches := by
    intro v hv
    obtain rfl : v = root := by simpa using hv
    exact .refl g v
  next_done := by simp
  next_stack := by
    rintro u vs h w hw
    obtain ⟨rfl, rfl⟩ : u = root ∧ vs = g.next root := by simpa using h
    exact .inr hw
  rest_stack := by
    rintro u vs h w hw
    obtain ⟨rfl, rfl⟩ : u = root ∧ vs = g.next root := by simpa using h
    exact hw
  rooted := by
    intro before v behind eq
    have mem : v ∈ [root] := by
      rw [show [root] = before ++ v :: behind by simpa [pending] using eq]
      simp
    exact .inl (by simpa using mem)

variable {g : Graph} {root : Nat} {seen done : List Nat} {rest : List (Nat × List Nat)}

/-- The last node of the stack is finished. -/
theorem Searched.finish {u : Nat} (h : g.Searched root seen ((u, []) :: rest) done) :
    g.Searched root seen rest (u :: done) := by
  have same : pending rest (u :: done) = pending ((u, []) :: rest) done := by simp [pending]
  refine ⟨?_, same ▸ h.nodup, h.reaches, ?_, ?_, ?_, same ▸ h.rooted⟩
  · intro v
    rw [same]
    exact h.mem_seen v
  · intro v hv w hw
    rcases List.mem_cons.mp hv with rfl | hv
    · simpa using h.next_stack v [] (by simp) w hw
    · exact h.next_done v hv w hw
  · intro v vs hv
    exact h.next_stack v vs (by simp [hv])
  · intro v vs hv
    exact h.rest_stack v vs (by simp [hv])

/-- A successor has been seen before. -/
theorem Searched.skip {u v : Nat} {vs : List Nat}
    (h : g.Searched root seen ((u, v :: vs) :: rest) done) (old : v ∈ seen) :
    g.Searched root seen ((u, vs) :: rest) done := by
  have same : pending ((u, vs) :: rest) done = pending ((u, v :: vs) :: rest) done := by
    simp [pending]
  refine ⟨?_, same ▸ h.nodup, h.reaches, h.next_done, ?_, ?_, same ▸ h.rooted⟩
  · intro w
    rw [same]
    exact h.mem_seen w
  · intro x xs hx w hw
    rcases List.mem_cons.mp hx with hx | hx
    · obtain ⟨rfl, rfl⟩ := Prod.mk.injEq .. ▸ hx
      rcases h.next_stack x (v :: xs) (by simp) w hw with hs | hs
      · exact .inl hs
      · rcases List.mem_cons.mp hs with rfl | hs
        · exact .inl old
        · exact .inr hs
    · exact h.next_stack x xs (by simp [hx]) w hw
  · intro x xs hx w hw
    rcases List.mem_cons.mp hx with hx | hx
    · obtain ⟨rfl, rfl⟩ := Prod.mk.injEq .. ▸ hx
      exact h.rest_stack x (v :: xs) (by simp) w (by simp [hw])
    · exact h.rest_stack x xs (by simp [hx]) w hw

/-- A successor is seen for the first time. -/
theorem Searched.enter {u v : Nat} {vs : List Nat}
    (h : g.Searched root seen ((u, v :: vs) :: rest) done) (new : v ∉ seen) :
    g.Searched root (v :: seen) ((v, g.next v) :: (u, vs) :: rest) done := by
  have edge : v ∈ g.next u := h.rest_stack u (v :: vs) (by simp) v (by simp)
  -- the new node comes behind the nodes of the stack and before those that are done
  have shape : pending ((v, g.next v) :: (u, vs) :: rest) done
      = ((rest.map (·.1)).reverse ++ [u]) ++ v :: done := by simp [pending]
  have shape' : pending ((u, v :: vs) :: rest) done
      = ((rest.map (·.1)).reverse ++ [u]) ++ done := by simp [pending]
  have member : ∀ w, w ∈ seen ↔ w ∈ ((rest.map (·.1)).reverse ++ [u]) ++ done := by
    intro w
    rw [← shape']
    exact h.mem_seen w
  refine ⟨?_, ?_, ?_, ?_, ?_, ?_, ?_⟩
  · intro w
    rw [shape, List.mem_cons, member w]
    simp only [List.mem_append, List.mem_cons]
    tauto
  · rw [shape]
    have nodup := h.nodup
    rw [shape'] at nodup
    refine List.nodup_middle.mpr (List.nodup_cons.mpr ⟨?_, nodup⟩)
    rw [← member]
    exact new
  · intro w hw
    rcases List.mem_cons.mp hw with rfl | hw
    · have source : u ∈ seen := (h.mem_seen u).mpr (by simp [pending])
      exact (h.reaches u source).trans ⟨_, .go edge (.stay w)⟩
    · exact h.reaches w hw
  · intro w hw x hx
    exact List.mem_cons_of_mem _ (h.next_done w hw x hx)
  · intro x xs hx w hw
    simp only [List.mem_cons, Prod.mk.injEq] at hx
    rcases hx with ⟨rfl, rfl⟩ | ⟨rfl, rfl⟩ | hx
    · exact .inr hw
    · rcases h.next_stack x (v :: xs) (by simp) w hw with hs | hs
      · exact .inl (List.mem_cons_of_mem _ hs)
      · rcases List.mem_cons.mp hs with rfl | hs
        · exact .inl (by simp)
        · exact .inr hs
    · exact (h.next_stack x xs (by simp [hx]) w hw).imp (List.mem_cons_of_mem _) id
  · intro x xs hx w hw
    simp only [List.mem_cons, Prod.mk.injEq] at hx
    rcases hx with ⟨rfl, rfl⟩ | ⟨rfl, rfl⟩ | hx
    · exact hw
    · exact h.rest_stack x (v :: xs) (by simp) w (by simp [hw])
    · exact h.rest_stack x xs (by simp [hx]) w hw
  · rw [shape]
    exact Rooted.insert (shape' ▸ h.rooted) (by simp) edge

/-- A search keeps what holds of it until its stack is empty. -/
theorem Searched.result {stack : List (Nat × List Nat)} (h : g.Searched root seen stack done) :
    ∃ all, g.Searched root all [] (g.search seen stack done) := by
  induction seen, stack, done using Graph.search.induct g with
  | case1 seen done =>
    rw [search]
    exact ⟨seen, h⟩
  | case2 seen done u rest ih =>
    rw [search]
    exact ih h.finish
  | case3 seen done u v vs rest new ih =>
    rw [search, dif_pos new]
    exact ih (h.enter new.1)
  | case4 seen done u v vs rest old ih =>
    rw [search, dif_neg old]
    -- an edge leads to a node, so that only its having been seen can stop the search
    have edge : v ∈ g.next u := h.rest_stack u (v :: vs) (by simp) v (by simp)
    exact ih (h.skip (by simpa [next_lt edge] using old))

/-! ### Reverse postorder -/

theorem searched_reversePostorder (valid : root < g.size) :
    ∃ all, g.Searched root all [] (g.reversePostorder root) := by
  rw [reversePostorder, if_pos valid]
  exact (Searched.start root).result

theorem nodup_reversePostorder (g : Graph) (root : Nat) : (g.reversePostorder root).Nodup := by
  by_cases valid : root < g.size
  · obtain ⟨all, h⟩ := searched_reversePostorder valid
    simpa [pending] using h.nodup
  · simp [reversePostorder, valid]

/-- The search keeps the node at the bottom of its stack in front. -/
theorem head_search {stack : List (Nat × List Nat)} {u : Nat} {vs : List Nat} :
    (g.search seen (stack ++ [(u, vs)]) done).head? = some u := by
  generalize whole : stack ++ [(u, vs)] = all
  induction seen, all, done using Graph.search.induct g generalizing stack vs with
  | case1 => simp at whole
  | case2 seen done v rest ih =>
    rw [search]
    cases stack with
    | nil =>
      obtain ⟨⟨rfl, -⟩, rfl⟩ := by simpa using whole
      simp [search]
    | cons entry stack =>
      obtain ⟨-, rfl⟩ : entry = (v, []) ∧ stack ++ [(u, vs)] = rest := by simpa using whole
      exact ih rfl
  | case3 seen done v w ws rest new ih =>
    rw [search, dif_pos new]
    cases stack with
    | nil =>
      obtain ⟨⟨rfl, rfl⟩, rfl⟩ := by simpa using whole
      exact @ih [(w, g.next w)] ws rfl
    | cons entry stack =>
      obtain ⟨-, rfl⟩ : entry = (v, w :: ws) ∧ stack ++ [(u, vs)] = rest := by simpa using whole
      exact @ih ((w, g.next w) :: (v, ws) :: stack) vs rfl
  | case4 seen done v w ws rest old ih =>
    rw [search, dif_neg old]
    cases stack with
    | nil =>
      obtain ⟨⟨rfl, rfl⟩, rfl⟩ := by simpa using whole
      exact @ih [] ws rfl
    | cons entry stack =>
      obtain ⟨-, rfl⟩ : entry = (v, w :: ws) ∧ stack ++ [(u, vs)] = rest := by simpa using whole
      exact @ih ((v, ws) :: stack) vs rfl

theorem head_reversePostorder (valid : root < g.size) :
    (g.reversePostorder root).head? = some root := by
  rw [reversePostorder, if_pos valid]
  exact @head_search g [root] [] [] root (g.next root)

/-- A set of nodes that is closed under edges holds all that can be reached from it. -/
theorem Path.mem_of_closed {closed : List Nat} {u v : Nat} {nodes : List Nat}
    (p : g.Path u v nodes) (step : ∀ x ∈ closed, ∀ w ∈ g.next x, w ∈ closed) (hu : u ∈ closed) :
    v ∈ closed := by
  induction p with
  | stay v => exact hu
  | go edge _ ih => exact ih (step _ hu _ edge)

theorem mem_reversePostorder (valid : root < g.size) {v : Nat} :
    v ∈ g.reversePostorder root ↔ g.Reaches root v := by
  obtain ⟨all, h⟩ := searched_reversePostorder valid
  have member : ∀ w, w ∈ all ↔ w ∈ g.reversePostorder root := by
    intro w
    simpa [pending] using h.mem_seen w
  constructor
  · intro hv
    exact h.reaches v ((member v).mpr hv)
  · rintro ⟨nodes, p⟩
    refine p.mem_of_closed ?_ (List.mem_of_head? (head_reversePostorder valid))
    intro x hx w hw
    exact (member w).mp (h.next_done x hx w hw)

theorem Rooted.exists_before {nodes : List Nat} {v : Nat} (h : g.Rooted root nodes)
    (nodup : nodes.Nodup) (hv : v ∈ nodes) (other : v ≠ root) :
    ∃ u ∈ nodes, v ∈ g.next u ∧ nodes.idxOf u < nodes.idxOf v := by
  obtain ⟨before, behind, rfl⟩ := List.append_of_mem hv
  obtain ⟨u, hu, edge⟩ := (h before v behind rfl).resolve_left other
  have fresh : v ∉ before := by
    intro hb
    exact (List.nodup_append.mp nodup).2.2 v hb v (by simp) rfl
  refine ⟨u, by simp [hu], edge, ?_⟩
  rw [List.idxOf_append_of_mem hu, List.idxOf_append_of_notMem fresh, List.idxOf_cons_self]
  have := List.idxOf_lt_length_of_mem hu
  omega

/-- The place of a node in reverse postorder. -/
def rank (g : Graph) (root v : Nat) : Nat := (g.reversePostorder root).idxOf v

theorem rank_root (valid : root < g.size) : g.rank root root = 0 := by
  have head := head_reversePostorder valid
  unfold rank
  cases h : g.reversePostorder root with
  | nil => simp [h] at head
  | cons x rest =>
    obtain rfl : x = root := by simpa [h] using head
    exact List.idxOf_cons_self

theorem rank_inj {u v : Nat} (hu : u ∈ g.reversePostorder root) :
    g.rank root u = g.rank root v ↔ u = v := List.idxOf_inj hu

/-- Every node but the root comes behind a node that leads to it. -/
theorem exists_source_before (valid : root < g.size) {v : Nat}
    (hv : v ∈ g.reversePostorder root) (other : v ≠ root) :
    ∃ u ∈ g.reversePostorder root, v ∈ g.next u ∧
      g.rank root u < g.rank root v := by
  obtain ⟨all, h⟩ := searched_reversePostorder valid
  have rooted : g.Rooted root (g.reversePostorder root) := by simpa [pending] using h.rooted
  exact rooted.exists_before (g.nodup_reversePostorder root) hv other

end Graph

end KernelCoarsening
