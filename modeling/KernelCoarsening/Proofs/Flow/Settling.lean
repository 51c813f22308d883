/-
The computation of immediate dominators comes to an end.

Three loops have no limit of their own: the passes are repeated until one changes nothing, two
nodes climb along their chains until they are the same, and a chain is followed until a node is
found on it.  The table is written while the chains are read, so that the loops end only because
of what holds of it between any two writes: every link leads to an earlier node that has a link
(`ParentTable.Sound`).  The passes end because the table after as many passes as there are nodes
is determined by the graph (`ParentTable.Tight.unique`).

Here the loops are relations without a rule for a chain that breaks off and without a limit:

* `ParentTable.Climbs`, `ParentTable.Meeting` — two nodes climb in turns until they are the same;
* `ParentTable.Seeks` — a chain is followed until a node is found or the chain ends.

* `Graph.parents_settles` — the passes end, every two nodes that climb have whole chains and meet,
  and every search in the table that results has an answer.
-/
import KernelCoarsening.Proofs.Flow.Dominance
import KernelCoarsening.Proofs.Flow.Exactness
import Mathlib

namespace KernelCoarsening

namespace ParentTable

/-! ### The loops -/

section

variable (t : ParentTable) (order : Nat → Nat)

/-- The chain of a node leads to the root, and every link to an earlier node. -/
inductive Descends (root : Nat) : Nat → Prop where
  | root (top : t.parent root = some root) : Descends root root
  | link {v p : Nat} (parent : t.parent v = some p) (earlier : order p < order v)
    (above : Descends root p) : Descends root v

/-- A node climbs while it comes later than a limit. -/
inductive Climbs (limit : Nat) : Nat → Nat → Prop where
  | stop {v : Nat} (low : order v ≤ limit) : Climbs limit v v
  | link {v p w : Nat} (high : limit < order v) (parent : t.parent v = some p)
    (rest : Climbs limit p w) : Climbs limit v w

/-- Two nodes climb in turns, each up to the other, until they are the same. -/
inductive Meeting : Nat → Nat → Nat → Prop where
  | same (v : Nat) : Meeting v v v
  | round {a b c d m : Nat} (different : a ≠ b) (first : t.Climbs order (order b) a c)
    (second : t.Climbs order (order c) b d) (rest : Meeting c d m) : Meeting a b m

/-- A chain is followed from a node until another is found on it or the chain ends. -/
inductive Seeks (a : Nat) : Nat → Bool → Prop where
  | found : Seeks a a true
  | up {v p : Nat} {answer : Bool} (other : v ≠ a) (parent : t.parent v = some p)
    (moves : p ≠ v) (rest : Seeks a p answer) : Seeks a v answer
  | stop {v : Nat} (other : v ≠ a) (last : ∀ p, t.parent v = some p → p = v) : Seeks a v false

end

theorem Seeks.eq_true_iff {t : ParentTable} {a v : Nat} {answer : Bool}
    (h : t.Seeks a v answer) : answer = true ↔ t.Above a v := by
  induction h with
  | found => simp [Above.self]
  | up other parent moves rest ih =>
    rw [ih]
    constructor
    · intro above
      exact .step parent moves above
    · intro above
      cases above with
      | self => exact absurd rfl other
      | step parent' _ above =>
        have same := Option.some.inj (parent.symm.trans parent')
        exact same ▸ above
  | stop other last =>
    simp only [Bool.false_eq_true, false_iff]
    intro above
    cases above with
    | self => exact other rfl
    | step parent moves _ => exact moves (last _ parent)

/-! ### Sound tables -/

section

variable {g : Graph} {root : Nat} {t : ParentTable} {a b c m v p : Nat}

theorem Sound.link_lt (valid : root < g.size) (h : t.Sound g root) (parent : t.parent v = some p)
    {limit : Nat} (high : limit < g.rank root v) : g.rank root p < g.rank root v := by
  apply h.earlier v p parent
  rintro rfl
  have := Graph.rank_root valid
  omega

variable (valid : root < g.size)
include valid

theorem Sound.descends (h : t.Sound g root) (some : (t.parent v).isSome) :
    t.Descends (g.rank root) root v := by
  induction n : g.rank root v using Nat.strongRecOn generalizing v with
  | _ n ih =>
    obtain ⟨p, parent⟩ := Option.isSome_iff_exists.mp some
    by_cases top : v = root
    · subst top
      exact .root h.top
    · have earlier := h.earlier v p parent top
      exact .link parent earlier (ih _ (n ▸ earlier) (h.filled v p parent) rfl)

/-- A climb ends, at a node that has a link again. -/
theorem Sound.exists_climb (h : t.Sound g root) (some : (t.parent a).isSome) (limit : Nat) :
    ∃ c, t.Climbs (g.rank root) limit a c ∧ (t.parent c).isSome ∧ g.rank root c ≤ limit ∧
      g.rank root c ≤ g.rank root a := by
  induction n : g.rank root a using Nat.strongRecOn generalizing a with
  | _ n ih =>
    rcases Nat.lt_or_ge limit (g.rank root a) with high | low
    · obtain ⟨p, parent⟩ := Option.isSome_iff_exists.mp some
      have earlier := h.link_lt valid parent high
      obtain ⟨c, climb, filled, le, lower⟩ := ih _ (n ▸ earlier) (h.filled a p parent) rfl
      exact ⟨c, .link high parent climb, filled, le, by omega⟩
    · exact ⟨a, .stop low, some, low, by omega⟩

/-- Two nodes meet: in every round one of them climbs. -/
theorem Sound.exists_meeting (h : t.Sound g root) (ha : (t.parent a).isSome)
    (hb : (t.parent b).isSome) : ∃ m, t.Meeting (g.rank root) a b m := by
  induction n : g.rank root a + g.rank root b using Nat.strongRecOn generalizing a b with
  | _ n ih =>
    by_cases same : a = b
    · subst same
      exact ⟨a, .same a⟩
    · have apart := (Graph.rank_inj (h.mem_of_isSome ha)).not.mpr same
      obtain ⟨c, first, hc, leB, leA⟩ := h.exists_climb valid ha (g.rank root b)
      obtain ⟨d, second, hd, leC, leB'⟩ := h.exists_climb valid hb (g.rank root c)
      obtain ⟨m, rest⟩ := ih _ (by omega) hc hd rfl
      exact ⟨m, .round same first second rest⟩

/-- Where two chains meet stays the same while the one node climbs up to the other. -/
theorem Sound.meet_climbs (h : t.Sound g root)
    (climb : t.Climbs (g.rank root) (g.rank root b) a c) :
    t.meet (g.rank root) a b = t.meet (g.rank root) c b ∧
      t.meet (g.rank root) b a = t.meet (g.rank root) b c := by
  induction climb with
  | stop low => exact ⟨rfl, rfl⟩
  | @link v p w high parent rest ih =>
    have earlier := h.link_lt valid parent high
    have other : v ≠ b := by
      rintro rfl
      omega
    constructor
    · rw [meet, if_neg other, if_pos high, parent]
      simpa [earlier] using ih.1
    · rw [meet, if_neg other.symm, if_neg (by omega), if_pos high, parent]
      simpa [earlier] using ih.2

/-- The climbing nodes come to the node that `meet` gives, and to no other. -/
theorem Sound.meeting_iff (h : t.Sound g root) (ha : (t.parent a).isSome)
    (hb : (t.parent b).isSome) :
    t.Meeting (g.rank root) a b m ↔ m = t.meet (g.rank root) a b := by
  have only : ∀ {a b m}, t.Meeting (g.rank root) a b m → m = t.meet (g.rank root) a b := by
    intro a b m meeting
    induction meeting with
    | same v => rw [meet, if_pos rfl]
    | round different first second rest ih =>
      rw [(h.meet_climbs valid first).1, (h.meet_climbs valid second).2]
      exact ih
  constructor
  · exact only
  · rintro rfl
    obtain ⟨m, meeting⟩ := h.exists_meeting valid ha hb
    exact only meeting ▸ meeting

theorem Sound.exists_seeks (h : t.Sound g root) (a v : Nat) : ∃ answer, t.Seeks a v answer := by
  induction n : g.rank root v using Nat.strongRecOn generalizing v with
  | _ n ih =>
    by_cases same : v = a
    · subst same
      exact ⟨true, .found⟩
    · by_cases last : ∀ p, t.parent v = some p → p = v
      · exact ⟨false, .stop same last⟩
      · push Not at last
        obtain ⟨p, parent, moves⟩ := last
        have inner : v ≠ root := by
          rintro rfl
          exact moves (by simpa [h.top] using parent.symm)
        obtain ⟨answer, rest⟩ := ih _ (n ▸ h.earlier v p parent inner) p rfl
        exact ⟨answer, .up same parent moves rest⟩

end

/-! ### Passes -/

section

variable {g : Graph} {root : Nat} {t u : ParentTable} {order : Nat → Nat}

theorem eq_of_parent (size : t.size = u.size) (same : ∀ v, t.parent v = u.parent v) : t = u := by
  apply Array.ext size
  intro v left right
  have entry := same v
  simpa [parent, left, right] using entry

@[simp] theorem size_update (preds : Graph) (v : Nat) :
    (t.update preds order v).size = t.size := by
  unfold update
  split <;> simp

theorem parent_update_of_ne (preds : Graph) {v x : Nat} (other : x ≠ v) :
    (t.update preds order v).parent x = t.parent x := by
  unfold update
  split
  · rfl
  · simp [parent, Array.getD_eq_getD_getElem?, Array.getElem?_setIfInBounds_ne other.symm]

theorem parent_pass_of_notMem (preds : Graph) {nodes : List Nat} {x : Nat} (out : x ∉ nodes) :
    (t.pass preds order nodes).parent x = t.parent x := by
  induction nodes generalizing t with
  | nil => rfl
  | cons v rest ih =>
    obtain ⟨other, later⟩ : x ≠ v ∧ x ∉ rest := by simpa using out
    have step : (t.update preds order v).parent x = t.parent x := parent_update_of_ne preds other
    exact (ih later).trans step

/-- A pass that changes nothing in the end has changed nothing at any node: it writes every entry
once only. -/
theorem update_eq_self_of_pass {preds : Graph} {nodes : List Nat} (nodup : nodes.Nodup)
    (still : t.pass preds order nodes = t) {v : Nat} (hv : v ∈ nodes) :
    t.update preds order v = t := by
  induction nodes with
  | nil => simp at hv
  | cons w rest ih =>
    obtain ⟨out, nodup⟩ := List.nodup_cons.mp nodup
    have after : (t.update preds order w).pass preds order rest = t := still
    have first : t.update preds order w = t := by
      apply eq_of_parent (by simp)
      intro x
      by_cases same : x = w
      · subst same
        rw [← parent_pass_of_notMem preds out, after]
      · exact parent_update_of_ne preds same
    rw [first] at after
    rcases List.mem_cons.mp hv with rfl | later
    · exact first
    · exact ih nodup after later

/-- The repeated pass comes to the first table that it leaves alone. -/
theorem settle_eq_iterate {step : ParentTable → ParentTable} {k fuel : Nat} (enough : k ≤ fuel)
    (still : step (step^[k] t) = step^[k] t) : settle step fuel t = step^[k] t := by
  induction fuel generalizing k t with
  | zero =>
    obtain rfl : k = 0 := by omega
    rfl
  | succ fuel ih =>
    rw [settle, Bool.cond_eq_ite]
    split
    · rename_i same
      exact (Function.iterate_fixed (eq_of_beq same) k).symm
    · rename_i moved
      cases k with
      | zero => exact absurd (beq_iff_eq.mpr still) moved
      | succ k => exact ih (by omega) still

/-- Tables that so many passes have gone over are the same. -/
theorem Tight.unique (valid : root < g.size) {j k : Nat} (h : t.Tight g root j)
    (h' : u.Tight g root k) (le : g.size ≤ j) (le' : g.size ≤ k) : t = u := by
  apply eq_of_parent (h.sound.size.trans h'.sound.size.symm)
  intro v
  -- a link leads to the nearest dominator, of which there is only one
  have near : ∀ {w : ParentTable} {n p : Nat}, w.Tight g root n → g.size ≤ n →
      w.parent v = some p → v ≠ root → g.Nearest root p v := by
    intro w n p tight enough parent inner
    have earlier := tight.sound.earlier v p parent inner
    have other : p ≠ v := by
      rintro rfl
      omega
    have above : w.Above p v := .step parent other .self
    refine ⟨other, ?_, tight.sound.nearest v p parent inner⟩
    exact (tight.forced v p (by simp [parent]) above).dominates valid enough
  by_cases listed : v ∈ g.reversePostorder root
  · obtain ⟨p, hp⟩ := Option.isSome_iff_exists.mp (h.full (by omega) v listed)
    obtain ⟨q, hq⟩ := Option.isSome_iff_exists.mp (h'.full (by omega) v listed)
    rw [hp, hq]
    by_cases top : v = root
    · subst top
      rw [← hp, ← hq, h.sound.top, h'.sound.top]
    · have reached := (Graph.mem_reversePostorder valid).mp listed
      rw [(near h le hp top).unique (near h' le' hq top) reached]
  · have missing : ∀ {w : ParentTable} {n : Nat}, w.Tight g root n → w.parent v = none := by
      intro w n tight
      rw [← Option.not_isSome_iff_eq_none]
      exact fun some => listed (tight.sound.mem_of_isSome some)
    rw [missing h, missing h']

end

end ParentTable

/-! ### The whole run -/

namespace Graph

variable {g : Graph} {root : Nat}

/-- The table before the first pass, with the link of the root only. -/
def startTable (g : Graph) (root : Nat) : ParentTable :=
  (Array.replicate g.size none : ParentTable).setIfInBounds root (some root)

/-- The table in the pass after the first `k`, with some nodes done. -/
def tableAt (g : Graph) (root k : Nat) (nodes : List Nat) : ParentTable :=
  ParentTable.pass g.inverse (g.rank root) nodes
    ((ParentTable.pass g.inverse (g.rank root) (g.reversePostorder root).tail)^[k]
      (g.startTable root))

/-- For a node, the chains of two others are to meet: of a predecessor that has a link, and of
the node where those before it have met. -/
def Compares (g : Graph) (root : Nat) (t : ParentTable) (v p met : Nat) : Prop :=
  ∃ first before after,
    ((g.inverse.next v).filter fun p => (t.parent p).isSome) = first :: (before ++ p :: after) ∧
      met = before.foldl (fun met p => t.meet (g.rank root) p met) first

variable (valid : root < g.size)
include valid

theorem tight_iterate (k : Nat) : (g.tableAt root k []).Tight g root k := by
  induction k with
  | zero => exact ParentTable.tight_start valid
  | succ k ih =>
    rw [tableAt, Function.iterate_succ_apply']
    exact ih.pass valid

theorem sound_tableAt {k : Nat} {nodes rest : List Nat}
    (whole : (g.reversePostorder root).tail = nodes ++ rest) :
    (g.tableAt root k nodes).Sound g root := by
  obtain ⟨others, all⟩ := List.head?_eq_some_iff.mp (head_reversePostorder valid)
  rw [all, List.tail_cons] at whole
  have split : g.reversePostorder root = [root] ++ (nodes ++ rest) := by simp [all, whole]
  exact (((tight_iterate valid k).passing valid).foldl valid split (by simp)).sound

theorem isSome_of_compares {t : ParentTable} (sound : t.Sound g root) {v p met : Nat}
    (h : g.Compares root t v p met) : (t.parent p).isSome ∧ (t.parent met).isSome := by
  obtain ⟨first, before, after, shape, rfl⟩ := h
  have somes : ∀ u ∈ first :: (before ++ p :: after), (t.parent u).isSome := by
    intro u hu
    rw [← shape] at hu
    exact (List.mem_filter.mp hu).2
  have used : ∀ u ∈ first :: before, (t.parent u).isSome := by
    intro u hu
    rw [← List.cons_append] at somes
    exact somes u (List.mem_append_left _ hu)
  exact ⟨somes p (by simp), (sound.meets_sources valid used).filled⟩

/-- After as many passes as there are nodes, another one changes nothing. -/
theorem pass_tableAt_size : g.tableAt root (g.size + 1) [] = g.tableAt root g.size [] :=
  (tight_iterate valid (g.size + 1)).unique valid (tight_iterate valid g.size) (by omega)
    (Nat.le_refl _)

/-- Passes that change something come first, and at most as many of them as there are nodes; the
next one changes the table at no node. -/
theorem exists_quiet_pass : ∃ k ≤ g.size, g.tableAt root k [] = g.parents root ∧
    (∀ j < k, g.tableAt root (j + 1) [] ≠ g.tableAt root j []) ∧
    ∀ v ∈ (g.reversePostorder root).tail,
      (g.parents root).update g.inverse (g.rank root) v = g.parents root := by
  have quiet : ∃ k, g.tableAt root (k + 1) [] = g.tableAt root k [] := ⟨_, pass_tableAt_size valid⟩
  let k := Nat.find quiet
  have le : k ≤ g.size := Nat.find_min' quiet (pass_tableAt_size valid)
  have still : g.tableAt root (k + 1) [] = g.tableAt root k [] := Nat.find_spec quiet
  rw [tableAt, Function.iterate_succ_apply'] at still
  have enough : k ≤ g.size * g.size + 1 := by nlinarith
  have result : g.parents root = g.tableAt root k [] := ParentTable.settle_eq_iterate enough still
  refine ⟨k, le, result.symm, fun j lt => Nat.find_min quiet lt, fun v hv => ?_⟩
  have nodup := (g.nodup_reversePostorder root).sublist (List.tail_sublist _)
  exact ParentTable.update_eq_self_of_pass nodup (result ▸ still) hv

/-- A search along a chain ends, and it finds what is on the chain. -/
theorem seeks_parents_iff {a v : Nat} {answer : Bool} : (g.parents root).Seeks a v answer ↔
    answer = decide (a ∈ (g.parents root).ancestors v) := by
  have only : ∀ {answer}, (g.parents root).Seeks a v answer →
      answer = decide (a ∈ (g.parents root).ancestors v) := by
    intro answer seeks
    rw [Bool.eq_iff_iff, seeks.eq_true_iff, decide_eq_true_eq,
      mem_ancestors_parents_iff_above valid]
  refine ⟨only, ?_⟩
  rintro rfl
  obtain ⟨found, seeks⟩ := (tight_parents valid).sound.exists_seeks valid a v
  exact only seeks ▸ seeks

/-- The computation of immediate dominators ends.  At most as many passes as there are nodes
change the table, all of them in a row; the next changes it at no node, and what it finds is the
result.  Between any two writes, in every pass, two nodes whose chains are to meet both have
chains that descend to the root, and they climb to one node.  Every search in the result ends. -/
theorem parents_settles :
    (∃ k ≤ g.size, g.tableAt root k [] = g.parents root ∧
      (∀ j < k, g.tableAt root (j + 1) [] ≠ g.tableAt root j []) ∧
      ∀ v ∈ (g.reversePostorder root).tail,
        (g.parents root).update g.inverse (g.rank root) v = g.parents root) ∧
    (∀ k nodes v rest, (g.reversePostorder root).tail = nodes ++ v :: rest →
      ∀ p met, g.Compares root (g.tableAt root k nodes) v p met →
        (g.tableAt root k nodes).Descends (g.rank root) root p ∧
        (g.tableAt root k nodes).Descends (g.rank root) root met ∧
        ∀ m, (g.tableAt root k nodes).Meeting (g.rank root) p met m ↔
          m = (g.tableAt root k nodes).meet (g.rank root) p met) ∧
    ∀ a v answer, (g.parents root).Seeks a v answer ↔
      answer = decide (a ∈ (g.parents root).ancestors v) := by
  refine ⟨exists_quiet_pass valid, ?_, fun a v answer => seeks_parents_iff valid⟩
  intro k nodes v rest whole p met compares
  have sound := sound_tableAt (k := k) valid whole
  obtain ⟨hp, hmet⟩ := isSome_of_compares valid sound compares
  refine ⟨sound.descends valid hp, sound.descends valid hmet, fun m => ?_⟩
  exact sound.meeting_iff valid hp hmet

omit valid in
/-- In the graph with a loop that is entered at two nodes, the first pass compares these two for
the node behind, and they climb to the root; one pass is enough for the whole table. -/
theorem parents_settles_tangle : 0 < Func.tangleGraph.size ∧
    (Func.tangleGraph.tableAt 0 0 [1, 2]).Meeting (Func.tangleGraph.rank 0) 2 1 0 ∧
    (∃ k ≤ 7, Func.tangleGraph.tableAt 0 k [] = Func.tangleGraph.parents 0 ∧ k ≠ 0) ∧
    (Func.tangleGraph.parents 0).Seeks 3 5 true ∧ (Func.tangleGraph.parents 0).Seeks 0 6 false := by
  obtain ⟨⟨k, le, result, -, -⟩, meetings, searches⟩ :=
    parents_settles (g := Func.tangleGraph) (show 0 < Func.tangleGraph.size by decide)
  have order : (Func.tangleGraph.reversePostorder 0).tail = [1, 2] ++ 3 :: [5, 4] := by cbv
  have compared : Func.tangleGraph.Compares 0 (Func.tangleGraph.tableAt 0 0 [1, 2]) 3 2 1 :=
    ⟨1, [], [], by cbv, rfl⟩
  have meeting := (meetings 0 [1, 2] 3 [5, 4] order 2 1 compared).2.2 0
  have table : Func.tangleGraph.parents 0 =
      #[some 0, some 0, some 0, some 0, some 3, some 3, none] := by cbv
  rw [table] at searches result ⊢
  refine ⟨by decide, meeting.mpr (by cbv), ⟨k, le, result, ?_⟩, ?_, ?_⟩
  · rintro rfl
    have before : (Func.tangleGraph.tableAt 0 0 []).parent 1 = none := by cbv
    rw [result] at before
    contradiction
  · exact (searches 3 5 true).mpr (by decide)
  · exact (searches 0 6 false).mpr (by decide)

end Graph

end KernelCoarsening
