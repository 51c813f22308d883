/-
Every value that is repeated has all its replicas.

Replicas come from three places: the identities of the other threads, copies of an instruction
behind it, and copies of a region, one list being gathered from all of them.  In whatever order
instructions and regions are repeated and placeholders go:

* `Replication.Stocked` — the replicas of a value are as many as they should be, they are all
  different, new and placed, and no placeholder is among them;
* `Replication.Stocked.perform` — every command keeps this;
* `Func.Scaled.stocked` — the identities of the other threads begin so;
* `commands_fill_clone_lists` — so it is after any commands, and everything divergent has its
  replicas when everything has been repeated.
-/
import KernelCoarsening.Proofs.Coarsening.Commands
import KernelCoarsening.Proofs.Coarsening.Scaling
import KernelCoarsening.Proofs.Divergence.Nesting
import KernelCoarsening.Proofs.Divergence.Straight
import KernelCoarsening.Proofs.Ir.BlockCopies

namespace KernelCoarsening

/-! ### What regions hold -/

namespace Region

variable {f : Func} {r : Region}

/-- A region of a function: its bounds are among its blocks, and its alive values are placed
there. -/
structure Inside (f : Func) (r : Region) : Prop where
  header : r.header ∈ r.blocks
  exiting : r.exiting ∈ r.blocks
  alive : ∀ i ∈ r.alive, ∃ b ∈ r.blocks, i ∈ f.code b

theorem alive_findBorder {ops : List (InstId × Operation)} :
    Yields (r.findBorder f ops) fun r' => ∀ i ∈ r'.alive, ∃ b ∈ r'.blocks, i ∈ f.code b := by
  refine .ask fun insts listed => .ask fun inner _ => .pure fun i hi => ?_
  obtain ⟨blocks, asked, answer⟩ := bind_eq_ok_iff.mp listed
  obtain rfl := Except.ok.inj answer
  obtain ⟨block, hblock, mem⟩ := List.mem_flatMap.mp (List.mem_of_mem_filter hi)
  obtain ⟨b, hb, answer⟩ := (mem_of_mapM_eq_ok asked).mp hblock
  exact ⟨b, hb, Func.code_of_block answer ▸ mem⟩

theorem alive_ofBranches {flow : Flow} {ops : List (InstId × Operation)} {branches : List InstId} :
    Yields (ofBranches f flow ops branches) fun answer => ∀ regions, answer = .ok regions →
      ∀ r ∈ regions, ∀ i ∈ r.alive, ∃ b ∈ r.blocks, i ∈ f.code b := by
  induction branches with
  | nil =>
    refine .pure ?_
    rintro regions same r hr
    obtain rfl := Except.ok.inj same
    simp at hr
  | cons branch rest ih =>
    rw [ofBranches]
    split
    · exact ih
    · refine .ask fun answer _ => ?_
      split
      · exact .pure (by simp)
      · refine .ask fun filled _ => alive_findBorder.bind fun region known => ?_
        refine ih.bind fun others later => .pure ?_
        rintro regions same
        cases others with
        | error e => simp [Except.map] at same
        | ok others =>
          obtain rfl : region :: others = regions := by simpa [Except.map] using same
          exact List.forall_mem_cons.mpr ⟨known, later others rfl⟩

end Region

namespace Func

variable {f g : Func} {selector : DimensionSelector} {shared : List GlobalId} {level : Level}
  {dim : Dimension} {found : DivergentFunc} {ops : List (InstId × Operation)}
  {accesses : List (InstId × GlobalId)} {b : BlockId} {i j : InstId}

/-- The regions that an analysis finds are regions of the function. -/
theorem Analyzed.inside (a : f.Analyzed selector level dim found ops accesses)
    (consistent : f.Consistent) {r : Region} (hr : r ∈ found.divergence.regions) : r.Inside f := by
  have spans := a.spans consistent hr
  obtain ⟨regions, made, kept⟩ := a.discovered
  rw [kept] at hr
  exact ⟨spans.header_mem, spans.exiting_mem,
    Region.alive_ofBranches _ made regions rfl r (Region.mem_of_mem_dropRepeats hr)⟩

/-- What is repeated in place is placed. -/
theorem Analyzed.placed_outermost (a : f.Analyzed selector level dim found ops accesses)
    (consistent : f.Consistent) (hi : i ∈ found.divergence.outermostInstructions) :
    (f.blockOf i).isSome := by
  obtain ⟨⟨i, b⟩, listed, rfl⟩ := List.mem_map.mp (List.mem_of_mem_filter hi)
  obtain ⟨-, -, home, -⟩ := (a.mem_placed consistent).mp listed
  simp [home]

end Func

/-! ### Maps of replicas -/

namespace ReplicaMap

variable {m : ReplicaMap} {i : InstId} {list : List InstId}

theorem get?_insert_of_some (has : m.get? i = some list) (j : InstId) (replicas : List InstId) :
    (m.insert j replicas).get? i = some list := by
  rw [get?_insert]
  split
  · rename_i same
    simp [same, has]
  · exact has

theorem eq_or_of_get?_insert {j : InstId} {replicas : List InstId}
    (has : (m.insert j replicas).get? i = some list) :
    m.get? i = some list ∨ i = j ∧ list = replicas := by
  rw [get?_insert] at has
  split at has
  · rename_i same
    subst same
    cases before : m.get? j with
    | none => exact .inr ⟨rfl, by simpa [before] using has.symm⟩
    | some old => exact .inl (by simpa [before] using has)
  · exact .inl has

variable {entries : List (InstId × List InstId)}

/-- Many values get replicas, the first entry of a value counting. -/
theorem get?_inserts_of_some (has : m.get? i = some list) :
    (entries.foldl (fun map entry => map.insert entry.1 entry.2) m).get? i = some list := by
  induction entries generalizing m with
  | nil => exact has
  | cons entry rest ih => exact ih (get?_insert_of_some has _ _)

theorem mem_of_get?_inserts
    (has : (entries.foldl (fun map entry => map.insert entry.1 entry.2) m).get? i = some list) :
    m.get? i = some list ∨ (i, list) ∈ entries := by
  induction entries generalizing m with
  | nil => exact .inl has
  | cons entry rest ih =>
    rcases ih has with before | later
    · refine (eq_or_of_get?_insert before).imp_right ?_
      rintro ⟨rfl, rfl⟩
      exact List.mem_cons_self
    · exact .inr (List.mem_cons_of_mem _ later)

theorem isSome_inserts (mem : (i, list) ∈ entries) :
    ((entries.foldl (fun map entry => map.insert entry.1 entry.2) m).get? i).isSome := by
  induction entries generalizing m with
  | nil => simp at mem
  | cons entry rest ih =>
    rcases List.mem_cons.mp mem with rfl | later
    · have here : (m.insert i list).get? i = some ((m.get? i).getD list) := by
        rw [get?_insert, if_pos rfl]
      rw [List.foldl_cons]
      exact Option.isSome_of_eq_some (get?_inserts_of_some here)
    · exact ih later

end ReplicaMap

namespace Replication

open Func

variable {f : Func} {s t : Replication} {i : InstId} {n : Nat} {region : Region}
  {copies : List BlockCopy}

/-! ### Copies of a region -/

/-- Copies of a region that have been made one after the other. -/
structure Copied (f g : Func) (region : Region) (copies : List BlockCopy) : Prop where
  consistent : g.Consistent
  leaves : f.Leaves (fun _ => False) g
  covers : ∀ copy ∈ copies, copy.Covers region.blocks (region.blocks.flatMap f.code)
  placed : ∀ copy ∈ copies, ∀ i j, (i, j) ∈ copy.instMap →
    f.insts.size ≤ j.index ∧ (g.blockOf j).isSome
  one : ∀ copy ∈ copies, ∀ i i' j, (i, j) ∈ copy.instMap → (i', j) ∈ copy.instMap → i = i'
  apart : copies.Pairwise fun copy copy' =>
    ∀ i i' j, (i, j) ∈ copy.instMap → (i', j) ∉ copy'.instMap

theorem copied_copyRegion (hf : f.Consistent) {count : Nat} :
    Yields (copyRegion region f n count) fun r => Copied f r.1 region r.2 ∧
      r.2.length = count := by
  induction count generalizing f n with
  | zero => exact .pure ⟨⟨hf, .refl f, by simp, by simp, by simp, by simp⟩, rfl⟩
  | succ count ih =>
    rw [copyRegion]
    refine (copies_copyBlocks hf).bind fun r₁ first => ?_
    obtain ⟨first, covers⟩ := first
    refine (ih first.consistent).bind fun r₂ later => .pure ?_
    obtain ⟨later, length⟩ := later
    refine ⟨⟨later.consistent, first.leaves.trans later.leaves, ?_, ?_, ?_, ?_⟩, by simp [length]⟩
    · refine List.forall_mem_cons.mpr ⟨covers, fun copy hc => ?_⟩
      refine ⟨(later.covers copy hc).blocks, fun i hi => (later.covers copy hc).insts i ?_⟩
      obtain ⟨b, hb, mem⟩ := List.mem_flatMap.mp hi
      exact List.mem_flatMap.mpr ⟨b, hb, first.code_subset hf mem⟩
    · refine List.forall_mem_cons.mpr ⟨fun i j hj => ?_, fun copy hc i j hj => ?_⟩
      · obtain ⟨new, placed⟩ := first.placed i j hj
        exact ⟨new, by rw [later.leaves.home j (lt_of_placed placed) id]; exact placed⟩
      · obtain ⟨new, placed⟩ := later.placed copy hc i j hj
        exact ⟨Nat.le_trans first.leaves.grows.insts new, placed⟩
    · exact List.forall_mem_cons.mpr ⟨first.one, later.one⟩
    · refine List.pairwise_cons.mpr ⟨fun copy hc i i' j hj hj' => ?_, later.apart⟩
      -- the slots of later copies were not there when the first one was made
      have old := lt_of_placed (first.placed i j hj).2
      exact absurd old (Nat.not_lt.mpr (later.placed copy hc i' j hj').1)

/-- What may be moved when copies of a region are put into place: new instructions, and copies of
placeholders, which are taken out. -/
def Struck (g : Func) (held : List InstId) (copies : List BlockCopy) (j : InstId) : Prop :=
  g.insts.size ≤ j.index ∨ ∃ copy ∈ copies, ∃ k ∈ held, (k, j) ∈ copy.instMap

/-- Putting copies of a region into place moves nothing else. -/
theorem advances_struck {splice : Splice} {top : BlockId} {g : Func}
    (spliced : spliceCopies splice { s with func := g } top n copies = .ok t) :
    Advances (Struck g splice.held copies) { s with func := g } t :=
  advances_spliceCopies (s := { s with func := g }) (fun _ new => .inl new)
    (fun copy hc k hk _ hj => .inr ⟨copy, hc, k, hk, hj⟩) t spliced

namespace Copied

variable {g : Func} (copied : Copied f g region copies)

include copied

/-- A copy is of one instruction. -/
theorem unique {copy copy' : BlockCopy} (hc : copy ∈ copies) (hc' : copy' ∈ copies)
    {i i' j : InstId} (hj : (i, j) ∈ copy.instMap) (hj' : (i', j) ∈ copy'.instMap) : i = i' := by
  let same : BlockCopy → BlockCopy → Prop := fun copy copy' =>
    ∀ i i' j, (i, j) ∈ copy.instMap → (i', j) ∈ copy'.instMap → i = i'
  have pairs : copies.Pairwise same := copied.apart.imp fun apart i i' j hj hj' =>
    absurd hj' (apart i i' j hj)
  have : Std.Symm same := ⟨fun _ _ holds i i' j hj hj' => (holds i' i j hj' hj).symm⟩
  exact List.Pairwise.forall_of_forall copied.one pairs hc hc' i i' j hj hj'

/-- What was there before the copies is not touched when they are put into place. -/
theorem not_struck_old {held : List InstId} {j : InstId} (old : j.index < f.insts.size) :
    ¬ Struck g held copies j := by
  rintro (new | ⟨copy, hc, k, -, hj⟩)
  · exact absurd (Nat.lt_of_lt_of_le old copied.leaves.grows.insts) (Nat.not_lt.mpr new)
  · exact absurd old (Nat.not_lt.mpr (copied.placed copy hc k j hj).1)

/-- The copy of what is no placeholder stays. -/
theorem not_struck {held : List InstId} {copy : BlockCopy} (hc : copy ∈ copies) {i j : InstId}
    (hj : (i, j) ∈ copy.instMap) (kept : i ∉ held) : ¬ Struck g held copies j := by
  rintro (new | ⟨copy', hc', k, hk, hj'⟩)
  · exact absurd (lt_of_placed (copied.placed copy hc i j hj).2) (Nat.not_lt.mpr new)
  · exact kept (copied.unique hc hc' hj hj' ▸ hk)

end Copied

theorem mem_aliveReplicas {c : InstId} (hc : c ∈ aliveReplicas region copies i) :
    ∃ copy ∈ copies, (i, c) ∈ copy.instMap := by
  obtain ⟨copy, mem, answer⟩ := List.mem_filterMap.mp hc
  simp only [Option.bind_eq_bind, Option.bind_eq_some_iff] at answer
  obtain ⟨_, _, _, _, found⟩ := answer
  exact ⟨copy, mem, Assoc.mem_of_get? found⟩

/-- An instruction of a region has a replica in every copy of the region. -/
theorem Copied.full {g : Func} (copied : Copied f g region copies)
    (header : region.header ∈ region.blocks)
    (exiting : region.exiting ∈ region.blocks) (hi : i ∈ region.blocks.flatMap f.code) :
    (aliveReplicas region copies i).length = copies.length ∧
      (aliveReplicas region copies i).Nodup := by
  -- the bounds of the region have been copied with it, so that every copy counts
  have all : aliveReplicas region copies i = copies.filterMap fun copy => copy.instMap.get? i := by
    refine List.filterMap_congr fun copy hc => ?_
    obtain ⟨h, hh⟩ := Option.isSome_iff_exists.mp ((copied.covers copy hc).blocks _ header)
    obtain ⟨e, he⟩ := Option.isSome_iff_exists.mp ((copied.covers copy hc).blocks _ exiting)
    simp [hh, he]
  rw [all]
  constructor
  · rw [List.length_filterMap_eq_countP, List.countP_eq_length]
    exact fun copy hc => (copied.covers copy hc).insts i hi
  · refine copied.apart.filterMap _ fun copy copy' apart c hc c' hc' => ?_
    rintro rfl
    exact apart i i c (Assoc.mem_of_get? hc) (Assoc.mem_of_get? hc')

/-! ### Copies of an instruction -/

/-- A replica has found a place; the placeholders by then are other instructions. -/
structure Joins (copy : InstId) (t : Replication) : Prop where
  consistent : t.func.Consistent
  placed : (t.func.blockOf copy).isSome
  held : ∀ i ∈ t.placeholders.all, i ≠ copy ∧ i.index < t.func.insts.size

/-- One replica is made, rewired and placed behind something placed. -/
theorem joins_attachAfter (consistent : s.func.Consistent)
    (held : ∀ i ∈ s.placeholders.all, i.index < s.func.insts.size) {behind copy : InstId}
    (placed : (s.func.blockOf behind).isSome) {name : String} {func g : Func}
    (copied : s.func.copyInst i name = .ok (func, copy))
    (rewired : rewire n { s with func } copy = .ok t)
    (attached : t.func.attachAfter behind copy = .ok g) : Joins copy { t with func := g } := by
  obtain ⟨next, inside⟩ : copy.index = s.func.insts.size ∧ copy.index < func.insts.size :=
    slot_copyInst _ copied
  have spares : t.func.Spares [copy] := spares_rewire (s := { s with func })
    ((Spares.nil consistent).copyInst _ copied) t rewired
  -- nothing that was there is moved, so that the copy is placed behind what is placed
  have before : s.Advances (copy.index ≤ ·.index) { s with func } :=
    (Advances.refl s).edit (leaves_copyInst _ copied)
  have after := advances_rewire (s := { s with func })
    (fun j new => Nat.le_trans (Nat.le_of_lt inside) new) t rewired
  have step := before.trans after
  have old := lt_of_placed placed
  have anchored : (t.func.blockOf behind).isSome := by
    rw [step.func.home behind old (by omega)]
    exact placed
  have grown := (grows_attachAfter g attached).insts
  refine ⟨(spares.attachAfter g attached).consistent,
    spares.consistent.isSome_attachAfter anchored g attached, fun i hi => ?_⟩
  -- placeholders are older or younger than the copy
  rcases after.held i hi with earlier | ⟨above, below⟩
  · have small := held i earlier
    refine ⟨fun same => by rw [same] at small; omega, ?_⟩
    exact Nat.lt_of_lt_of_le small (Nat.le_trans step.func.grows.insts grown)
  · exact ⟨fun same => by rw [same] at above; exact absurd inside (Nat.not_lt.mpr above),
      Nat.lt_of_lt_of_le below grown⟩

/-- The replicas of a placed instruction are placed, and no placeholders. -/
theorem placed_chainReplicas (consistent : s.func.Consistent)
    (held : ∀ i ∈ s.placeholders.all, i.index < s.func.insts.size) {behind : InstId}
    (placed : (s.func.blockOf behind).isSome) {name : String} {count : Nat} :
    Yields (chainReplicas i name s behind n count) fun r =>
      ∀ c ∈ r.2, (r.1.func.blockOf c).isSome ∧ c ∉ r.1.placeholders.all := by
  induction count generalizing s behind n with
  | zero => exact .pure (by simp)
  | succ count ih =>
    rw [chainReplicas]
    refine .ask fun r copied => .ask fun t rewired => .ask fun g attached =>
      .ask fun rest later => .pure ?_
    obtain ⟨func, copy⟩ := r
    have joins := joins_attachAfter consistent held placed copied rewired attached
    have others := ih (s := { t with func := g }) joins.consistent
      (fun i hi => (joins.held i hi).2) joins.placed rest later
    have last := advances_chainReplicas (s := { t with func := g }) (fun j new => new) rest later
    have slot := lt_of_placed joins.placed
    refine List.forall_mem_cons.mpr ⟨⟨?_, fun mem => ?_⟩, others⟩
    · rw [last.func.home copy slot (Nat.not_le.mpr slot)]
      exact joins.placed
    · rcases last.held copy mem with before | new
      · exact (joins.held copy before).1 rfl
      · exact absurd slot (Nat.not_lt.mpr new.1)

/-! ### Stocks -/

/-- A list of replicas that is full: there is one for each thread but the first, they are all
different, new and placed. -/
structure Fills (f : Func) (s : Replication) (list : List InstId) : Prop where
  length : list.length = s.replicas
  nodup : list.Nodup
  new : ∀ c ∈ list, f.insts.size ≤ c.index
  placed : ∀ c ∈ list, (s.func.blockOf c).isSome

/-- A repetition of a function whose lists of replicas are all full, and share no replica but for
those of twins. -/
structure Stocked (f : Func) (twins : InstId → InstId → Prop) (s : Replication) : Prop where
  consistent : s.func.Consistent
  size : f.insts.size ≤ s.func.insts.size
  home : ∀ i b, f.blockOf i = some b → s.func.blockOf i = some b
  ends : ∀ i, (f.blockOf i).isSome → s.func.ends i = f.ends i
  held : ∀ i ∈ s.placeholders.all, f.insts.size ≤ i.index ∧ i.index < s.func.insts.size
  fills : ∀ i list, s.map.get? i = some list → s.Fills f list
  free : ∀ i list, s.map.get? i = some list → ∀ c ∈ list, c ∉ s.placeholders.all
  apart : ∀ i j list list', s.map.get? i = some list → s.map.get? j = some list' → i ≠ j →
    ¬ twins i j → list.Disjoint list'

namespace Stocked

variable {twins : InstId → InstId → Prop} {moved : InstId → Prop}

/-- A step that leaves instructions and replicas where they are, and gives no value replicas. -/
theorem advance (h : s.Stocked f twins) (step : s.Advances moved t)
    (consistent : t.func.Consistent) (stays : ∀ i, (f.blockOf i).isSome → ¬ moved i)
    (keeps : ∀ i list, s.map.get? i = some list → ∀ c ∈ list, ¬ moved c) :
    t.Stocked f twins := by
  have grown := step.func.grows.insts
  refine ⟨consistent, Nat.le_trans h.size grown, fun i b home => ?_, fun i placed => ?_,
    fun i hi => ?_, fun i list has => ?_, fun i list has c hc mem => ?_, ?_⟩
  · have old := Nat.lt_of_lt_of_le (lt_of_blockOf home) h.size
    rw [step.func.home i old (stays i (by simp [home])), h.home i b home]
  · rw [step.func.ends i (Nat.lt_of_lt_of_le (lt_of_placed placed) h.size), h.ends i placed]
  · rcases step.held i hi with before | new
    · exact ⟨(h.held i before).1, Nat.lt_of_lt_of_le (h.held i before).2 grown⟩
    · exact ⟨Nat.le_trans h.size new.1, new.2⟩
  · rw [step.map] at has
    have fills := h.fills i list has
    refine ⟨?_, fills.nodup, fills.new, fun c hc => ?_⟩
    · rw [fills.length, replicas, replicas, step.factor]
    · have placed := fills.placed c hc
      rw [step.func.home c (lt_of_placed placed) (keeps i list has c hc)]
      exact placed
  · rw [step.map] at has
    have old := lt_of_placed ((h.fills i list has).placed c hc)
    rcases step.held c mem with before | new
    · exact h.free i list has c hc before
    · exact absurd old (Nat.not_lt.mpr new.1)
  · rw [step.map]
    exact h.apart

/-- A step that moves new instructions only. -/
theorem advanceFresh (h : s.Stocked f twins)
    (step : s.Advances (s.func.insts.size ≤ ·.index) t) (consistent : t.func.Consistent) :
    t.Stocked f twins := by
  refine h.advance step consistent (fun i placed => ?_) fun i list has c hc => ?_
  · exact Nat.not_le.mpr (Nat.lt_of_lt_of_le (lt_of_placed placed) h.size)
  · exact Nat.not_le.mpr (lt_of_placed ((h.fills i list has).placed c hc))

/-- Values get replicas, which share nothing with the others. -/
theorem extend (h : t.Stocked f twins) {map : ReplicaMap} {placeholders : Placeholders}
    {stats : ReplicationStats} (same : placeholders.all = t.placeholders.all)
    {new : InstId → List InstId → Prop}
    (origin : ∀ i list, map.get? i = some list → t.map.get? i = some list ∨ new i list)
    (fills : ∀ i list, new i list → t.Fills f list)
    (free : ∀ i list, new i list → ∀ c ∈ list, c ∉ t.placeholders.all)
    (fresh : ∀ i list, new i list → ∀ j list', t.map.get? j = some list' → list.Disjoint list')
    (distinct : ∀ i j list list', new i list → new j list' → i ≠ j → list.Disjoint list') :
    Stocked f twins { t with map, placeholders, stats } := by
  refine ⟨h.consistent, h.size, h.home, h.ends, fun i hi => h.held i (same ▸ hi),
    fun i list has => ?_, fun i list has c hc mem => ?_,
    fun i j list list' has has' other apart => ?_⟩
  · have filled := (origin i list has).elim (h.fills i list) (fills i list)
    exact ⟨filled.length, filled.nodup, filled.new, filled.placed⟩
  · rw [same] at mem
    exact (origin i list has).elim (fun old => h.free i list old c hc mem)
      fun added => free i list added c hc mem
  · rcases origin i list has with old | added <;> rcases origin j list' has' with old' | added'
    · exact h.apart i j list list' old old' other apart
    · exact (fresh j list' added' i list old).symm
    · exact fresh i list added j list' old'
    · exact distinct i j list list' added added' other

end Stocked

/-- Values keep their replicas. -/
def Recalls (s t : Replication) : Prop :=
  ∀ i list, s.map.get? i = some list → t.map.get? i = some list

theorem Recalls.refl (s : Replication) : s.Recalls s := fun _ _ => id

theorem Recalls.trans {u : Replication} (first : s.Recalls t) (second : t.Recalls u) :
    s.Recalls u := fun i list has => second i list (first i list has)

theorem Recalls.isSome (h : s.Recalls t) (has : (s.map.get? i).isSome) : (t.map.get? i).isSome := by
  obtain ⟨list, has⟩ := Option.isSome_iff_exists.mp has
  exact Option.isSome_of_eq_some (h i list has)

namespace Stocked

variable {twins : InstId → InstId → Prop} (h : s.Stocked f twins)

include h

/-! ### Commands -/

/-- A placed instruction is repeated. -/
theorem replicateInst (placed : (s.func.blockOf i).isSome) :
    Yields (s.replicateInst i) fun t => t.Stocked f twins ∧ s.Recalls t ∧
      (s.func.ends i = some false → (t.map.get? i).isSome) := by
  refine .ask fun inst hi => ?_
  split
  · rename_i ends
    refine .pure ⟨h, .refl s, fun plain => ?_⟩
    simp [Func.ends, line_of_inst hi, ends] at plain
  · refine .ask fun r chained => .pure ?_
    obtain ⟨t, copies⟩ := r
    have step := advances_chainReplicas (fun j new => new) _ chained
    have after := h.advanceFresh step (consistent_chainReplicas h.consistent _ chained)
    obtain ⟨length, nodup, new⟩ := fresh_chainReplicas _ chained
    have each := placed_chainReplicas h.consistent (fun j hj => (h.held j hj).2) placed _ chained
    have same : t.map = s.map := step.map
    refine ⟨after.extend (by simp) (fun j list => ReplicaMap.eq_or_of_get?_insert) ?_ ?_ ?_ ?_,
      fun j list has => ?_, fun _ => ?_⟩
    · rintro j list ⟨-, rfl⟩
      refine ⟨?_, nodup, fun c hc => Nat.le_trans h.size (new c hc).1, fun c hc => (each c hc).1⟩
      rw [length, replicas, replicas, step.factor]
    · rintro j list ⟨-, rfl⟩ c hc
      exact (each c hc).2
    · rintro j list ⟨-, rfl⟩ k list' has c hc hc'
      -- replicas that were there took earlier slots
      rw [same] at has
      have old := lt_of_placed ((h.fills k list' has).placed c hc')
      exact absurd old (Nat.not_lt.mpr (new c hc).1)
    · rintro j k list list' ⟨rfl, rfl⟩ ⟨rfl, rfl⟩ other
      exact absurd rfl other
    · exact ReplicaMap.get?_insert_of_some (same ▸ has) _ _
    · rw [ReplicaMap.get?_insert, if_pos rfl]
      rfl

/-- The copies of an alive value are its replicas when the copies of its region have been put into
place. -/
theorem fills_alive (hf : f.Consistent) (inside : region.Inside f) {func : Func}
    (copied : Copied s.func func region copies) (count : copies.length = s.replicas)
    (splicing : Advances (Struck func s.placeholders.all copies) { s with func } t)
    (hi : i ∈ region.alive) : t.Fills f (aliveReplicas region copies i) ∧
      ∀ c ∈ aliveReplicas region copies i,
        s.func.insts.size ≤ c.index ∧ c ∉ t.placeholders.all := by
  obtain ⟨b, hb, mem⟩ := inside.alive i hi
  have home := hf.mem_code.mp mem
  have there : i ∈ region.blocks.flatMap s.func.code :=
    List.mem_flatMap.mpr ⟨b, hb, h.consistent.mem_code.mpr (h.home i b home)⟩
  obtain ⟨length, nodup⟩ := copied.full inside.header inside.exiting there
  have kept : i ∉ s.placeholders.all := fun held =>
    absurd (lt_of_blockOf home) (Nat.not_lt.mpr (h.held i held).1)
  have each : ∀ c ∈ aliveReplicas region copies i, s.func.insts.size ≤ c.index ∧
      c.index < func.insts.size ∧ (t.func.blockOf c).isSome := by
    intro c hc
    obtain ⟨copy, hcopy, hic⟩ := mem_aliveReplicas hc
    obtain ⟨new, placed⟩ := copied.placed copy hcopy i c hic
    refine ⟨new, lt_of_placed placed, ?_⟩
    rw [splicing.func.home c (lt_of_placed placed) (copied.not_struck hcopy hic kept)]
    exact placed
  refine ⟨⟨?_, nodup, fun c hc => Nat.le_trans h.size (each c hc).1, fun c hc => (each c hc).2.2⟩,
    fun c hc => ⟨(each c hc).1, fun held => ?_⟩⟩
  · have same : t.factor = s.factor := splicing.factor
    rw [length, count, replicas, replicas, same]
  · -- placeholders are older than the copies of the region, or younger
    obtain ⟨new, old, -⟩ := each c hc
    rcases splicing.held c held with before | after
    · exact absurd (h.held c before).2 (Nat.not_lt.mpr new)
    · exact absurd old (Nat.not_lt.mpr after.1)

/-- A region is repeated, or there is an error and nothing happens. -/
theorem replicateRegion (hf : f.Consistent) (inside : region.Inside f) :
    Yields (s.replicateRegion region) fun r => r.2.Stocked f twins ∧ s.Recalls r.2 ∧
      (r.1 = none → ∀ i ∈ region.alive, (r.2.map.get? i).isSome) := by
  refine yields_replicateRegion (fun _ => ⟨h, .refl s, by simp⟩)
    fun _ _ func copies t _ copying spliced => ?_
  obtain ⟨copied, count⟩ := copied_copyRegion h.consistent _ copying
  have before : s.Advances (Struck func s.placeholders.all copies) { s with func } :=
    (Advances.refl s).edit (copied.leaves.mono fun _ _ gone => gone.elim)
  have splicing := advances_struck spliced
  have step := before.trans splicing
  have after := h.advance step (consistent_spliceCopies (s := { s with func })
    copied.consistent t spliced)
    (fun i placed => copied.not_struck_old (Nat.lt_of_lt_of_le (lt_of_placed placed) h.size))
    fun i list has c hc =>
      copied.not_struck_old (lt_of_placed ((h.fills i list has).placed c hc))
  have lists := fun i hi => h.fills_alive hf inside copied count splicing (i := i) hi
  have entry : ∀ i list, (i, list) ∈ region.alive.map (fun i =>
      (i, aliveReplicas region copies i)) ↔ i ∈ region.alive ∧
        list = aliveReplicas region copies i := by
    simp [eq_comm]
  refine ⟨after.extend (all_foldl_record _ _) (fun i list => ReplicaMap.mem_of_get?_inserts)
    ?_ ?_ ?_ ?_, fun i list has => ?_, fun _ i hi => ?_⟩
  · intro i list mem
    obtain ⟨hi, rfl⟩ := (entry i list).mp mem
    exact (lists i hi).1
  · intro i list mem c hc
    obtain ⟨hi, rfl⟩ := (entry i list).mp mem
    exact ((lists i hi).2 c hc).2
  · intro i list mem j list' has c hc hc'
    obtain ⟨hi, rfl⟩ := (entry i list).mp mem
    rw [step.map] at has
    have old := lt_of_placed ((h.fills j list' has).placed c hc')
    exact absurd old (Nat.not_lt.mpr ((lists i hi).2 c hc).1)
  · intro i j list list' mem mem' other c hc hc'
    obtain ⟨-, rfl⟩ := (entry i list).mp mem
    obtain ⟨-, rfl⟩ := (entry j list').mp mem'
    obtain ⟨copy, hcopy, hic⟩ := mem_aliveReplicas hc
    obtain ⟨copy', hcopy', hjc⟩ := mem_aliveReplicas hc'
    exact other (copied.unique hcopy hcopy' hic hjc)
  · rw [← step.map] at has
    exact ReplicaMap.get?_inserts_of_some has
  · exact ReplicaMap.isSome_inserts ((entry i _).mpr ⟨hi, rfl⟩)

/-- Instructions of the function are repeated, one after the other. -/
theorem replicateInsts {list : List InstId} (placed : ∀ i ∈ list, (f.blockOf i).isSome) :
    Yields (list.foldlM Replication.replicateInst s) fun t => t.Stocked f twins ∧ s.Recalls t ∧
      ∀ i ∈ list, f.ends i = some false → (t.map.get? i).isSome := by
  induction list generalizing s with
  | nil => exact .pure ⟨h, .refl s, by simp⟩
  | cons i rest ih =>
    rw [List.forall_mem_cons] at placed
    rw [List.foldlM_cons]
    obtain ⟨b, home⟩ := Option.isSome_iff_exists.mp placed.1
    have here : (s.func.blockOf i).isSome := by simp [h.home i b home]
    refine (h.replicateInst here).bind fun t first => ?_
    obtain ⟨h₁, recalls, keyed⟩ := first
    refine (ih h₁ placed.2).mono fun u later => ⟨later.1, recalls.trans later.2.1, ?_⟩
    refine List.forall_mem_cons.mpr ⟨fun plain => later.2.1.isSome (keyed ?_), later.2.2⟩
    rw [h.ends i placed.1, plain]

/-- Regions of the function are repeated up to the first error. -/
theorem replicateRegions (hf : f.Consistent) {list : List Region}
    (inside : ∀ r ∈ list, r.Inside f) :
    Yields (s.replicateRegions list) fun r => r.2.Stocked f twins ∧ s.Recalls r.2 ∧
      (r.1 = none → ∀ region ∈ list, ∀ i ∈ region.alive, (r.2.map.get? i).isSome) := by
  induction list generalizing s with
  | nil => exact .pure ⟨h, .refl s, by simp⟩
  | cons region rest ih =>
    rw [List.forall_mem_cons] at inside
    rw [Replication.replicateRegions]
    refine (h.replicateRegion hf inside.1).bind fun r first => ?_
    obtain ⟨error, t⟩ := r
    obtain ⟨h₁, recalls, keyed⟩ := first
    cases error with
    | some e => exact .pure ⟨h₁, recalls, by simp⟩
    | none =>
      refine (ih h₁ inside.2).mono fun u later => ⟨later.1, recalls.trans later.2.1, fun done => ?_⟩
      exact List.forall_mem_cons.mpr
        ⟨fun i hi => later.2.1.isSome (keyed rfl i hi), later.2.2 done⟩

/-- Everything is repeated, or there is an error. -/
theorem replicateAll (hf : f.Consistent)
    (placed : ∀ i ∈ s.divergence.outermostInstructions, (f.blockOf i).isSome)
    (inside : ∀ r ∈ s.divergence.outermostRegions, r.Inside f) :
    Yields s.replicateAll fun r => r.2.Stocked f twins ∧ s.Recalls r.2 ∧ (r.1 = none →
      (∀ i ∈ s.divergence.outermostInstructions, f.ends i = some false →
        (r.2.map.get? i).isSome) ∧
      ∀ region ∈ s.divergence.outermostRegions, ∀ i ∈ region.alive, (r.2.map.get? i).isSome) := by
  refine .ask fun t answer => ?_
  obtain ⟨h₁, recalls, keyed⟩ := h.replicateInsts placed t answer
  have same : t.divergence = s.divergence := (sameTask_replicateInsts t answer).1
  rw [same]
  refine (h₁.replicateRegions hf inside).mono fun r later => ?_
  refine ⟨later.1, recalls.trans later.2.1, fun done => ⟨fun i hi plain => ?_, later.2.2 done⟩⟩
  exact later.2.1.isSome (keyed i hi plain)

theorem resolveAll : Yields s.resolveAll fun t => t.Stocked f twins ∧ s.Recalls t := by
  intro t answer
  obtain ⟨step, -⟩ := advances_resolveAll t answer
  refine ⟨h.advance step (consistent_resolveAll h.consistent t answer) (fun i placed held => ?_)
    h.free, fun i list has => step.map ▸ has⟩
  exact absurd (lt_of_placed placed) (Nat.not_lt.mpr (h.held i held).1)

end Stocked

/-- A command names a placed instruction, or a region that is known. -/
def allows (s : Replication) : Command → Bool
  | .inst i => (s.func.blockOf i).isSome
  | .region r => s.divergence.regions.contains r
  | _ => true

/-- Every command is allowed when its turn comes. -/
def allowsAll (s : Replication) : List Command → Bool
  | [] => true
  | command :: rest => s.allows command &&
    match s.perform command with
    | .ok t => t.allowsAll rest
    | .error _ => true

theorem allowsAll_cons {command : Command} {rest : List Command}
    (allowed : s.allowsAll (command :: rest) = true) : s.allows command = true ∧
      ∀ t, s.perform command = .ok t → t.allowsAll rest = true := by
  rw [allowsAll, Bool.and_eq_true] at allowed
  refine ⟨allowed.1, fun t answer => ?_⟩
  simpa [answer] using allowed.2

/-- What a divergence knows of a function is there. -/
structure Locates (f : Func) (d : Divergence) : Prop where
  insts : ∀ i ∈ d.outermostInstructions, (f.blockOf i).isSome
  regions : ∀ r ∈ d.regions, r.Inside f

namespace Stocked

variable {twins : InstId → InstId → Prop} (h : s.Stocked f twins)

include h

/-- Every command that is allowed keeps the lists of replicas full. -/
theorem perform (hf : f.Consistent) (known : Locates f s.divergence) {command : Command}
    (allowed : s.allows command = true) :
    Yields (s.perform command) fun t => t.Stocked f twins ∧ s.Recalls t := by
  cases command with
  | all =>
    refine .map ((h.replicateAll hf known.insts fun r hr => ?_).mono fun r done =>
      ⟨done.1, done.2.1⟩)
    exact known.regions r (Region.mem_outermost.mp hr).1
  | inst i => exact (h.replicateInst allowed).mono fun _ done => ⟨done.1, done.2.1⟩
  | region r =>
    have mem : r ∈ s.divergence.regions := by simpa [allows] using allowed
    exact .map ((h.replicateRegion hf (known.regions r mem)).mono fun _ done => ⟨done.1, done.2.1⟩)
  | resolve => exact h.resolveAll

theorem performAll (hf : f.Consistent) (known : Locates f s.divergence) {commands : List Command}
    (allowed : s.allowsAll commands = true) :
    Yields (s.performAll commands) fun t => t.Stocked f twins ∧ s.Recalls t ∧ s.SameTask t := by
  induction commands generalizing s with
  | nil => exact .pure ⟨h, .refl s, rfl, rfl⟩
  | cons command rest ih =>
    rw [Replication.performAll, List.foldlM_cons]
    refine .ask fun t answer => ?_
    obtain ⟨here, rest⟩ := allowsAll_cons allowed
    obtain ⟨h₁, recalls⟩ := h.perform hf known here t answer
    have same := sameTask_perform command t answer
    refine (ih h₁ (same.1 ▸ known) (rest t answer)).mono fun u later => ?_
    exact ⟨later.1, recalls.trans later.2.1, same.trans later.2.2⟩

end Stocked

end Replication

/-! ### Identities of the other threads -/

namespace Func

variable {f g : Func} {c : CoarseningParams} {i j : InstId}

/-- An instruction computes the first logical identity from a read of the physical one: with
quotient and remainder by the stride, it is the quotient times the span plus the remainder. -/
def DerivesBase (f : Func) (c : CoarseningParams) (i base : InstId) : Prop :=
  ∃ ty div mul rem,
    f.line div = some (.binary .udiv (.inst i) (.ofNat c.stride), ty) ∧
    f.line mul = some (.binary .mul (.inst div)
      (.const (Int64.ofNat c.factor * Int64.ofNat c.stride)), ty) ∧
    f.line rem = some (.binary .urem (.inst i) (.ofNat c.stride), ty) ∧
    f.line base = some (.binary .add (.inst mul) (.inst rem), ty)

/-- A read of the identity, and the first logical identity that is computed from it. -/
def IdentityAndBase (f : Func) (c : CoarseningParams) (identities : List InstId) (i j : InstId) :
    Prop :=
  i ∈ identities ∧ f.DerivesBase c i j ∨ j ∈ identities ∧ f.DerivesBase c j i

/-- Reads of the place in the launch are placed, and they are no phis. -/
theorem placed_reads (consistent : f.Consistent) {selector : DimensionSelector} {grid : GridReads}
    (reads : f.gridReads selector = .ok grid) (hi : i ∈ grid.all) :
    (f.blockOf i).isSome ∧ f.outline.Does i fun op => op.isPhi = false := by
  obtain ⟨ops, listing, rfl⟩ := map_eq_ok_iff.mp reads
  obtain ⟨⟨i, register, dim⟩, read, rfl⟩ := List.mem_map.mp hi
  obtain ⟨⟨j, op⟩, listed, read⟩ := List.mem_filterMap.mp read
  simp only [Option.bind_eq_bind, Option.bind_eq_some_iff, Option.ite_none_right_eq_some,
    Option.some.injEq, Prod.mk.injEq] at read
  obtain ⟨callee, hcallee, ⟨register', dim'⟩, -, -, rfl, -⟩ := read
  obtain ⟨⟨b, hb⟩, hop⟩ := (mem_operations consistent listing).mp listed
  obtain ⟨ty, line⟩ := operation_eq_ok_iff.mp hop
  refine ⟨by simp [hb], op, ty, line, ?_⟩
  cases op <;> simp_all [Operation.callee?, Operation.isPhi]

namespace Scaled

variable {extents identities : List InstId} {map : ReplicaMap}
  {news : InstId → List (InstId × Operation × Ty)} {rename : InstId → InstId}
  (scaled : f.Scaled g c extents identities map news rename)
  (placed : ∀ i ∈ identities, (f.blockOf i).isSome)

include scaled placed

/-- The values with replicas are the reads and the first logical identities. -/
theorem exists_read {list : List InstId} (has : map.get? j = some list) :
    ∃ i ∈ identities, ∃ ty n, (j = i ∨ j = ⟨n + 3⟩) ∧ news i = identityLines c i ty n ∧
      list = siblingsAt c n := by
  obtain ⟨-, i, hi, key⟩ := scaled.known j (Option.isSome_of_eq_some has)
  obtain ⟨op, ty, line⟩ := exists_line (placed i hi)
  obtain ⟨n, lines, renamed, first, base⟩ := scaled.identity i hi op ty line
  refine ⟨i, hi, ty, n, renamed ▸ key, lines, ?_⟩
  rcases key with rfl | rfl
  · simpa [first] using has.symm
  · rw [renamed] at has
    simpa [base] using has.symm

omit scaled placed in
/-- The replicas stand behind the read. -/
theorem mem_news {ty : Ty} {n : Nat} (lines : news i = identityLines c i ty n) {x : InstId}
    (hx : x ∈ siblingsAt c n) : x ∈ (news i).map (·.1) := by
  obtain ⟨m, hm, rfl⟩ := List.mem_map.mp hx
  rw [lines, identityLines, List.map_append]
  refine List.mem_append_right _ ?_
  simp only [siblingLines, List.map_map, List.mem_map]
  exact ⟨m, hm, rfl⟩

omit placed in
theorem derivesBase {ty : Ty} {n : Nat} (lines : news i = identityLines c i ty n) :
    g.DerivesBase c i ⟨n + 3⟩ := by
  have each : ∀ l ∈ baseLines c i ty n, g.line l.1 = some l.2 := fun l hl =>
    (scaled.expands.new i l (lines ▸ List.mem_append_left _ hl)).2.1
  simp only [baseLines, List.forall_mem_cons] at each
  exact ⟨ty, ⟨n⟩, ⟨n + 1⟩, ⟨n + 2⟩, each.1, each.2.1, each.2.2.1, each.2.2.2.1⟩

/-- The identities of the other threads are the replicas of the first one. -/
theorem stocked (hf : f.Consistent) (d : Divergence) :
    (Replication.start d c.factor g map).Stocked f (g.IdentityAndBase c identities) := by
  have chunk : ∀ b, (g.code b).filter (fun _ => true) =
      (f.code b).flatMap fun i => i :: (news i).map (·.1) := fun b => by
    rw [List.filter_true, scaled.expands.code]
  refine ⟨scaled.expands.consistent, scaled.expands.size, fun i b home => ?_, fun i here => ?_,
    fun i hi => ?_, fun j list has => ?_, fun i list has x hx held => ?_,
    fun j j' list list' has has' other apart x hx hx' => ?_⟩
  · refine scaled.expands.consistent.mem_code.mp ?_
    rw [scaled.expands.code]
    exact List.mem_flatMap.mpr ⟨i, hf.mem_code.mpr home, by simp⟩
  · show g.ends i = f.ends i
    rw [ends, ends, scaled.expands.line i here, Option.map_map]
    cases f.line i <;> simp
  · simp [Replication.start, Placeholders.empty, Placeholders.all] at hi
  · obtain ⟨i, hi, ty, n, -, lines, rfl⟩ := scaled.exists_read placed has
    refine ⟨by simp [siblingsAt, Replication.replicas, Replication.start], ?_, fun x hx => ?_,
      fun x hx => ?_⟩
    · refine List.nodup_range.map fun m m' same => ?_
      simpa using same
    · obtain ⟨l, hl, rfl⟩ := List.mem_map.mp (mem_news lines hx)
      exact (scaled.expands.new i l hl).1
    · exact (scaled.expands.isSome_blockOf hf).mpr
        ⟨i, placed i hi, List.mem_cons_of_mem _ (mem_news lines hx)⟩
  · simp [Replication.start, Placeholders.empty, Placeholders.all] at held
  · obtain ⟨i, hi, ty, n, key, lines, rfl⟩ := scaled.exists_read placed has
    obtain ⟨i', hi', ty', n', key', lines', rfl⟩ := scaled.exists_read placed has'
    -- a replica stands behind one read only
    obtain rfl : i = i' := eq_of_mem_chunk hf scaled.expands.consistent chunk (placed i hi)
      (placed i' hi') (List.mem_cons_of_mem _ (mem_news lines hx))
      (List.mem_cons_of_mem _ (mem_news lines' hx'))
    obtain ⟨rfl, -⟩ : n = n' ∧ ty = ty' := by
      simpa [identityLines, baseLines] using congrArg List.head? (lines.symm.trans lines')
    rcases key with rfl | rfl <;> rcases key' with rfl | rfl
    · exact other rfl
    · exact apart (.inl ⟨hi, scaled.derivesBase lines⟩)
    · exact apart (.inr ⟨hi, scaled.derivesBase lines⟩)
    · exact other rfl

end Scaled

end Func

namespace Replication

open Func

/-- Where the repetition of a function begins, with the pairs of values that share their replicas:
with the function and no replicas, or with the function that sees the logical launch and with the
identities of the other threads. -/
inductive Seed (f : Func) (factor : Nat) : Func → ReplicaMap → (InstId → InstId → Prop) → Prop
  | bare : Seed f factor f .empty fun _ _ => False
  | scaled {selector : DimensionSelector} {grid : GridReads} {c : CoarseningParams} {g : Func}
      {map : ReplicaMap} (reads : f.gridReads selector = .ok grid) (same : c.factor = factor)
      (scaling : f.scaleGrid grid c = .ok (.ok (g, map))) :
      Seed f factor g map (g.IdentityAndBase c (grid.identities c.level c.dim))
  | unread {selector : DimensionSelector} {grid : GridReads} {c : CoarseningParams} {g : Func}
      {map : ReplicaMap} (reads : f.gridReads selector = .ok grid)
      (scaling : f.scaleGrid grid c = .ok (.ok (g, map))) : Seed f factor g .empty fun _ _ => False

variable {f func : Func} {factor : Nat} {map : ReplicaMap} {twins : InstId → InstId → Prop}

/-- What the identities of the other threads are computed behind. -/
theorem exists_scaled (consistent : f.Consistent) {selector : DimensionSelector}
    {grid : GridReads} {c : CoarseningParams} (reads : f.gridReads selector = .ok grid)
    (scaling : f.scaleGrid grid c = .ok (.ok (func, map))) :
    ∃ news rename, f.Scaled func c (grid.extents c.level c.dim).reverse
        (grid.identities c.level c.dim).reverse map news rename ∧
      ∀ i ∈ (grid.identities c.level c.dim).reverse, (f.blockOf i).isSome := by
  have valid : c.error? = none := by
    cases error : c.error? with
    | none => rfl
    | some e => simp [scaleGrid, error, pure, Except.pure] at scaling
  obtain ⟨g, map', news, rename, answer, scaled⟩ := exists_scaleGrid consistent grid c valid
    (nodup_reads consistent reads) (fun i hi => (placed_reads consistent reads hi).1)
    fun i hi => (placed_reads consistent reads hi).2
  obtain ⟨rfl, rfl⟩ : g = func ∧ map' = map := by simpa [answer] using scaling
  refine ⟨news, rename, scaled, fun i hi => ?_⟩
  have read : i ∈ grid.all :=
    (List.Sublist.map _ List.filter_sublist).subset (List.mem_reverse.mp hi)
  exact (placed_reads consistent reads read).1

theorem stocked_scaleGrid (consistent : f.Consistent) (d : Divergence)
    {selector : DimensionSelector} {grid : GridReads} {c : CoarseningParams}
    (reads : f.gridReads selector = .ok grid)
    (scaling : f.scaleGrid grid c = .ok (.ok (func, map))) :
    (start d c.factor func map).Stocked f
      (func.IdentityAndBase c (grid.identities c.level c.dim)) := by
  obtain ⟨news, rename, scaled, placed⟩ := exists_scaled consistent reads scaling
  have same : func.IdentityAndBase c (grid.identities c.level c.dim).reverse =
      func.IdentityAndBase c (grid.identities c.level c.dim) := by
    funext i j
    simp [IdentityAndBase]
  exact same ▸ scaled.stocked placed consistent d

theorem stocked_empty (d : Divergence) (consistent : func.Consistent)
    (size : f.insts.size ≤ func.insts.size)
    (home : ∀ i b, f.blockOf i = some b → func.blockOf i = some b)
    (ends : ∀ i, (f.blockOf i).isSome → func.ends i = f.ends i) :
    (start d factor func .empty).Stocked f twins := by
  have none : ∀ i list, (start d factor func .empty).map.get? i ≠ some list := by
    simp [start, ReplicaMap.empty, ReplicaMap.get?, Assoc.get?]
  refine ⟨consistent, size, home, ends, fun i hi => ?_, fun i list has => absurd has (none i list),
    fun i list has => absurd has (none i list), fun i j list list' has => absurd has (none i list)⟩
  simp [start, Placeholders.empty, Placeholders.all] at hi

/-- A repetition begins with full lists of replicas. -/
theorem Seed.stocked (consistent : f.Consistent) (seed : Seed f factor func map twins)
    (d : Divergence) : (start d factor func map).Stocked f twins := by
  cases seed with
  | bare => exact stocked_empty d consistent (Nat.le_refl _) (fun _ _ => id) fun _ _ => rfl
  | scaled reads same scaling =>
    subst same
    exact stocked_scaleGrid consistent d reads scaling
  | unread reads scaling =>
    have filled := stocked_scaleGrid consistent d reads scaling
    exact stocked_empty d filled.consistent filled.size filled.home filled.ends

/-- Whatever commands make of a repetition, every value with replicas has one for each thread but
the first; they are all different, placed and made after the analysis, and only a read of the
identity and what is computed from it share them.  When everything has been repeated, everything
divergent outside the regions and every alive value of an outermost region has replicas, and keeps
them. -/
theorem commands_fill_clone_lists (consistent : f.Consistent) {selector : DimensionSelector}
    {shared : List GlobalId} {level : Level} {dim : Dimension} {found : DivergentFunc}
    (analysis : f.analyze selector shared level dim = .ok (.ok found))
    (seed : Seed f factor func map twins) {commands : List Command} {s : Replication}
    (allowed : (start found.divergence factor func map).allowsAll commands = true)
    (run : (start found.divergence factor func map).performAll commands = .ok s) :
    (∀ i list, s.map.get? i = some list → list.length = factor - 1 ∧ list.Nodup ∧
      ∀ c ∈ list, f.insts.size ≤ c.index ∧ (s.func.blockOf c).isSome) ∧
    (∀ i j list list', s.map.get? i = some list → s.map.get? j = some list' → i ≠ j →
      ¬ twins i j → list.Disjoint list') ∧
    ∀ t, s.replicateAll = .ok (none, t) → ∀ later u, t.allowsAll later = true →
      t.performAll later = .ok u →
      (∀ i ∈ found.divergence.outermostInstructions, ∀ op, f.operation i = .ok op →
        op.isTerminator = false → (u.map.get? i).isSome) ∧
      ∀ r ∈ found.divergence.outermostRegions, ∀ i ∈ r.alive, (u.map.get? i).isSome := by
  obtain ⟨ops, accesses, a⟩ := analyzed analysis
  have known : Locates f found.divergence :=
    ⟨fun i hi => a.placed_outermost consistent hi, fun r hr => a.inside consistent hr⟩
  obtain ⟨stocked, -, same⟩ := (seed.stocked consistent found.divergence).performAll consistent
    known allowed s run
  refine ⟨fun i list has => ?_, stocked.apart, fun t all later u allowed' run' => ?_⟩
  · have fills := stocked.fills i list has
    refine ⟨?_, fills.nodup, fun c hc => ⟨fills.new c hc, fills.placed c hc⟩⟩
    rw [fills.length, replicas, same.2]
    rfl
  · have here : s.divergence = found.divergence := same.1
    rw [← here] at known ⊢
    obtain ⟨h₁, -, keyed⟩ := stocked.replicateAll consistent known.insts
      (fun r hr => known.regions r (Region.mem_outermost.mp hr).1) _ all
    obtain ⟨insts, alive⟩ := keyed rfl
    have there : t.divergence = s.divergence :=
      (sameTask_perform .all t (by rw [perform, all]; rfl)).1
    obtain ⟨-, recalls, -⟩ := h₁.performAll consistent (there ▸ known) allowed' u run'
    refine ⟨fun i hi op hop plain => recalls.isSome (insts i hi ?_), fun r hr i hi => ?_⟩
    · obtain ⟨ty, line⟩ := operation_eq_ok_iff.mp hop
      simp [Func.ends, line, plain]
    · exact recalls.isSome (alive r hr i hi)

/-- The commands of the example: an instruction of a region, the region and everything are
repeated, and placeholders go. -/
def pickCommands : List Command := [.inst ⟨4⟩, .region pickRegion, .all, .resolve]

/-- A kernel is repeated from its scaled grid on, and everything once more when its placeholders
have gone.  Eight values have replicas then: the read of the identity and what is computed from it,
the four instructions outside the region, the alive value of the region and the instruction that
was repeated alone. -/
theorem pick_fills_clone_lists : ∃ g map s t,
    pick.scaleGrid pickFound.grid ⟨.thread, .x, 3, 2⟩ = .ok (.ok (g, map)) ∧
    (start pickFound.divergence 3 g map).performAll pickCommands = .ok s ∧
    s.replicateAll = .ok (none, t) ∧ s.map.entries.length = 8 ∧
    (∀ i list, s.map.get? i = some list → list.length = 2 ∧ list.Nodup ∧
      ∀ c ∈ list, pick.insts.size ≤ c.index ∧ (s.func.blockOf c).isSome) ∧
    (∀ i j list list', s.map.get? i = some list → s.map.get? j = some list' → i ≠ j →
      ¬ g.IdentityAndBase ⟨.thread, .x, 3, 2⟩ [⟨0⟩] i j → list.Disjoint list') ∧
    (t.map.get? ⟨1⟩).isSome ∧ (t.map.get? ⟨6⟩).isSome := by
  have counts : (pick.scaleGrid pickFound.grid ⟨.thread, .x, 3, 2⟩).toOption.bind (fun scaled =>
      scaled.toOption.bind fun (g, map) =>
        ((start pickFound.divergence 3 g map).performAll pickCommands).toOption.bind fun s =>
          s.replicateAll.toOption.map fun (error, _) =>
            ((start pickFound.divergence 3 g map).allowsAll pickCommands, error.isNone,
              s.map.entries.length)) = some (true, true, 8) := by
    decide +kernel
  simp only [Option.bind_eq_some_iff, Option.map_eq_some_iff, toOption_eq_some_iff] at counts
  obtain ⟨_, scaling, ⟨g, map⟩, rfl, s, run, ⟨error, t⟩, all, counts⟩ := counts
  obtain ⟨allowed, done, entries⟩ : _ = true ∧ error = none ∧ s.map.entries.length = 8 := by
    simpa using counts
  subst done
  obtain ⟨full, apart, keyed⟩ := commands_fill_clone_lists (consistent_assemble ..) analyze_pick
    (.scaled (show pick.gridReads (.only .x) = .ok pickFound.grid by rfl) rfl scaling) allowed run
  obtain ⟨insts, alive⟩ := keyed t all [] t rfl rfl
  refine ⟨g, map, s, t, scaling, run, all, entries, full, apart, ?_, ?_⟩
  · exact insts ⟨1⟩ (by decide) _ (show pick.operation ⟨1⟩ = .ok _ by rfl) rfl
  · exact alive pickRegion (by decide) ⟨6⟩ (by decide)

end Replication

end KernelCoarsening
