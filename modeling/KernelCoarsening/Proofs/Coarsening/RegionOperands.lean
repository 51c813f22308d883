/-
What copies of a region read.

A copy of a region is made first, and its operands are looked up among the values with replicas
then.  By that time an operand that is computed in the region reads the copy of that value, which
has no replicas:

* `Replication.reads_rewires` — instructions that are rewired, each once, read what a replica reads;
* `Replication.reads_spliceCopies` — so do the instructions of copies that are put into place;
* `Replication.mirrors_copyRegion` — before that they read what the region reads;
* `Replication.copies_read_replicas_iff` — in the end an operand of copy `k` belongs to replica `k`
  exactly if it is computed outside of the region.
-/
import KernelCoarsening.Proofs.Coarsening.CloneLists
import KernelCoarsening.Proofs.Coarsening.Meaning
import KernelCoarsening.Proofs.Ir.Readings

namespace KernelCoarsening

namespace Replication

open Func

variable {f : Func} {s t : Replication} {i j : InstId} {b : BlockId} {n : Nat}
  {rewired : InstId → Prop}

/-! ### Instructions that are rewired -/

theorem sameReads_chainCopies {behind : InstId} {name suffix : String} {count : Nat} :
    Yields (chainCopies i name suffix f behind n count) fun r => f.SameReads rewired r.1 := by
  induction count generalizing f behind n with
  | zero => exact .pure (.refl f)
  | succ count ih =>
    rw [chainCopies]
    refine .ask fun r copied => .ask fun g attached => ?_
    have first : f.SameReads rewired r.1 := sameReads_copyInst r copied
    have second := first.trans (sameReads_attachAfter g attached)
    exact ih.bind fun rest later => .pure (second.trans later)

theorem sameReads_ensurePlaceholders :
    Yields (s.ensurePlaceholders i) fun t => s.func.SameReads rewired t.func := by
  unfold ensurePlaceholders
  split
  · exact .pure (.refl _)
  · exact .ask fun _ _ => sameReads_chainCopies.bind fun _ same => .pure same

/-- An instruction that read some operands reads what a replica reads in their place, whatever
placeholders there have come to be. -/
def Rewired (s : Replication) (n : Nat) (i : InstId) (before after : Option (List Value)) : Prop :=
  ∃ u : Replication, u.map = s.map ∧ u.divergence = s.divergence ∧
    after = before.map (List.map (u.operandAt i n))

theorem reads_rewire (old : i.index < s.func.insts.size) : Yields (rewire n s i) fun t =>
    s.func.SameReads (· = i) t.func ∧
      (s.map.get? i = none → s.Rewired n i (s.func.reads i) (t.func.reads i)) := by
  unfold rewire
  split
  · rename_i known
    refine .pure ⟨.refl _, fun none => ?_⟩
    simp [ReplicaMap.contains, none] at known
  · refine .ask fun op _ => ?_
    refine Yields.bind (p := fun t : Replication => s.func.SameReads (fun _ => False) t.func ∧
      s.Advances (fun _ => True) t) (.foldlM ⟨.refl _, .refl s⟩ fun t ht j _ t' answer => ?_)
        fun t ht => .ask fun g modified => .pure ?_
    · exact ⟨ht.1.trans (sameReads_ensurePlaceholders t' answer),
        ht.2.trans (advances_ensurePlaceholders (fun _ _ => trivial) t' answer)⟩
    · obtain ⟨same, step⟩ := ht
      have mapped := reads_modifyInst (f := t.func) (m := t.operandAt i n)
        (fun inst => Operation.operands_mapOperands _ inst.op) g modified
      refine ⟨⟨same.grows.trans (grows_modifyOperation g modified), fun j slot other => ?_⟩,
        fun _ => ⟨t, step.map, step.divergence, ?_⟩⟩
      · rw [mapped j, if_neg other, same.reads j slot id]
      · rw [mapped i, if_pos rfl, same.reads i old id]

/-- Instructions are rewired, each once. -/
theorem reads_rewires {list : List InstId} (nodup : list.Nodup)
    (old : ∀ i ∈ list, i.index < s.func.insts.size) : Yields (list.foldlM (rewire n) s) fun t =>
      s.func.SameReads (· ∈ list) t.func ∧
        ∀ i ∈ list, s.map.get? i = none → s.Rewired n i (s.func.reads i) (t.func.reads i) := by
  induction list generalizing s with
  | nil => exact .pure ⟨.refl _, by simp⟩
  | cons i rest ih =>
    obtain ⟨other, nodup⟩ := List.nodup_cons.mp nodup
    rw [List.forall_mem_cons] at old
    rw [List.foldlM_cons]
    refine .ask fun t answer => ?_
    obtain ⟨first, mapped⟩ := reads_rewire old.1 t answer
    have step := advances_rewire (fun _ _ => trivial) t answer
    have grown := step.func.grows.insts
    refine (ih nodup fun j hj => Nat.lt_of_lt_of_le (old.2 j hj) grown).mono fun u later => ?_
    refine ⟨(first.mono fun j _ here => List.mem_cons.mpr (.inl here)).trans
      (later.1.mono fun j _ here => List.mem_cons_of_mem _ here),
      List.forall_mem_cons.mpr ⟨fun none => ?_, fun j hj none => ?_⟩⟩
    · rw [later.1.reads i (Nat.lt_of_lt_of_le old.1 grown) other]
      exact mapped none
    · obtain ⟨v, map, divergence, read⟩ := later.2 j hj (step.map ▸ none)
      refine ⟨v, map.trans step.map, divergence.trans step.divergence, ?_⟩
      rw [read, first.reads j (old.2 j hj) fun same => other (same ▸ hj)]

/-! ### Copies that are put into place -/

/-- Copies of placeholders are taken out of a copy of a region. -/
theorem erased_held (consistent : s.func.Consistent) (held : List InstId) (copy : BlockCopy) :
    Yields (copy.instMap.foldlM (fun f entry =>
      if held.contains entry.1 then f.erase entry.2 else .ok f) s.func) fun g =>
        g.Consistent ∧ s.func.SameReads (fun _ => False) g ∧
          s.func.Leaves (fun j => ∃ k ∈ held, (k, j) ∈ copy.instMap) g := by
  refine .foldlM ⟨consistent, .refl _, .refl _⟩ fun g known entry mem => ?_
  obtain ⟨consistent, same, left⟩ := known
  split
  · rename_i here
    intro g' answer
    refine ⟨consistent.erase g' answer, same.trans (sameReads_erase g' answer),
      left.trans (leaves_erase ⟨entry.1, by simpa using here, mem⟩ g' answer)⟩
  · exact .pure ⟨consistent, same, left⟩

/-- A copy of a region has the bounds of the region and blocks of its own. -/
structure Complete (region : Region) (copy : BlockCopy) : Prop where
  nodup : copy.blocks.Nodup
  header : (copy.blockMap.get? region.header).isSome
  exiting : (copy.blockMap.get? region.exiting).isSome

/-- A copy of a region is put into place.  Its instructions are rewired, and no others. -/
theorem reads_spliceCopy (consistent : s.func.Consistent) {splice : Splice} {top : BlockId}
    {copy : BlockCopy} (complete : Complete splice.region copy)
    (home : s.func.blockOf i = some b) (kept : ∀ k ∈ splice.held, (k, i) ∉ copy.instMap) :
    Yields (spliceCopy splice n s top copy) fun r =>
      (b ∉ copy.blocks → r.1.func.reads i = s.func.reads i) ∧
      (b ∈ copy.blocks → s.map.get? i = none →
        s.Rewired n i (s.func.reads i) (r.1.func.reads i)) := by
  obtain ⟨header, hh⟩ := Option.isSome_iff_exists.mp complete.header
  obtain ⟨exiting, he⟩ := Option.isSome_iff_exists.mp complete.exiting
  unfold spliceCopy
  simp only [hh, he]
  refine (erased_held consistent splice.held copy).bind fun g known => .ask fun blocks listed => ?_
  obtain ⟨consistent', same, left⟩ := known
  have old := lt_of_blockOf home
  have home' : g.blockOf i = some b := by
    rw [left.home i old, home]
    rintro ⟨k, hk, mem⟩
    exact kept k hk mem
  have members : blocks.flatMap (·.insts) = copy.blocks.flatMap g.code :=
    flatMap_of_mapM_eq_ok listed fun _ _ answer => (code_of_block answer).symm
  have here : ∀ j, j ∈ blocks.flatMap (·.insts) ↔ ∃ b ∈ copy.blocks, g.blockOf j = some b := by
    simp [members, consistent'.mem_code]
  refine Yields.bind (reads_rewires (s := { s with func := g })
    (members ▸ nodup_flatMap_code consistent' complete.nodup) fun j hj => ?_) fun t mapped => ?_
  · obtain ⟨c, -, there⟩ := (here j).mp hj
    exact lt_of_blockOf there
  obtain ⟨others, mapped⟩ := mapped
  -- redirecting the edges of the copy changes no operand
  refine Yields.bind (p := t.func.SameReads fun _ => False) sameReads_replaceSuccessor
    fun _ h₁ => ?_
  refine (h₁.then sameReads_renameIncoming).bind fun _ h₂ => ?_
  refine (h₂.then sameReads_renameIncoming).bind fun g' h₃ => .pure ?_
  have slot : i.index < g.insts.size := lt_of_blockOf home'
  have last : g'.reads i = t.func.reads i :=
    h₃.reads i (Nat.lt_of_lt_of_le slot others.grows.insts) id
  refine ⟨fun apart => ?_, fun inside none => ?_⟩
  · show g'.reads i = _
    rw [last, others.reads i slot fun mem => ?_, same.reads i old id]
    obtain ⟨c, hc, there⟩ := (here i).mp mem
    exact apart (Option.some.inj (home'.symm.trans there) ▸ hc)
  · show s.Rewired n i _ (g'.reads i)
    rw [last, ← same.reads i old id]
    exact mapped i ((here i).mpr ⟨b, inside, home'⟩) none

/-- Copies of a region are put into place one after the other.  The instructions of each are rewired
as those of its own replica. -/
theorem reads_spliceCopies (consistent : s.func.Consistent) {splice : Splice} {top : BlockId}
    {copies : List BlockCopy} (complete : ∀ copy ∈ copies, Complete splice.region copy)
    (apart : copies.Pairwise fun copy copy' => copy.blocks.Disjoint copy'.blocks)
    (home : s.func.blockOf i = some b)
    (kept : ∀ copy ∈ copies, ∀ k ∈ splice.held, (k, i) ∉ copy.instMap) :
    Yields (spliceCopies splice s top n copies) fun t =>
      ((∀ copy ∈ copies, b ∉ copy.blocks) → t.func.reads i = s.func.reads i) ∧
      ∀ k copy, copies[k]? = some copy → b ∈ copy.blocks → s.map.get? i = none →
        s.Rewired (n + k) i (s.func.reads i) (t.func.reads i) := by
  induction copies generalizing s top n with
  | nil => exact .pure ⟨fun _ => rfl, by simp⟩
  | cons copy copies ih =>
    rw [List.forall_mem_cons] at complete kept
    obtain ⟨here, apart⟩ := List.pairwise_cons.mp apart
    rw [spliceCopies]
    refine .ask fun r answer => ?_
    obtain ⟨outside, inside⟩ := reads_spliceCopy consistent complete.1 home kept.1 r answer
    have step : s.Advances (fun j => s.func.insts.size ≤ j.index ∨
        ∃ k ∈ splice.held, (k, j) ∈ copy.instMap) r.1 :=
      advances_spliceCopy (fun j new => .inl new) (fun k hk j hj => .inr ⟨k, hk, hj⟩) r answer
    have home' : r.1.func.blockOf i = some b := by
      rw [step.func.home i (lt_of_blockOf home), home]
      rintro (new | ⟨k, hk, hj⟩)
      · exact absurd (lt_of_blockOf home) (Nat.not_lt.mpr new)
      · exact kept.1 k hk hj
    refine (ih (consistent_spliceCopy consistent r answer) complete.2 apart home' kept.2).mono
      fun t later => ⟨fun away => ?_, fun k copy' at_k mem none => ?_⟩
    · rw [List.forall_mem_cons] at away
      rw [later.1 away.2, outside away.1]
    · cases k with
      | zero =>
        obtain rfl : copy = copy' := by simpa using at_k
        rw [later.1 fun copy' hc mem' => here copy' hc mem mem']
        exact inside mem none
      | succ k =>
        have at_k : copies[k]? = some copy' := by simpa using at_k
        obtain ⟨u, map, divergence, read⟩ := later.2 k copy' at_k mem (step.map ▸ none)
        refine ⟨u, map.trans step.map, divergence.trans step.divergence, ?_⟩
        rw [← outside fun mem' => here copy' (List.mem_of_getElem? at_k) mem' mem, read,
          Nat.add_assoc, Nat.add_comm 1 k]

/-! ### Copies that have been made -/

/-- Copies of a region that have been made one after the other read what the region reads. -/
theorem mirrors_copyRegion (hf : f.Consistent) {region : Region} {count : Nat} :
    Yields (copyRegion region f n count) fun r =>
      f.SameReads (fun _ => False) r.1 ∧
      (∀ copy ∈ r.2, f.Mirrors region.blocks copy.mapValue (r.1, copy)) ∧
      r.2.Pairwise fun copy copy' => copy.blocks.Disjoint copy'.blocks := by
  induction count generalizing f n with
  | zero => exact .pure ⟨.refl f, by simp, by simp⟩
  | succ count ih =>
    rw [copyRegion]
    refine .ask fun r₁ answer => ?_
    obtain ⟨copies, -⟩ := copies_copyBlocks hf r₁ answer
    have first := mirrors_copyBlocks hf r₁ answer
    refine .ask fun r₂ later => .pure ?_
    obtain ⟨same, mirrors, apart⟩ := ih copies.consistent r₂ later
    obtain ⟨copied, -⟩ := copied_copyRegion copies.consistent r₂ later
    refine ⟨first.same.trans same, List.forall_mem_cons.mpr ⟨first.extend same copied.leaves,
      fun copy hc => (mirrors copy hc).restrict hf copies.consistent first.same copies.leaves⟩,
      List.pairwise_cons.mpr ⟨fun copy hc b hb hb' => ?_, apart⟩⟩
    exact absurd (first.fresh b hb).2 (Nat.not_lt.mpr ((mirrors copy hc).fresh b hb').1)

/-! ### What commands keep -/

/-- A property that is kept when an instruction or a region is repeated and when placeholders go. -/
structure Kept (f : Func) (twins : InstId → InstId → Prop) (P : Replication → Prop) : Prop where
  inst : ∀ s i, s.Stocked f twins → (s.func.blockOf i).isSome → P s → Yields (s.replicateInst i) P
  region : ∀ s r, s.Stocked f twins → r.Inside f → P s →
    Yields (s.replicateRegion r) fun t => P t.2
  resolve : ∀ s, s.Stocked f twins → P s → Yields s.resolveAll P

namespace Kept

variable {twins : InstId → InstId → Prop} {P : Replication → Prop} (kept : Kept f twins P)
  (hf : f.Consistent)

include kept hf

theorem replicateRegions {list : List Region} (inside : ∀ r ∈ list, r.Inside f)
    (h : s.Stocked f twins) (hs : P s) : Yields (s.replicateRegions list) fun t => P t.2 := by
  refine (yields_replicateRegions (p := fun t => t.Stocked f twins ∧ P t) ⟨h, hs⟩
    fun t ht r hr u answer => ?_).mono fun _ known => known.2
  exact ⟨(ht.1.replicateRegion hf (inside r hr) u answer).1,
    kept.region t r ht.1 (inside r hr) ht.2 u answer⟩

theorem perform (h : s.Stocked f twins) (hs : P s) (known : Locates f s.divergence)
    {command : Command} (allowed : s.allows command = true) : Yields (s.perform command) P := by
  cases command with
  | inst i => exact kept.inst s i h allowed hs
  | region r =>
    have mem : r ∈ s.divergence.regions := by simpa [allows] using allowed
    exact .map (kept.region s r h (known.regions r mem) hs)
  | resolve => exact kept.resolve s h hs
  | all =>
    refine .map (.ask fun t answer => ?_)
    have after : t.Stocked f twins ∧ P t := by
      refine Yields.foldlM (r := fun t => t.Stocked f twins ∧ P t) ⟨h, hs⟩
        (fun u hu i hi => ?_) t answer
      obtain ⟨b, home⟩ := Option.isSome_iff_exists.mp (known.insts i hi)
      have placed : (u.func.blockOf i).isSome := by simp [hu.1.home i b home]
      intro v step
      exact ⟨(hu.1.replicateInst placed v step).1, kept.inst u i hu.1 placed hu.2 v step⟩
    have same := (sameTask_replicateInsts t answer).1
    refine kept.replicateRegions hf (fun r hr => known.regions r ?_) after.1 after.2
    rw [← same]
    exact (Region.mem_outermost.mp hr).1

/-- Commands keep the property, one after the other. -/
theorem performAll (h : s.Stocked f twins) (hs : P s) (known : Locates f s.divergence)
    {commands : List Command} (allowed : s.allowsAll commands = true) :
    Yields (s.performAll commands) P := by
  induction commands generalizing s with
  | nil => exact .pure hs
  | cons command rest ih =>
    rw [Replication.performAll, List.foldlM_cons]
    refine .ask fun t answer => ?_
    obtain ⟨here, rest⟩ := allowsAll_cons allowed
    have same := (sameTask_perform command t answer).1
    exact ih (h.perform hf known here t answer).1 (kept.perform hf h hs known here t answer)
      (same ▸ known) (rest t answer)

end Kept

end Replication

/-! ### Replicas are younger -/

/-- All replicas were made after the values that they repeat. -/
def ReplicaMap.Rising (m : ReplicaMap) : Prop :=
  ∀ i list, m.get? i = some list → ∀ c ∈ list, i.index < c.index

theorem Func.Scaled.rising {f g : Func} {c : CoarseningParams} {extents identities : List InstId}
    {map : ReplicaMap} {news : InstId → List (InstId × Operation × Ty)} {rename : InstId → InstId}
    (scaled : f.Scaled g c extents identities map news rename)
    (placed : ∀ i ∈ identities, (f.blockOf i).isSome) : map.Rising := by
  intro j list has x hx
  obtain ⟨i, hi, ty, n, key, lines, rfl⟩ := scaled.exists_read placed has
  rcases key with rfl | rfl
  · -- what is computed behind a read is new
    obtain ⟨l, hl, rfl⟩ := List.mem_map.mp (mem_news lines hx)
    exact Nat.lt_of_lt_of_le (lt_of_placed (placed j hi)) (scaled.expands.new j l hl).1
  · obtain ⟨m, -, rfl⟩ := List.mem_map.mp hx
    show n + 3 < n + 4 + m
    omega

namespace Replication

open Func

variable {f : Func} {twins : InstId → InstId → Prop}

theorem kept_rising (hf : f.Consistent) : Kept f twins fun s => s.map.Rising where
  inst s i h placed rising := by
    refine .ask fun inst _ => ?_
    split
    · exact .pure rising
    · refine .ask fun r chained => .pure fun j list has => ?_
      have step := advances_chainReplicas (fun j new => new) r chained
      obtain ⟨-, -, each⟩ := fresh_chainReplicas r chained
      rcases ReplicaMap.eq_or_of_get?_insert has with before | ⟨rfl, rfl⟩
      · exact rising j list (step.map ▸ before)
      · exact fun c hc => Nat.lt_of_lt_of_le (lt_of_placed placed) (each c hc).1
  region s r h inside rising := by
    refine yields_replicateRegion (fun _ => rising) fun _ _ _ _ _ _ copying spliced i list has => ?_
    obtain ⟨copied, -⟩ := copied_copyRegion h.consistent _ copying
    have step := advances_struck spliced
    rcases ReplicaMap.mem_of_get?_inserts has with before | new
    · exact rising i list (step.map ▸ before)
    · intro c hc
      obtain ⟨j, hj, same⟩ := List.mem_map.mp new
      obtain ⟨rfl, rfl⟩ := Prod.mk.inj same
      -- an alive value was there before the copies of its region
      obtain ⟨b, -, mem⟩ := inside.alive j hj
      obtain ⟨copy, hcopy, made⟩ := mem_aliveReplicas hc
      exact Nat.lt_of_lt_of_le (lt_of_blockOf (hf.mem_code.mp mem))
        (Nat.le_trans h.size (copied.placed copy hcopy j c made).1)
  resolve s h rising := by
    intro t answer
    rw [(advances_resolveAll t answer).1.map]
    exact rising

/-! ### Operands of copies -/

variable {s t : Replication} {i : InstId} {n : Nat}

/-- An operand with replicas becomes its replica. -/
theorem operandAt_of_some {v x : InstId} {list : List InstId} (has : s.map.get? v = some list)
    (nth : list[n]? = some x) (other : i ∉ list) :
    s.operandAt i n (.inst v) = .inst x := by
  have apart : x ≠ i := fun same => other (same ▸ List.mem_of_getElem? nth)
  simp [operandAt, has, nth, apart, other]

/-- An operand that is not divergent and has no replicas stays. -/
theorem operandAt_of_none {v : InstId} (none : s.map.get? v = none)
    (uniform : s.divergence.isDivergent v = false) : s.operandAt i n (.inst v) = .inst v := by
  simp [operandAt, none, uniform]

end Replication

/-- The operand of an instruction at a place. -/
def Func.readAt (f : Func) (i : InstId) (n : Nat) : Option Value := (f.reads i).bind (·[n]?)

/-- An operand of a copy belongs to a replica: it is the replica or the copy of it. -/
def BlockCopy.Belongs (copy : BlockCopy) (replica w : InstId) : Prop :=
  w = replica ∨ copy.instMap.get? replica = some w

namespace Replication

open Func

variable {f g : Func} {s t : Replication} {i : InstId} {n : Nat} {twins : InstId → InstId → Prop}
  {region : Region}

/-- Copies of a region have been made and put into place, and what stood in the region before has
been rewired in them. -/
structure Spliced (f : Func) (s : Replication) (region : Region) (g : Func)
    (copies : List BlockCopy) (t : Replication) : Prop where
  copied : Copied s.func g region copies
  length : copies.length = s.replicas
  mirrors : ∀ copy ∈ copies, s.func.Mirrors region.blocks copy.mapValue (g, copy)
  placed : ∀ copy ∈ copies, ∀ i j, (i, j) ∈ copy.instMap → i.index < f.insts.size →
    (t.func.blockOf j).isSome
  reads : ∀ (k : Nat) (copy : BlockCopy), copies[k]? = some copy →
    ∀ i j, (i, j) ∈ copy.instMap → i.index < f.insts.size → s.map.get? j = none →
      s.Rewired k j ((s.func.reads i).map (List.map copy.mapValue)) (t.func.reads j)

theorem spliced_replicateRegion (h : s.Stocked f twins) (inside : region.Inside f) :
    Yields (s.replicateRegion region) fun r => r.1 = none →
      ∃ func copies, copyRegion region s.func 0 s.replicas = .ok (func, copies) ∧
        Spliced f s region func copies r.2 := by
  refine yields_replicateRegion (fun _ => by simp)
    fun _ _ func copies t _ copying splicing _ => ⟨func, copies, copying, ?_⟩
  obtain ⟨copied, length⟩ := copied_copyRegion h.consistent _ copying
  obtain ⟨-, mirrors, apart⟩ := mirrors_copyRegion h.consistent _ copying
  have complete : ∀ copy ∈ copies, Complete region copy := fun copy hc =>
    ⟨(mirrors copy hc).nodup, (copied.covers copy hc).blocks _ inside.header,
      (copied.covers copy hc).blocks _ inside.exiting⟩
  have free : ∀ i : InstId, i.index < f.insts.size → i ∉ s.placeholders.all := fun i old held =>
    absurd old (Nat.not_lt.mpr (h.held i held).1)
  refine ⟨copied, length, mirrors, fun copy hc i j hj old => ?_,
    fun k copy at_k i j hj old none => ?_⟩
  · obtain ⟨b, -, home⟩ := (mirrors copy hc).home i j hj
    have stays := (advances_struck splicing).func.home j (lt_of_blockOf home)
      (copied.not_struck hc hj (free i old))
    exact Option.isSome_of_eq_some (stays.trans home)
  · have hc := List.mem_of_getElem? at_k
    obtain ⟨b, hb, home⟩ := (mirrors copy hc).home i j hj
    have read := (reads_spliceCopies (s := { s with func }) copied.consistent complete apart home
      (fun copy' hc' k hk mem => free i old (copied.unique hc hc' hj mem ▸ hk)) t splicing).2
        k copy at_k hb none
    rw [← (mirrors copy hc).mirror i j hj (Nat.lt_of_lt_of_le old h.size)]
    rwa [Nat.zero_add] at read

/-- Instructions that are made later have no replicas. -/
theorem Stocked.get?_eq_none (h : s.Stocked f twins) (rising : s.map.Rising)
    (some : 0 < s.replicas) (new : s.func.insts.size ≤ i.index) : s.map.get? i = none := by
  by_contra known
  obtain ⟨list, has⟩ := Option.ne_none_iff_exists'.mp known
  have fills := h.fills i list has
  obtain ⟨x, hx⟩ := List.exists_mem_of_length_pos (fills.length ▸ some)
  have younger := rising i list has x hx
  have slot := lt_of_placed (fills.placed x hx)
  omega

/-- What an operand with replicas becomes in a copy of a region. -/
theorem Spliced.operand {func : Func} {copies : List BlockCopy}
    (spliced : Spliced f s region func copies t) (h : s.Stocked f twins) (rising : s.map.Rising)
    (known : ∀ j, s.divergence.isDivergent j → j.index < f.insts.size) {k : Nat}
    {copy : BlockCopy} (at_k : copies[k]? = some copy) {new : InstId}
    (fresh : s.func.insts.size ≤ new.index) {u : Replication} (map : u.map = s.map)
    (divergence : u.divergence = s.divergence) {v : InstId} {list : List InstId}
    (has : s.map.get? v = some list) :
    ∃ replica w, list[k]? = some replica ∧
      u.operandAt new k (copy.mapValue (.inst v)) = .inst w ∧
      (copy.Belongs replica w ↔ v ∉ region.blocks.flatMap s.func.code) ∧
      (v ∉ region.blocks.flatMap s.func.code → w = replica) ∧
      (v ∈ region.blocks.flatMap s.func.code → copy.instMap.get? v = some w) := by
  have hc := List.mem_of_getElem? at_k
  have place : k < s.replicas := spliced.length ▸ (List.getElem?_eq_some_iff.mp at_k).1
  have fills := h.fills v list has
  obtain ⟨replica, nth⟩ : ∃ replica, list[k]? = some replica :=
    ⟨_, List.getElem?_eq_getElem (fills.length ▸ place)⟩
  have mem := List.mem_of_getElem? nth
  have younger := rising v list has replica mem
  have slot := lt_of_placed (fills.placed replica mem)
  by_cases inside : v ∈ region.blocks.flatMap s.func.code
  · -- the copy of the value is looked up, and it has no replicas
    have covers := spliced.copied.covers copy hc
    obtain ⟨w, found⟩ := Option.isSome_iff_exists.mp (covers.insts v inside)
    have made := Assoc.mem_of_get? found
    have later := (spliced.copied.placed copy hc v w made).1
    have uniform : s.divergence.isDivergent w = false := by
      by_contra divergent
      have old := known w (by simpa using divergent)
      have grown := h.size
      omega
    refine ⟨replica, w, nth, ?_, ⟨?_, fun outside => absurd inside outside⟩,
      fun outside => absurd inside outside, fun _ => found⟩
    · rw [BlockCopy.mapValue, found, Option.getD_some]
      refine operandAt_of_none ?_ (divergence ▸ uniform)
      rw [map, h.get?_eq_none rising (Nat.zero_lt_of_lt place) later]
    · rintro (rfl | same)
      · exact absurd slot (Nat.not_lt.mpr later)
      · obtain rfl := spliced.copied.one copy hc _ _ _ (Assoc.mem_of_get? same) made
        exact absurd younger (Nat.lt_irrefl _)
  · have none : copy.instMap.get? v = none := by
      by_contra known
      obtain ⟨w, found⟩ := Option.ne_none_iff_exists'.mp known
      obtain ⟨b, hb, here⟩ := (spliced.mirrors copy hc).source v w (Assoc.mem_of_get? found)
        (Nat.lt_trans younger slot)
      exact inside (List.mem_flatMap.mpr ⟨b, hb, here⟩)
    refine ⟨replica, replica, nth, ?_, ⟨fun _ => inside, fun _ => .inl rfl⟩, fun _ => rfl,
      fun there => absurd there inside⟩
    rw [BlockCopy.mapValue, none, Option.getD_none]
    refine operandAt_of_some (map ▸ has) nth fun own => ?_
    exact absurd (lt_of_placed (fills.placed new own)) (Nat.not_lt.mpr fresh)

/-- After the grid of a function has been scaled, and whatever commands have followed, copies of a
region of the function are made, and every instruction that was there before has a copy in each of
them.  Where such an instruction reads a value with replicas, copy `k` of it reads replica `k`, or
the copy of replica `k`, exactly if the value is computed outside of the region.  If it is computed
in the region, the copy reads the copy of the value. -/
theorem copies_read_replicas_iff (consistent : f.Consistent) {selector : DimensionSelector}
    {shared : List GlobalId} {level : Level} {dim : Dimension} {found : DivergentFunc}
    (analysis : f.analyze selector shared level dim = .ok (.ok found)) {c : CoarseningParams}
    {map : ReplicaMap} (scaling : f.scaleGrid found.grid c = .ok (.ok (g, map)))
    {commands : List Command}
    (allowed : (start found.divergence c.factor g map).allowsAll commands = true)
    (run : (start found.divergence c.factor g map).performAll commands = .ok s)
    (mem : region ∈ found.divergence.regions)
    (answer : s.replicateRegion region = .ok (none, t)) :
    ∃ (func : Func) (copies : List BlockCopy),
      copyRegion region s.func 0 (c.factor - 1) = .ok (func, copies) ∧
      copies.length = c.factor - 1 ∧
      ∀ (k : Nat) (copy : BlockCopy), copies[k]? = some copy →
        ∀ i ∈ region.blocks.flatMap s.func.code, i.index < f.insts.size →
          ∃ new, copy.instMap.get? i = some new ∧ (t.func.blockOf new).isSome ∧
            ∀ n v list, s.func.readAt i n = some (.inst v) → s.map.get? v = some list →
              ∃ replica w, list[k]? = some replica ∧ t.func.readAt new n = some (.inst w) ∧
                (copy.Belongs replica w ↔ v ∉ region.blocks.flatMap s.func.code) ∧
                (v ∉ region.blocks.flatMap s.func.code → w = replica) ∧
                (v ∈ region.blocks.flatMap s.func.code → copy.instMap.get? v = some w) := by
  obtain ⟨ops, accesses, a⟩ := analyzed analysis
  have known : Locates f found.divergence :=
    ⟨fun i hi => a.placed_outermost consistent hi, fun r hr => a.inside consistent hr⟩
  have first := stocked_scaleGrid consistent found.divergence a.grid scaling
  obtain ⟨news, rename, scaled, placed⟩ := exists_scaled consistent a.grid scaling
  obtain ⟨h, -, divergence, factor⟩ := first.performAll consistent known allowed s run
  have rising : s.map.Rising := (kept_rising consistent).performAll consistent first
    (scaled.rising placed) known allowed s run
  have replicas : s.replicas = c.factor - 1 := by
    rw [Replication.replicas, factor]
    rfl
  have slots : ∀ j, s.divergence.isDivergent j → j.index < f.insts.size := by
    intro j divergent
    rw [divergence] at divergent
    obtain ⟨more, follows, -⟩ := a.closed (List.contains_iff_mem.mp divergent)
    obtain ⟨op, hop, -⟩ := bind_eq_ok_iff.mp follows
    exact lt_of_operation hop
  obtain ⟨func, copies, copying, spliced⟩ :=
    spliced_replicateRegion h (known.regions region mem) _ answer rfl
  refine ⟨func, copies, replicas ▸ copying, replicas ▸ spliced.length,
    fun k copy at_k i hi old => ?_⟩
  have hc := List.mem_of_getElem? at_k
  have some : 0 < s.replicas := spliced.length ▸ List.length_pos_of_mem hc
  obtain ⟨new, here⟩ := Option.isSome_iff_exists.mp ((spliced.copied.covers copy hc).insts i hi)
  have made := Assoc.mem_of_get? here
  have fresh := (spliced.copied.placed copy hc i new made).1
  obtain ⟨u, same, same', read⟩ := spliced.reads k copy at_k i new made old
    (h.get?_eq_none rising some fresh)
  refine ⟨new, here, spliced.placed copy hc i new made old, fun n v list reads has => ?_⟩
  obtain ⟨replica, w, nth, operand, belongs⟩ :=
    spliced.operand h rising slots at_k fresh same same' has
  refine ⟨replica, w, nth, ?_, belongs⟩
  obtain ⟨operands, hops, nth⟩ := Option.bind_eq_some_iff.mp reads
  simp [readAt, read, hops, nth, operand]

/-- The region of the kernel that reads its identity late. -/
def lateRegion : Region := ⟨⟨3⟩, ⟨2⟩, [⟨3⟩, ⟨1⟩, ⟨2⟩], [], [⟨1⟩]⟩

/-- Outlining regions keeps a kernel consistent. -/
theorem consistent_lateReadSplit : lateReadSplit.Consistent := by
  have extracted : lateRead.extractRegions lateReadFound.divergence.regions =
      .ok (none, lateReadSplit, lateReadSplitFound.divergence.regions) := by cbv
  exact Consistent.extractPlaces (consistent_assemble ..) _ extracted

/-- The test of the kernel is repeated first, and then its region.  The copied branch reads the
replica of the test, as it should.  The copied address, number 28, is computed from number 26, the
copy of the first identity that the region computes, in place of the identity of the other thread,
number 19, or the copy of that. -/
theorem lateRead_region_operands : ∃ g map s t func copy,
    lateReadSplit.Consistent ∧ lateReadSplit.firstFlaw? = .ok none ∧
    lateReadSplit.scaleGrid lateReadSplitFound.grid ⟨.thread, .x, 2, 1⟩ = .ok (.ok (g, map)) ∧
    (start lateReadSplitFound.divergence 2 g map).performAll [.inst ⟨1⟩] = .ok s ∧
    s.replicateRegion lateRegion = .ok (none, t) ∧
    copyRegion lateRegion s.func 0 1 = .ok (func, [copy]) ∧
    (copy.instMap.get? ⟨2⟩ = some ⟨21⟩ ∧ s.func.readAt ⟨2⟩ 0 = some (.inst ⟨1⟩) ∧
      s.map.get? ⟨1⟩ = some [⟨20⟩] ∧ t.func.readAt ⟨21⟩ 0 = some (.inst ⟨20⟩) ∧
      copy.Belongs ⟨20⟩ ⟨20⟩) ∧
    copy.instMap.get? ⟨4⟩ = some ⟨28⟩ ∧ s.func.readAt ⟨4⟩ 1 = some (.inst ⟨18⟩) ∧
      s.map.get? ⟨18⟩ = some [⟨19⟩] ∧ t.func.readAt ⟨28⟩ 1 = some (.inst ⟨26⟩) ∧
      ¬ copy.Belongs ⟨19⟩ ⟨26⟩ := by
  have run : (lateReadSplit.scaleGrid lateReadSplitFound.grid ⟨.thread, .x, 2, 1⟩).toOption.bind
      (fun scaled => scaled.toOption.bind fun (g, map) => Option.bind
        ((start lateReadSplitFound.divergence 2 g map).performAll [.inst ⟨1⟩]).toOption fun s =>
          (s.replicateRegion lateRegion).toOption.bind fun (error, t) =>
            (copyRegion lateRegion s.func 0 1).toOption.map fun made =>
              decide ((start lateReadSplitFound.divergence 2 g map).allowsAll [.inst ⟨1⟩] ∧
                error.isNone ∧ ⟨2⟩ ∈ lateRegion.blocks.flatMap s.func.code ∧
                ⟨4⟩ ∈ lateRegion.blocks.flatMap s.func.code ∧
                ⟨1⟩ ∉ lateRegion.blocks.flatMap s.func.code ∧
                ⟨18⟩ ∈ lateRegion.blocks.flatMap s.func.code ∧
                s.func.readAt ⟨2⟩ 0 = some (.inst ⟨1⟩) ∧ s.map.get? ⟨1⟩ = some [⟨20⟩] ∧
                s.func.readAt ⟨4⟩ 1 = some (.inst ⟨18⟩) ∧ s.map.get? ⟨18⟩ = some [⟨19⟩] ∧
                made.2.map (·.instMap.get? ⟨2⟩) = [some ⟨21⟩] ∧
                made.2.map (·.instMap.get? ⟨4⟩) = [some ⟨28⟩] ∧
                made.2.map (·.instMap.get? ⟨18⟩) = [some ⟨26⟩])) = some true := by
    decide +kernel
  simp only [Option.bind_eq_some_iff, Option.map_eq_some_iff, toOption_eq_some_iff,
    decide_eq_true_eq] at run
  obtain ⟨_, scaling, ⟨g, map⟩, rfl, s, run, ⟨error, t⟩, answer, ⟨func, copies⟩, copying, allowed,
    done, branch, address, outside, inside, readsTest, test, readsBase, base, values⟩ := run
  obtain rfl : error = none := by simpa using done
  obtain ⟨func', copies', copying', length, operands⟩ := copies_read_replicas_iff
    consistent_lateReadSplit analyze_lateReadSplit scaling allowed run (by decide) answer
  obtain ⟨rfl, rfl⟩ : func = func' ∧ copies = copies' := by simpa [copying] using copying'
  obtain ⟨copy, rfl⟩ := List.length_eq_one_iff.mp length
  simp only [List.map_cons, List.map_nil, List.cons.injEq, and_true] at values
  obtain ⟨ofBranch, ofAddress, ofBase⟩ := values
  obtain ⟨i, hi, -, first⟩ := operands 0 copy rfl ⟨2⟩ branch (by decide)
  obtain ⟨j, hj, -, second⟩ := operands 0 copy rfl ⟨4⟩ address (by decide)
  obtain ⟨x, w, hx, reads, belongs, same, -⟩ := first 0 ⟨1⟩ _ readsTest test
  obtain ⟨y, v, hy, reads', belongs', -, copied⟩ := second 1 ⟨18⟩ _ readsBase base
  obtain rfl : i = ⟨21⟩ := by simpa [ofBranch] using hi.symm
  obtain rfl : j = ⟨28⟩ := by simpa [ofAddress] using hj.symm
  obtain rfl : x = ⟨20⟩ := by simpa using hx.symm
  obtain rfl := same outside
  obtain rfl : y = ⟨19⟩ := by simpa using hy.symm
  obtain rfl : v = ⟨26⟩ := by simpa [ofBase] using (copied inside).symm
  refine ⟨g, map, s, t, func, copy, consistent_lateReadSplit, by cbv, scaling, run, answer, copying,
    ⟨ofBranch, readsTest, test, reads, belongs.mpr outside⟩, ofAddress, readsBase, base, reads',
    fun here => belongs'.mp here inside⟩

end Replication

end KernelCoarsening
