/-
Repetition, one command after the other.

A repetition is told to repeat everything, one instruction or one region, or to put replicas in
the place of placeholders, in any order.  What one command does is said once, here:

* `Replication.Advances` — the steps that commands are made of give no value new replicas, they
  move no instruction but those that they make, and their placeholders are new;
* `Replication.yields_replicateRegion` — what becomes of a region, or of an error;
* `Replication.perform`, `Replication.performAll` — commands;
* `Replication.repeatedAlong` — the regions that commands repeat.
-/
import KernelCoarsening.Proofs.Coarsening.Completion
import KernelCoarsening.Proofs.Ir.Frame

namespace KernelCoarsening

namespace Replication

open Func

variable {s t u : Replication} {moved : InstId → Prop} {i : InstId} {n : Nat}

/-! ### Steps -/

/-- A step that gives no value replicas: instructions are left where they are, but for some, and
placeholders that were not there are new. -/
structure Advances (moved : InstId → Prop) (s t : Replication) : Prop where
  divergence : t.divergence = s.divergence
  factor : t.factor = s.factor
  map : t.map = s.map
  func : s.func.Leaves moved t.func
  held : ∀ i ∈ t.placeholders.all, i ∈ s.placeholders.all ∨
    s.func.insts.size ≤ i.index ∧ i.index < t.func.insts.size

namespace Advances

theorem refl (s : Replication) : s.Advances moved s := ⟨rfl, rfl, rfl, .refl _, fun _ => .inl⟩

theorem trans (first : s.Advances moved t) (second : t.Advances moved u) :
    s.Advances moved u where
  divergence := second.divergence.trans first.divergence
  factor := second.factor.trans first.factor
  map := second.map.trans first.map
  func := first.func.trans second.func
  held i hi := by
    have later := first.func.grows.insts
    have last := second.func.grows.insts
    rcases second.held i hi with before | new
    · rcases first.held i before with before | new
      · exact .inl before
      · exact .inr ⟨new.1, by omega⟩
    · exact .inr ⟨by omega, new.2⟩

/-- Only the function has been edited since. -/
theorem edit (first : s.Advances moved t) {g : Func} (left : t.func.Leaves moved g) :
    s.Advances moved { t with func := g } :=
  first.trans ⟨rfl, rfl, rfl, left, fun _ => .inl⟩

/-- Members of the arena that are made by steps may be moved by later ones. -/
theorem fresh (first : s.Advances moved t)
    (fresh : ∀ j : InstId, s.func.insts.size ≤ j.index → moved j) :
    ∀ j : InstId, t.func.insts.size ≤ j.index → moved j :=
  fun j new => fresh j (Nat.le_trans first.func.grows.insts new)

end Advances

/-- What a step leads to has been come to from where the steps began. -/
theorem Advances.then {x : Except Fault Replication} (first : s.Advances moved t)
    (second : Yields x (t.Advances moved)) : Yields x (s.Advances moved) :=
  second.mono fun _ later => first.trans later

theorem leaves_chainCopies {f : Func} (fresh : ∀ j : InstId, f.insts.size ≤ j.index → moved j)
    {behind : InstId} {name suffix : String} {count : Nat} :
    Yields (chainCopies i name suffix f behind n count) fun r => f.Leaves moved r.1 ∧
      ∀ c ∈ r.2, f.insts.size ≤ c.index ∧ c.index < r.1.insts.size := by
  induction count generalizing f behind n with
  | zero => exact .pure ⟨.refl f, by simp⟩
  | succ count ih =>
    rw [chainCopies]
    refine .ask fun r copied => .ask fun g placed => ?_
    obtain ⟨new, size⟩ := slot_copyInst r copied
    have left := (leaves_copyInst r copied).trans
      (leaves_attachAfter (fresh r.2 (Nat.le_of_eq new.symm)) g placed)
    have grown := (grows_attachAfter g placed).insts
    refine (ih fun j hj => fresh j (Nat.le_trans left.grows.insts hj)).bind fun rest known =>
      .pure ?_
    refine ⟨left.trans known.1, List.forall_mem_cons.mpr ⟨?_, fun c hc => ?_⟩⟩
    · exact ⟨Nat.le_of_eq new.symm,
        Nat.lt_of_lt_of_le size (Nat.le_trans grown known.1.grows.insts)⟩
    · obtain ⟨above, below⟩ := known.2 c hc
      exact ⟨Nat.le_trans left.grows.insts above, below⟩

theorem advances_ensurePlaceholders
    (fresh : ∀ j : InstId, s.func.insts.size ≤ j.index → moved j) :
    Yields (s.ensurePlaceholders i) (s.Advances moved) := by
  unfold ensurePlaceholders
  split
  · exact .pure (.refl s)
  · rename_i needed
    obtain ⟨-, none⟩ : _ ∧ s.placeholders.get? i = none := by simpa using needed
    refine .ask fun inst _ => (leaves_chainCopies fresh).bind fun r known => .pure ?_
    refine ⟨rfl, rfl, rfl, known.1, fun j hj => ?_⟩
    rw [Placeholders.all_insert none] at hj
    exact (List.mem_append.mp hj).imp_right (known.2 j)

theorem advances_rewire (fresh : ∀ j : InstId, s.func.insts.size ≤ j.index → moved j) :
    Yields (rewire n s i) (s.Advances moved) := by
  unfold rewire
  split
  · exact .pure (.refl s)
  · refine .ask fun op _ => ?_
    refine Yields.bind (p := s.Advances moved) (.foldlM (.refl s) fun t ht j _ =>
      ht.then (advances_ensurePlaceholders (ht.fresh fresh))) fun t ht => ?_
    exact (leaves_modifyOperation fun op => by simp).bind fun g left => .pure (ht.edit left)

theorem advances_chainReplicas (fresh : ∀ j : InstId, s.func.insts.size ≤ j.index → moved j)
    {behind : InstId} {name : String} {count : Nat} :
    Yields (chainReplicas i name s behind n count) fun r => s.Advances moved r.1 := by
  induction count generalizing s behind n with
  | zero => exact .pure (.refl s)
  | succ count ih =>
    rw [chainReplicas]
    refine .ask fun r copied => .ask fun t rewired => .ask fun g placed => ?_
    obtain ⟨func, copy⟩ := r
    have h₁ : s.Advances moved { s with func } := (Advances.refl s).edit (leaves_copyInst _ copied)
    have h₂ := h₁.trans (advances_rewire (h₁.fresh fresh) t rewired)
    obtain ⟨new, -⟩ := slot_copyInst _ copied
    have h₃ := h₂.edit (leaves_attachAfter (fresh copy (Nat.le_of_eq new.symm)) g placed)
    exact (ih (h₃.fresh fresh)).bind fun r h₄ => .pure (h₃.trans h₄)

/-- The replicas of an instruction are as many as are asked for, all different, and new. -/
theorem fresh_chainReplicas {behind : InstId} {name : String} {count : Nat} :
    Yields (chainReplicas i name s behind n count) fun r => r.2.length = count ∧ r.2.Nodup ∧
      ∀ c ∈ r.2, s.func.insts.size ≤ c.index ∧ c.index < r.1.func.insts.size := by
  induction count generalizing s behind n with
  | zero => exact .pure ⟨rfl, by simp, by simp⟩
  | succ count ih =>
    rw [chainReplicas]
    refine .ask fun r copied => .ask fun t rewired => .ask fun g attached =>
      .ask fun rest later => .pure ?_
    obtain ⟨func, copy⟩ := r
    obtain ⟨next, inside⟩ : copy.index = s.func.insts.size ∧ copy.index < func.insts.size :=
      slot_copyInst _ copied
    have slot : copy.index < g.insts.size := Nat.lt_of_lt_of_le inside
      ((grows_rewire t rewired).trans (grows_attachAfter g attached)).insts
    have grown : g.insts.size ≤ rest.1.func.insts.size :=
      (advances_chainReplicas (fun _ _ => trivial) rest later).func.grows.insts
    -- the other replicas are younger than this one
    obtain ⟨length, nodup, each⟩ := ih rest later
    refine ⟨by simp [length], List.nodup_cons.mpr ⟨fun mem => ?_, nodup⟩,
      List.forall_mem_cons.mpr ⟨⟨next.ge, Nat.lt_of_lt_of_le slot grown⟩, fun c hc => ?_⟩⟩
    · exact absurd slot (Nat.not_lt.mpr (each copy mem).1)
    · obtain ⟨new, below⟩ := each c hc
      exact ⟨(next.ge.trans (Nat.le_of_lt slot)).trans new, below⟩

theorem advances_spliceCopy {splice : Splice} {top : BlockId} {copy : BlockCopy}
    (fresh : ∀ j : InstId, s.func.insts.size ≤ j.index → moved j)
    (gone : ∀ k ∈ splice.held, ∀ j, (k, j) ∈ copy.instMap → moved j) :
    Yields (spliceCopy splice n s top copy) fun r => s.Advances moved r.1 := by
  unfold spliceCopy
  split
  · split
    · have erased : Yields (copy.instMap.foldlM (fun f entry =>
          if splice.held.contains entry.1 then f.erase entry.2 else .ok f) s.func)
            (s.func.Leaves moved) := by
        refine leaves_foldlM fun g entry mem => ?_
        split
        · rename_i held
          exact leaves_erase (gone entry.1 (by simpa using held) entry.2 mem)
        · exact .pure (.refl g)
      refine erased.bind fun g h₁ => .ask fun blocks _ => ?_
      have start : s.Advances moved { s with func := g } := (Advances.refl s).edit h₁
      refine Yields.bind (p := s.Advances moved) (.foldlM start fun t ht i _ =>
        ht.then (advances_rewire (ht.fresh fresh))) fun t h₂ => ?_
      refine Yields.bind (p := t.func.Leaves moved) leaves_replaceSuccessor fun _ h₃ => ?_
      refine (h₃.then leaves_renameIncoming).bind fun _ h₄ => ?_
      exact (h₄.then leaves_renameIncoming).bind fun _ h₅ => .pure (h₂.edit h₅)
    · exact .pure (.refl s)
  · exact .pure (.refl s)

theorem advances_spliceCopies {splice : Splice} {top : BlockId} {copies : List BlockCopy}
    (fresh : ∀ j : InstId, s.func.insts.size ≤ j.index → moved j)
    (gone : ∀ copy ∈ copies, ∀ k ∈ splice.held, ∀ j, (k, j) ∈ copy.instMap → moved j) :
    Yields (spliceCopies splice s top n copies) (s.Advances moved) := by
  induction copies generalizing s top n with
  | nil => exact .pure (.refl s)
  | cons copy copies ih =>
    rw [spliceCopies]
    rw [List.forall_mem_cons] at gone
    exact (advances_spliceCopy fresh gone.1).bind fun r h₁ => h₁.then (ih (h₁.fresh fresh) gone.2)

theorem advances_resolve (gone : moved i) : Yields (s.resolve i) fun t =>
    s.Advances moved t ∧ t.placeholders = s.placeholders := by
  have erased : ∀ new, Yields (s.func.replaceUses i new) fun r =>
      Yields (r.1.erase i) (s.func.Leaves moved) := fun new =>
    leaves_replaceUses.mono fun _ left => left.then (leaves_erase gone)
  unfold resolve
  split
  · split
    · exact .pure ⟨.refl s, rfl⟩
    · refine (erased _).bind fun r h₁ => h₁.bind fun g h₂ => .pure ⟨?_, rfl⟩
      exact (Advances.refl s).edit h₂
  · refine (erased _).bind fun r h₁ => h₁.bind fun g h₂ => .pure ⟨?_, rfl⟩
    exact ⟨rfl, rfl, rfl, h₂, fun _ => .inl⟩

/-- Placeholders go, and nothing else. -/
theorem advances_resolveAll : Yields s.resolveAll fun t =>
    s.Advances (· ∈ s.placeholders.all) t ∧ t.placeholders = s.placeholders := by
  refine .foldlM ⟨.refl s, rfl⟩ fun t ht i hi => ?_
  exact (advances_resolve hi).mono fun u hu => ⟨ht.1.trans hu.1, hu.2.trans ht.2⟩

/-! ### Regions -/

/-- The alive values of a region get their copies as replicas. -/
def withAlive (t : Replication) (region : Region) (copies : List BlockCopy) : Replication :=
  let alive := region.alive.map fun i => (i, aliveReplicas region copies i)
  { t with
    map := alive.foldl (fun map entry => map.insert entry.1 entry.2) t.map
    placeholders := alive.foldl (fun held entry => held.record entry.1 entry.2) t.placeholders
    stats := { t.stats with regions := t.stats.regions + 1 } }

/-- There is an error and nothing happens, or copies of a region are made and put into place, and
then its alive values get replicas. -/
theorem yields_replicateRegion {region : Region} {p : Option CoarseningError × Replication → Prop}
    (failed : ∀ e, p (some e, s))
    (done : ∀ entry bottom func copies t, region.exit? s.func = .ok (some bottom) →
      copyRegion region s.func 0 s.replicas = .ok (func, copies) →
      spliceCopies ⟨region, entry, bottom, s.placeholders.all⟩ { s with func } region.exiting 0
        copies = .ok t → p (none, t.withAlive region copies)) :
    Yields (s.replicateRegion region) p := by
  refine .ask fun entry _ => ?_
  split
  · refine .ask fun bottom exit => ?_
    split
    · exact .ask fun r copying => .ask fun t spliced =>
        .pure (done _ _ r.1 r.2 t exit copying spliced)
    · exact .ask fun _ _ => .pure (failed _)
  · exact .ask fun _ _ => .pure (failed _)

/-- What repeating one region keeps is kept up to the first error. -/
theorem yields_replicateRegions {regions : List Region} {p : Replication → Prop} (hs : p s)
    (keep : ∀ t, p t → ∀ r ∈ regions, Yields (t.replicateRegion r) fun u => p u.2) :
    Yields (s.replicateRegions regions) fun t => p t.2 := by
  induction regions generalizing s with
  | nil => exact .pure hs
  | cons region rest ih =>
    rw [replicateRegions]
    refine (keep s hs region (by simp)).bind fun r hr => ?_
    obtain ⟨error, t⟩ := r
    cases error with
    | some e => exact .pure hr
    | none => exact ih hr fun t ht r hr => keep t ht r (List.mem_cons_of_mem _ hr)

/-! ### The task -/

/-- A repetition of the same values, the same number of times. -/
def SameTask (s t : Replication) : Prop := t.divergence = s.divergence ∧ t.factor = s.factor

theorem SameTask.trans (first : s.SameTask t) (second : t.SameTask u) : s.SameTask u :=
  ⟨second.1.trans first.1, second.2.trans first.2⟩

theorem Advances.sameTask (step : s.Advances moved t) : s.SameTask t :=
  ⟨step.divergence, step.factor⟩

theorem sameTask_replicateInst : Yields (s.replicateInst i) s.SameTask := by
  refine .ask fun inst _ => ?_
  split
  · exact .pure ⟨rfl, rfl⟩
  · exact (advances_chainReplicas (fun _ _ => trivial)).bind fun r step => .pure step.sameTask

theorem sameTask_replicateInsts {list : List InstId} :
    Yields (list.foldlM replicateInst s) s.SameTask :=
  .foldlM ⟨rfl, rfl⟩ fun _ ht _ _ => sameTask_replicateInst.mono fun _ later => ht.trans later

theorem sameTask_replicateRegion {region : Region} :
    Yields (s.replicateRegion region) fun r => s.SameTask r.2 := by
  refine yields_replicateRegion (fun _ => ⟨rfl, rfl⟩) fun _ _ _ _ t _ _ spliced => ?_
  exact (advances_spliceCopies (fun _ _ => trivial) (fun _ _ _ _ _ _ => trivial) t spliced).sameTask

theorem sameTask_replicateRegions {regions : List Region} :
    Yields (s.replicateRegions regions) fun r => s.SameTask r.2 :=
  yields_replicateRegions ⟨rfl, rfl⟩ fun _ ht _ _ =>
    sameTask_replicateRegion.mono fun _ later => ht.trans later

/-! ### Commands -/

/-- What a repetition may be told to do. -/
inductive Command where
  | all
  | inst (i : InstId)
  | region (r : Region)
  | resolve

/-- Does what a command says, as far as it goes: after an error, what was done before stays. -/
def perform (s : Replication) : Command → Except Fault Replication
  | .all => Prod.snd <$> s.replicateAll
  | .inst i => s.replicateInst i
  | .region r => Prod.snd <$> s.replicateRegion r
  | .resolve => s.resolveAll

/-- Does what commands say, one after the other. -/
def performAll (s : Replication) (commands : List Command) : Except Fault Replication :=
  commands.foldlM perform s

theorem sameTask_perform (command : Command) : Yields (s.perform command) s.SameTask := by
  cases command with
  | all =>
    refine .map (sameTask_replicateInsts.bind fun t first => ?_)
    exact sameTask_replicateRegions.mono fun _ later => first.trans later
  | inst i => exact sameTask_replicateInst
  | region r => exact .map sameTask_replicateRegion
  | resolve => exact advances_resolveAll.mono fun _ step => step.1.sameTask

/-- A command leaves a consistent function consistent. -/
theorem consistent_perform (h : s.func.Consistent) (command : Command) :
    Yields (s.perform command) fun t => t.func.Consistent := by
  cases command with
  | all => exact .map (consistent_replicateAll h)
  | inst i => exact consistent_replicateInst h
  | region r => exact .map (consistent_replicateRegion h)
  | resolve => exact consistent_resolveAll h

theorem consistent_performAll (h : s.func.Consistent) (commands : List Command) :
    Yields (s.performAll commands) fun t => t.func.Consistent :=
  .foldlM h fun _ ht command _ => consistent_perform ht command

/-- The regions of a list that are repeated: those before the first one that cannot be. -/
def repeated (s : Replication) : List Region → List Region
  | [] => []
  | r :: rest =>
    match s.replicateRegion r with
    | .ok (none, t) => r :: t.repeated rest
    | _ => []

/-- The regions that a command repeats. -/
def repeatedBy (s : Replication) : Command → List Region
  | .all =>
    match s.divergence.outermostInstructions.foldlM replicateInst s with
    | .ok t => t.repeated t.divergence.outermostRegions
    | .error _ => []
  | .region r => s.repeated [r]
  | _ => []

/-- The regions that commands repeat, one after the other. -/
def repeatedAlong (s : Replication) : List Command → List Region
  | [] => []
  | command :: rest =>
    match s.perform command with
    | .ok t => s.repeatedBy command ++ t.repeatedAlong rest
    | .error _ => []

end Replication

/-! ### A kernel to be repeated -/

/-- Threads below a bound pick a number, and all of them store to the word of the number. -/
def pick : Func := .assemble "pick" [⟨"out", .ptr .global⟩, ⟨"n", .i32⟩] [
  ("entry", [
    ⟨.call "llvm.nvvm.read.ptx.sreg.tid.x" [], .i32, "t"⟩,
    ⟨.compare .slt (.inst ⟨0⟩) (.arg 1), .i1, "c"⟩,
    ⟨.jump ⟨1⟩, .void, ""⟩]),
  ("head", [⟨.branch (.inst ⟨1⟩) ⟨2⟩ ⟨3⟩, .void, ""⟩]),
  ("body", [
    ⟨.binary .add (.inst ⟨0⟩) (.const 1), .i32, "x"⟩,
    ⟨.jump ⟨3⟩, .void, ""⟩]),
  ("join", [
    ⟨.phi [(.const 0, ⟨1⟩), (.inst ⟨4⟩, ⟨2⟩)], .i32, "y"⟩,
    ⟨.jump ⟨4⟩, .void, ""⟩]),
  ("exit", [
    ⟨.phi [(.inst ⟨6⟩, ⟨3⟩)], .i32, "z"⟩,
    ⟨.element (.arg 0) (.inst ⟨8⟩), .ptr .global, "p"⟩,
    ⟨.store (.inst ⟨9⟩) (.const 7), .void, ""⟩,
    ⟨.ret none, .void, ""⟩])]

/-- The region that the branch of the kernel controls. -/
def pickRegion : Region := ⟨⟨1⟩, ⟨3⟩, [⟨1⟩, ⟨2⟩, ⟨3⟩], [⟨6⟩], [⟨1⟩, ⟨0⟩]⟩

/-- What the analysis finds in the kernel. -/
def pickFound : DivergentFunc where
  func := pick
  flow :=
    { graph := ⟨#[[1], [2, 3], [3], [4], []], by decide⟩
      dom := ⟨#[some 0, some 0, some 1, some 1, some 3]⟩
      pdom := ⟨#[some 1, some 3, some 3, some 4, some 5, some 5], 5⟩
      loops := ⟨[]⟩ }
  grid := ⟨[(⟨0⟩, .threadId, .x)], []⟩
  divergence :=
    { level := .thread
      dim := .x
      set := [⟨4⟩, ⟨10⟩, ⟨9⟩, ⟨8⟩, ⟨6⟩, ⟨3⟩, ⟨1⟩, ⟨0⟩]
      placed := [(⟨0⟩, ⟨0⟩), (⟨1⟩, ⟨0⟩), (⟨3⟩, ⟨1⟩), (⟨4⟩, ⟨2⟩), (⟨6⟩, ⟨3⟩), (⟨8⟩, ⟨4⟩), (⟨9⟩, ⟨4⟩),
        (⟨10⟩, ⟨4⟩)]
      branches := [⟨3⟩]
      regions := [pickRegion]
      reads := [⟨0⟩] }

theorem analyze_pick : pick.analyze (.only .x) [] .thread .x = .ok (.ok pickFound) :=
  Func.analyze_eq_ok_iff.mpr ⟨by cbv, by rfl, by cbv, rfl⟩

end KernelCoarsening
