/-
Repeating an instruction a second time.

The map of replicas keeps the first replicas that a value gets, but nothing keeps an instruction with
replicas from being repeated all over again: there are new copies then, which the map does not know,
and the placeholders of the instruction come to stand for them:

* `Replication.Preparation` — the steps that replicas are made in record nothing;
* `Replication.Again`, `Replication.replicateInst_of_contains` — what a second repetition does, and that
  only for a terminator it does nothing;
* `Replication.not_contains_of_outermost` — repeating everything repeats no instruction a second time.
-/
import KernelCoarsening.Proofs.Coarsening.CloneLists

namespace KernelCoarsening

/-- What placeholders stand for when replicas are entered depends on the placeholders of the value and
on what they stood for. -/
theorem Placeholders.replacements_record_congr {p q : Placeholders} {i : InstId}
    (held : p.get? i = q.get? i) (same : p.replacements = q.replacements) (replicas : List InstId) :
    (p.record i replicas).replacements = (q.record i replicas).replacements := by
  unfold record
  rw [held]
  split
  · exact same
  · simp only [same]

namespace Replication

open Func

variable {s t u : Replication} {i j : InstId} {n : Nat}

/-! ### Steps that record nothing -/

/-- A step that records nothing: no value gets replicas, no repetition is counted, no placeholder comes
to stand for something, and values with replicas keep their placeholders. -/
structure Preparation (s t : Replication) : Prop where
  map : t.map = s.map
  instructions : t.stats.instructions = s.stats.instructions
  regions : t.stats.regions = s.stats.regions
  unresolved : t.stats.unresolved = s.stats.unresolved
  replacements : t.placeholders.replacements = s.placeholders.replacements
  held : ∀ i, s.map.contains i = true → t.placeholders.get? i = s.placeholders.get? i

namespace Preparation

theorem refl (s : Replication) : s.Preparation s := ⟨rfl, rfl, rfl, rfl, rfl, fun _ _ => rfl⟩

theorem trans (first : s.Preparation t) (second : t.Preparation u) : s.Preparation u where
  map := second.map.trans first.map
  instructions := second.instructions.trans first.instructions
  regions := second.regions.trans first.regions
  unresolved := second.unresolved.trans first.unresolved
  replacements := second.replacements.trans first.replacements
  held i known := (second.held i (first.map ▸ known)).trans (first.held i known)

/-- Only the function has been edited since. -/
theorem edit (first : s.Preparation t) (g : Func) : s.Preparation { t with func := g } :=
  first.trans ⟨rfl, rfl, rfl, rfl, rfl, fun _ _ => rfl⟩

end Preparation

theorem preparation_ensurePlaceholders : Yields (s.ensurePlaceholders i) s.Preparation := by
  unfold ensurePlaceholders
  split
  · exact .pure (.refl s)
  · rename_i needed
    obtain ⟨⟨new, -⟩, -⟩ : (s.map.contains i = false ∧ s.divergence.isDivergent i = true) ∧
        s.placeholders.get? i = none := by
      simpa using needed
    refine .ask fun inst _ => .ask fun r _ => .pure ?_
    refine ⟨rfl, rfl, rfl, rfl, rfl, fun k known => ?_⟩
    -- the value that gets placeholders has no replicas
    have other : i ≠ k := by
      rintro rfl
      simp [new] at known
    simp [Placeholders.get?, Placeholders.insert, Assoc.get?_insert, other]

theorem preparation_rewire : Yields (rewire n s i) s.Preparation := by
  unfold rewire
  split
  · exact .pure (.refl s)
  · refine .ask fun op _ => ?_
    refine Yields.bind (p := s.Preparation) (.foldlM (.refl s) fun t ht j _ => ?_) fun t ht => ?_
    · exact preparation_ensurePlaceholders.mono fun _ later => ht.trans later
    · exact .ask fun g _ => .pure (ht.edit g)

theorem preparation_chainReplicas {name : String} {behind : InstId} {count : Nat} :
    Yields (chainReplicas i name s behind n count) fun r => s.Preparation r.1 := by
  induction count generalizing s behind n with
  | zero => exact .pure (.refl s)
  | succ count ih =>
    rw [chainReplicas]
    refine .ask fun r _ => .ask fun t rewired => .ask fun g _ => .ask fun rest later => .pure ?_
    have first := (Preparation.refl s).edit r.1
    exact ((first.trans (preparation_rewire t rewired)).edit g).trans (ih rest later)

/-! ### The second time -/

/-- What repeating an instruction with replicas leads to, if it is repeated: there are new copies of it,
for which its placeholders stand from then on, and the repetition is counted.  The map is as it was. -/
structure Again (s : Replication) (i : InstId) (copies : List InstId) (t : Replication) : Prop where
  task : s.SameTask t
  map : t.map = s.map
  instructions : t.stats.instructions = s.stats.instructions + 1
  regions : t.stats.regions = s.stats.regions
  unresolved : t.stats.unresolved = s.stats.unresolved
  length : copies.length = s.replicas
  nodup : copies.Nodup
  new : ∀ c ∈ copies, s.func.insts.size ≤ c.index ∧ c.index < t.func.insts.size
  replacements : t.placeholders.replacements = (s.placeholders.record i copies).replacements

/-- The function has been changed, if there are replicas at all. -/
theorem Again.func_ne {copies : List InstId} (again : s.Again i copies t) (some : s.replicas ≠ 0) :
    t.func ≠ s.func := by
  obtain ⟨c, hc⟩ := List.exists_mem_of_length_pos (by rw [again.length]; omega : 0 < copies.length)
  obtain ⟨above, below⟩ := again.new c hc
  intro same
  rw [same] at below
  omega

/-- An instruction with replicas is repeated like any other.  The map stays as it is, but all of the
repetition does so exactly if the instruction is a terminator; otherwise it is repeated in full again,
and the function grows, if there are replicas at all.  There is an answer whenever there would be one
for an instruction without replicas. -/
theorem replicateInst_of_contains (known : s.map.contains i = true) :
    (∀ t, s.replicateInst i = .ok t → t.map = s.map ∧ (t = s ↔ s.func.ends i = some true) ∧
      (t ≠ s → ∃ copies, s.Again i copies t ∧ (s.replicas ≠ 0 → t.func ≠ s.func))) ∧
    (s.Ready s.divergence [] → i.index < s.func.insts.size → ∃ t, s.replicateInst i = .ok t) := by
  refine ⟨fun t answer => ?_, fun ready slot => (ready.replicateInst slot).answers⟩
  have task := sameTask_replicateInst t answer
  obtain ⟨inst, hi, answer⟩ := bind_eq_ok_iff.mp answer
  have ends : s.func.ends i = some inst.op.isTerminator := by
    rw [Func.ends, line_of_inst hi, Option.map_some]
  rw [ends]
  cases terminates : inst.op.isTerminator with
  | true =>
    rw [terminates] at answer
    obtain rfl := Except.ok.inj answer
    simp
  | false =>
    rw [terminates] at answer
    obtain ⟨⟨u, copies⟩, chained, answer⟩ := bind_eq_ok_iff.mp answer
    obtain rfl := Except.ok.inj answer
    have prepared : s.Preparation u := preparation_chainReplicas _ chained
    obtain ⟨length, nodup, new⟩ := fresh_chainReplicas _ chained
    have map : u.map.insert i copies = s.map := by
      rw [prepared.map, ReplicaMap.insert, if_pos known]
    have counted : u.stats.instructions + 1 = s.stats.instructions + 1 :=
      congrArg (· + 1) prepared.instructions
    have again : s.Again i copies _ := ⟨task, map, counted, prepared.regions, prepared.unresolved,
      length, nodup, new, Placeholders.replacements_record_congr (prepared.held i known)
        prepared.replacements copies⟩
    refine ⟨map, ⟨fun same => ?_, by simp⟩, fun _ => ⟨copies, again, again.func_ne⟩⟩
    -- the repetition has been counted
    have := congrArg (·.stats.instructions) same
    simp only at this
    omega

/-- `p` is repeated before `z`, which it reads; then `z` is repeated, and once more. -/
theorem runs_pick : ∃ s t,
    (start pickFound.divergence 2 pick .empty).performAll [.inst ⟨9⟩, .inst ⟨8⟩] = .ok s ∧
    s.replicateInst ⟨8⟩ = .ok t ∧ s.map.get? ⟨8⟩ = some [⟨14⟩] ∧ s.func.ends ⟨8⟩ = some false ∧
    s.func.insts.size = 16 ∧ t.func.insts.size = 17 ∧
    s.placeholders.replacement? ⟨13⟩ = some ⟨14⟩ ∧ t.placeholders.replacement? ⟨13⟩ = some ⟨16⟩ ∧
    s.stats = ⟨2, 0, 2, 0⟩ ∧ t.stats = ⟨3, 0, 2, 0⟩ := by
  have seen : ((start pickFound.divergence 2 pick .empty).performAll [.inst ⟨9⟩, .inst ⟨8⟩]).toOption.bind
      (fun s => (s.replicateInst ⟨8⟩).toOption.map fun t =>
        ((s.map.get? ⟨8⟩, s.func.ends ⟨8⟩), (s.func.insts.size, t.func.insts.size),
          (s.placeholders.replacement? ⟨13⟩, t.placeholders.replacement? ⟨13⟩), s.stats, t.stats)) =
      some ((some [⟨14⟩], some false), (16, 17), (some ⟨14⟩, some ⟨16⟩), ⟨2, 0, 2, 0⟩, ⟨3, 0, 2, 0⟩) := by
    cbv
  simp only [Option.bind_eq_some_iff, Option.map_eq_some_iff, toOption_eq_some_iff,
    Prod.mk.injEq] at seen
  obtain ⟨s, first, t, second, ⟨known, ends⟩, ⟨before, after⟩, ⟨old, new⟩, counted, again⟩ := seen
  exact ⟨s, t, first, second, known, ends, before, after, old, new, counted, again⟩

/-- The placeholder that the replica of `p` reads stands for the replica of `z` when `z` has been repeated
once, and for another copy, which the map does not know, when it has been repeated twice. -/
theorem pick_again : ∃ s t copies,
    (start pickFound.divergence 2 pick .empty).performAll [.inst ⟨9⟩, .inst ⟨8⟩] = .ok s ∧
    s.map.contains ⟨8⟩ = true ∧ s.replicateInst ⟨8⟩ = .ok t ∧ s.Again ⟨8⟩ copies t ∧
    s.placeholders.replacement? ⟨13⟩ = some ⟨14⟩ ∧ t.placeholders.replacement? ⟨13⟩ = some ⟨16⟩ := by
  obtain ⟨s, t, first, second, has, ends, -, -, old, new, -, -⟩ := runs_pick
  have known : s.map.contains ⟨8⟩ = true := by rw [ReplicaMap.contains, has]; rfl
  obtain ⟨-, same, again⟩ := (replicateInst_of_contains known).1 t second
  obtain ⟨copies, repeated, -⟩ := again fun eq => by simp [same.mp eq] at ends
  exact ⟨s, t, copies, first, known, second, repeated, old, new⟩

/-- Repeating an instruction with replicas once more changes the function, what placeholders stand for
and the statistics. -/
theorem pick_not_idle : pick.Consistent ∧
    pick.analyze (.only .x) [] .thread .x = .ok (.ok pickFound) ∧ ∃ s t,
    (start pickFound.divergence 2 pick .empty).performAll [.inst ⟨9⟩, .inst ⟨8⟩] = .ok s ∧
    s.map.contains ⟨8⟩ = true ∧ s.replicateInst ⟨8⟩ = .ok t ∧ t.func ≠ s.func ∧
    t.placeholders.replacements ≠ s.placeholders.replacements ∧ t.stats ≠ s.stats := by
  obtain ⟨s, t, first, second, has, -, before, after, old, new, counted, again⟩ := runs_pick
  refine ⟨consistent_assemble .., analyze_pick, s, t, first, by rw [ReplicaMap.contains, has]; rfl,
    second, fun same => ?_, fun same => ?_, by simp [counted, again]⟩
  · rw [same, before] at after
    omega
  · rw [Placeholders.replacement?, same] at new
    simp [show s.placeholders.replacements.get? ⟨13⟩ = some ⟨14⟩ from old] at new

/-! ### Repeating everything -/

/-- Repeating an instruction gives no other value replicas. -/
theorem get?_replicateInst : Yields (s.replicateInst i) fun t =>
    ∀ j, j ≠ i → t.map.get? j = s.map.get? j := by
  refine .ask fun inst _ => ?_
  split
  · exact .pure fun _ _ => rfl
  · refine preparation_chainReplicas.bind fun r prepared => .pure fun j other => ?_
    rw [ReplicaMap.get?_insert, if_neg (Ne.symm other), prepared.map]

/-- When everything is repeated, from its scaled grid on, the instructions outside the regions have no
replicas by the time they are repeated.  So nothing is repeated a second time. -/
theorem not_contains_of_outermost {f g : Func} (consistent : f.Consistent)
    {selector : DimensionSelector} {shared : List GlobalId} {level : Level} {dim : Dimension}
    {found : DivergentFunc} (analysis : f.analyze selector shared level dim = .ok (.ok found))
    {c : CoarseningParams} {map : ReplicaMap}
    (scaling : f.scaleGrid found.grid c = .ok (.ok (g, map))) {factor : Nat} {done rest : List InstId}
    (order : found.divergence.outermostInstructions = done ++ i :: rest)
    (run : done.foldlM replicateInst (start found.divergence factor g map) = .ok s) :
    s.map.contains i = false := by
  obtain ⟨ops, accesses, a⟩ := analyzed analysis
  have outermost : i ∈ found.divergence.outermostInstructions := by simp [order]
  have new : i ∉ done := fun mem => by
    have nodup := a.nodup_outermostInstructions consistent
    rw [order] at nodup
    exact List.disjoint_of_nodup_append nodup mem (by simp)
  -- only reads and what is computed from them have replicas when the grid has been scaled
  have other : i ∉ (found.grid.identities c.level c.dim).reverse := by
    intro read
    have all : i ∈ found.grid.all :=
      (List.Sublist.map _ List.filter_sublist).subset (List.mem_reverse.mp read)
    have kept := (List.mem_filter.mp outermost).2
    simp [a.reads, all] at kept
  obtain ⟨news, rename, scaled, -⟩ := exists_scaled consistent a.grid scaling
  have none := scaled.get?_eq_none (a.placed_outermost consistent outermost) other
  have keys : Yields (done.foldlM replicateInst (start found.divergence factor g map)) fun t =>
      t.map.get? i = map.get? i := by
    refine .foldlM rfl fun t same j hj => get?_replicateInst.mono fun u later => ?_
    exact (later i fun eq => new (eq ▸ hj)).trans same
  rw [ReplicaMap.contains, keys s run, none]
  rfl

end Replication

end KernelCoarsening
