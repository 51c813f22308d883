/-
Divergent instructions that are repeated in place.

A replica reads replicas.  Where it needs one that does not exist yet, it reads a placeholder, and
in the end every placeholder gives way to what it stands for.  So the order in which instructions
are repeated does not matter, also not for phis that read each other around a loop:

* `Replication.Underway` — what holds while instructions are repeated;
* `Replication.Settled.replicateInst` — one instruction is repeated;
* `Replication.exists_repeated` — in the end, replica `n` reads replicas `n`.
-/
import KernelCoarsening.Proofs.Coarsening.Placeholders

namespace KernelCoarsening

namespace Replication

/-! ### What holds between two instructions -/

/-- What replica `n` of an instruction reads in place of another instruction: its replica, or a
placeholder of it, or the instruction itself if it is not divergent. -/
def Reads (s : Replication) (n : Nat) (j j' : InstId) : Prop :=
  (∃ list, s.map.get? j = some list ∧ list[n]? = some j') ∨
    (∃ list, s.placeholders.get? j = some list ∧ list[n]? = some j') ∨
    s.map.get? j = none ∧ s.divergence.isDivergent j = false ∧ j' = j

/-- What is to be repeated: the instructions `todo` of a function, among whose operands some have
replicas already. -/
structure Task (h : Func) (given : ReplicaMap) (d : Divergence) (count : Nat)
    (todo : List InstId) : Prop where
  consistent : h.Consistent
  placed : ∀ i ∈ todo, (h.blockOf i).isSome
  plain : ∀ i ∈ todo, h.outline.Does i fun op => op.isTerminator = false
  new : ∀ i ∈ todo, given.get? i = none
  divergent : ∀ i ∈ todo, d.isDivergent i = true
  known : ∀ i list, given.get? i = some list →
    i.index < h.insts.size ∧ list.length = count ∧ ∀ x ∈ list, x.index < h.insts.size
  inside : ∀ i op ty, (h.blockOf i).isSome → h.line i = some (op, ty) →
    ∀ j ∈ op.usedInsts, j.index < h.insts.size
  operands : ∀ i ∈ todo, h.outline.Does i fun op => ∀ j ∈ op.usedInsts,
    d.isDivergent j = true → given.get? j = none → j ∈ todo

/-- A repetition under way: the instructions `finished` have all their replicas, and apart from
placeholders every instruction is followed by its replicas. -/
structure Underway (h : Func) (given : ReplicaMap) (d : Divergence) (count : Nat)
    (todo finished : List InstId) (copies : InstId → List InstId) (s : Replication) : Prop where
  divergence : s.divergence = d
  replicas : s.replicas = count
  consistent : s.func.Consistent
  params : s.func.params = h.params
  layout : s.func.layout = h.layout
  size : h.insts.size ≤ s.func.insts.size
  line : ∀ i : InstId, i.index < h.insts.size → s.func.line i = h.line i
  code : ∀ b, (s.func.code b).filter (fun i => decide (i ∉ s.placeholders.all)) =
    (h.code b).flatMap fun i => i :: copies i
  outside : ∀ i, i ∉ todo → copies i = []
  copy : ∀ i (n : Nat) x, (copies i)[n]? = some x → h.insts.size ≤ x.index ∧
    ∃ op ty pick, h.line i = some (op, ty) ∧
      s.func.line x = some (op.mapOperands (·.mapInst pick), ty) ∧
      ∀ j ∈ op.usedInsts, s.Reads n j (pick j)
  orderly : s.placeholders.Orderly todo count h.insts.size s.func.insts.size
  held : ∀ p ∈ s.placeholders.all, (s.func.blockOf p).isSome
  within : ∀ i ∈ finished, i ∈ todo
  map : ∀ j, s.map.get? j = if j ∈ finished then some (copies j) else given.get? j

/-- What a repetition keeps while replicas are added: what was there, and what it knew. -/
structure Later (s s' : Replication) : Prop where
  map : s'.map = s.map
  divergence : s'.divergence = s.divergence
  factor : s'.factor = s.factor
  held : ∀ j list, s.placeholders.get? j = some list → s'.placeholders.get? j = some list
  kept : ∀ j, s.map.contains j = true → s'.placeholders.get? j = s.placeholders.get? j
  replacement : s'.placeholders.replacements = s.placeholders.replacements
  consistent : s'.func.Consistent
  params : s'.func.params = s.func.params
  layout : s'.func.layout = s.func.layout
  size : s.func.insts.size ≤ s'.func.insts.size
  line : ∀ x : InstId, x.index < s.func.insts.size → s'.func.line x = s.func.line x
  home : ∀ x : InstId, x.index < s.func.insts.size →
    ((s'.func.blockOf x).isSome ↔ (s.func.blockOf x).isSome)

variable {h : Func} {given : ReplicaMap} {d : Divergence} {count : Nat}
  {todo finished : List InstId} {copies : InstId → List InstId} {s s' s'' : Replication}
  {i j x : InstId} {n : Nat}

theorem Later.refl (consistent : s.func.Consistent) : s.Later s :=
  ⟨rfl, rfl, rfl, fun _ _ h => h, fun _ _ => rfl, rfl, consistent, rfl, rfl, Nat.le_refl _,
    fun _ _ => rfl, fun _ _ => .rfl⟩

theorem Later.trans (first : s.Later s') (second : s'.Later s'') : s.Later s'' where
  map := second.map.trans first.map
  divergence := second.divergence.trans first.divergence
  factor := second.factor.trans first.factor
  held j list hj := second.held j list (first.held j list hj)
  kept j mapped := (second.kept j (first.map ▸ mapped)).trans (first.kept j mapped)
  replacement := second.replacement.trans first.replacement
  consistent := second.consistent
  params := second.params.trans first.params
  layout := second.layout.trans first.layout
  size := first.size.trans second.size
  line x old := (second.line x (Nat.lt_of_lt_of_le old first.size)).trans (first.line x old)
  home x old := (second.home x (Nat.lt_of_lt_of_le old first.size)).trans (first.home x old)

/-- An edit of the function that places new instructions only. -/
theorem Later.of_adds {f : Func} {split : InstId → List InstId} (consistent : s.func.Consistent)
    (adds : s.func.Adds f split) (new : ∀ i, ∀ x ∈ split i, x = i ∨ s.func.insts.size ≤ x.index)
    (self : ∀ i, i ∈ split i) : s.Later { s with func := f } where
  map := rfl
  divergence := rfl
  factor := rfl
  held _ _ hj := hj
  kept _ _ := rfl
  replacement := rfl
  consistent := adds.consistent
  params := adds.params
  layout := adds.layout
  size := adds.size
  line := adds.line
  home x old := by
    rw [adds.isSome_blockOf consistent]
    constructor
    · rintro ⟨i, hi, hx⟩
      rcases new i x hx with rfl | le
      · exact hi
      · omega
    · exact fun placed => ⟨x, placed, self x⟩

/-- A new instruction is placed. -/
theorem Later.place {g : Func} {anchor : InstId} (later : s.Later s')
    (adds : s'.func.Adds g (behind anchor [x])) (new : s.func.insts.size ≤ x.index) :
    s.Later { s' with func := g } :=
  { later with
    consistent := adds.consistent
    params := adds.params.trans later.params
    layout := adds.layout.trans later.layout
    size := later.size.trans adds.size
    line := fun y old => (adds.line y (Nat.lt_of_lt_of_le old later.size)).trans (later.line y old)
    home := fun y old => by
      rw [← later.home y old, adds.isSome_blockOf later.consistent]
      constructor
      · rintro ⟨i, hi, hy⟩
        rcases mem_behind.mp hy with rfl | ⟨-, mem⟩
        · exact hi
        · obtain rfl : y = x := by simpa using mem
          omega
      · exact fun placed => ⟨y, placed, by simp [mem_behind]⟩ }

/-- What new instructions do may still change. -/
theorem Later.alter {g : Func} (later : s.Later s') {k : Operation → Operation}
    (same : g.outline = s'.func.outline.alter (· = x) k) (new : s.func.insts.size ≤ x.index) :
    s.Later { s' with func := g } :=
  { later with
    consistent := later.consistent.of_alter same
    params := (congrArg Outline.params same).trans later.params
    layout := (congrArg Outline.layout same).trans later.layout
    size := later.size.trans (congrArg Outline.insts same).ge
    line := fun y old => by
      have other : y ≠ x := by
        rintro rfl
        omega
      rw [show g.line y = _ from congrFun (congrArg Outline.line same) y, Outline.line_alter,
        if_neg other]
      exact later.line y old
    home := fun y old => by
      rw [show g.blockOf = s'.func.blockOf from congrArg Outline.home same]
      exact later.home y old }

theorem Reads.later {j' : InstId} (reads : s.Reads n j j') (later : s.Later s') :
    s'.Reads n j j' := by
  rcases reads with ⟨list, hj, hn⟩ | ⟨list, hj, hn⟩ | ⟨none, uniform, rfl⟩
  · exact .inl ⟨list, later.map ▸ hj, hn⟩
  · exact .inr (.inl ⟨list, later.held j list hj, hn⟩)
  · exact .inr (.inr ⟨later.map ▸ none, later.divergence ▸ uniform, rfl⟩)

theorem Task.lt (task : Task h given d count todo) (hi : i ∈ todo) : i.index < h.insts.size :=
  Func.lt_of_placed (task.placed i hi)

namespace Underway

/-- The instructions of a chunk are placed and are no placeholders. -/
theorem placed_chunk (task : Task h given d count todo)
    (under : Underway h given d count todo finished copies s) (placed : (h.blockOf i).isSome)
    (hx : x ∈ i :: copies i) : (s.func.blockOf x).isSome ∧ x ∉ s.placeholders.all := by
  obtain ⟨b, hb⟩ := Option.isSome_iff_exists.mp placed
  have mem : x ∈ (s.func.code b).filter fun i => decide (i ∉ s.placeholders.all) :=
    under.code b ▸ List.mem_flatMap.mpr ⟨i, task.consistent.mem_code.mpr hb, hx⟩
  obtain ⟨mem, out⟩ := List.mem_filter.mp mem
  exact ⟨Option.isSome_of_eq_some (under.consistent.mem_code.mp mem), by simpa using out⟩

theorem placed_copy (task : Task h given d count todo)
    (under : Underway h given d count todo finished copies s) (hx : x ∈ copies i) :
    (s.func.blockOf x).isSome := by
  have hi : i ∈ todo := by
    by_contra out
    simp [under.outside i out] at hx
  exact (under.placed_chunk task (task.placed i hi) (List.mem_cons_of_mem _ hx)).1

/-- A later state in which nothing but placeholders was added to the code. -/
theorem of_later (task : Task h given d count todo)
    (under : Underway h given d count todo finished copies s) (later : s.Later s')
    (code : ∀ b, (s'.func.code b).filter (fun i => decide (i ∉ s'.placeholders.all)) =
      (s.func.code b).filter fun i => decide (i ∉ s.placeholders.all))
    (orderly : s'.placeholders.Orderly todo count h.insts.size s'.func.insts.size)
    (held : ∀ p ∈ s'.placeholders.all, (s'.func.blockOf p).isSome) :
    Underway h given d count todo finished copies s' where
  divergence := later.divergence.trans under.divergence
  replicas := (congrArg (· - 1) later.factor).trans under.replicas
  consistent := later.consistent
  params := later.params.trans under.params
  layout := later.layout.trans under.layout
  size := under.size.trans later.size
  line i old := by rw [later.line i (Nat.lt_of_lt_of_le old under.size), under.line i old]
  code b := (code b).trans (under.code b)
  outside := under.outside
  copy i n x hx := by
    obtain ⟨fresh, op, ty, pick, line, line', reads⟩ := under.copy i n x hx
    have slot := Func.lt_of_placed (under.placed_copy task (List.mem_of_getElem? hx))
    exact ⟨fresh, op, ty, pick, line, by rw [later.line x slot, line'],
      fun j hj => (reads j hj).later later⟩
  orderly := orderly
  held := held
  within := under.within
  map j := later.map ▸ under.map j

end Underway

/-! ### Placeholders of a value -/

/-- Copies of an instruction behind another one, each behind the one before. -/
theorem exists_chainCopies {f : Func} {anchor : InstId} {op op' : Operation} {ty ty' : Ty}
    (hf : f.Consistent) (line : f.line i = some (op, ty)) (placed : (f.blockOf anchor).isSome)
    (hanchor : f.line anchor = some (op', ty')) (kind : op'.isPhi = op.isPhi)
    (name suffix : String) (n count : Nat) :
    ∃ g, chainCopies i name suffix f anchor n count =
        .ok (g, (List.range' f.insts.size count).map InstId.mk) ∧
      f.Adds g (behind anchor ((List.range' f.insts.size count).map InstId.mk)) ∧
      g.insts.size = f.insts.size + count := by
  induction count generalizing f anchor n op' ty' with
  | zero =>
    refine ⟨f, rfl, (Func.Adds.refl hf).congr hf fun i _ => ?_, rfl⟩
    by_cases here : i = anchor <;> simp [behind, here]
  | succ count ih =>
    obtain ⟨inst, hi, rfl, rfl⟩ := Func.inst_of_line line
    obtain ⟨f₁, attached, adds₁, size₁, line₁⟩ := Func.exists_attachAfter_newInst hf placed hanchor
      inst.op inst.ty (suffixed name (suffix ++ replicaSuffix n)) (by rw [kind]; exact id)
    have copied : f.copyInst i (suffixed name (suffix ++ replicaSuffix n)) =
        .ok (f.newInst inst.op inst.ty (suffixed name (suffix ++ replicaSuffix n))) := by
      simp [Func.copyInst, hi, bind, Except.bind, pure, Except.pure]
    have old : i.index < f.insts.size := Func.line_isSome_iff.mp (Option.isSome_of_eq_some line)
    obtain ⟨g, chained, adds, size⟩ := ih (f := f₁) adds₁.consistent (by rw [adds₁.line i old, line])
      ((adds₁.isSome_blockOf hf).mpr ⟨anchor, placed, by simp⟩) line₁ rfl (n + 1)
    have range : (List.range' f.insts.size (count + 1)).map InstId.mk =
        ⟨f.insts.size⟩ :: (List.range' f₁.insts.size count).map InstId.mk := by
      rw [List.range'_succ, List.map_cons, size₁]
    refine ⟨g, ?_, (adds₁.trans adds).congr hf fun y hy => ?_, by omega⟩
    · rw [range]
      exact bind_eq_ok_iff.mpr ⟨_, copied, bind_eq_ok_iff.mpr ⟨f₁, attached,
        bind_eq_ok_iff.mpr ⟨_, chained, rfl⟩⟩⟩
    · rw [range]
      have other : y ≠ ⟨f.insts.size⟩ := by
        rintro rfl
        simp [Func.blockOf_size] at hy
      by_cases here : y = anchor
      · subst here
        simp [behind_of_ne other]
      · simp [behind_of_ne here, behind_of_ne other]

namespace Underway

/-- A value gets its placeholders. -/
theorem addPlaceholders (task : Task h given d count todo)
    (under : Underway h given d count todo finished copies s) (hi : i ∈ todo)
    (unmapped : s.map.contains i = false) (none : s.placeholders.get? i = none) :
    ∃ s', s.addPlaceholders i = .ok s' ∧ Underway h given d count todo finished copies s' ∧
      s.Later s' ∧ (s'.placeholders.get? i).isSome := by
  obtain ⟨placed, -⟩ := under.placed_chunk task (task.placed i hi) (List.mem_cons_self ..)
  obtain ⟨op, ty, line⟩ := Func.exists_line placed
  obtain ⟨inst, hinst, rfl, rfl⟩ := Func.inst_of_line line
  obtain ⟨g, chained, adds, size⟩ := exists_chainCopies under.consistent line placed line rfl
    inst.name ".place.holder" 0 s.replicas
  rw [under.replicas] at chained adds size
  let list := (List.range' s.func.insts.size count).map InstId.mk
  let s' : Replication := { s with
    func := g
    placeholders := s.placeholders.insert i list
    stats := { s.stats with placeholders := s.stats.placeholders + list.length } }
  have new : ∀ x ∈ list, s.func.insts.size ≤ x.index := by
    intro x mem
    obtain ⟨m, hm, rfl⟩ := List.mem_map.mp mem
    exact (List.mem_range'_1.mp hm).1
  have edit := Later.of_adds under.consistent adds
    (fun y x hx => (mem_behind.mp hx).imp_right fun hx => new x hx.2) fun y => by simp [mem_behind]
  have later : s.Later s' := { edit with
    held := fun j list' hj => by
      rw [Placeholders.get?_insert, if_neg, hj]
      rintro rfl
      simp [none] at hj
    kept := fun j mapped => by
      rw [Placeholders.get?_insert, if_neg]
      rintro rfl
      simp [unmapped] at mapped }
  have all : s'.placeholders.all = s.placeholders.all ++ list := Placeholders.all_insert none
  refine ⟨s', ?_, under.of_later task later (fun c => ?_) ?_ fun p hp => ?_, later, ?_⟩
  · rw [Replication.addPlaceholders, hinst]
    simp only [bind, Except.bind, under.replicas, chained]
    rfl
  · -- the new instructions are placeholders, so without these the code is as it was
    rw [show s'.func.code c = _ from adds.code c, filter_flatMap_behind_of_not]
    · refine List.filter_congr fun y hy => ?_
      have out : y ∉ list := fun mem => by
        have := under.consistent.lt_of_mem_code hy
        have := new y mem
        omega
      simp [all, out]
    · exact fun y hy => by simp [all, show y ∈ list from hy]
  · show (s.placeholders.insert i list).Orderly todo count h.insts.size g.insts.size
    exact size ▸ under.orderly.insert hi none under.size
  · rw [all, List.mem_append] at hp
    refine (adds.isSome_blockOf under.consistent).mpr ?_
    rcases hp with hp | hp
    · exact ⟨p, under.held p hp, by simp [mem_behind]⟩
    · exact ⟨i, placed, by rw [behind_self]; exact List.mem_cons_of_mem _ hp⟩
  · show ((s.placeholders.insert i list).get? i).isSome
    simp [Placeholders.get?_insert]

/-- An operand gets placeholders if it is divergent and has neither replicas nor placeholders. -/
theorem ensureOperand (task : Task h given d count todo)
    (under : Underway h given d count todo finished copies s)
    (known : d.isDivergent j = true → given.get? j = none → j ∈ todo) :
    ∃ s', Replication.ensurePlaceholders s j = .ok s' ∧
      Underway h given d count todo finished copies s' ∧ s.Later s' ∧
      (s.map.contains j = true ∨ d.isDivergent j = false ∨ (s'.placeholders.get? j).isSome) := by
  by_cases mapped : s.map.contains j = true
  · exact ⟨s, by simp [Replication.ensurePlaceholders, mapped], under, .refl under.consistent,
      .inl mapped⟩
  by_cases divergent : d.isDivergent j = true
  · by_cases held : (s.placeholders.get? j).isSome = true
    · exact ⟨s, by simp [Replication.ensurePlaceholders, held], under, .refl under.consistent,
        .inr (.inr held)⟩
    · have unknown : given.get? j = none := by
        have none : s.map.get? j = none := by simpa [ReplicaMap.contains] using mapped
        rw [under.map j] at none
        by_contra some
        split at none
        · simp at none
        · exact some none
      have none : s.placeholders.get? j = none := by simpa using held
      obtain ⟨s', answer, under', later, some⟩ := under.addPlaceholders task
        (known divergent unknown) (by simpa using mapped) none
      refine ⟨s', ?_, under', later, .inr (.inr some)⟩
      simp [Replication.ensurePlaceholders, mapped, under.divergence, divergent, none, answer]
  · exact ⟨s, by simp [Replication.ensurePlaceholders, under.divergence, divergent], under,
      .refl under.consistent, .inr (.inl (by simpa using divergent))⟩

/-- All divergent operands of a replica have replicas or placeholders. -/
theorem ensurePlaceholders (task : Task h given d count todo)
    (under : Underway h given d count todo finished copies s) (used : List InstId)
    (known : ∀ j ∈ used, d.isDivergent j = true → given.get? j = none → j ∈ todo) :
    ∃ s', used.foldlM Replication.ensurePlaceholders s = .ok s' ∧
      Underway h given d count todo finished copies s' ∧ s.Later s' ∧
      ∀ j ∈ used, s.map.contains j = true ∨ d.isDivergent j = false ∨
        (s'.placeholders.get? j).isSome := by
  induction used generalizing s with
  | nil => exact ⟨s, rfl, under, .refl under.consistent, by simp⟩
  | cons j used ih =>
    obtain ⟨s₁, first, under₁, later₁, here⟩ :=
      under.ensureOperand task (known j (List.mem_cons_self ..))
    obtain ⟨s₂, second, under₂, later₂, rest⟩ :=
      ih under₁ fun k hk => known k (List.mem_cons_of_mem _ hk)
    refine ⟨s₂, by rw [List.foldlM_cons, first]; exact second, under₂, later₁.trans later₂,
      fun k hk => ?_⟩
    rcases List.mem_cons.mp hk with rfl | hk
    · refine here.imp_right (Or.imp_right fun some => ?_)
      obtain ⟨list, hlist⟩ := Option.isSome_iff_exists.mp some
      exact Option.isSome_of_eq_some (later₂.held k list hlist)
    · rw [← later₁.map]
      exact rest k hk

end Underway

/-! ### Replicas of an instruction -/

/-- An operand of a replica becomes what the replica is to read. -/
theorem exists_operandAt (task : Task h given d count todo)
    (under : Underway h given d count todo finished copies s) (hn : n < count)
    (lengths : ∀ i ∈ finished, (copies i).length = count)
    (new : ∀ i ∈ finished, x ∉ copies i) (fresh : h.insts.size ≤ x.index)
    (ensured : s.map.contains j = true ∨ d.isDivergent j = false ∨
      (s.placeholders.get? j).isSome) :
    ∃ j', s.operandAt x n (.inst j) = .inst j' ∧ s.Reads n j j' := by
  cases mapped : s.map.get? j with
  | some list =>
    obtain ⟨length, out⟩ : list.length = count ∧ x ∉ list := by
      rw [under.map j] at mapped
      by_cases done : j ∈ finished
      · obtain rfl : copies j = list := by simpa [done] using mapped
        exact ⟨lengths j done, new j done⟩
      · obtain ⟨-, length, old⟩ := task.known j list (by simpa [done] using mapped)
        exact ⟨length, fun mem => by have := old x mem; omega⟩
    have bound : n < list.length := by omega
    have found : list[n]? = some list[n] := List.getElem?_eq_getElem bound
    refine ⟨list[n], ?_, .inl ⟨list, mapped, found⟩⟩
    have other : list[n] ≠ x := fun same => out (same ▸ List.getElem_mem bound)
    simp [operandAt, mapped, found, other, out]
  | none =>
    by_cases divergent : d.isDivergent j = true
    · obtain ⟨list, held⟩ : ∃ list, s.placeholders.get? j = some list := by
        simpa [ReplicaMap.contains, mapped, divergent, Option.isSome_iff_exists] using ensured
      have bound : n < list.length := by rw [(under.orderly.owner j list held).2]; exact hn
      have found : list[n]? = some list[n] := List.getElem?_eq_getElem bound
      refine ⟨list[n], ?_, .inr (.inl ⟨list, held, found⟩)⟩
      simp [operandAt, mapped, under.divergence, divergent, held, found]
    · refine ⟨j, ?_, .inr (.inr ⟨mapped, ?_, rfl⟩)⟩
      · simp [operandAt, mapped, under.divergence, divergent]
      · rw [under.divergence]
        simpa using divergent

/-- A new copy of an instruction reads what replica `n` reads. -/
theorem exists_rewire (task : Task h given d count todo)
    (under : Underway h given d count todo finished copies s) (hn : n < count)
    (lengths : ∀ i ∈ finished, (copies i).length = count) (fresh : h.insts.size ≤ x.index)
    (free : s.func.blockOf x = none) {op : Operation} {ty : Ty}
    (line : s.func.line x = some (op, ty))
    (known : ∀ j ∈ op.usedInsts, d.isDivergent j = true → given.get? j = none → j ∈ todo) :
    ∃ s' g pick, rewire n s x = .ok { s' with func := g } ∧
      Underway h given d count todo finished copies s' ∧ s.Later s' ∧
      g.outline = s'.func.outline.alter (· = x) (·.mapOperands (s'.operandAt x n)) ∧
      op.mapOperands (s'.operandAt x n) = op.mapOperands (·.mapInst pick) ∧
      ∀ j ∈ op.usedInsts, s'.Reads n j (pick j) := by
  have unmapped : s.map.contains x = false := by
    have out : x ∉ finished := fun mem => by
      have := task.lt (under.within x mem)
      omega
    have unknown : given.get? x = none := by
      cases found : given.get? x with
      | none => rfl
      | some list =>
        have := (task.known x list found).1
        omega
    simp [ReplicaMap.contains, under.map x, out, unknown]
  obtain ⟨s', ensured, under', later, all⟩ := under.ensurePlaceholders task op.usedInsts known
  have old : x.index < s.func.insts.size :=
    Func.line_isSome_iff.mp (Option.isSome_of_eq_some line)
  obtain ⟨g, changed, same⟩ := Func.alter_modifyOperation (f := s'.func)
    (·.mapOperands (s'.operandAt x n)) (Nat.lt_of_lt_of_le old later.size)
  -- the copy is not placed, so it is no replica yet
  have new : ∀ i ∈ finished, x ∉ copies i := by
    intro i _ mem
    have := under.placed_copy task mem
    simp [free] at this
  have each : ∀ j ∈ op.usedInsts, ∃ j', s'.operandAt x n (.inst j) = .inst j' ∧
      s'.Reads n j j' := fun j hj =>
    exists_operandAt task under' hn lengths new fresh (later.map ▸ all j hj)
  have anInst : Nonempty InstId := ⟨x⟩
  choose! pick operand reads using each
  refine ⟨s', g, pick, ?_, under', later, same, Operation.mapOperands_congr fun v hv => ?_, reads⟩
  · have hop : s.func.operation x = .ok op := Func.operation_eq_ok_iff.mpr ⟨ty, line⟩
    simp [rewire, unmapped, hop, ensured, changed, bind, Except.bind, pure, Except.pure]
  · cases v with
    | inst j => exact operand j (List.mem_filterMap.mpr ⟨_, hv, rfl⟩)
    | _ => rfl

/-- The chunks of the code after one more replica. -/
theorem flatMap_chunk_behind {code : List InstId} {anchor : InstId}
    (last : (i :: copies i).getLast? = some anchor) (nodup : (i :: copies i).Nodup)
    (apart : ∀ j ∈ code, anchor ∈ j :: copies j → j = i) :
    (code.flatMap fun j => j :: copies j).flatMap (behind anchor [x]) =
      code.flatMap fun j => j :: Function.update copies i (copies i ++ [x]) j := by
  rw [List.flatMap_assoc]
  refine List.flatMap_congr fun j hj => ?_
  by_cases here : j = i
  · subst here
    obtain ⟨before, whole⟩ := List.getLast?_eq_some_iff.mp last
    rw [Function.update_self, ← List.cons_append, whole, flatMap_behind (whole ▸ nodup)]
    simp
  · rw [flatMap_behind_of_notMem fun mem => here (apart j hj mem), Function.update_of_ne here]

/-- The replicas after one more. -/
theorem getElem?_update_concat {m : Nat} {y : InstId}
    (found : (Function.update copies i (copies i ++ [x]) j)[m]? = some y) :
    (copies j)[m]? = some y ∨ j = i ∧ m = (copies i).length ∧ y = x := by
  by_cases here : j = i
  · subst here
    rw [Function.update_self, List.getElem?_append] at found
    split at found
    · exact .inl found
    · have bound := (List.getElem?_eq_some_iff.mp found).1
      rw [List.length_singleton] at bound
      obtain rfl : m = (copies j).length := by omega
      exact .inr ⟨rfl, rfl, by simpa using found.symm⟩
  · rw [Function.update_of_ne here] at found
    exact .inl found

namespace Underway

/-- The copy of an instruction that is to be its next replica, before it is placed. -/
theorem exists_copy (task : Task h given d count todo)
    (under : Underway h given d count todo finished copies s) (hi : i ∈ todo) (hn : n < count)
    (lengths : ∀ i ∈ finished, (copies i).length = count) (name : String) :
    ∃ func s' op ty pick, s.func.copyInst i name = .ok (func, ⟨s.func.insts.size⟩) ∧
      rewire n { s with func } ⟨s.func.insts.size⟩ = .ok s' ∧
      Underway h given d count todo finished copies s' ∧ s.Later s' ∧
      s'.func.blockOf ⟨s.func.insts.size⟩ = none ∧ h.line i = some (op, ty) ∧
      s'.func.line ⟨s.func.insts.size⟩ = some (op.mapOperands (·.mapInst pick), ty) ∧
      ∀ j ∈ op.usedInsts, s'.Reads n j (pick j) := by
  let x : InstId := ⟨s.func.insts.size⟩
  obtain ⟨op, ty, line, known⟩ := task.operands i hi
  have lineS : s.func.line i = some (op, ty) := by rw [under.line i (task.lt hi)]; exact line
  obtain ⟨inst, hinst, rfl, rfl⟩ := Func.inst_of_line lineS
  let func := (s.func.newInst inst.op inst.ty name).1
  have new := Func.adds_newInst under.consistent inst.op inst.ty name
  have lineX : func.line x = some (inst.op, inst.ty) := Func.line_newInst s.func inst.op inst.ty name
  have home : func.blockOf = s.func.blockOf :=
    congrArg Outline.home (Func.outline_newInst (f := s.func) inst.op inst.ty name)
  have later₁ : s.Later { s with func } :=
    Later.of_adds under.consistent new (by simp) (by simp)
  have under₁ : Underway h given d count todo finished copies { s with func } :=
    under.of_later task later₁ (fun b => by rw [new.code]; simp)
      (under.orderly.mono new.size) fun p hp => home ▸ under.held p hp
  obtain ⟨s₂, g, pick, rewired, under₂, later₂, same, picked, reads⟩ := exists_rewire task under₁ hn
    lengths (x := x) under.size (by rw [home]; exact Func.blockOf_size) lineX known
  have homeG : g.blockOf = s₂.func.blockOf := congrArg Outline.home same
  have later : s.Later { s₂ with func := g } := (later₁.trans later₂).alter same (Nat.le_refl _)
  have sizeX : x.index < func.insts.size := by simp [x, func, Func.size_newInst]
  refine ⟨func, { s₂ with func := g }, inst.op, inst.ty, pick, ?_, rewired, ?_, later, ?_, line, ?_,
    reads⟩
  · simp [Func.copyInst, hinst, bind, Except.bind, pure, Except.pure]
    rfl
  · refine under.of_later task later (fun b => ?_) ?_ fun p hp => homeG ▸ under₂.held p hp
    · rw [show g.code b = _ from congrFun (congrArg Outline.code same) b]
      exact (under₂.code b).trans (under.code b).symm
    · have size : g.insts.size = s₂.func.insts.size := congrArg Outline.insts same
      exact under₂.orderly.mono size.ge
  · show g.blockOf x = none
    rw [homeG]
    by_contra some
    have := (later₂.home x sizeX).mp (Option.isSome_iff_ne_none.mpr some)
    rw [home, Func.blockOf_size] at this
    simp at this
  · show g.line x = _
    have before : s₂.func.outline.line x = some (inst.op, inst.ty) :=
      (later₂.line x sizeX).trans lineX
    rw [show g.line x = _ from congrFun (congrArg Outline.line same) x, Outline.line_alter,
      if_pos rfl, before, ← picked]
    rfl

/-- The next replica of an instruction goes behind the last one. -/
theorem place (task : Task h given d count todo)
    (under : Underway h given d count todo finished copies s) (hi : i ∈ todo)
    (unfinished : i ∉ finished) {anchor : InstId} (last : (i :: copies i).getLast? = some anchor)
    (fresh : h.insts.size ≤ x.index) (free : s.func.blockOf x = none) {op : Operation} {ty : Ty}
    {pick : InstId → InstId} (line : h.line i = some (op, ty))
    (line' : s.func.line x = some (op.mapOperands (·.mapInst pick), ty))
    (reads : ∀ j ∈ op.usedInsts, s.Reads (copies i).length j (pick j)) :
    ∃ g, s.func.attachAfter anchor x = .ok g ∧ s.func.Adds g (behind anchor [x]) ∧
      Underway h given d count todo finished (Function.update copies i (copies i ++ [x]))
        { s with func := g } := by
  have memAnchor : anchor ∈ i :: copies i := List.mem_of_getLast? last
  obtain ⟨placed, unheld⟩ := under.placed_chunk task (task.placed i hi) memAnchor
  -- the anchor is the instruction or one of its replicas, so it is of the same kind
  obtain ⟨opA, tyA, lineA, kind⟩ : ∃ op' ty', s.func.line anchor = some (op', ty') ∧
      op'.isPhi = op.isPhi := by
    rcases List.mem_cons.mp memAnchor with rfl | mem
    · exact ⟨op, ty, (under.line anchor (task.lt hi)).trans line, rfl⟩
    · obtain ⟨m, hm⟩ := List.getElem?_of_mem mem
      obtain ⟨-, op', ty', pick', lineI, lineA, -⟩ := under.copy i m anchor hm
      obtain ⟨rfl, -⟩ : op = op' ∧ ty = ty' := by simpa [line] using lineI
      exact ⟨_, _, lineA, by simp⟩
  obtain ⟨g, attached, adds, size⟩ := Func.exists_attachAfter under.consistent placed free lineA
    line' (by rw [kind]; simp)
  have unheldX : x ∉ s.placeholders.all := fun mem => by
    have := under.held x mem
    simp [free] at this
  refine ⟨g, attached, adds, ?_⟩
  refine { under with
    consistent := adds.consistent
    params := adds.params.trans under.params
    layout := adds.layout.trans under.layout
    size := under.size.trans adds.size
    line := fun j old => (adds.line j (Nat.lt_of_lt_of_le old under.size)).trans (under.line j old)
    code := fun b => ?_
    outside := fun j out => ?_
    copy := fun j m y hy => ?_
    orderly := under.orderly.mono adds.size
    held := fun p hp => ?_
    map := fun j => ?_ }
  · rw [adds.code b, filter_flatMap_behind (by simpa using unheld) (by simpa using unheldX),
      under.code b]
    refine flatMap_chunk_behind last ?_ fun j hj mem => ?_
    · exact Func.nodup_chunk task.consistent under.consistent under.code (task.placed i hi)
    · exact Func.eq_of_mem_chunk task.consistent under.consistent under.code
        (Option.isSome_of_eq_some (task.consistent.mem_code.mp hj)) (task.placed i hi) mem memAnchor
  · have other : j ≠ i := fun same => out (same ▸ hi)
    rw [Function.update_of_ne other, under.outside j out]
  · rcases getElem?_update_concat hy with old | ⟨rfl, rfl, rfl⟩
    · obtain ⟨freshY, op', ty', pick', lineJ, lineY, readsY⟩ := under.copy j m y old
      have home := under.placed_copy task (List.mem_of_getElem? old)
      have lineY' := (adds.line y (Func.lt_of_placed home)).trans lineY
      exact ⟨freshY, op', ty', pick', lineJ, lineY', readsY⟩
    · have old : y.index < s.func.insts.size :=
        Func.line_isSome_iff.mp (Option.isSome_of_eq_some line')
      exact ⟨fresh, op, ty, pick, line, (adds.line y old).trans line', reads⟩
  · exact (adds.isSome_blockOf under.consistent).mpr ⟨p, under.held p hp, by simp [mem_behind]⟩
  · rw [show ({ s with func := g } : Replication).map = s.map from rfl, under.map j]
    by_cases done : j ∈ finished
    · have other : j ≠ i := fun same => unfinished (same ▸ done)
      rw [if_pos done, if_pos done, Function.update_of_ne other]
    · rw [if_neg done, if_neg done]

/-- An instruction gets all its replicas. -/
theorem chainReplicas (task : Task h given d count todo)
    (under : Underway h given d count todo finished copies s) (hi : i ∈ todo)
    (unfinished : i ∉ finished) (lengths : ∀ i ∈ finished, (copies i).length = count)
    {anchor : InstId} (last : (i :: copies i).getLast? = some anchor) (name : String) {m : Nat}
    (fits : (copies i).length + m = count) :
    ∃ s' list, Replication.chainReplicas i name s anchor (copies i).length m = .ok (s', list) ∧
      Underway h given d count todo finished (Function.update copies i (copies i ++ list)) s' ∧
      s.Later s' ∧ list.length = m := by
  induction m generalizing s copies anchor with
  | zero => exact ⟨s, [], rfl, by simpa using under, .refl under.consistent, rfl⟩
  | succ m ih =>
    let x : InstId := ⟨s.func.insts.size⟩
    obtain ⟨func, s₁, op, ty, pick, copied, rewired, under₁, later₁, free, line, line', reads⟩ :=
      under.exists_copy task hi (show (copies i).length < count by omega) lengths
        (suffixed name (replicaSuffix (copies i).length))
    obtain ⟨g, attached, adds, under₂⟩ := under₁.place task hi unfinished (x := x) last under.size
      free line line' reads
    have grown : Function.update copies i (copies i ++ [x]) i = copies i ++ [x] :=
      Function.update_self ..
    obtain ⟨s', list, chained, under', later', length⟩ := ih under₂
      (fun j hj => by
        have other : j ≠ i := fun same => unfinished (same ▸ hj)
        rw [Function.update_of_ne other, lengths j hj])
      (by rw [grown, ← List.cons_append, List.getLast?_concat]) (by rw [grown]; simp; omega)
    rw [grown, List.length_append, List.length_singleton] at chained
    refine ⟨s', x :: list, ?_, ?_, (later₁.place adds (Nat.le_refl _)).trans later', by simp [length]⟩
    · rw [Replication.chainReplicas, copied]
      simp only [bind, Except.bind, rewired, attached, chained, pure, Except.pure, x]
    · rw [Function.update_idem, grown] at under'
      simpa using under'

end Underway

/-- A repetition between two instructions. -/
structure Settled (h : Func) (given : ReplicaMap) (d : Divergence) (count : Nat)
    (todo finished : List InstId) (copies : InstId → List InstId) (s : Replication) : Prop
    extends Underway h given d count todo finished copies s where
  lengths : ∀ i ∈ finished, (copies i).length = count
  empty : ∀ i, i ∉ finished → copies i = []
  recorded : ∀ i ∈ finished, ∀ list (n : Nat) p r, s.placeholders.get? i = some list →
    list[n]? = some p → (copies i)[n]? = some r → s.placeholders.replacement? p = some r

/-- What has replicas goes on being read as before when one more instruction gets them. -/
theorem Reads.insert {j' : InstId} (reads : s.Reads n j j') (none : s.map.get? i = none)
    (divergent : s.divergence.isDivergent i = true) (list : List InstId)
    (stats : ReplicationStats) :
    Reads { s with
      map := s.map.insert i list
      placeholders := s.placeholders.record i list
      stats } n j j' := by
  rcases reads with ⟨found, hj, hn⟩ | ⟨found, hj, hn⟩ | ⟨unmapped, uniform, rfl⟩
  · refine .inl ⟨found, ?_, hn⟩
    have other : i ≠ j := by
      rintro rfl
      simp [none] at hj
    rw [ReplicaMap.get?_insert, if_neg other, hj]
  · exact .inr (.inl ⟨found, (Placeholders.get?_record _).trans hj, hn⟩)
  · refine .inr (.inr ⟨?_, uniform, rfl⟩)
    have other : i ≠ j' := by
      rintro rfl
      simp [divergent] at uniform
    rw [ReplicaMap.get?_insert, if_neg other, unmapped]

theorem settled_start (task : Task h given d count todo) {factor : Nat}
    (hcount : factor - 1 = count) :
    Settled h given d count todo [] (fun _ => []) (start d factor h given) where
  divergence := rfl
  replicas := hcount
  consistent := task.consistent
  params := rfl
  layout := rfl
  size := Nat.le_refl _
  line _ _ := rfl
  code b := by simp [start, Placeholders.all, Placeholders.empty]
  outside _ _ := rfl
  copy i n x hx := by simp at hx
  orderly := Placeholders.orderly_empty _
  held p hp := by simp [start, Placeholders.all, Placeholders.empty] at hp
  within := by simp
  map j := rfl
  lengths := by simp
  empty _ _ := rfl
  recorded := by simp

namespace Settled

/-- One more instruction is repeated. -/
theorem replicateInst (task : Task h given d count todo)
    (settled : Settled h given d count todo finished copies s) (hi : i ∈ todo)
    (unfinished : i ∉ finished) :
    ∃ s' copies', s.replicateInst i = .ok s' ∧
      Settled h given d count todo (i :: finished) copies' s' := by
  have under := settled.toUnderway
  have none := settled.empty i unfinished
  obtain ⟨op, ty, line, plain⟩ := task.plain i hi
  obtain ⟨inst, hinst, rfl, rfl⟩ := Func.inst_of_line
    (show s.func.line i = some (op, ty) from (under.line i (task.lt hi)).trans line)
  have last : (i :: copies i).getLast? = some i := by simp [none]
  obtain ⟨s₁, list, chained, under₁, later, length⟩ := under.chainReplicas task hi unfinished
    settled.lengths last inst.name (m := count) (by simp [none])
  rw [none, List.length_nil] at chained
  rw [none, List.nil_append] at under₁
  have unmapped : s₁.map.get? i = Option.none := by
    rw [later.map, under.map i, if_neg unfinished, task.new i hi]
  let stats := { s₁.stats with instructions := s₁.stats.instructions + 1 }
  have own : Function.update copies i list i = list := Function.update_self ..
  refine ⟨{ s₁ with
      map := s₁.map.insert i list
      placeholders := s₁.placeholders.record i list
      stats }, Function.update copies i list, ?_, { under₁ with
      code := fun b => ?_
      copy := fun j m x hx => ?_
      orderly := under₁.orderly.record list
      held := fun p hp => under₁.held p (by simpa using hp)
      within := fun j hj => ?_
      map := fun j => ?_
      lengths := fun j hj => ?_
      empty := fun j hj => ?_
      recorded := fun j hj held m p r hheld hp hr => ?_ }⟩
  · simp [Replication.replicateInst, hinst, plain, bind, Except.bind, under.replicas, chained, pure,
      Except.pure, stats]
  · simpa using under₁.code b
  · obtain ⟨fresh, op', ty', pick, lineJ, lineX, reads⟩ := under₁.copy j m x hx
    exact ⟨fresh, op', ty', pick, lineJ, lineX, fun k hk => (reads k hk).insert unmapped
      (by rw [under₁.divergence]; exact task.divergent i hi) list stats⟩
  · rcases List.mem_cons.mp hj with rfl | hj
    · exact hi
    · exact under.within j hj
  · rw [ReplicaMap.get?_insert, unmapped]
    by_cases here : i = j
    · simp [← here]
    · rw [if_neg here, under₁.map j]
      simp [Ne.symm here]
  · rcases List.mem_cons.mp hj with rfl | hj
    · rw [own, length]
    · have other : j ≠ i := fun same => unfinished (same ▸ hj)
      rw [Function.update_of_ne other, settled.lengths j hj]
  · obtain ⟨other, out⟩ : j ≠ i ∧ j ∉ finished := by
      simpa only [List.mem_cons, not_or] using hj
    rw [Function.update_of_ne other, settled.empty j out]
  · have held₁ : s₁.placeholders.get? j = some held := (Placeholders.get?_record _).symm.trans hheld
    by_cases here : j = i
    · subst here
      rw [own] at hr
      exact Placeholders.replacement?_record under₁.orderly held₁ list hp hr
    · -- what was repeated before got no new placeholders, as its replicas are known
      have done : j ∈ finished := (List.mem_cons.mp hj).resolve_left here
      rw [Function.update_of_ne here] at hr
      have mapped : s.map.contains j = true := by simp [ReplicaMap.contains, under.map j, done]
      have before := settled.recorded j done held m p r (later.kept j mapped ▸ held₁) hp hr
      show (s₁.placeholders.record i list).replacement? p = some r
      rw [Placeholders.replacement?_record_of_ne under₁.orderly (Ne.symm here) held₁ list hp]
      simpa [Placeholders.replacement?, later.replacement] using before

/-- All instructions of a list are repeated, apart from terminators. -/
theorem foldlM_replicateInst (task : Task h given d count todo)
    (settled : Settled h given d count todo finished copies s) (xs : List InstId) (nodup : xs.Nodup)
    (new : ∀ i ∈ xs, i ∉ finished)
    (kinds : ∀ i ∈ xs, i ∈ todo ∨ i.index < h.insts.size ∧
      h.outline.Does i fun op => op.isTerminator = true) :
    ∃ s' finished' copies', xs.foldlM Replication.replicateInst s = .ok s' ∧
      Settled h given d count todo finished' copies' s' ∧
      ∀ i ∈ todo, i ∈ finished ∨ i ∈ xs → i ∈ finished' := by
  induction xs generalizing s finished copies with
  | nil => exact ⟨s, finished, copies, rfl, settled, by simp⟩
  | cons i xs ih =>
    obtain ⟨out, nodup⟩ := List.nodup_cons.mp nodup
    have later : ∀ j ∈ xs, j ∈ todo ∨ j.index < h.insts.size ∧
        h.outline.Does j fun op => op.isTerminator = true :=
      fun j hj => kinds j (List.mem_cons_of_mem _ hj)
    rcases kinds i (by simp) with hi | ⟨old, op, ty, line, term⟩
    · obtain ⟨s₁, copies₁, first, settled₁⟩ := settled.replicateInst task hi (new i (by simp))
      obtain ⟨s', finished', copies', rest, settled', all⟩ := ih settled₁ nodup
        (fun j hj => by
          have other : j ≠ i := fun same => out (same ▸ hj)
          simp [other, new j (List.mem_cons_of_mem _ hj)]) later
      refine ⟨s', finished', copies', by rw [List.foldlM_cons, first]; exact rest, settled', ?_⟩
      intro j hj mem
      refine all j hj ?_
      simp only [List.mem_cons] at mem ⊢
      tauto
    · -- a terminator stays alone
      obtain ⟨inst, hinst, rfl, -⟩ := Func.inst_of_line
        (show s.func.line i = some (op, ty) from (settled.line i old).trans line)
      have skip : s.replicateInst i = .ok s := by
        simp [Replication.replicateInst, hinst, term, bind, Except.bind, pure, Except.pure]
      obtain ⟨s', finished', copies', rest, settled', all⟩ := ih settled nodup
        (fun j hj => new j (List.mem_cons_of_mem _ hj)) later
      refine ⟨s', finished', copies', by rw [List.foldlM_cons, skip]; exact rest, settled', ?_⟩
      intro j hj mem
      refine all j hj (mem.imp_right fun mem => (List.mem_cons.mp mem).resolve_left ?_)
      rintro rfl
      obtain ⟨op', ty', line', plain⟩ := task.plain j hj
      obtain ⟨rfl, -⟩ : inst.op = op' ∧ ty = ty' := by simpa [line] using line'
      simp [plain] at term

end Settled

/-! ### The result -/

/-- The replica `n` of an instruction, or the instruction itself if it has none. -/
def replicaOf (given : ReplicaMap) (todo : List InstId) (copies : InstId → List InstId) (n : Nat)
    (j : InstId) : InstId :=
  ((if j ∈ todo then some (copies j) else given.get? j).bind (·[n]?)).getD j

/-- A function in which instructions are repeated in place: replica `n` reads replicas `n`. -/
structure Repeated (h g : Func) (given : ReplicaMap) (count : Nat) (todo : List InstId)
    (copies : InstId → List InstId) : Prop where
  consistent : g.Consistent
  params : g.params = h.params
  layout : g.layout = h.layout
  code : ∀ b, g.code b = (h.code b).flatMap fun i => i :: copies i
  lengths : ∀ i ∈ todo, (copies i).length = count
  outside : ∀ i, i ∉ todo → copies i = []
  line : ∀ i, (h.blockOf i).isSome → g.line i = h.line i
  copy : ∀ i (n : Nat) x, (copies i)[n]? = some x → g.line x = (h.line i).map fun line =>
    (line.1.mapOperands (·.mapInst (replicaOf given todo copies n)), line.2)

/-- What a replica reads once placeholders have given way. -/
theorem Settled.replacement_of_reads (task : Task h given d count todo)
    (settled : Settled h given d count todo finished copies s) (all : ∀ i ∈ todo, i ∈ finished)
    {other : InstId → InstId}
    (replaced : ∀ x ∈ s.placeholders.all, s.placeholders.replacement? x = some (other x))
    {j' : InstId} (old : j.index < h.insts.size) (reads : s.Reads n j j') :
    (if j' ∈ s.placeholders.all then other j' else j') = replicaOf given todo copies n j := by
  have known : (if j ∈ todo then some (copies j) else given.get? j) = s.map.get? j := by
    rw [settled.map j]
    by_cases hj : j ∈ todo
    · rw [if_pos hj, if_pos (all j hj)]
    · rw [if_neg hj, if_neg fun mem => hj (settled.within j mem)]
  have low : ∀ {y : InstId}, y.index < h.insts.size → y ∉ s.placeholders.all := fun lt mem => by
    have := (settled.orderly.fresh _ mem).1
    omega
  unfold replicaOf
  rw [known]
  rcases reads with ⟨list, hj, hn⟩ | ⟨list, hj, hn⟩ | ⟨none, -, rfl⟩
  · rw [hj, Option.bind_some, hn, Option.getD_some, if_neg]
    rw [settled.map j] at hj
    by_cases done : j ∈ finished
    · obtain rfl : copies j = list := by simpa [done] using hj
      exact (settled.placed_chunk task (task.placed j (settled.within j done))
        (List.mem_cons_of_mem _ (List.mem_of_getElem? hn))).2
    · obtain ⟨-, -, lt⟩ := task.known j list (by simpa [done] using hj)
      exact low (lt j' (List.mem_of_getElem? hn))
  · have mem : j' ∈ s.placeholders.all :=
      (settled.orderly.mem_all j').mpr ⟨j, list, hj, List.mem_of_getElem? hn⟩
    obtain ⟨hj', length⟩ := settled.orderly.owner j list hj
    have done := all j hj'
    have bound : n < (copies j).length := by
      rw [settled.lengths j done, ← length]
      exact (List.getElem?_eq_some_iff.mp hn).1
    have found : (copies j)[n]? = some (copies j)[n] := List.getElem?_eq_getElem bound
    have same := settled.recorded j done list n j' _ hj hn found
    rw [replaced j' mem] at same
    rw [if_pos mem, settled.map j, if_pos done, Option.bind_some, found, Option.getD_some]
    simpa using same
  · rw [none, if_neg (low old)]
    rfl

/-- What a placeholder stands for is a replica. -/
theorem Settled.exists_replacement (settled : Settled h given d count todo finished copies s)
    (all : ∀ i ∈ todo, i ∈ finished) (hx : x ∈ s.placeholders.all) :
    ∃ r i, s.placeholders.replacement? x = some r ∧ i ∈ todo ∧ r ∈ copies i := by
  obtain ⟨i, list, held, mem⟩ := (settled.orderly.mem_all x).mp hx
  obtain ⟨n, hn⟩ := List.getElem?_of_mem mem
  obtain ⟨hi, length⟩ := settled.orderly.owner i list held
  have bound : n < (copies i).length := by
    rw [settled.lengths i (all i hi), ← length]
    exact (List.getElem?_eq_some_iff.mp hn).1
  exact ⟨(copies i)[n], i, settled.recorded i (all i hi) list n x _ held hn
    (List.getElem?_eq_getElem bound), hi, List.getElem_mem bound⟩

/-- All instructions are repeated, and placeholders give way. -/
theorem exists_repeated (task : Task h given d count todo) (factor : Nat)
    (hcount : factor - 1 = count)
    (regions : d.outermostRegions = []) (nodup : d.outermostInstructions.Nodup)
    (complete : ∀ i ∈ todo, i ∈ d.outermostInstructions)
    (kinds : ∀ i ∈ d.outermostInstructions, i ∈ todo ∨ i.index < h.insts.size ∧
      h.outline.Does i fun op => op.isTerminator = true) :
    ∃ s s' copies, (start d factor h given).replicateAll = .ok (none, s) ∧ s.resolveAll = .ok s' ∧
      Repeated h s'.func given count todo copies := by
  obtain ⟨s, finished, copies, ran, settled, all⟩ :=
    (settled_start task hcount).foldlM_replicateInst task d.outermostInstructions nodup (by simp)
      kinds
  have done : ∀ i ∈ todo, i ∈ finished := fun i hi => all i hi (.inr (complete i hi))
  have stands := fun x hx => settled.exists_replacement done (x := x) hx
  have anInst : Nonempty InstId := ⟨⟨0⟩⟩
  choose! other owner replaced mine member using stands
  obtain ⟨s', resolved, gives⟩ := exists_resolve_foldlM s.placeholders.all settled.consistent
    (fun x hx => (settled.orderly.fresh x hx).2) replaced fun x hx =>
      (settled.placed_chunk task (task.placed _ (mine x hx)) (List.mem_cons_of_mem _ (member x hx))).2
  have code : ∀ b, s'.func.code b = (h.code b).flatMap fun i => i :: copies i := fun b => by
    rw [gives.code, settled.code]
  have placed : ∀ {i x : InstId}, (h.blockOf i).isSome → x ∈ i :: copies i →
      (s'.func.blockOf x).isSome := fun hi hx =>
    (Func.isSome_blockOf_iff task.consistent gives.consistent code).mpr ⟨_, hi, hx⟩
  refine ⟨s, s', copies, ?_, resolved, gives.consistent, gives.params.trans settled.params,
    gives.layout.trans settled.layout, code, fun i hi => settled.lengths i (done i hi),
    settled.outside, fun i hi => ?_, fun i n x hx => ?_⟩
  · have divergence : s.divergence = d := settled.divergence
    simp only [replicateAll, show (start d factor h given).divergence = d from rfl, ran, bind,
      Except.bind, divergence, regions]
    rfl
  · have old := Func.lt_of_placed hi
    rw [gives.line i (placed hi (by simp)), settled.line i old]
    cases line : h.line i with
    | none => rfl
    | some pair =>
      obtain ⟨op, ty⟩ := pair
      -- placeholders are newer than what the function reads
      rw [Option.map_some, Operation.mapInst_of_same fun j hj => if_neg fun mem => ?_]
      have := task.inside i op ty hi line j hj
      have := (settled.orderly.fresh j mem).1
      omega
  · obtain ⟨-, op, ty, pick, lineI, lineX, reads⟩ := settled.copy i n x hx
    have hi : i ∈ todo := by
      by_contra out
      simp [settled.outside i out] at hx
    have mem := List.mem_cons_of_mem i (List.mem_of_getElem? hx)
    rw [gives.line x (placed (task.placed i hi) mem), lineX, lineI]
    simp only [Option.map_some, Operation.mapOperands_mapOperands, Value.mapInst_mapInst,
      Option.some.injEq, Prod.mk.injEq, and_true]
    refine Operation.mapInst_congr fun j hj => ?_
    exact settled.replacement_of_reads task done replaced
      (task.inside i op ty (task.placed i hi) lineI j hj) (reads j hj)

end Replication

end KernelCoarsening
