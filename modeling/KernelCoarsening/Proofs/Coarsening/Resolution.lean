/-
Placeholders do not outlive a repetition.

Commands make placeholders wherever a replica is needed too early, and they go on reading
placeholders that have been taken out before.  Whatever has happened, nothing is left of a
placeholder when replicas have been put in the place of placeholders:

* `Replication.Accounted` — all placeholders that were made are known and different, and none stands
  for another;
* `Replication.accounted_perform` — every command keeps this;
* `Replication.gone_resolve` — a placeholder goes, and those that are gone do not come back;
* `Replication.no_placeholder_survives` — in the end all are gone.
-/
import KernelCoarsening.Proofs.Coarsening.CloneLists

namespace KernelCoarsening

/-! ### Nothing is left of an instruction -/

/-- Operands that are replaced are read no more, and only what is read in their place is new. -/
theorem Operation.mem_usedInsts_substitute {old j : InstId} {new : Value} {op : Operation}
    (used : j ∈ (op.substitute (.inst old) new).usedInsts) :
    j ∈ op.usedInsts ∧ j ≠ old ∨ new = .inst j := by
  simp only [substitute, usedInsts, operands_mapOperands, List.mem_filterMap, List.mem_map] at used
  obtain ⟨_, ⟨v, hv, rfl⟩, read⟩ := used
  by_cases here : v = .inst old
  · rw [if_pos here] at read
    cases new with
    | inst k => exact .inr (by simpa [Value.inst?] using read)
    | _ => simp [Value.inst?] at read
  · rw [if_neg here] at read
    refine .inl ⟨List.mem_filterMap.mpr ⟨v, hv, read⟩, ?_⟩
    rintro rfl
    cases v with
    | inst k => exact here (by simpa [Value.inst?] using read)
    | _ => simp [Value.inst?] at read

namespace Func

variable {f g : Func} {i j x : InstId}

/-- Nothing is left of an instruction: it is placed nowhere, and no placed instruction reads it. -/
structure IsGone (f : Func) (x : InstId) : Prop where
  unplaced : f.blockOf x = none
  unread : ∀ i op ty, (f.blockOf i).isSome → f.line i = some (op, ty) → x ∉ op.usedInsts

/-- Another value is read in place of an instruction, and then the instruction is taken out. -/
theorem Consistent.exists_replace (hf : f.Consistent) (old : x.index < f.insts.size) (new : Value)
    (other : new ≠ .inst x) :
    ∃ g uses h, f.replaceUses x new = .ok (g, uses) ∧ g.erase x = .ok h ∧ h.Consistent ∧
      h.insts.size = f.insts.size ∧ h.IsGone x ∧
      ∀ y, new ≠ .inst y → f.IsGone y → h.IsGone y := by
  obtain ⟨g, uses, replaced, same⟩ := hf.outline_replaceUsesExcept x new []
  have size : g.insts.size = f.insts.size := congrArg Outline.insts same
  obtain ⟨h, erased, consistent, -, -, size', line, code⟩ :=
    exists_erase (hf.of_alter same) (size ▸ old)
  have home : ∀ i, (h.blockOf i).isSome → i ≠ x ∧ (f.blockOf i).isSome := by
    intro i placed
    obtain ⟨b, hb⟩ := Option.isSome_iff_exists.mp placed
    have mem := consistent.mem_code.mpr hb
    rw [code, List.mem_filter] at mem
    have before := (hf.of_alter same).mem_code.mp mem.1
    rw [show g.blockOf = f.blockOf from congrArg Outline.home same] at before
    exact ⟨by simpa using mem.2, Option.isSome_of_eq_some before⟩
  -- what is still placed reads what it read, but for the instruction and its substitute
  have reads : ∀ i op ty, (h.blockOf i).isSome → h.line i = some (op, ty) → ∀ y ∈ op.usedInsts,
      new = .inst y ∨ y ≠ x ∧ ∃ op', f.line i = some (op', ty) ∧ y ∈ op'.usedInsts := by
    intro i op ty placed here y used
    rw [line, show g.line i = _ from congrFun (congrArg Outline.line same) i, Outline.line_alter,
      if_pos ⟨(home i placed).2, by simp⟩, Option.map_eq_some_iff] at here
    obtain ⟨⟨op', ty'⟩, before, here⟩ := here
    obtain ⟨rfl, rfl⟩ := Prod.mk.inj here
    obtain ⟨used, apart⟩ | read := Operation.mem_usedInsts_substitute used
    · exact .inr ⟨apart, op', before, used⟩
    · exact .inl read
  refine ⟨g, uses, h, replaced, erased, consistent, size'.trans size, ⟨?_, ?_⟩,
    fun y apart gone => ?_⟩
  · by_contra placed
    exact (home x (Option.isSome_iff_ne_none.mpr placed)).1 rfl
  · intro i op ty placed here used
    rcases reads i op ty placed here x used with read | ⟨apart, -⟩
    · exact other read
    · exact apart rfl
  · refine ⟨?_, fun i op ty placed here used => ?_⟩
    · by_contra placed
      have before := (home y (Option.isSome_iff_ne_none.mpr placed)).2
      simp [gone.unplaced] at before
    · rcases reads i op ty placed here y used with read | ⟨-, op', before, used⟩
      · exact apart read
      · exact gone.unread i op' ty (home i placed).2 before used

end Func

/-! ### Placeholders that stand for replicas -/

namespace Placeholders

variable {p : Placeholders} {i x r : InstId}

/-- What a placeholder stands for is what it stood for, or one of the replicas that were entered. -/
theorem replacement?_of_record {replicas : List InstId}
    (stands : (p.record i replicas).replacement? x = some r) :
    p.replacement? x = some r ∨ r ∈ replicas := by
  have entered : ∀ (pairs : List (InstId × InstId)) (m : Assoc InstId InstId),
      (pairs.foldl (fun m entry => m.insert entry.1 entry.2) m).get? x = some r →
        m.get? x = some r ∨ ∃ entry ∈ pairs, entry.2 = r := by
    intro pairs
    induction pairs with
    | nil => exact fun m has => .inl has
    | cons entry pairs ih =>
      intro m has
      rcases ih _ has with before | ⟨later, mem, same⟩
      · rw [Assoc.get?_insert] at before
        split at before
        · exact .inr ⟨entry, List.mem_cons_self, by simpa using before⟩
        · exact .inl before
      · exact .inr ⟨later, List.mem_cons_of_mem _ mem, same⟩
  unfold record at stands
  split at stands
  · exact .inl stands
  · refine (entered _ _ stands).imp_right ?_
    rintro ⟨⟨placeholder, r⟩, mem, rfl⟩
    exact (List.of_mem_zip mem).2

theorem replacement?_of_records {entries : List (InstId × List InstId)}
    (stands : (entries.foldl (fun held entry => held.record entry.1 entry.2) p).replacement? x =
      some r) : p.replacement? x = some r ∨ ∃ entry ∈ entries, r ∈ entry.2 := by
  induction entries generalizing p with
  | nil => exact .inl stands
  | cons entry rest ih =>
    rcases ih stands with before | ⟨later, mem, hr⟩
    · exact (replacement?_of_record before).imp_right fun hr => ⟨entry, List.mem_cons_self, hr⟩
    · exact .inr ⟨later, List.mem_cons_of_mem _ mem, hr⟩

end Placeholders

namespace Replication

open Func

variable {f : Func} {s t : Replication} {moved : InstId → Prop} {i j : InstId} {n : Nat}

/-! ### All placeholders are known -/

/-- The placeholders of a repetition are all different, as many as were made, and none of them
stands for another. -/
structure Accounted (s : Replication) : Prop where
  nodup : s.placeholders.all.Nodup
  count : s.placeholders.all.length = s.stats.placeholders
  slot : ∀ x ∈ s.placeholders.all, x.index < s.func.insts.size
  stands : ∀ x r, s.placeholders.replacement? x = some r →
    r.index < s.func.insts.size ∧ r ∉ s.placeholders.all

/-- An instruction that is no placeholder never becomes one. -/
theorem Advances.notMem_all (step : s.Advances moved t) (old : j.index < s.func.insts.size)
    (free : j ∉ s.placeholders.all) : j.index < t.func.insts.size ∧ j ∉ t.placeholders.all := by
  refine ⟨Nat.lt_of_lt_of_le old step.func.grows.insts, fun mem => ?_⟩
  rcases step.held j mem with before | new
  · exact free before
  · exact absurd old (Nat.not_lt.mpr new.1)

/-- Copies in a chain are different instructions. -/
theorem nodup_chainCopies {behind : InstId} {name suffix : String} {count : Nat} :
    Yields (chainCopies i name suffix f behind n count) fun r => r.2.Nodup := by
  induction count generalizing f behind n with
  | zero => exact .pure (by simp)
  | succ count ih =>
    rw [chainCopies]
    refine .ask fun r copied => .ask fun g attached => .ask fun rest later => .pure ?_
    obtain ⟨-, slot⟩ := slot_copyInst r copied
    have known := leaves_chainCopies (fun _ _ => trivial) rest later
    refine List.nodup_cons.mpr ⟨fun mem => ?_, ih rest later⟩
    -- later copies take later slots
    have grown := (grows_attachAfter g attached).insts
    exact absurd (known.2 r.2 mem).1 (Nat.not_le.mpr (Nat.lt_of_lt_of_le slot grown))

namespace Accounted

theorem start {divergence : Divergence} {factor : Nat} {map : ReplicaMap} :
    (start divergence factor f map).Accounted :=
  ⟨by simp [Replication.start, Placeholders.empty, Placeholders.all],
    by simp [Replication.start, Placeholders.empty, Placeholders.all],
    by simp [Replication.start, Placeholders.empty, Placeholders.all],
    by simp [Replication.start, Placeholders.empty, Placeholders.replacement?, Assoc.get?]⟩

/-- The function has grown. -/
theorem edit (h : s.Accounted) {g : Func} (grows : s.func.Grows g) :
    Accounted { s with func := g } :=
  ⟨h.nodup, h.count, fun x hx => Nat.lt_of_lt_of_le (h.slot x hx) grows.insts,
    fun x r hr => ⟨Nat.lt_of_lt_of_le (h.stands x r hr).1 grows.insts, (h.stands x r hr).2⟩⟩

theorem ensurePlaceholders (h : s.Accounted) : Yields (s.ensurePlaceholders i) Accounted := by
  unfold Replication.ensurePlaceholders
  split
  · exact .pure h
  · rename_i needed
    obtain ⟨-, none⟩ : _ ∧ s.placeholders.get? i = none := by simpa using needed
    refine .ask fun inst _ => .ask fun r chained => .pure ?_
    obtain ⟨left, slots⟩ := leaves_chainCopies (fun _ _ => trivial) r chained
    have grown := left.grows.insts
    refine ⟨?_, ?_, fun x hx => ?_, fun x r' hr => ?_⟩
    · rw [Placeholders.all_insert none, List.nodup_append']
      refine ⟨h.nodup, nodup_chainCopies r chained, fun x hx hx' => ?_⟩
      exact absurd (h.slot x hx) (Nat.not_lt.mpr (slots x hx').1)
    · rw [Placeholders.all_insert none, List.length_append, h.count]
    · rw [Placeholders.all_insert none, List.mem_append] at hx
      rcases hx with hx | hx
      · exact Nat.lt_of_lt_of_le (h.slot x hx) grown
      · exact (slots x hx).2
    · obtain ⟨old, free⟩ := h.stands x r' hr
      refine ⟨Nat.lt_of_lt_of_le old grown, ?_⟩
      rw [Placeholders.all_insert none, List.mem_append, not_or]
      exact ⟨free, fun hx => absurd old (Nat.not_lt.mpr (slots r' hx).1)⟩

theorem rewire (h : s.Accounted) : Yields (rewire n s i) Accounted := by
  unfold Replication.rewire
  split
  · exact .pure h
  · refine .ask fun op _ => ?_
    refine Yields.bind (p := Accounted) (.foldlM h fun t ht j _ => ht.ensurePlaceholders)
      fun t ht => ?_
    exact grows_modifyOperation.bind fun _ grows => .pure (ht.edit grows)

/-- Replicas that are made are no placeholders. -/
theorem chainReplicas (h : s.Accounted) {behind : InstId} {name : String} {count : Nat} :
    Yields (chainReplicas i name s behind n count) fun r => r.1.Accounted ∧
      ∀ c ∈ r.2, c.index < r.1.func.insts.size ∧ c ∉ r.1.placeholders.all := by
  induction count generalizing s behind n with
  | zero => exact .pure ⟨h, by simp⟩
  | succ count ih =>
    rw [Replication.chainReplicas]
    refine .ask fun r copied => .ask fun t rewired => .ask fun g attached =>
      .ask fun rest later => .pure ?_
    obtain ⟨func, copy⟩ := r
    obtain ⟨next, inside⟩ : copy.index = s.func.insts.size ∧ copy.index < func.insts.size :=
      slot_copyInst _ copied
    have free : copy ∉ s.placeholders.all := fun mem => by
      have := h.slot copy mem
      omega
    have h₁ : Accounted { s with func } := h.edit (grows_copyInst _ copied)
    have first := (advances_rewire (fun _ _ => trivial) t rewired).edit
      (leaves_attachAfter trivial g attached)
    have second := advances_chainReplicas (fun _ _ => trivial) rest later
    have h₂ : Accounted { t with func := g } :=
      (h₁.rewire t rewired).edit (grows_attachAfter g attached)
    obtain ⟨h₃, others⟩ := ih h₂ rest later
    exact ⟨h₃, List.forall_mem_cons.mpr ⟨(first.trans second).notMem_all inside free, others⟩⟩

theorem replicateInst (h : s.Accounted) : Yields (s.replicateInst i) Accounted := by
  refine .ask fun inst _ => ?_
  split
  · exact .pure h
  · refine h.chainReplicas.bind fun r known => .pure ?_
    obtain ⟨h₁, new⟩ := known
    refine ⟨by simpa using h₁.nodup, by simpa using h₁.count, by simpa using h₁.slot,
      fun x c stands => ?_⟩
    rw [Placeholders.all_record]
    exact (Placeholders.replacement?_of_record stands).elim (h₁.stands x c) (new c)

theorem spliceCopy (h : s.Accounted) {splice : Splice} {top : BlockId} {copy : BlockCopy} :
    Yields (spliceCopy splice n s top copy) fun r => r.1.Accounted := by
  unfold Replication.spliceCopy
  split
  · split
    · have erased : Yields (copy.instMap.foldlM (fun f entry =>
          if splice.held.contains entry.1 then f.erase entry.2 else .ok f) s.func)
            s.func.Grows := by
        refine grows_foldlM fun g entry => ?_
        split
        · exact grows_erase
        · exact .pure (.refl g)
      refine erased.bind fun g grows => .ask fun blocks _ => ?_
      refine Yields.bind (p := Accounted) (.foldlM (h.edit grows) fun t ht i _ => ht.rewire)
        fun t ht => ?_
      refine Yields.bind (p := t.func.Grows) grows_replaceSuccessor fun _ h₁ => ?_
      refine (h₁.then grows_renameIncoming).bind fun _ h₂ => ?_
      exact (h₂.then grows_renameIncoming).bind fun _ h₃ => .pure (ht.edit h₃)
    · exact .pure h
  · exact .pure h

theorem spliceCopies (h : s.Accounted) {splice : Splice} {top : BlockId}
    {copies : List BlockCopy} : Yields (spliceCopies splice s top n copies) Accounted := by
  induction copies generalizing s top n with
  | nil => exact .pure h
  | cons copy copies ih =>
    rw [Replication.spliceCopies]
    exact h.spliceCopy.bind fun _ h₁ => ih h₁

theorem replicateRegion (h : s.Accounted) (consistent : s.func.Consistent) {region : Region} :
    Yields (s.replicateRegion region) fun r => r.2.Accounted := by
  refine yields_replicateRegion (fun _ => h) fun _ _ func copies t _ copying spliced => ?_
  obtain ⟨copied, -⟩ := copied_copyRegion consistent _ copying
  have h₁ : Accounted { s with func } := h.edit copied.leaves.grows
  have h₂ := h₁.spliceCopies t spliced
  have step := advances_struck spliced
  -- a copy was made after all the placeholders that there were, and before those to come
  have free : ∀ copy ∈ copies, ∀ k c, (k, c) ∈ copy.instMap →
      c.index < t.func.insts.size ∧ c ∉ t.placeholders.all := by
    intro copy hc k c entry
    obtain ⟨new, placed⟩ := copied.placed copy hc k c entry
    exact step.notMem_all (lt_of_placed placed) fun mem =>
      absurd (h.slot c mem) (Nat.not_lt.mpr new)
  refine ⟨?_, ?_, ?_, fun x c stands => ?_⟩
  · simpa [withAlive, all_foldl_record] using h₂.nodup
  · simpa [withAlive, all_foldl_record] using h₂.count
  · simpa [withAlive, all_foldl_record] using h₂.slot
  rw [withAlive, all_foldl_record]
  rcases Placeholders.replacement?_of_records stands with before | ⟨entry, mem, hc⟩
  · exact h₂.stands x c before
  · obtain ⟨k, -, rfl⟩ := List.mem_map.mp mem
    obtain ⟨copy, hcopy, entry⟩ := mem_aliveReplicas hc
    exact free copy hcopy k c entry

theorem replicateRegions (h : s.Accounted) (consistent : s.func.Consistent)
    {regions : List Region} : Yields (s.replicateRegions regions) fun r => r.2.Accounted := by
  refine (yields_replicateRegions (p := fun t => t.Accounted ∧ t.func.Consistent)
    ⟨h, consistent⟩ fun t ht r _ u answer => ?_).mono fun _ known => known.1
  exact ⟨ht.1.replicateRegion ht.2 u answer, consistent_replicateRegion ht.2 u answer⟩

theorem resolve (h : s.Accounted) : Yields (s.resolve i) Accounted := by
  have replaced : ∀ new, Yields (s.func.replaceUses i new) fun r =>
      Yields (r.1.erase i) fun g => Accounted { s with func := g } := fun new =>
    grows_replaceUses.mono fun _ grows => (grows.then grows_erase).mono fun _ later => h.edit later
  unfold Replication.resolve
  split
  · split
    · exact .pure h
    · exact (replaced _).bind fun r h₁ => h₁.bind fun g h₂ => .pure h₂
  · refine (replaced _).bind fun r h₁ => h₁.bind fun g h₂ => .pure ?_
    exact ⟨h₂.nodup, h₂.count, h₂.slot, h₂.stands⟩

end Accounted

/-- Every command keeps account of the placeholders. -/
theorem accounted_perform (h : s.Accounted) (consistent : s.func.Consistent) (command : Command) :
    Yields (s.perform command) fun t => t.Accounted ∧ t.func.Consistent := by
  cases command with
  | all =>
    refine .map (Yields.bind (p := fun t : Replication => t.Accounted ∧ t.func.Consistent)
      (.foldlM ⟨h, consistent⟩ fun t ht i _ u answer => ?_) fun t ht u answer => ?_)
    · exact ⟨ht.1.replicateInst u answer, consistent_replicateInst ht.2 u answer⟩
    · exact ⟨ht.1.replicateRegions ht.2 u answer, consistent_replicateRegions ht.2 u answer⟩
  | inst i =>
    exact fun t answer => ⟨h.replicateInst t answer, consistent_replicateInst consistent t answer⟩
  | region r =>
    refine .map fun t answer => ?_
    exact ⟨h.replicateRegion consistent t answer, consistent_replicateRegion consistent t answer⟩
  | resolve =>
    refine .foldlM ⟨h, consistent⟩ fun t ht i _ u answer => ?_
    exact ⟨ht.1.resolve u answer, consistent_resolve ht.2 u answer⟩

theorem accounted_performAll (h : s.Accounted) (consistent : s.func.Consistent)
    (commands : List Command) :
    Yields (s.performAll commands) fun t => t.Accounted ∧ t.func.Consistent :=
  .foldlM ⟨h, consistent⟩ fun _ ht command _ => accounted_perform ht.1 ht.2 command

/-! ### Placeholders go -/

/-- A placeholder goes, and those that are gone do not come back. -/
theorem gone_resolve (h : s.Accounted) (consistent : s.func.Consistent)
    (mem : i ∈ s.placeholders.all) :
    ∃ t, s.resolve i = .ok t ∧ t.Accounted ∧ t.func.Consistent ∧
      t.placeholders = s.placeholders ∧ t.func.IsGone i ∧
      ∀ x ∈ s.placeholders.all, s.func.IsGone x → t.func.IsGone x := by
  have done : ∃ t, s.resolve i = .ok t ∧ t.placeholders = s.placeholders ∧ t.func.IsGone i ∧
      ∀ x ∈ s.placeholders.all, s.func.IsGone x → t.func.IsGone x := by
    cases stands : s.placeholders.replacement? i with
    | none =>
      obtain ⟨g, uses, f, replaced, erased, -, -, gone, others⟩ :=
        consistent.exists_replace (h.slot i mem) .undef (by simp)
      refine ⟨{ s with
        func := f, stats := { s.stats with unresolved := s.stats.unresolved + 1 } }, ?_, rfl, gone,
        fun x _ => others x (by simp)⟩
      simp [resolve, stands, replaced, erased, bind, Except.bind, pure, Except.pure]
    | some r =>
      -- what a placeholder stands for is no placeholder, so that none is read again
      obtain ⟨-, free⟩ := h.stands i r stands
      have other : ∀ x ∈ s.placeholders.all, r ≠ x := fun x hx same => free (same ▸ hx)
      obtain ⟨g, uses, f, replaced, erased, -, -, gone, others⟩ :=
        consistent.exists_replace (h.slot i mem) (.inst r) (by simpa using other i mem)
      refine ⟨{ s with func := f }, ?_, rfl, gone, fun x hx => others x (by simpa using other x hx)⟩
      simp [resolve, stands, other i mem, replaced, erased, bind, Except.bind, pure, Except.pure]
  obtain ⟨t, answer, same, gone, others⟩ := done
  exact ⟨t, answer, h.resolve t answer, consistent_resolve consistent t answer, same, gone, others⟩

/-- Placeholders go, one after the other. -/
theorem gone_resolves (h : s.Accounted) (consistent : s.func.Consistent) {list : List InstId}
    (known : ∀ x ∈ list, x ∈ s.placeholders.all) :
    ∃ t, list.foldlM resolve s = .ok t ∧ t.Accounted ∧ t.placeholders = s.placeholders ∧
      ∀ x ∈ s.placeholders.all, x ∈ list ∨ s.func.IsGone x → t.func.IsGone x := by
  induction list generalizing s with
  | nil => exact ⟨s, rfl, h, rfl, fun x _ gone => by simpa using gone⟩
  | cons y rest ih =>
    rw [List.forall_mem_cons] at known
    obtain ⟨t, first, h₁, consistent₁, same, gone, others⟩ := gone_resolve h consistent known.1
    obtain ⟨u, later, h₂, same', all⟩ := ih h₁ consistent₁ (by rw [same]; exact known.2)
    rw [same] at same' all
    refine ⟨u, ?_, h₂, same', fun x hx gone' => all x hx ?_⟩
    · rw [List.foldlM_cons, first]
      exact later
    · rcases gone' with mem | before
      · rcases List.mem_cons.mp mem with rfl | mem
        · exact .inr gone
        · exact .inl mem
      · exact .inr (others x hx before)

/-- The last command of some puts replicas in the place of placeholders. -/
theorem performAll_resolve {commands : List Command} (run : s.performAll commands = .ok t) :
    s.performAll (commands ++ [.resolve]) = t.resolveAll := by
  have first : commands.foldlM perform s = .ok t := run
  rw [performAll, List.foldlM_append, first]
  exact bind_pure t.resolveAll

/-- Whatever commands a repetition of a consistent function has been given: replicas can be put in
the place of placeholders, and then nothing is left of any placeholder that was made. -/
theorem no_placeholder_survives (hf : f.Consistent) {divergence : Divergence} {factor : Nat}
    {map : ReplicaMap} {commands : List Command}
    (run : (start divergence factor f map).performAll commands = .ok s) :
    ∃ t, (start divergence factor f map).performAll (commands ++ [.resolve]) = .ok t ∧
      t.placeholders.all.Nodup ∧ t.placeholders.all.length = t.stats.placeholders ∧
      ∀ x ∈ t.placeholders.all, t.func.IsGone x := by
  obtain ⟨h, consistent⟩ := accounted_performAll .start hf commands s run
  obtain ⟨t, answer, h₁, same, all⟩ := gone_resolves h consistent fun _ => id
  refine ⟨t, (performAll_resolve run).trans answer, h₁.nodup, h₁.count, fun x hx => ?_⟩
  rw [same] at hx
  exact all x hx (.inl hx)

/-- The store of a kernel is repeated before everything that it reads, twice, and then everything
is.  The address gets placeholders that stand for nothing at first, and they are read again after
they have been taken out; in the end six placeholders have been made and nothing is left of them. -/
theorem no_placeholder_survives_pick : ∃ t,
    (start pickFound.divergence 3 pick .empty).performAll
      ([.inst ⟨10⟩, .resolve, .inst ⟨10⟩, .all] ++ [.resolve]) = .ok t ∧
    t.placeholders.all = [⟨13⟩, ⟨14⟩, ⟨19⟩, ⟨20⟩, ⟨23⟩, ⟨24⟩] ∧ t.stats.placeholders = 6 ∧
    ∀ x ∈ t.placeholders.all, t.func.IsGone x := by
  have counts : ((start pickFound.divergence 3 pick .empty).performAll
      [.inst ⟨10⟩, .resolve, .inst ⟨10⟩, .all]).toOption.bind (fun s =>
        s.resolveAll.toOption.map fun t => (t.placeholders.all, t.stats.placeholders)) =
      some ([⟨13⟩, ⟨14⟩, ⟨19⟩, ⟨20⟩, ⟨23⟩, ⟨24⟩], 6) := by
    decide +kernel
  simp only [Option.bind_eq_some_iff, Option.map_eq_some_iff, toOption_eq_some_iff] at counts
  obtain ⟨s, run, t, resolved, counts⟩ := counts
  obtain ⟨u, answer, -, -, gone⟩ := no_placeholder_survives (consistent_assemble ..) run
  obtain rfl : t = u := Except.ok.inj
    (resolved.symm.trans ((performAll_resolve run).symm.trans answer))
  exact ⟨t, answer, congrArg Prod.fst counts, congrArg Prod.snd counts, gone⟩

end Replication

end KernelCoarsening
