/-
Operands of repeated code.

What is placed reads what is placed.  Copies of placeholders are taken out of a copy of a region when
it is put into place, so that nothing may read them, and what is read in the place of an operand has
to be there:

* `Func.Stays`, `Func.Closed` — what is not going to be taken out reads what is not;
* `Replication.Sound` — this is so, and replicas and placeholders are there;
* `Replication.sound_rewire` — an instruction that is rewired reads what is there;
* `Replication.InRow.sound` — so do all instructions when copies of a region are in place.
-/
import KernelCoarsening.Proofs.Coarsening.Splicing

namespace KernelCoarsening

namespace Func

variable {f g h : Func} {i j anchor new : InstId} {doomed : InstId → Prop}

/-- An instruction is placed, and it is not going to be taken out. -/
def Stays (f : Func) (doomed : InstId → Prop) (i : InstId) : Prop :=
  (f.blockOf i).isSome ∧ ¬ doomed i

/-- What stays reads what stays. -/
def Closed (f : Func) (doomed : InstId → Prop) : Prop :=
  ∀ i j, f.Stays doomed i → f.Uses i j → f.Stays doomed j

/-- What stays goes on to stay, and it reads what stays. -/
structure Upholds (doomed : InstId → Prop) (f g : Func) : Prop where
  consistent : g.Consistent
  size : f.insts.size ≤ g.insts.size
  closed : g.Closed doomed
  stays : ∀ j, f.Stays doomed j → g.Stays doomed j

theorem Upholds.refl (hf : f.Consistent) (closed : f.Closed doomed) : f.Upholds doomed f :=
  ⟨hf, Nat.le_refl _, closed, fun _ => id⟩

theorem Upholds.trans (first : f.Upholds doomed g) (second : g.Upholds doomed h) :
    f.Upholds doomed h :=
  ⟨second.consistent, first.size.trans second.size, second.closed, fun j stays =>
    second.stays j (first.stays j stays)⟩

theorem Stays.lt (stays : f.Stays doomed i) : i.index < f.insts.size := lt_of_placed stays.1

/-- A copy of what stays, behind what stays, stays and reads what stays. -/
theorem CopiedBehind.upholds (made : f.CopiedBehind i anchor new g) (consistent : g.Consistent)
    (bound : ∀ j, doomed j → j.index < f.insts.size) (closed : f.Closed doomed)
    (hi : f.Stays doomed i) (behind : f.Stays doomed anchor) :
    f.Upholds doomed g ∧ g.Stays doomed new := by
  have fresh : ¬ new.index < f.insts.size := by rw [made.slot]; exact Nat.lt_irrefl _
  have placed : g.Stays doomed new :=
    ⟨by rw [made.home, Function.update_self]; exact behind.1, fun gone => fresh (bound new gone)⟩
  have old : ∀ j, j ≠ new → (g.Stays doomed j ↔ f.Stays doomed j) := fun j other => by
    rw [Stays, Stays, made.home, Function.update_of_ne other]
  have keep : ∀ j, f.Stays doomed j → g.Stays doomed j := fun j stays =>
    (old j fun same => fresh (same ▸ stays.lt)).mpr stays
  refine ⟨⟨consistent, made.size ▸ Nat.le_succ _, fun a j stays uses => keep j ?_, keep⟩, placed⟩
  by_cases here : a = new
  · subst here
    refine closed i j hi ?_
    rwa [Uses, Func.reads, made.line, Function.update_self] at uses
  · refine closed a j ((old a here).mp stays) (uses.congr ?_)
    rw [Func.reads, Func.reads, made.line, Function.update_of_ne here]

end Func

namespace Replication

open Func

variable {s t : Replication} {i j : InstId} {n : Nat} {doomed wanted : InstId → Prop}

theorem upholds_chainCopies {f : Func} (hf : f.Consistent) {behind : InstId} {name suffix : String}
    {count : Nat} (bound : ∀ j, doomed j → j.index < f.insts.size) (closed : f.Closed doomed)
    (hi : f.Stays doomed i) (hb : f.Stays doomed behind) (alike : f.formOf behind = f.formOf i) :
    Yields (chainCopies i name suffix f behind n count) fun r =>
      f.Upholds doomed r.1 ∧ ∀ c ∈ r.2, r.1.Stays doomed c := by
  induction count generalizing f behind n with
  | zero => exact .pure ⟨.refl hf closed, by simp⟩
  | succ count ih =>
    obtain ⟨f₁, new, g, copied, attached, steers, made⟩ := steers_copyBehind (fun _ => True)
      (fun _ _ => True) hf hi.lt alike trivial (fun _ _ => trivial)
      (suffixed name (suffix ++ replicaSuffix n))
    obtain ⟨first, here⟩ := made.upholds steers.consistent bound closed hi hb
    have form : g.formOf i = f.formOf i := steers.formOf i hi.lt
    have form' : g.formOf new = g.formOf i := by
      rw [form, formOf, formOf, made.line, Function.update_self]
    rw [chainCopies]
    refine .ask fun r answer => .ask fun g' answer' => ?_
    obtain rfl : (f₁, new) = r := Except.ok.inj (copied.symm.trans answer)
    obtain rfl : g = g' := Except.ok.inj (attached.symm.trans answer')
    refine (ih first.consistent (fun j gone => (bound j gone).trans_le first.size) first.closed
      (first.stays i hi) here form').bind fun r later => .pure ⟨first.trans later.1, ?_⟩
    exact List.forall_mem_cons.mpr ⟨later.1.stays new here, later.2⟩

/-- What stays reads what stays, and so are replicas and the placeholders that may be read. -/
structure Sound (doomed wanted : InstId → Prop) (s : Replication) : Prop where
  consistent : s.func.Consistent
  bound : ∀ j, doomed j → j.index < s.func.insts.size
  closed : s.func.Closed doomed
  replicas : ∀ v list, s.map.get? v = some list → ∀ c ∈ list, s.func.Stays doomed c
  held : ∀ v list, wanted v → s.divergence.isDivergent v = true → s.map.get? v = none →
    s.placeholders.get? v = some list → ∀ c ∈ list, s.func.Stays doomed c

/-- A step that keeps all this. -/
structure Sustains (doomed wanted : InstId → Prop) (s t : Replication) : Prop where
  sound : t.Sound doomed wanted
  size : s.func.insts.size ≤ t.func.insts.size
  stays : ∀ j, s.func.Stays doomed j → t.func.Stays doomed j

theorem Sound.refl (h : s.Sound doomed wanted) : s.Sustains doomed wanted s :=
  ⟨h, Nat.le_refl _, fun _ => id⟩

theorem Sustains.trans {u : Replication} (first : s.Sustains doomed wanted t)
    (second : t.Sustains doomed wanted u) : s.Sustains doomed wanted u :=
  ⟨second.sound, first.size.trans second.size, fun j stays => second.stays j (first.stays j stays)⟩

/-- Only the function has been edited. -/
theorem Sound.edit (h : s.Sound doomed wanted) {g : Func} (upholds : s.func.Upholds doomed g) :
    s.Sustains doomed wanted { s with func := g } where
  sound := ⟨upholds.consistent, fun j gone => (h.bound j gone).trans_le upholds.size, upholds.closed,
    fun v list has c hc => upholds.stays c (h.replicas v list has c hc),
    fun v list want div none has c hc => upholds.stays c (h.held v list want div none has c hc)⟩
  size := upholds.size
  stays := upholds.stays

theorem sound_ensurePlaceholders (h : s.Sound doomed wanted) (hi : s.func.Stays doomed i) :
    Yields (s.ensurePlaceholders i) (s.Sustains doomed wanted) := by
  unfold ensurePlaceholders
  split
  · exact .pure h.refl
  · refine .ask fun inst _ => ?_
    refine (upholds_chainCopies h.consistent h.bound h.closed hi hi rfl).bind fun r made => .pure ?_
    obtain ⟨upholds, placed⟩ := made
    have edited := h.edit upholds
    refine ⟨⟨upholds.consistent, edited.sound.bound, upholds.closed, edited.sound.replicas,
      fun v list want div none has c hc => ?_⟩, upholds.size, upholds.stays⟩
    have has : (s.placeholders.insert i r.2).get? v = some list := has
    rw [Placeholders.get?_insert] at has
    split at has
    · obtain rfl := Option.some.inj has
      exact placed c hc
    · exact edited.sound.held v list want div none has c hc

/-- What is read in the place of what stays stays. -/
theorem Sound.operandAt (h : s.Sound doomed wanted) (hj : s.func.Stays doomed j) (want : wanted j)
    {user c : InstId} (read : s.operandAt user n (.inst j) = .inst c) : s.func.Stays doomed c := by
  cases map : s.map.get? j with
  | some list =>
    cases nth : list[n]? with
    | none =>
      obtain rfl : j = c := by simpa [Replication.operandAt, map, nth] using read
      exact hj
    | some replica =>
      by_cases own : replica = user ∨ user ∈ list
      · obtain rfl : j = c := by simpa [Replication.operandAt, map, nth, own] using read
        exact hj
      · obtain rfl : replica = c := by simpa [Replication.operandAt, map, nth, own] using read
        exact h.replicas j list map replica (List.mem_of_getElem? nth)
  | none =>
    by_cases divergent : s.divergence.isDivergent j = true
    · cases nth : (s.placeholders.get? j).bind (·[n]?) with
      | none =>
        obtain rfl : j = c := by simpa [Replication.operandAt, map, divergent, nth] using read
        exact hj
      | some placeholder =>
        obtain rfl : placeholder = c := by
          simpa [Replication.operandAt, map, divergent, nth] using read
        obtain ⟨list, has, nth⟩ := Option.bind_eq_some_iff.mp nth
        exact h.held j list want divergent map has placeholder (List.mem_of_getElem? nth)
    · obtain rfl : j = c := by simpa [Replication.operandAt, map, divergent] using read
      exact hj

theorem sound_rewire (h : s.Sound doomed wanted) (hi : s.func.Stays doomed i)
    (wants : s.func.Wants wanted i) : Yields (rewire n s i) (s.Sustains doomed wanted) := by
  unfold rewire
  split
  · exact .pure h.refl
  · refine .ask fun op answer => ?_
    obtain ⟨ty, line⟩ := operation_eq_ok_iff.mp answer
    have used : ∀ j ∈ op.usedInsts, s.func.Uses i j := fun j hj => uses_iff.mpr ⟨op, ty, line, hj⟩
    refine Yields.bind (p := fun t : Replication => s.Sustains doomed wanted t ∧
      s.func.SameReads (fun _ => False) t.func) (.foldlM ⟨h.refl, .refl _⟩ fun t ht j hj u answer =>
        ?_) fun t ht => .ask fun g modified => .pure ?_
    · have stays := ht.1.stays j (h.closed i j hi (used j hj))
      exact ⟨ht.1.trans (sound_ensurePlaceholders ht.1.sound stays u answer),
        ht.2.trans (sameReads_ensurePlaceholders u answer)⟩
    · obtain ⟨sustains, same⟩ := ht
      have mapped := reads_modifyInst (f := t.func) (m := t.operandAt i n)
        (fun inst => Operation.operands_mapOperands _ inst.op) g modified
      have home : g.blockOf = t.func.blockOf := blockOf_modifyOperation g modified
      have grown := (grows_modifyOperation g modified).insts
      have stays : ∀ {j}, g.Stays doomed j ↔ t.func.Stays doomed j := by simp [Stays, home]
      have upholds : t.func.Upholds doomed g := by
        refine ⟨sustains.sound.consistent.modifyOperation g modified, grown, fun a c ha uses => ?_,
          fun j => stays.mpr⟩
        rw [stays] at ha ⊢
        by_cases here : a = i
        · obtain ⟨values, read, mem⟩ := uses
          rw [mapped, if_pos here, here, same.reads i hi.lt id, Option.map_eq_some_iff] at read
          obtain ⟨before, read, rfl⟩ := read
          obtain ⟨v, hv, became⟩ := List.mem_map.mp mem
          cases v with
          | inst j =>
            have uses : s.func.Uses i j := ⟨before, read, hv⟩
            exact sustains.sound.operandAt (sustains.stays j (h.closed i j hi uses)) (wants j uses)
              became
          | _ => simp [Replication.operandAt] at became
        · exact sustains.sound.closed a c ha (uses.congr (by rw [mapped, if_neg here]))
      exact sustains.trans (sustains.sound.edit upholds)

/-- Instructions are rewired, each once. -/
theorem sound_rewires {list : List InstId} (nodup : list.Nodup) (h : s.Sound doomed wanted)
    (stays : ∀ i ∈ list, s.func.Stays doomed i) (wants : ∀ i ∈ list, s.func.Wants wanted i) :
    Yields (list.foldlM (rewire n) s) (s.Sustains doomed wanted) := by
  induction list generalizing s with
  | nil => exact .pure h.refl
  | cons i rest ih =>
    obtain ⟨new, nodup⟩ := List.nodup_cons.mp nodup
    rw [List.forall_mem_cons] at stays wants
    rw [List.foldlM_cons]
    refine .ask fun t answer => ?_
    have first := sound_rewire h stays.1 wants.1 t answer
    have same := (reads_rewire stays.1.lt t answer).1
    refine (ih nodup first.sound (fun j hj => first.stays j (stays.2 j hj)) fun j hj =>
      (wants.2 j hj).congr (same.reads j (stays.2 j hj).lt fun here => new (here ▸ hj))).mono
        fun u later => first.trans later

section

variable {splice : Splice} {bound : Nat} {top : BlockId} {copy : BlockCopy} {copies : List BlockCopy}
  {before : Option (Bool × Bool) → Option (Bool × Bool) → Prop} {u : Replication} {f₁ f₂ g : Func}

/-- A copy of a region is put into place. -/
theorem PutBehind.sound (put : PutBehind splice bound wanted before s top copy u f₁ f₂ g)
    (h : s.Sound doomed wanted) (nodup : copy.blocks.Nodup)
    (gone : ∀ j, splice.Doomed copy j → doomed j)
    (only : ∀ b ∈ copy.blocks, ∀ i ∈ s.func.code b, doomed i → splice.Doomed copy i)
    (inner : ∀ j, splice.Doomed copy j → Inner (· ∈ copy.blocks) s.func j) :
    s.Sustains doomed wanted { u with func := g } := by
  obtain ⟨f, n, erased, rewired⟩ := put.rewired
  obtain ⟨-, same, -⟩ := erased_held h.consistent splice.held copy f erased
  obtain ⟨f', erased', steers, code⟩ := steers_eraseHeld before h.consistent
    fun k hk j mem => inner j ⟨k, hk, mem⟩
  obtain rfl : f' = f := Except.ok.inj (erased'.symm.trans erased)
  -- copies of placeholders are gone, and nothing else is
  have stays : ∀ {j}, f'.Stays doomed j ↔ s.func.Stays doomed j := by
    intro j
    refine and_congr_left fun kept => ?_
    have placed : ∀ {f : Func}, f.Consistent → ((f.blockOf j).isSome ↔ ∃ b, j ∈ f.code b) := by
      intro f hf
      simp [Option.isSome_iff_exists, hf.mem_code]
    rw [placed steers.consistent, placed h.consistent]
    exact exists_congr fun b => (code b j).trans (and_iff_left fun held => kept (gone j held))
  have first : s.Sustains doomed wanted { s with func := f' } := by
    refine h.edit ⟨steers.consistent, steers.insts, fun i j hi uses => ?_, fun j => stays.mpr⟩
    rw [stays] at hi ⊢
    exact h.closed i j hi (uses.congr (same.reads i hi.lt id))
  have second := sound_rewires (n := n) (nodup_flatMap_code steers.consistent nodup) first.sound
    (fun i hi => by
      obtain ⟨b, hb, inside⟩ := List.mem_flatMap.mp hi
      obtain ⟨mem, kept⟩ := (code b i).mp inside
      exact ⟨by simp [steers.consistent.mem_code.mp inside], fun doom => kept (only b hb i mem doom)⟩)
    (fun i hi => by
      obtain ⟨b, hb, inside⟩ := List.mem_flatMap.mp hi
      have mem := ((code b i).mp inside).1
      exact (put.wants b hb i mem).congr (same.reads i (h.consistent.lt_of_mem_code mem) id))
    u rewired
  -- edges that lead elsewhere do not matter
  have third : u.func.Upholds doomed g := by
    have home := put.joined.blockOf
    refine ⟨put.consistent, put.joined.insts.ge, fun i j hi uses => ?_, fun j => ?_⟩
    · rw [Stays, home] at hi ⊢
      exact second.sound.closed i j hi (uses.congr (put.joined.reads i))
    · rw [Stays, Stays, home]
      exact id
  exact (first.trans second).trans (second.sound.edit third)

/-- What stays reads what stays when copies of a region have been put into place, and copies of
placeholders are gone. -/
theorem InRow.sound (row : InRow splice bound wanted before s top copies t)
    (h : s.Sound doomed wanted) (nodup : ∀ copy ∈ copies, copy.blocks.Nodup)
    (new : ∀ copy ∈ copies, ∀ b ∈ copy.blocks, bound ≤ b.index)
    (apart : copies.Pairwise fun copy copy' => copy.blocks.Disjoint copy'.blocks)
    (can : ∀ copy ∈ copies, Spliceable splice s.func copy)
    (gone : ∀ copy ∈ copies, ∀ j, splice.Doomed copy j → doomed j)
    (only : ∀ copy ∈ copies, ∀ b ∈ copy.blocks, ∀ i ∈ s.func.code b, doomed i →
      splice.Doomed copy i) :
    s.Sustains doomed wanted t ∧
      ∀ copy ∈ copies, ∀ j, splice.Doomed copy j → t.func.blockOf j = none := by
  induction row with
  | nil => exact ⟨h.refl, by simp⟩
  | @cons s u t top copy copies f₁ f₂ g put row ih =>
    rw [List.forall_mem_cons] at nodup new can gone only
    obtain ⟨here, apart⟩ := List.pairwise_cons.mp apart
    have untouched : ∀ copy' ∈ copies, ∀ b ∈ copy'.blocks, g.code b = s.func.code b :=
      fun copy' hc b hb => put.code (new.2 copy' hc b hb) fun mem => here copy' hc mem hb
    have first := put.sound h nodup.1 gone.1 only.1 can.1.inner
    obtain ⟨later, removed⟩ := ih first.sound nodup.2 new.2 apart
      (fun copy' hc => (can.2 copy' hc).keep (put.blocks h.consistent) put.insts
        (fun i b old => put.home old) (untouched copy' hc)) gone.2
      fun copy' hc b hb i hi => only.2 copy' hc b hb i (untouched copy' hc b hb ▸ hi)
    refine ⟨first.trans later, List.forall_mem_cons.mpr ⟨fun j doom => ?_, removed⟩⟩
    obtain ⟨slot, inside⟩ := can.1.inner j doom
    by_contra placed
    obtain ⟨b, there⟩ := Option.ne_none_iff_exists'.mp placed
    have there : g.blockOf j = some b := row.home (slot.trans_le put.insts) there
    have mem : j ∈ u.func.code b := by
      rw [put.tends.func.consistent.mem_code, ← put.joined.blockOf, there]
    exact ((put.cleared b (inside b (put.home slot there)).1 j).mp mem).2 doom

end

end Replication

end KernelCoarsening
