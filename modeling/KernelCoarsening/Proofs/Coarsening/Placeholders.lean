/-
Placeholders, which stand for replicas that do not exist yet.

* `Placeholders.Orderly` — every placeholder belongs to one value and one place;
* `Placeholders.replacement?_record` — it stands for the replica at that place;
* `Func.GivesWay`, `Replication.exists_resolve_foldlM` — in the end placeholders are gone, and
  what they stand for is read in their place.
-/
import KernelCoarsening.Coarsening.Replication
import KernelCoarsening.Proofs.Execution.Simulation
import KernelCoarsening.Proofs.Ir.Insertion

namespace KernelCoarsening

namespace Placeholders

variable {p : Placeholders} {todo list : List InstId} {i j : InstId} {count low high : Nat}

/-- Placeholders that belong to one value each and to one place in its list. -/
structure Orderly (p : Placeholders) (todo : List InstId) (count low high : Nat) : Prop where
  owner : ∀ i list, p.get? i = some list → i ∈ todo ∧ list.length = count
  mem_all : ∀ x, x ∈ p.all ↔ ∃ i list, p.get? i = some list ∧ x ∈ list
  fresh : ∀ x ∈ p.all, low ≤ x.index ∧ x.index < high
  unique : ∀ i i' list list' (n n' : Nat) x, p.get? i = some list → list[n]? = some x →
    p.get? i' = some list' → list'[n']? = some x → i = i' ∧ n = n'

theorem orderly_empty (low : Nat) : empty.Orderly todo count low low where
  owner i list h := by simp [empty, get?, Assoc.get?] at h
  mem_all x := by simp [empty, all, get?, Assoc.get?]
  fresh x hx := by simp [empty, all] at hx
  unique i i' list list' n n' x h := by simp [empty, get?, Assoc.get?] at h

theorem get?_insert : (p.insert i list).get? j = if i = j then some list else p.get? j := by
  simp [get?, insert]

/-- The placeholders of a value that had none come last. -/
theorem all_insert (none : p.get? i = none) : (p.insert i list).all = p.all ++ list := by
  have last : ∀ held : Assoc InstId (List InstId), held.get? i = Option.none →
      held.insert i list = held ++ [(i, list)] := by
    intro held
    induction held with
    | nil => exact fun _ => rfl
    | cons entry held ih =>
      intro h
      have other : entry.1 ≠ i := by
        rintro rfl
        simp [Assoc.get?] at h
      have later : Assoc.get? held i = Option.none := by simpa [Assoc.get?, other] using h
      simp [Assoc.insert, other, ih later]
  simp [all, insert, last p.held none]

theorem Orderly.mono (orderly : p.Orderly todo count low high) {high' : Nat} (le : high ≤ high') :
    p.Orderly todo count low high' :=
  { orderly with
    fresh := fun x hx => ⟨(orderly.fresh x hx).1, Nat.lt_of_lt_of_le (orderly.fresh x hx).2 le⟩ }

/-- New slots become the placeholders of a value. -/
theorem Orderly.insert (orderly : p.Orderly todo count low high) (hi : i ∈ todo)
    (none : p.get? i = none) (le : low ≤ high) :
    (p.insert i ((List.range' high count).map InstId.mk)).Orderly todo count low
      (high + count) := by
  have new : ∀ x : InstId, x ∈ (List.range' high count).map InstId.mk ↔
      high ≤ x.index ∧ x.index < high + count := by
    rintro ⟨n⟩
    simp
  -- what was there before lies below the new slots
  have old : ∀ j list (n : Nat) x, p.get? j = some list → list[n]? = some x → x.index < high :=
    fun j list n x hj hn => (orderly.fresh x ((orderly.mem_all x).mpr
      ⟨j, list, hj, List.mem_of_getElem? hn⟩)).2
  have place : ∀ n (x : InstId), ((List.range' high count).map InstId.mk)[n]? = some x →
      x.index = high + n := by
    intro n x hx
    rw [List.getElem?_map, Option.map_eq_some_iff] at hx
    obtain ⟨m, hm, rfl⟩ := hx
    obtain ⟨bound, rfl⟩ := List.getElem?_eq_some_iff.mp hm
    simp
  refine ⟨fun j list h => ?_, fun x => ?_, fun x hx => ?_, ?_⟩
  · rw [get?_insert] at h
    by_cases here : i = j
    · obtain rfl : _ = list := by simpa [here] using h
      exact ⟨here ▸ hi, by simp⟩
    · exact orderly.owner j list (by simpa [here] using h)
  · rw [all_insert none, List.mem_append, orderly.mem_all]
    constructor
    · rintro (⟨j, list, hj, hx⟩ | hx)
      · refine ⟨j, list, ?_, hx⟩
        rw [get?_insert, if_neg, hj]
        rintro rfl
        simp [none] at hj
      · exact ⟨i, _, by rw [get?_insert, if_pos rfl], hx⟩
    · rintro ⟨j, list, hj, hx⟩
      rw [get?_insert] at hj
      by_cases here : i = j
      · obtain rfl : _ = list := by simpa [here] using hj
        exact .inr hx
      · exact .inl ⟨j, list, by simpa [here] using hj, hx⟩
  · rw [all_insert none, List.mem_append] at hx
    rcases hx with hx | hx
    · have := orderly.fresh x hx
      omega
    · have := (new x).mp hx
      omega
  · intro j j' list list' n n' x hj hn hj' hn'
    rw [get?_insert] at hj hj'
    by_cases here : i = j <;> by_cases here' : i = j'
    · obtain rfl : _ = list := by simpa [here] using hj
      obtain rfl : _ = list' := by simpa [here'] using hj'
      have first := place n x hn
      have second := place n' x hn'
      exact ⟨here.symm.trans here', by omega⟩
    · obtain rfl : _ = list := by simpa [here] using hj
      have first := place n x hn
      have second := old j' list' n' x (by simpa [here'] using hj') hn'
      omega
    · obtain rfl : _ = list' := by simpa [here'] using hj'
      have first := old j list n x (by simpa [here] using hj) hn
      have second := place n' x hn'
      omega
    · exact orderly.unique j j' list list' n n' x (by simpa [here] using hj) hn
        (by simpa [here'] using hj') hn'

@[simp] theorem get?_record (replicas : List InstId) : (p.record i replicas).get? j = p.get? j := by
  unfold record
  split <;> rfl

@[simp] theorem all_record (replicas : List InstId) : (p.record i replicas).all = p.all := by
  unfold record
  split <;> rfl

theorem Orderly.record (orderly : p.Orderly todo count low high) (replicas : List InstId) :
    (p.record i replicas).Orderly todo count low high where
  owner j list h := orderly.owner j list (by simpa using h)
  mem_all x := by simpa using orderly.mem_all x
  fresh x hx := orderly.fresh x (by simpa using hx)
  unique j j' list list' n n' x hj hn hj' hn' :=
    orderly.unique j j' list list' n n' x (by simpa using hj) hn (by simpa using hj') hn'

/-- The last pair that is entered for a key counts. -/
theorem get?_foldl_insert (pairs : List (InstId × InstId)) (m : Assoc InstId InstId) (x : InstId) :
    (x ∉ pairs.map (·.1) → (pairs.foldl (fun m entry => m.insert entry.1 entry.2) m).get? x =
        m.get? x) ∧
      ∀ y, (∀ z, (x, z) ∈ pairs → z = y) → (x, y) ∈ pairs →
        (pairs.foldl (fun m entry => m.insert entry.1 entry.2) m).get? x = some y := by
  induction pairs generalizing m with
  | nil => simp
  | cons entry pairs ih =>
    obtain ⟨out, last⟩ := ih (m.insert entry.1 entry.2)
    constructor
    · intro notMem
      obtain ⟨other, later⟩ : x ≠ entry.1 ∧ x ∉ pairs.map (·.1) := by
        simpa only [List.map_cons, List.mem_cons, not_or] using notMem
      rw [List.foldl_cons, out later, Assoc.get?_insert, if_neg (Ne.symm other)]
    · intro y only mem
      by_cases later : x ∈ pairs.map (·.1)
      · obtain ⟨⟨x', z⟩, hz, rfl⟩ := List.mem_map.mp later
        obtain rfl := only z (List.mem_cons_of_mem _ hz)
        exact last z (fun w hw => only w (List.mem_cons_of_mem _ hw)) hz
      · have here : (x, y) = entry := by
          rcases List.mem_cons.mp mem with here | mem
          · exact here
          · exact absurd (List.mem_map.mpr ⟨_, mem, rfl⟩) later
        rw [List.foldl_cons, out later, ← here, Assoc.get?_insert, if_pos rfl]

/-- The placeholders of a value stand for its replicas. -/
theorem replacement?_record (orderly : p.Orderly todo count low high) (held : p.get? i = some list)
    (replicas : List InstId) {n : Nat} {x r : InstId} (hx : list[n]? = some x)
    (hr : replicas[n]? = some r) : (p.record i replicas).replacement? x = some r := by
  have answer : (p.record i replicas).replacement? x = ((list.zip replicas).foldl
      (fun (m : Assoc InstId InstId) entry => m.insert entry.1 entry.2) p.replacements).get? x := by
    simp only [record, held]
    rfl
  rw [answer]
  refine (get?_foldl_insert _ _ x).2 r (fun z hz => ?_) ?_
  · obtain ⟨m, hm⟩ := List.getElem?_of_mem hz
    obtain ⟨hx', hz'⟩ : list[m]? = some x ∧ replicas[m]? = some z := by
      simpa [List.getElem?_zip_eq_some] using hm
    obtain ⟨-, rfl⟩ := orderly.unique i i list list n m x held hx held hx'
    simpa [hr] using hz'.symm
  · exact List.mem_of_getElem? (i := n) (by simp [List.getElem?_zip_eq_some, hx, hr])

/-- Other placeholders stand for what they stood for. -/
theorem replacement?_record_of_ne (orderly : p.Orderly todo count low high) (other : i ≠ j)
    {list' : List InstId} (held : p.get? j = some list') (replicas : List InstId) {n : Nat}
    {x : InstId} (hx : list'[n]? = some x) :
    (p.record i replicas).replacement? x = p.replacement? x := by
  unfold record
  cases mine : p.get? i with
  | none => rfl
  | some list =>
    refine (get?_foldl_insert (list.zip replicas) p.replacements x).1 fun mem => other ?_
    obtain ⟨⟨x', z⟩, hz, rfl⟩ := List.mem_map.mp mem
    obtain ⟨m, hm⟩ := List.getElem?_of_mem (List.of_mem_zip hz).1
    exact (orderly.unique i j list list' m n x' mine hm held hx).1

end Placeholders

/-! ### Placeholders give way -/

namespace Func

variable {f g : Func} {i : InstId}

theorem exists_erase (hf : f.Consistent) (old : i.index < f.insts.size) :
    ∃ g, f.erase i = .ok g ∧ g.Consistent ∧ g.params = f.params ∧ g.layout = f.layout ∧
      g.insts.size = f.insts.size ∧ g.line = f.line ∧
      ∀ b, g.code b = (f.code b).filter (· != i) := by
  cases home : f.blockOf i with
  | none =>
    obtain ⟨inst, hinst⟩ := exists_inst old
    have free : inst.block = none := by
      simpa [blockOf, inst_eq_ok_iff.mp hinst] using home
    refine ⟨f, by simp [erase, hinst, free, bind, Except.bind, pure, Except.pure], hf, rfl, rfl, rfl,
      rfl, fun b => (List.filter_eq_self.mpr fun j hj => ?_).symm⟩
    simp only [bne_iff_ne, ne_eq]
    rintro rfl
    simp [hf.mem_code.mp hj] at home
  | some b =>
    obtain ⟨g, answer, same⟩ := hf.outline_erase home
    refine ⟨g, answer, hf.of_withoutInst home same, congrArg Outline.params same,
      congrArg Outline.layout same, congrArg Outline.insts same, congrArg Outline.line same,
      fun c => ?_⟩
    rw [show g.code = _ from congrArg Outline.code same, withoutInst]
    by_cases here : c = b
    · simp [here]
    · simp only [Function.update_of_ne here]
      refine (List.filter_eq_self.mpr fun j hj => ?_).symm
      simp only [bne_iff_ne, ne_eq]
      rintro rfl
      exact here (by simpa [home] using (hf.mem_code.mp hj).symm)

/-- A function in which some instructions have given way to others that are read in their place. -/
structure GivesWay (f g : Func) (gone : List InstId) (other : InstId → InstId) : Prop where
  consistent : g.Consistent
  params : g.params = f.params
  layout : g.layout = f.layout
  code : ∀ b, g.code b = (f.code b).filter fun i => decide (i ∉ gone)
  line : ∀ i, (g.blockOf i).isSome → g.line i = (f.line i).map fun line =>
    (line.1.mapOperands (·.mapInst fun j => if j ∈ gone then other j else j), line.2)

end Func

namespace Replication

variable {s : Replication} {x : InstId}

/-- A placeholder gives way. -/
theorem exists_resolve (consistent : s.func.Consistent) (old : x.index < s.func.insts.size)
    {r : InstId} (replaced : s.placeholders.replacement? x = some r) (other : r ≠ x) :
    ∃ f, s.resolve x = .ok { s with func := f } ∧ s.func.GivesWay f [x] (fun _ => r) ∧
      f.insts.size = s.func.insts.size := by
  obtain ⟨f₁, uses, changed, same⟩ := consistent.outline_replaceUsesExcept x (.inst r) []
  have size : f₁.insts.size = s.func.insts.size := congrArg Outline.insts same
  have home : f₁.blockOf = s.func.blockOf := congrArg Outline.home same
  obtain ⟨f, erased, consistent', params, layout, size', line, code⟩ :=
    Func.exists_erase (consistent.of_alter same) (size ▸ old)
  refine ⟨f, ?_, ⟨consistent', params.trans (congrArg Outline.params same),
    layout.trans (congrArg Outline.layout same), fun b => ?_, fun i placed => ?_⟩, size'.trans size⟩
  · simp [resolve, replaced, other, Func.replaceUses, changed, erased, bind, Except.bind, pure,
      Except.pure]
  · rw [code, show f₁.code b = s.func.code b from congrFun (congrArg Outline.code same) b]
    refine List.filter_congr fun i _ => ?_
    by_cases same : i = x <;> simp [same]
  · -- what is still placed was placed before
    obtain ⟨b, hb⟩ := Option.isSome_iff_exists.mp placed
    have mem := consistent'.mem_code.mpr hb
    rw [code] at mem
    have before := Option.isSome_of_eq_some
      ((consistent.of_alter same).mem_code.mp (List.mem_of_mem_filter mem))
    rw [home] at before
    rw [line, show f₁.line i = _ from congrFun (congrArg Outline.line same) i, Outline.line_alter,
      if_pos ⟨before, by simp⟩]
    simp only [Operation.substitute_inst, List.mem_singleton]
    rfl

/-- Placeholders give way, one after the other. -/
theorem exists_resolve_foldlM {other : InstId → InstId} (gone : List InstId)
    (consistent : s.func.Consistent) (old : ∀ x ∈ gone, x.index < s.func.insts.size)
    (replaced : ∀ x ∈ gone, s.placeholders.replacement? x = some (other x))
    (stays : ∀ x ∈ gone, other x ∉ gone) :
    ∃ s', gone.foldlM resolve s = .ok s' ∧ s.func.GivesWay s'.func gone other := by
  induction gone generalizing s with
  | nil =>
    refine ⟨s, rfl, consistent, rfl, rfl, by simp, fun i _ => ?_⟩
    cases s.func.line i with
    | none => rfl
    | some line => rw [Option.map_some, Operation.mapInst_of_same (by simp)]
  | cons x gone ih =>
    have others := List.forall_mem_cons.mp stays
    have notX : other x ≠ x := fun same => others.1 (by rw [same]; simp)
    obtain ⟨f₁, first, gives₁, size⟩ := exists_resolve consistent (old x (by simp))
      (replaced x (by simp)) notX
    obtain ⟨s', rest, gives⟩ := ih (s := { s with func := f₁ }) gives₁.consistent
      (fun y hy => size ▸ old y (List.mem_cons_of_mem _ hy))
      (fun y hy => replaced y (List.mem_cons_of_mem _ hy))
      (fun y hy mem => others.2 y hy (List.mem_cons_of_mem _ mem))
    refine ⟨s', by rw [List.foldlM_cons, first]; exact rest, gives.consistent,
      gives.params.trans gives₁.params, gives.layout.trans gives₁.layout, fun b => ?_,
      fun i placed => ?_⟩
    · rw [gives.code, gives₁.code, List.filter_filter]
      refine List.filter_congr fun i _ => ?_
      simp [Bool.and_comm]
    · obtain ⟨b, hb⟩ := Option.isSome_iff_exists.mp placed
      have mem := gives.consistent.mem_code.mpr hb
      rw [gives.code] at mem
      have before := Option.isSome_of_eq_some
        (gives₁.consistent.mem_code.mp (List.mem_of_mem_filter mem))
      rw [gives.line i placed, show ({ s with func := f₁ } : Replication).func = f₁ from rfl,
        gives₁.line i before, Option.map_map]
      congr 1
      funext line
      simp only [Function.comp_apply, Operation.mapOperands_mapOperands, Value.mapInst_mapInst,
        List.mem_singleton]
      congr 2
      funext v
      congr 1
      funext j
      have out : other x ∉ gone := fun mem => others.1 (List.mem_cons_of_mem _ mem)
      by_cases same : j = x
      · simp [same, out]
      · simp [same]

end Replication

end KernelCoarsening
