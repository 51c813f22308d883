/-
Running through what is computed from a read.

Behind the read of an extent or an identity stands a chain of instructions that computes what the
read stands for in the logical launch.  A thread runs straight through it:

* `Func.Computes` — a thread gives values to some instructions and does nothing else;
* `Func.exists_extent` — the extent of the logical launch, computed from that of the physical one;
* `Func.exists_identities` — the logical identities, computed from the physical one.
-/
import KernelCoarsening.Proofs.Coarsening.Identities
import KernelCoarsening.Proofs.Execution.Simulation

namespace KernelCoarsening

/-- The register that an operation reads. -/
def Operation.register? (op : Operation) : Option (Register × Dimension) :=
  op.callee?.bind Register.ofAccessor?

/-- Only calls read registers. -/
theorem Operation.act_ne_register {given : Surroundings} {f : Func} {values : Values} {i : InstId}
    {op : Operation} {r : Register} {d : Dimension} (noRead : op.callee? = none) :
    op.act given f values i ≠ .ok (.register r d) := by
  intro h
  cases op with
  | convert o v => cases o <;> simp [act, bind_eq_ok_iff, pure, Except.pure] at h
  | select c t e =>
    simp only [act, bind_eq_ok_iff] at h
    obtain ⟨n, -, h⟩ := h
    split at h <;> simp [bind_eq_ok_iff, pure, Except.pure] at h
  | call callee args => simp [callee?] at noRead
  | _ => simp [act, bind_eq_ok_iff, pure, Except.pure] at h

theorem Operation.register_of_act {given : Surroundings} {f : Func} {values : Values} {i : InstId}
    {op : Operation} {r : Register} {d : Dimension}
    (h : op.act given f values i = .ok (.register r d)) : op.register? = some (r, d) := by
  cases op with
  | call callee args =>
    simp only [act] at h
    split at h
    · rename_i found
      obtain ⟨rfl, rfl⟩ : _ = r ∧ _ = d := by simpa using h
      simpa [register?, callee?] using found
    · simp at h
  | _ => exact absurd h (act_ne_register rfl)

namespace Operation

variable {op : Operation}

theorem exists_call_of_register {r : Register} {d : Dimension} (h : op.register? = some (r, d)) :
    ∃ callee args, op = .call callee args ∧ Register.ofAccessor? callee = some (r, d) := by
  obtain ⟨callee, hcallee, register⟩ := Option.bind_eq_some_iff.mp h
  cases op with
  | call callee' args =>
    obtain rfl : callee' = callee := by simpa [callee?] using hcallee
    exact ⟨_, _, rfl, register⟩
  | _ => simp [callee?] at hcallee

theorem callee?_of_isPhi (phi : op.isPhi = true) : op.callee? = none := by
  cases op with
  | phi incoming => rfl
  | _ => simp [isPhi] at phi

theorem callee?_of_isTerminator (term : op.isTerminator = true) : op.callee? = none := by
  cases op with
  | call callee args => simp [isTerminator] at term
  | _ => rfl

end Operation

namespace Func

variable {f g : Func} {c : CoarseningParams}

/-! ### Steps -/

section line

variable {given : Surroundings} {t : ThreadState} {i x : InstId} {rest : List InstId}
  {op : Operation} {ty ty' : Ty}

theorem step_of_act (head : t.rest = x :: rest) (line : g.line x = some (op, ty))
    (plain : op.isTerminator = false) {action : Action} {d : Datum} {m : Memory}
    (act : op.act given g t.values x = .ok action)
    (performed : action.perform given.position t.memory = .ok (d, m)) :
    g.step given t = .next (computed t x rest ty (d, m)) := by
  rw [step_of_plain head line plain, Operation.execute_eq, act]
  simp only [bind, Except.bind, performed]
  rfl

theorem number_inst {a : Int64} (value : t.values i = some (.number a)) :
    (Value.inst i).number given t.values = .ok a := by
  simp [Value.number, Value.datum, value, bind, Except.bind, Datum.toNumber]

theorem unsigned_inst {a : Int64} (value : t.values i = some (.number a))
    (type : (g.line i).map (·.2) = some ty) :
    (Value.inst i).unsigned given g t.values = .ok (ty.unsigned a) := by
  have known : g.valueType (.inst i) = .ok ty := by
    rw [← toOption_eq_some_iff, valueType_inst, type]
  simp [Value.unsigned, number_inst value, known, bind, Except.bind, Except.mapError, pure,
    Except.pure]

/-- A result that is computed from an instruction and a constant. -/
theorem step_binary_const {o : BinaryOp} {a n k : Int64} (head : t.rest = x :: rest)
    (line : g.line x = some (.binary o (.inst i) (.const k), ty))
    (value : t.values i = some (.number a)) (type : (g.line i).map (·.2) = some ty')
    (result : o.apply a k (ty'.unsigned a) (Ty.i32.unsigned k) = .ok n) :
    g.step given t = .next (computed t x rest ty (.number n, t.memory)) := by
  have act : (Operation.binary o (.inst i) (.const k)).act given g t.values x =
      .ok (.value (.number n)) := by
    simp only [Operation.act, number_inst value, unsigned_inst value type, bind, Except.bind]
    rw [show (Value.const k).number given t.values = .ok k from rfl,
      show (Value.const k).unsigned given g t.values = .ok (Ty.i32.unsigned k) from rfl]
    simp only [result]
    rfl
  exact step_of_act head line rfl act rfl

/-- The sum of two instructions. -/
theorem step_sum {j : InstId} {a b : Int64} {ty'' : Ty} (head : t.rest = x :: rest)
    (line : g.line x = some (.binary .add (.inst i) (.inst j), ty))
    (value : t.values i = some (.number a)) (type : (g.line i).map (·.2) = some ty')
    (value' : t.values j = some (.number b)) (type' : (g.line j).map (·.2) = some ty'') :
    g.step given t = .next (computed t x rest ty (.number (a + b), t.memory)) := by
  have act : (Operation.binary .add (.inst i) (.inst j)).act given g t.values x =
      .ok (.value (.number (a + b))) := by
    simp only [Operation.act, number_inst value, unsigned_inst value type, number_inst value',
      unsigned_inst value' type', bind, Except.bind, BinaryOp.apply]
    rfl
  exact step_of_act head line rfl act rfl

/-- A register. -/
theorem step_register {callee : String} {args : List Value} {r : Register} {d : Dimension}
    (head : t.rest = x :: rest) (line : g.line x = some (.call callee args, ty))
    (register : Register.ofAccessor? callee = some (r, d)) :
    g.step given t = .next (computed t x rest ty
      (.number (Int64.ofNat (given.position.read r d)), t.memory)) := by
  have act : (Operation.call callee args).act given g t.values x = .ok (.register r d) := by
    simp only [Operation.act, register]
  exact step_of_act head line rfl act rfl

/-- What a step that computes a value did. -/
theorem exists_action {s s' : ThreadState} (head : s.rest = i :: rest)
    (line : f.line i = some (op, ty)) (plain : op.isTerminator = false)
    (next : f.step given s = .next s') :
    ∃ action d m, op.act given f s.values i = .ok action ∧
      action.perform given.position s.memory = .ok (d, m) ∧ s' = computed s i rest ty (d, m) := by
  rw [step_of_plain head line plain, ofExcept_eq_next] at next
  obtain ⟨⟨d, m⟩, executed, rfl⟩ := map_eq_ok_iff.mp next
  rw [Operation.execute_eq] at executed
  obtain ⟨action, act, performed⟩ := bind_eq_ok_iff.mp executed
  exact ⟨action, d, m, act, performed, rfl⟩

end line

/-! ### Straight runs -/

/-- A thread gives values to some instructions, one after the other, and does nothing else. -/
inductive Computes (g : Func) (given : Surroundings) :
    List InstId → ThreadState → ThreadState → Prop where
  | none (t : ThreadState) : Computes g given [] t t
  | one {x : InstId} {xs rest : List InstId} {t u : ThreadState} {ty : Ty} {d : Datum}
    (head : t.rest = x :: rest)
    (step : g.step given t = .next (computed t x rest ty (d, t.memory)))
    (others : Computes g given xs (computed t x rest ty (d, t.memory)) u) :
    Computes g given (x :: xs) t u

namespace Computes

variable {given : Surroundings} {xs ys : List InstId} {t u v : ThreadState}

theorem append_iff : g.Computes given (xs ++ ys) t v ↔
    ∃ u, g.Computes given xs t u ∧ g.Computes given ys u v := by
  constructor
  · intro all
    induction xs generalizing t with
    | nil => exact ⟨t, .none t, all⟩
    | cons x xs ih =>
      cases all with
      | one head step others =>
        obtain ⟨u, first, second⟩ := ih others
        exact ⟨u, .one head step first, second⟩
  · rintro ⟨u, first, second⟩
    induction first with
    | none t => exact second
    | one head step _ ih => exact .one head step (ih second)

theorem runs (h : g.Computes given xs t u) : g.run given xs.length (.next t) = .next u := by
  induction h with
  | none t => rfl
  | one _ step _ ih =>
    rw [List.length_cons, run, step]
    exact ih

theorem block (h : g.Computes given xs t u) : u.block = t.block := by
  induction h with
  | none t => rfl
  | one _ _ _ ih => exact ih

theorem memory (h : g.Computes given xs t u) : u.memory = t.memory := by
  induction h with
  | none t => rfl
  | one _ _ _ ih => exact ih

theorem rest (h : g.Computes given xs t u) : t.rest = xs ++ u.rest := by
  induction h with
  | none t => rfl
  | one head _ _ ih => rw [head, List.cons_append, ← ih]; rfl

/-- Other instructions keep their values. -/
theorem others (h : g.Computes given xs t u) {x : InstId} (other : x ∉ xs) :
    u.values x = t.values x := by
  induction h with
  | none t => rfl
  | one _ _ _ ih =>
    rw [List.mem_cons, not_or] at other
    rw [ih other.2]
    simp [computed, Values.set, other.1]

end Computes

section chain

variable (one : Surroundings) {i : InstId} {callee : String} {args : List Value} {ty : Ty}
  {rest : List InstId} {t : ThreadState} {p : Nat}

/-- A thread reads an extent and multiplies it. -/
theorem exists_extent {scaled : InstId} (wide : ty.isWide)
    (register : Register.ofAccessor? callee = some (c.level.extent, c.dim))
    (line : g.line i = some (.call callee args, ty))
    (product : g.line scaled = some (.binary .mul (.inst i) (.ofNat c.factor), ty))
    (head : t.rest = i :: scaled :: rest) :
    ∃ u, g.Computes one [i, scaled] t u ∧ u.values scaled = some (.number (ty.fit
      (Int64.ofNat (c.factor * one.position.read c.level.extent c.dim)))) := by
  let extent := Int64.ofNat (one.position.read c.level.extent c.dim)
  let t₁ := computed t i (scaled :: rest) ty (.number extent, t.memory)
  have value : t₁.values i = some (.number (ty.fit extent)) := by
    simp [t₁, computed, Values.set]
    rfl
  have second : g.step one t₁ = .next (computed t₁ scaled rest ty
      (.number (ty.fit extent * Int64.ofNat c.factor), t.memory)) :=
    step_binary_const rfl product value (by rw [line]; rfl) rfl
  refine ⟨_, .one head (step_register head line register) (.one rfl second (.none _)), ?_⟩
  rw [Nat.mul_comm, Int64.ofNat_mul, ← Ty.fit_mul_left wide]
  simp [computed, Values.set]
  rfl

/-- Adding multiples of the stride to the first identity, one after the other. -/
theorem exists_siblings {base : InstId} (wide : ty.isWide) (sibling : Nat → InstId)
    {k count : Nat}
    (lines : ∀ j, k ≤ j → j < k + count → g.line (sibling j) = some (.binary .add (.inst base)
      (.const (Int64.ofNat j * Int64.ofNat c.stride)), ty))
    (type : (g.line base).map (·.2) = some ty)
    (nodup : (base :: (List.range' k count).map sibling).Nodup)
    (value : t.values base = some (.number (ty.fit (Int64.ofNat (c.identityOf p 0)))))
    (head : t.rest = (List.range' k count).map sibling ++ rest) :
    ∃ u, g.Computes one ((List.range' k count).map sibling) t u ∧
      ∀ j, k ≤ j → j < k + count →
        u.values (sibling j) = some (.number (ty.fit (Int64.ofNat (c.identityOf p j)))) := by
  induction count generalizing k t with
  | zero => exact ⟨t, .none t, fun j from_k below => by omega⟩
  | succ count ih =>
    rw [List.range'_succ, List.map_cons] at nodup head ⊢
    simp only [List.nodup_cons, List.mem_cons, not_or] at nodup
    obtain ⟨⟨baseFirst, baseOthers⟩, firstOthers, nodup⟩ := nodup
    have step : g.step one t = .next (computed t (sibling k) _ ty _) :=
      step_binary_const head (lines k (by omega) (by omega)) value type rfl
    obtain ⟨u, computes, values⟩ := ih (k := k + 1)
      (fun j from_k below => lines j (by omega) (by omega))
      (List.nodup_cons.mpr ⟨baseOthers, nodup⟩)
      (t := computed t (sibling k) _ ty (_, t.memory))
      (by simpa [computed, Values.set, baseFirst] using value) rfl
    refine ⟨u, .one head step computes, fun j from_k below => ?_⟩
    by_cases first : j = k
    · subst first
      rw [computes.others firstOthers]
      simp only [computed, Values.set, if_true]
      exact congrArg (fun w => some (Datum.number w)) (CoarseningParams.fit_sibling wide)
    · exact values j (by omega) (by omega)

/-- A thread reads its identity and computes the first logical one. -/
theorem exists_first {div mul rem base : InstId} (wide : ty.isWide) (stride : 0 < c.stride)
    (smallS : c.stride < 2 ^ 32)
    (register : Register.ofAccessor? callee = some (c.level.identity, c.dim))
    (line : g.line i = some (.call callee args, ty))
    (quotient : g.line div = some (.binary .udiv (.inst i) (.ofNat c.stride), ty))
    (product : g.line mul = some (.binary .mul (.inst div)
      (.const (Int64.ofNat c.factor * Int64.ofNat c.stride)), ty))
    (remainder : g.line rem = some (.binary .urem (.inst i) (.ofNat c.stride), ty))
    (sum : g.line base = some (.binary .add (.inst mul) (.inst rem), ty))
    (nodup : [i, div, mul, rem, base].Nodup)
    (smallP : one.position.read c.level.identity c.dim < 2 ^ 32)
    (head : t.rest = i :: div :: mul :: rem :: base :: rest) :
    ∃ u, g.Computes one [i, div, mul, rem, base] t u ∧ u.values base = some (.number (ty.fit
      (Int64.ofNat (c.identityOf (one.position.read c.level.identity c.dim) 0)))) := by
  simp only [List.nodup_cons, List.mem_cons, List.not_mem_nil, or_false, not_or] at nodup
  obtain ⟨⟨iDiv, iMul, -⟩, -, ⟨mulRem, -⟩, -⟩ := nodup
  let p := one.position.read c.level.identity c.dim
  -- quotient and remainder are those of natural numbers, as the identity fits its type
  obtain ⟨div_eq, rem_eq⟩ := apply_udiv smallP smallS stride (ty.fit (Int64.ofNat p))
  rw [← Ty.unsigned_fit wide smallP, ← Ty.unsigned_ofNat smallS] at div_eq rem_eq
  let t₁ := computed t i (div :: mul :: rem :: base :: rest) ty (.number (Int64.ofNat p), t.memory)
  let t₂ := computed t₁ div (mul :: rem :: base :: rest) ty
    (.number (Int64.ofNat (p / c.stride)), t.memory)
  have second : g.step one t₁ = .next t₂ :=
    step_binary_const rfl quotient (by simp [t₁, computed, Values.set]; rfl) (by rw [line]; rfl)
      div_eq
  let t₃ := computed t₂ mul (rem :: base :: rest) ty (.number (ty.fit (Int64.ofNat (p / c.stride)) *
    (Int64.ofNat c.factor * Int64.ofNat c.stride)), t.memory)
  have third : g.step one t₂ = .next t₃ :=
    step_binary_const rfl product (by simp [t₂, computed, Values.set]; rfl)
      (by rw [quotient]; rfl) rfl
  let t₄ := computed t₃ rem (base :: rest) ty (.number (Int64.ofNat (p % c.stride)), t.memory)
  have fourth : g.step one t₃ = .next t₄ :=
    step_binary_const rfl remainder
      (by simp [t₃, t₂, t₁, computed, Values.set, iDiv, iMul]; rfl) (by rw [line]; rfl) rem_eq
  have fifth : g.step one t₄ = .next (computed t₄ base rest ty
      (.number (ty.fit (ty.fit (Int64.ofNat (p / c.stride)) *
        (Int64.ofNat c.factor * Int64.ofNat c.stride)) + ty.fit (Int64.ofNat (p % c.stride))),
        t.memory)) :=
    step_sum rfl sum (by simp [t₄, t₃, computed, Values.set, mulRem]; rfl)
      (by rw [product]; rfl) (by simp [t₄, computed, Values.set]; rfl) (by rw [remainder]; rfl)
  refine ⟨_, .one head (step_register head line register) (.one rfl second (.one rfl third
    (.one rfl fourth (.one rfl fifth (.none _))))), ?_⟩
  simp only [computed, Values.set, if_true, Datum.fit, CoarseningParams.fit_identity wide]
  rfl

/-- A thread reads its identity and computes the logical ones. -/
theorem exists_identities {div mul rem : InstId} (replica : Nat → InstId) (wide : ty.isWide)
    (factor : 0 < c.factor) (stride : 0 < c.stride) (smallS : c.stride < 2 ^ 32)
    (register : Register.ofAccessor? callee = some (c.level.identity, c.dim))
    (line : g.line i = some (.call callee args, ty))
    (quotient : g.line div = some (.binary .udiv (.inst i) (.ofNat c.stride), ty))
    (product : g.line mul = some (.binary .mul (.inst div)
      (.const (Int64.ofNat c.factor * Int64.ofNat c.stride)), ty))
    (remainder : g.line rem = some (.binary .urem (.inst i) (.ofNat c.stride), ty))
    (sum : g.line (replica 0) = some (.binary .add (.inst mul) (.inst rem), ty))
    (siblings : ∀ k < c.factor, k ≠ 0 → g.line (replica k) = some (.binary .add
      (.inst (replica 0)) (.const (Int64.ofNat k * Int64.ofNat c.stride)), ty))
    (nodup : (i :: div :: mul :: rem :: (List.range c.factor).map replica).Nodup)
    (smallP : one.position.read c.level.identity c.dim < 2 ^ 32)
    (head : t.rest = i :: div :: mul :: rem :: (List.range c.factor).map replica ++ rest) :
    ∃ u, g.Computes one (i :: div :: mul :: rem :: (List.range c.factor).map replica) t u ∧
      ∀ k < c.factor, u.values (replica k) = some (.number (ty.fit
        (Int64.ofNat (c.identityOf (one.position.read c.level.identity c.dim) k)))) := by
  obtain ⟨others, count⟩ : ∃ others, c.factor = others + 1 := ⟨c.factor - 1, by omega⟩
  have split : i :: div :: mul :: rem :: (List.range c.factor).map replica =
      [i, div, mul, rem, replica 0] ++ (List.range' 1 others).map replica := by
    rw [count, List.range_eq_range', List.range'_succ]
    rfl
  rw [split] at nodup head ⊢
  obtain ⟨nodupFirst, nodupOthers, apart⟩ := List.nodup_append'.mp nodup
  have baseOut : replica 0 ∉ (List.range' 1 others).map replica := fun mem =>
    apart (by simp) mem
  obtain ⟨u, first, value⟩ := exists_first one wide stride smallS register line quotient product
    remainder sum nodupFirst smallP (by simpa using head)
  obtain ⟨v, second, values⟩ := exists_siblings one wide replica (k := 1)
    (fun k from_one below => siblings k (by omega) (by omega)) (by rw [sum]; rfl)
    (List.nodup_cons.mpr ⟨baseOut, nodupOthers⟩) value
    (List.append_cancel_left (first.rest.symm.trans (by simpa using head)))
  refine ⟨v, Computes.append_iff.mpr ⟨u, first, second⟩, fun k hk => ?_⟩
  by_cases zero : k = 0
  · rw [zero, second.others baseOut, value]
  · exact values k (by omega) (by omega)

end chain

end Func

end KernelCoarsening
