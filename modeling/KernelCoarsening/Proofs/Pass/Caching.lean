/-
A cache that is shared by programs.

Programs with different numbers are worked on in turn, with one cache: questions about
annotations are asked, a program is dropped from the cache, gets an annotation, or is run over.
Who adds an annotation has to drop the program before it is looked at again; a run that adds
annotations does so itself.

* `AnnotationCache.Elsewhere` — work on one program leaves what is held for the others;
* `Act.faithful` — no act makes a cache untrue to its program, but for adding an annotation;
* `Desk.coherent_acts` — in a row of acts, only programs that wait to be dropped have wrong
  entries;
* `Desk.answers_current` — so every answer is what the list of annotations says at that time.
-/
import KernelCoarsening.Proofs.Pass.Effect

namespace KernelCoarsening

/-! ### Questions -/

/-- A question about the annotations of a program. -/
inductive Question where
  | properties (symbol : String)
  | values (symbol key : String)
  | isKernel (f : Func)

/-- An answer to a question. -/
inductive Reply where
  | properties (found : Properties)
  | values (found : List Int64)
  | isKernel (yes : Bool)
  deriving DecidableEq

/-- The answer that a look through the whole list of annotations gives. -/
def Program.reply (p : Program) : Question → Reply
  | .properties symbol =>
    .properties (p.annotations.filterMap fun a =>
      if a.symbol = symbol then some (a.key, a.value) else none)
  | .values symbol key =>
    .values (p.annotations.filterMap fun a =>
      if a.symbol = symbol ∧ a.key = key then some a.value else none)
  | .isKernel f =>
    .isKernel (!f.isDeclaration &&
      if p.annotations.any (·.symbol = f.name) then p.annotations.contains ⟨f.name, kernelKey, 1⟩
      else f.convention = .kernel)

namespace AnnotationCache

/-- The answer that a cache gives for the program with a number, and the cache after it. -/
def reply (c : AnnotationCache) (id : Nat) (p : Program) : Question → Reply × AnnotationCache
  | .properties symbol =>
    let (found, c) := c.properties id p symbol
    (.properties found, c)
  | .values symbol key =>
    let (found, c) := c.values id p symbol key
    (.values found, c)
  | .isKernel f =>
    let (yes, c) := c.isKernel id p f
    (.isKernel yes, c)

end AnnotationCache

namespace Program

variable (p : Program)

theorem properties_eq_filterMap (symbol : String) : p.properties symbol =
    p.annotations.filterMap fun a => if a.symbol = symbol then some (a.key, a.value) else none := by
  unfold properties
  induction p.annotations with
  | nil => rfl
  | cons a rest ih =>
    by_cases same : a.symbol = symbol <;> simp [same, ih]

/-- The values for a key are those of the properties with that key. -/
theorem values_eq_filterMap (symbol key : String) :
    ((p.properties symbol).filter (·.1 == key)).map (·.2) =
      p.annotations.filterMap fun a =>
        if a.symbol = symbol ∧ a.key = key then some a.value else none := by
  unfold properties
  induction p.annotations with
  | nil => rfl
  | cons a rest ih =>
    by_cases same : a.symbol = symbol
    · by_cases named : a.key = key <;> simp [same, named, ← ih]
    · simp [same, ← ih]

/-- An annotation that mentions a function decides whether it is a kernel. -/
theorem reply_isKernel (f : Func) : p.reply (.isKernel f) = .isKernel (p.isKernel f) := by
  have mentioned : (p.properties f.name).isEmpty = !p.annotations.any (·.symbol = f.name) := by
    unfold properties
    induction p.annotations with
    | nil => rfl
    | cons a rest ih => by_cases same : a.symbol = f.name <;> simp_all
  have marked : (p.properties f.name).contains (kernelKey, 1) =
      p.annotations.contains ⟨f.name, kernelKey, 1⟩ := by
    rw [Bool.eq_iff_iff]
    simp only [properties, List.contains_iff_mem, List.mem_map, List.mem_filter, Prod.mk.injEq,
      beq_iff_eq]
    constructor
    · rintro ⟨⟨symbol, key, value⟩, ⟨mem, rfl⟩, rfl, rfl⟩
      exact mem
    · intro mem
      exact ⟨_, ⟨mem, rfl⟩, rfl, rfl⟩
  simp only [reply, isKernel, Func.isKernelWith, mentioned, marked]
  cases p.annotations.any (·.symbol = f.name) <;> simp [beq_eq_decide]

end Program

/-! ### One program -/

namespace AnnotationCache

variable {c c₁ c₂ : AnnotationCache} {id : Nat} {p : Program}

/-- A cache that is true to a program answers as the list of annotations does, and stays so. -/
theorem reply_of_faithful (h : c.Faithful id p) (q : Question) :
    (c.reply id p q).1 = p.reply q ∧ (c.reply id p q).2.Faithful id p := by
  cases q with
  | properties symbol =>
    obtain ⟨found, kept⟩ := properties_of_faithful h symbol
    exact ⟨by simp only [reply, found, Program.reply, Program.properties_eq_filterMap], kept⟩
  | values symbol key =>
    obtain ⟨found, kept⟩ := properties_of_faithful h symbol
    exact ⟨by simp only [reply, values, found, Program.reply, Program.values_eq_filterMap], kept⟩
  | isKernel f =>
    obtain ⟨found, kept⟩ := isKernel_of_faithful h f
    exact ⟨by simp only [reply, found, Program.reply_isKernel], kept⟩

theorem Faithful.of_annotations {q : Program} (h : c.Faithful id p)
    (same : q.annotations = p.annotations) : c.Faithful id q := by
  intro symbol found held
  rw [h symbol found held, Program.properties, Program.properties, same]

/-- Two caches hold the same for all programs but the one with a number. -/
def Elsewhere (id : Nat) (c c' : AnnotationCache) : Prop :=
  ∀ other symbol, other ≠ id → c'.entries.get? (other, symbol) = c.entries.get? (other, symbol)

theorem Elsewhere.refl (c : AnnotationCache) : Elsewhere id c c := fun _ _ _ => rfl

theorem Elsewhere.trans (first : Elsewhere id c c₁) (second : Elsewhere id c₁ c₂) :
    Elsewhere id c c₂ :=
  fun other symbol ne => (second other symbol ne).trans (first other symbol ne)

/-- What a cache holds for another program stays true to that. -/
theorem Elsewhere.faithful {other : Nat} (h : Elsewhere id c c₁) (ne : other ≠ id)
    (faithful : c.Faithful other p) : c₁.Faithful other p := by
  intro symbol found held
  rw [h other symbol ne] at held
  exact faithful symbol found held

theorem elsewhere_evict (c : AnnotationCache) : Elsewhere id c (c.evict id) := by
  intro other symbol ne
  simp only [evict]
  induction c.entries with
  | nil => rfl
  | cons entry entries ih =>
    obtain ⟨⟨owner, name⟩, held⟩ := entry
    by_cases same : owner = id
    · subst same
      simpa [List.filter_cons, Assoc.get?, Ne.symm ne] using ih
    · simp [Assoc.get?, same, ih]

theorem elsewhere_properties (c : AnnotationCache) (p : Program) (symbol : String) :
    Elsewhere id c (c.properties id p symbol).2 := by
  intro other name ne
  unfold properties
  split
  · rfl
  · rw [Assoc.get?_insert, if_neg]
    exact fun same => ne (congrArg Prod.fst same).symm

theorem elsewhere_isKernel (c : AnnotationCache) (p : Program) (f : Func) :
    Elsewhere id c (c.isKernel id p f).2 := by
  unfold isKernel
  split
  · exact .refl c
  · exact elsewhere_properties c p f.name

theorem elsewhere_reply (c : AnnotationCache) (p : Program) (q : Question) :
    Elsewhere id c (c.reply id p q).2 := by
  cases q with
  | properties symbol | values symbol key => exact elsewhere_properties c p symbol
  | isKernel f => exact elsewhere_isKernel c p f

end AnnotationCache

namespace Pass

open AnnotationCache

variable {run : Pass} {cache : AnnotationCache} {id : Nat} {p : Program}

theorem elsewhere_selected (fs : List (Func × Nat)) :
    Elsewhere id cache (run.selected cache id p fs).2 := by
  induction fs generalizing cache with
  | nil => exact .refl cache
  | cons entry fs ih => exact (elsewhere_isKernel cache p entry.1).trans ih

/-- A run for the device leaves what its questions have brought into the cache, or adds annotations
and drops the program. -/
theorem runDevice_cache : Yields (run.runDevice cache id p) fun result =>
    result.program.annotations = p.annotations ∧
        result.cache = (run.selected cache id p p.functions.zipIdx).2 ∨
      result.cache = (run.selected cache id p p.functions.zipIdx).2.evict id := by
  unfold runDevice
  dsimp only
  split
  · exact .pure (.inl ⟨rfl, rfl⟩)
  · split
    · -- only the dynamic mode has kernels to announce
      split
      · exact .pure (.inl ⟨rfl, rfl⟩)
      · refine .ask fun made _ => ?_
        split
        · exact .pure (.inl ⟨rfl, rfl⟩)
        · exact .pure (.inr rfl)
    · split
      · exact .pure (.inl ⟨rfl, rfl⟩)
      · refine .ask fun replaced _ => ?_
        split
        · exact .pure (.inl ⟨rfl, rfl⟩)
        · exact .pure (.inl ⟨rfl, rfl⟩)

/-- What a run leaves in the cache: if it adds annotations, it drops the program, and if not, it
leaves what its questions have brought in. -/
theorem run_cache : Yields (run.run cache id p) fun result =>
    result.program.annotations = p.annotations ∧
        (result.cache = cache ∨ result.cache = (run.selected cache id p p.functions.zipIdx).2) ∨
      result.cache = (run.selected cache id p p.functions.zipIdx).2.evict id := by
  unfold Pass.run
  split
  · exact .pure (.inl ⟨rfl, .inl rfl⟩)
  · split
    · exact runDevice_cache.mono fun _ left => left.imp_left fun same => ⟨same.1, .inr same.2⟩
    · -- on the host nobody asks for annotations, and none is added
      refine .ask fun answer ran => .pure (.inl ⟨?_, .inl rfl⟩)
      rcases runHost_effect ran with ⟨-, same⟩ | ⟨-, -, functions, declared, same, -⟩
      · rw [same]
      · rw [same]

theorem elsewhere_run {result : Result} (h : run.run cache id p = .ok result) :
    Elsewhere id cache result.cache := by
  rcases run_cache _ h with ⟨-, same | same⟩ | same
  · rw [same]
    exact .refl cache
  · rw [same]
    exact elsewhere_selected _
  · rw [same]
    exact (elsewhere_selected _).trans (elsewhere_evict _)

theorem faithful_run {result : Result} (h : run.run cache id p = .ok result)
    (faithful : cache.Faithful id p) : result.cache.Faithful id result.program := by
  rcases run_cache _ h with ⟨annotations, same | same⟩ | same
  · rw [same]
    exact faithful.of_annotations annotations
  · rw [same]
    exact (selected_of_faithful run faithful _).2.of_annotations annotations
  · rw [same]
    exact faithful_evict

end Pass

/-! ### Acts -/

/-- Something that is done with a program and the cache. -/
inductive Act where
  | ask (q : Question)
  | evict
  | annotate (symbol key : String) (value : Int64)
  | run (pass : Pass)

namespace Act

/-- The program with a number and the cache after an act. -/
def apply (id : Nat) (p : Program) (c : AnnotationCache) :
    Act → Except Fault (Program × AnnotationCache)
  | .ask q => .ok (p, (c.reply id p q).2)
  | .evict => .ok (p, c.evict id)
  | .annotate symbol key value => .ok (p.annotate symbol key value, c)
  | .run pass => (fun result => (result.program, result.cache)) <$> pass.run c id p

/-- An act looks into the cache. -/
def looks : Act → Bool
  | .ask _ | .run _ => true
  | .evict | .annotate .. => false

/-- The programs that wait to be dropped after an act on the program at a place. -/
def waiting (m : Nat) (stale : List Nat) : Act → List Nat
  | .annotate .. => m :: stale
  | .evict => stale.filter (· ≠ m)
  | .ask _ | .run _ => stale

variable {id : Nat} {p q : Program} {c c' : AnnotationCache} {act : Act}

theorem elsewhere (h : act.apply id p c = .ok (q, c')) : AnnotationCache.Elsewhere id c c' := by
  cases act with
  | ask question =>
    obtain ⟨-, rfl⟩ : p = q ∧ _ = c' := by simpa [apply] using h
    exact AnnotationCache.elsewhere_reply c p question
  | evict =>
    obtain ⟨-, rfl⟩ : p = q ∧ _ = c' := by simpa [apply] using h
    exact AnnotationCache.elsewhere_evict c
  | annotate symbol key value =>
    obtain ⟨-, rfl⟩ : _ = q ∧ c = c' := by simpa [apply] using h
    exact .refl c
  | run pass =>
    obtain ⟨result, ran, same⟩ := map_eq_ok_iff.mp h
    obtain ⟨-, rfl⟩ : _ = q ∧ _ = c' := by simpa using same
    exact Pass.elsewhere_run ran

/-- After an act the cache is true to the program, if the program does not wait to be dropped
and the cache was so before every look into it. -/
theorem faithful {m : Nat} {stale : List Nat} (h : act.apply id p c = .ok (q, c'))
    (before : m ∉ stale → c.Faithful id p) (after : m ∉ act.waiting m stale) :
    c'.Faithful id q := by
  cases act with
  | ask question =>
    obtain ⟨rfl, rfl⟩ : p = q ∧ _ = c' := by simpa [apply] using h
    exact (AnnotationCache.reply_of_faithful (before after) question).2
  | evict =>
    obtain ⟨-, rfl⟩ : p = q ∧ _ = c' := by simpa [apply] using h
    exact AnnotationCache.faithful_evict
  | annotate symbol key value => simp [waiting] at after
  | run pass =>
    obtain ⟨result, ran, same⟩ := map_eq_ok_iff.mp h
    obtain ⟨rfl, rfl⟩ : _ = q ∧ _ = c' := by simpa using same
    exact Pass.faithful_run ran (before after)

/-- An act changes nothing about who else waits. -/
theorem mem_waiting {m n : Nat} (ne : n ≠ m) (stale : List Nat) :
    n ∈ act.waiting m stale ↔ n ∈ stale := by
  cases act <;> simp [waiting, ne]

end Act

/-- In a row of acts, each with the place of its program, no act looks for a program that waits
to be dropped. -/
def Orderly (stale : List Nat) : List (Nat × Act) → Prop
  | [] => True
  | (m, act) :: rest => (act.looks = true → m ∉ stale) ∧ Orderly (act.waiting m stale) rest

instance decidableOrderly : (stale : List Nat) → (acts : List (Nat × Act)) →
    Decidable (Orderly stale acts)
  | _, [] => .isTrue trivial
  | stale, (m, act) :: rest =>
    haveI := decidableOrderly (act.waiting m stale) rest
    inferInstanceAs (Decidable ((act.looks = true → m ∉ stale) ∧ Orderly (act.waiting m stale) rest))

/-- Programs with their numbers, and the cache that they share. -/
structure Desk where
  programs : List (Nat × Program)
  cache : AnnotationCache

namespace Desk

/-- An act on the program at a place; where there is none, nothing is done. -/
def act (d : Desk) (step : Nat × Act) : Except Fault Desk :=
  match d.programs[step.1]? with
  | none => .ok d
  | some (id, p) =>
    (fun (q, cache) => ⟨d.programs.set step.1 (id, q), cache⟩) <$> step.2.apply id p d.cache

/-- Acts, one after the other. -/
def acts (d : Desk) (steps : List (Nat × Act)) : Except Fault Desk := steps.foldlM act d

/-- The cache is true to all programs but those that wait to be dropped. -/
def Coherent (d : Desk) (stale : List Nat) : Prop :=
  ∀ m id p, d.programs[m]? = some (id, p) → m ∉ stale → d.cache.Faithful id p

variable {d d' : Desk} {stale : List Nat} {steps : List (Nat × Act)}

theorem ids_act {step : Nat × Act} (h : d.act step = .ok d') :
    d'.programs.map (·.1) = d.programs.map (·.1) := by
  unfold act at h
  split at h
  · obtain rfl : d = d' := by simpa using h
    rfl
  · rename_i id p there
    obtain ⟨⟨q, cache⟩, -, rfl⟩ := map_eq_ok_iff.mp h
    obtain ⟨inside, here⟩ := List.getElem?_eq_some_iff.mp there
    have inside' : step.1 < (d.programs.map (·.1)).length := by simpa using inside
    have number : (d.programs.map (·.1))[step.1] = id := by simp [here]
    rw [List.map_set, ← number]
    exact List.set_getElem_self _

/-- An act keeps the cache true to all programs but those that wait to be dropped: work on one
program concerns no entry of another, since their numbers differ. -/
theorem coherent_act (distinct : (d.programs.map (·.1)).Nodup) (h : d.Coherent stale) {m : Nat}
    {act : Act} (done : d.act (m, act) = .ok d') : d'.Coherent (act.waiting m stale) := by
  unfold Desk.act at done
  split at done
  · rename_i none
    obtain rfl : d = d' := by simpa using done
    intro n id p there fresh
    have ne : n ≠ m := by
      rintro rfl
      simp [none] at there
    exact h n id p there (by rwa [Act.mem_waiting ne] at fresh)
  · rename_i id p there
    obtain ⟨⟨q, cache⟩, worked, rfl⟩ := map_eq_ok_iff.mp done
    obtain ⟨inside, here⟩ := List.getElem?_eq_some_iff.mp there
    intro n id' p' there' fresh
    by_cases same : n = m
    · subst same
      obtain ⟨rfl, rfl⟩ : id = id' ∧ q = p' := by
        simpa [List.getElem?_set_self inside] using there'
      exact Act.faithful worked (h n id p there) fresh
    · dsimp only at there'
      rw [List.getElem?_set_ne (Ne.symm same)] at there'
      have other : id' ≠ id := by
        rintro rfl
        have inside' : n < (d.programs.map (·.1)).length := by
          simpa using (List.getElem?_eq_some_iff.mp there').1
        exact same ((List.getElem?_inj inside' distinct).mp (by simp [there, there']))
      rw [Act.mem_waiting same] at fresh
      exact (Act.elsewhere worked).faithful other (h n id' p' there' fresh)

/-- Acts in order, with an act at the end that looks for a program: the cache is true to it. -/
theorem coherent_acts (distinct : (d.programs.map (·.1)).Nodup) (h : d.Coherent stale)
    (done : d.acts steps = .ok d') {m : Nat} {act : Act} {rest : List (Nat × Act)}
    (orderly : Orderly stale (steps ++ (m, act) :: rest)) (looks : act.looks = true) {id : Nat}
    {p : Program} (there : d'.programs[m]? = some (id, p)) : d'.cache.Faithful id p := by
  induction steps generalizing d stale with
  | nil =>
    obtain rfl : d = d' := by simpa [acts, pure, Except.pure] using done
    exact h m id p there (orderly.1 looks)
  | cons step steps ih =>
    obtain ⟨d₁, first, rest⟩ := bind_eq_ok_iff.mp done
    exact ih (by rwa [ids_act first]) (coherent_act distinct h first) rest orderly.2

/-- Programs with different numbers share a cache that was empty at the start.  In a row of acts
in which every program that gets an annotation is dropped before anybody looks for it again, every
answer is what the list of annotations says at that time: to a question that is asked, and to
those that a run asks, one for each function and each with the cache that the last has left. -/
theorem answers_current {programs : List (Nat × Program)} (distinct : (programs.map (·.1)).Nodup)
    {before after : List (Nat × Act)} {m : Nat} {act : Act}
    (orderly : Orderly [] (before ++ (m, act) :: after)) {d : Desk}
    (reached : acts ⟨programs, .empty⟩ before = .ok d) {id : Nat} {p : Program}
    (there : d.programs[m]? = some (id, p)) :
    (∀ q, act = .ask q → (d.cache.reply id p q).1 = p.reply q) ∧
    (∀ pass, act = .run pass → ∀ earlier f later, p.functions.zipIdx = earlier ++ f :: later →
      ((pass.selected d.cache id p earlier).2.reply id p (.isKernel f.1)).1 =
        p.reply (.isKernel f.1)) := by
  have start : Coherent ⟨programs, .empty⟩ [] := fun m id p _ _ => AnnotationCache.faithful_empty
  refine ⟨?_, ?_⟩
  · rintro q rfl
    have faithful := coherent_acts distinct start reached orderly rfl there
    exact (AnnotationCache.reply_of_faithful faithful q).1
  · rintro pass rfl earlier f later -
    have faithful := coherent_acts distinct start reached orderly rfl there
    have kept := (Pass.selected_of_faithful pass faithful earlier).2
    exact (AnnotationCache.reply_of_faithful kept (.isKernel f.1)).1

/-- Two programs in turn: variants are made in the first, it gets an annotation and is dropped
before the next question about it. -/
theorem answers_current_overloads :
    let programs := [(0, overloads), (1, launcher launchSymbol [])]
    let before : List (Nat × Act) := [(0, .run makeAll), (1, .ask (.properties "main")),
      (0, .annotate "_Z1fi" "maxntidx" 128), (0, .evict)]
    let question : Question := .isKernel (idleKernel "_Z1fi")
    (programs.map (·.1)).Nodup ∧ Orderly [] (before ++ [(0, .ask question)]) ∧
      ∃ d p, acts ⟨programs, .empty⟩ before = .ok d ∧ d.programs[0]? = some (0, p) ∧
        (d.cache.reply 0 p question).1 = p.reply question := by
  intro programs before question
  have distinct : (programs.map (·.1)).Nodup := by decide
  have orderly : Orderly [] (before ++ [(0, .ask question)]) := by decide
  obtain ⟨result, -, ran, -⟩ := run_overloads
  have first : act ⟨programs, .empty⟩ (0, .run makeAll) =
      .ok ⟨[(0, result.program), (1, launcher launchSymbol [])], result.cache⟩ := by
    simp only [act, programs, List.getElem?_cons_zero, Act.apply, ran]
    rfl
  have reached : acts ⟨programs, .empty⟩ before = .ok
      ⟨[(0, result.program.annotate "_Z1fi" "maxntidx" 128), (1, launcher launchSymbol [])],
        (result.cache.reply 1 (launcher launchSymbol []) (.properties "main")).2.evict 0⟩ := by
    simp only [acts, before, List.foldlM_cons, first]
    rfl
  exact ⟨distinct, orderly, _, _, reached, rfl,
    (answers_current distinct orderly reached rfl).1 question rfl⟩

end Desk

end KernelCoarsening
