/-
Configurations as text.

A configuration is written as five fields with commas between them.  A reader takes the blanks
around the fields away, and it accepts numbers with a plus sign and with leading zeros:

* `Text.pieces_eq_cons_iff`, `Text.trim_eq_iff`, `Text.word?_eq_some_iff` — what a text is cut
  into, what is left of it without its blanks, and which texts spell a number;
* `DispatchConfig.Valid`, `DispatchConfig.Writes` — the configurations that can be written, and the
  texts that write one;
* `DispatchConfig.parse_eq_ok_iff` — a text is read as a configuration exactly if it writes it;
* `DispatchConfig.parse_text` — so what is written is read back, and nothing else is read.
-/
import KernelCoarsening.Launch.Dispatch
import KernelCoarsening.Proofs.Variant.Naming
import Mathlib

namespace KernelCoarsening

namespace Text

/-! ### Pieces -/

section pieces

variable {c : Char} {cs front next : List Char} {more : List (List Char)}

theorem pieces_ne_nil (c : Char) (cs : List Char) : pieces c cs ≠ [] := by
  cases cs with
  | nil => simp [pieces]
  | cons d cs =>
    rw [pieces]
    split
    · simp
    · split <;> simp

theorem pieces_of_notMem (free : c ∉ cs) : pieces c cs = [cs] := by
  induction cs with
  | nil => rfl
  | cons d cs ih =>
    obtain ⟨other, later⟩ : c ≠ d ∧ c ∉ cs := by simpa using free
    rw [pieces, if_neg (Ne.symm other), ih later]

theorem pieces_append (free : c ∉ front) (rest : List Char) :
    pieces c (front ++ c :: rest) = front :: pieces c rest := by
  induction front with
  | nil => simp [pieces]
  | cons d front ih =>
    obtain ⟨other, later⟩ : c ≠ d ∧ c ∉ front := by simpa using free
    rw [List.cons_append, pieces, if_neg (Ne.symm other), ih later]

/-- A list is its only piece if the separator is not in it. -/
theorem pieces_eq_singleton_iff : pieces c cs = [front] ↔ c ∉ front ∧ cs = front := by
  constructor
  · intro h
    by_cases mem : c ∈ cs
    · obtain ⟨before, behind, rfl, free⟩ := List.eq_append_cons_of_mem mem
      rw [pieces_append free] at h
      exact absurd (List.cons.inj h).2 (pieces_ne_nil c behind)
    · rw [pieces_of_notMem mem] at h
      obtain rfl : cs = front := by simpa using h
      exact ⟨mem, rfl⟩
  · rintro ⟨free, rfl⟩
    exact pieces_of_notMem free

/-- Of several pieces the first one ends at the first separator. -/
theorem pieces_eq_cons_iff : pieces c cs = front :: next :: more ↔
    c ∉ front ∧ ∃ rest, cs = front ++ c :: rest ∧ pieces c rest = next :: more := by
  constructor
  · intro h
    by_cases mem : c ∈ cs
    · obtain ⟨before, behind, rfl, free⟩ := List.eq_append_cons_of_mem mem
      rw [pieces_append free] at h
      obtain ⟨same, later⟩ := List.cons.inj h
      exact ⟨same ▸ free, behind, by rw [same], later⟩
    · simp [pieces_of_notMem mem] at h
  · rintro ⟨free, rest, rfl, h⟩
    rw [pieces_append free, h]

end pieces

/-! ### Blanks -/

/-- A text that neither begins nor ends with a blank. -/
structure Bare (s : String) : Prop where
  first : ∀ c ∈ s.toList.head?, isBlank c = false
  last : ∀ c ∈ s.toList.getLast?, isBlank c = false

/-- A text is another one with blanks around it. -/
def Padded (inner s : String) : Prop :=
  ∃ before behind : List Char, (∀ c ∈ before, isBlank c) ∧ (∀ c ∈ behind, isBlank c) ∧
    s.toList = before ++ (inner.toList ++ behind)

theorem padded_self (s : String) : Padded s s := ⟨[], [], by simp⟩

theorem bare_of_solid {s : String} (solid : ∀ c ∈ s.toList, isBlank c = false) : Bare s where
  first c hc := solid c (List.mem_of_mem_head? hc)
  last c hc := solid c (List.mem_of_mem_getLast? hc)

/-- Blanks around a text bring no comma into it. -/
theorem Padded.comma_mem_iff {inner s : String} (h : Padded inner s) :
    ',' ∈ s.toList ↔ ',' ∈ inner.toList := by
  obtain ⟨before, behind, blank, blank', shape⟩ := h
  have comma : isBlank ',' = false := by decide
  have free : ∀ {cs : List Char}, (∀ c ∈ cs, isBlank c) → ',' ∉ cs := by
    intro cs all mem
    exact absurd (all ',' mem) (by simp [comma])
  simp [shape, free blank, free blank']

section trim

variable {p : Char → Bool} {cs : List Char}

theorem not_of_mem_head?_dropWhile {c : Char} (h : c ∈ (cs.dropWhile p).head?) : p c = false := by
  have stop := List.head?_dropWhile_not p cs
  rw [Option.mem_def.mp h] at stop
  exact stop

theorem dropWhile_of_head? (h : ∀ c ∈ cs.head?, p c = false) : cs.dropWhile p = cs := by
  cases cs with
  | nil => rfl
  | cons c cs => simp [h c (by simp)]

/-- What is left of a text without the blanks at its ends. -/
theorem trim_eq_iff {s t : String} : trim s = t ↔ Bare t ∧ Padded t s := by
  constructor
  · rintro rfl
    have shape : (trim s).toList = ((s.toList.dropWhile isBlank).rdropWhile isBlank) := by
      simp [trim, trimChars, List.rdropWhile]
    have front := List.takeWhile_append_dropWhile (p := isBlank) (l := s.toList)
    have back := List.rdropWhile_append_rtakeWhile (p := isBlank) (l := s.toList.dropWhile isBlank)
    refine ⟨⟨fun c hc => ?_, fun c hc => ?_⟩, s.toList.takeWhile isBlank,
      (s.toList.dropWhile isBlank).rtakeWhile isBlank, fun c hc => ?_, fun c hc => ?_, ?_⟩
    · -- the first character of what is left is the first that is no blank
      rw [shape] at hc
      have first : c ∈ (s.toList.dropWhile isBlank).head? := by
        rw [← back, List.head?_append, Option.mem_def.mp hc]
        rfl
      exact not_of_mem_head?_dropWhile first
    · rw [shape, List.rdropWhile, List.getLast?_reverse] at hc
      exact not_of_mem_head?_dropWhile hc
    · exact List.mem_takeWhile_imp hc
    · exact List.mem_rtakeWhile_imp hc
    · rw [shape, back, front]
  · rintro ⟨bare, before, behind, blank, blank', shape⟩
    have ends : (t.toList ++ behind).dropWhile isBlank = t.toList ++ behind ∨
        t.toList = [] ∧ (t.toList ++ behind).dropWhile isBlank = [] := by
      cases ht : t.toList with
      | nil => exact .inr ⟨rfl, List.dropWhile_eq_nil_iff.mpr blank'⟩
      | cons c rest => exact .inl (dropWhile_of_head? fun d hd => bare.first d (by simpa [ht] using hd))
    have left : trimChars s.toList = t.toList := by
      rw [trimChars, shape, List.dropWhile_append_of_pos blank]
      rcases ends with ends | ⟨none, ends⟩
      · rw [ends, List.reverse_append, List.dropWhile_append_of_pos (by simpa using blank'),
          dropWhile_of_head? (by simpa using bare.last), List.reverse_reverse]
      · rw [ends, none]
        rfl
    rw [trim, left, String.ofList_toList]

end trim

/-! ### Numbers -/

/-- A text spells a number: it consists of digits, perhaps behind a plus sign. -/
def Spells (n : Nat) (s : String) : Prop :=
  ∃ ds : List Char, (s.toList = ds ∨ s.toList = '+' :: ds) ∧ ds ≠ [] ∧ (∀ d ∈ ds, d.isDigit) ∧
    digitsValue ds = n

theorem spells_toString (n : Nat) : Spells n (toString n) :=
  ⟨_, .inl rfl, MangledName.numeral_ne_nil n, fun _ => MangledName.isDigit_of_mem_numeral,
    MangledName.digitsValue_numeral n⟩

/-- What a text behind its plus sign, if it has one, is read as. -/
theorem word?_eq {s : String} {ds : List Char}
    (shape : s.toList = ds ∧ '+' ∉ ds.head? ∨ s.toList = '+' :: ds) :
    word? s = if ds.isEmpty || !ds.all Char.isDigit then none
      else if digitsValue ds < limit32 then some (digitsValue ds) else none := by
  unfold word?
  rcases shape with ⟨shape, unsigned⟩ | shape
  · rw [shape]
    split
    · simp at unsigned
    · rfl
  · rw [shape]
    rfl

/-- A text is read as a number of 32 bits exactly if it spells it. -/
theorem word?_eq_some_iff {s : String} {n : Nat} :
    word? s = some n ↔ Spells n s ∧ n < limit32 := by
  constructor
  · intro h
    obtain ⟨ds, shape⟩ : ∃ ds, s.toList = ds ∧ '+' ∉ ds.head? ∨ s.toList = '+' :: ds := by
      by_cases plus : '+' ∈ s.toList.head?
      · obtain ⟨ds, shape⟩ := List.head?_eq_some_iff.mp plus
        exact ⟨ds, .inr shape⟩
      · exact ⟨s.toList, .inl ⟨rfl, plus⟩⟩
    rw [word?_eq shape] at h
    split at h
    · simp at h
    · rename_i digits
      obtain ⟨some, all⟩ : ds ≠ [] ∧ ∀ d ∈ ds, d.isDigit := by simpa using digits
      obtain ⟨small, rfl⟩ : digitsValue ds < limit32 ∧ digitsValue ds = n := by simpa using h
      exact ⟨⟨ds, shape.imp_left And.left, some, all, rfl⟩, small⟩
  · rintro ⟨⟨ds, shape, some, all, rfl⟩, small⟩
    have unsigned : '+' ∉ ds.head? := fun plus =>
      absurd (all '+' (List.mem_of_mem_head? plus)) (by decide)
    rw [word?_eq (shape.imp_left fun same => ⟨same, unsigned⟩)]
    simpa [some, small] using all

/-- Neither blanks nor commas are needed to spell a number. -/
theorem solid_of_spells {s : String} {n : Nat} (h : Spells n s) :
    ∀ c ∈ s.toList, isBlank c = false ∧ c ≠ ',' := by
  obtain ⟨ds, shape, -, all, -⟩ := h
  have digit : ∀ d : Char, d.isDigit → isBlank d = false ∧ d ≠ ',' := by
    intro d hd
    have bounds : 48 ≤ d.toNat ∧ d.toNat ≤ 57 := by
      simpa [Char.isDigit, UInt32.le_iff_toNat_le] using hd
    constructor
    · simp only [isBlank, Bool.or_eq_false_iff, Bool.and_eq_false_iff, decide_eq_false_iff_not,
        beq_eq_false_iff_ne]
      omega
    · rintro rfl
      simp at bounds
  intro c hc
  rcases shape with shape | shape
  · exact digit c (all c (shape ▸ hc))
  · rw [shape] at hc
    rcases List.mem_cons.mp hc with rfl | hc
    · decide
    · exact digit c (all c hc)

end Text

theorem Dimension.ofText?_eq_some_iff {s : String} {d : Dimension} :
    ofText? s = some d ↔ s = d.text := by
  constructor
  · intro h
    unfold ofText? at h
    split at h <;> simp_all <;> subst h <;> rfl
  · rintro rfl
    exact ofText?_text d

theorem Level.ofText?_eq_some_iff {s : String} {l : Level} : ofText? s = some l ↔ s = l.text := by
  constructor
  · intro h
    unfold ofText? at h
    split at h <;> simp_all <;> subst h <;> rfl
  · rintro rfl
    exact ofText?_text l

namespace DispatchConfig

open Text

variable {c : DispatchConfig} {text : String}

/-- A configuration that can be written: the name of its kernel is no blank, has no blanks at its
ends and no comma inside, and its numbers have 32 bits and are not too small. -/
structure Valid (c : DispatchConfig) : Prop where
  named : c.kernel ≠ ""
  undivided : ',' ∉ c.kernel.toList
  bare : Bare c.kernel
  factor : 2 ≤ c.params.factor ∧ c.params.factor < limit32
  stride : 1 ≤ c.params.stride ∧ c.params.stride < limit32

/-- Five fields with commas between them. -/
def fields (kernel dim level factor stride : String) : String :=
  kernel ++ "," ++ dim ++ "," ++ level ++ "," ++ factor ++ "," ++ stride

/-- A field holds a number. -/
def HoldsNumber (n : Nat) (field : String) : Prop := ∃ s, Padded s field ∧ Spells n s

/-- A text writes a configuration. -/
def Writes (c : DispatchConfig) (text : String) : Prop :=
  ∃ kernel dim level factor stride : String, text = fields kernel dim level factor stride ∧
    Padded c.kernel kernel ∧ Padded c.params.dim.text dim ∧ Padded c.params.level.text level ∧
    HoldsNumber c.params.factor factor ∧ HoldsNumber c.params.stride stride

/-- A text has the five fields between its four commas. -/
theorem split_eq_iff {k d l f s : String} : split ',' text = [k, d, l, f, s] ↔
    text = fields k d l f s ∧ ∀ field ∈ [k, d, l, f, s], ',' ∉ field.toList := by
  have lists : split ',' text = [k, d, l, f, s] ↔
      pieces ',' text.toList = [k.toList, d.toList, l.toList, f.toList, s.toList] := by
    have inj : Function.Injective (List.map String.ofList) :=
      List.map_injective_iff.mpr fun a b same => String.ofList_injective same
    rw [split, ← inj.eq_iff]
    simp
  have shape : text = fields k d l f s ↔ text.toList = k.toList ++ ',' :: (d.toList ++ ',' ::
      (l.toList ++ ',' :: (f.toList ++ ',' :: s.toList))) := by
    rw [← String.toList_inj]
    simp [fields]
  rw [lists, shape]
  simp only [pieces_eq_cons_iff, pieces_eq_singleton_iff, List.forall_mem_cons]
  constructor
  · rintro ⟨hk, _, shape, hd, _, rfl, hl, _, rfl, hf, _, rfl, hs, rfl⟩
    exact ⟨shape, hk, hd, hl, hf, hs, by simp⟩
  · rintro ⟨shape, hk, hd, hl, hf, hs, -⟩
    exact ⟨hk, _, shape, hd, _, rfl, hl, _, rfl, hf, _, rfl, hs, rfl⟩

theorem number_eq_ok_iff {field value : String} {n : Nat} :
    number field value = .ok n ↔ word? value = some n := by
  unfold number
  split <;> simp_all

/-- A text is read as a configuration if its fields without their blanks are those of the
configuration. -/
theorem parse_eq_ok_iff_fields : parse text = .ok c ↔ c.kernel ≠ "" ∧ 2 ≤ c.params.factor ∧
    1 ≤ c.params.stride ∧ ∃ factor stride,
      (split ',' text).map trim = [c.kernel, c.params.dim.text, c.params.level.text, factor, stride] ∧
      word? factor = some c.params.factor ∧ word? stride = some c.params.stride := by
  unfold parse
  split
  · rename_i kernel dim level factor stride found
    rw [found]
    simp only [bind, Except.bind, pure, Except.pure, throw, throwThe, MonadExceptOf.throw]
    constructor
    · intro h
      split at h
      · simp at h
      rename_i named
      split at h
      swap
      · simp at h
      rename_i dim' hdim
      split at h
      swap
      · simp at h
      rename_i level' hlevel
      split at h
      · simp at h
      rename_i n hn
      split at h
      · simp at h
      rename_i m hm
      split at h
      · simp at h
      rename_i large
      split at h
      · simp at h
      rename_i positive
      obtain rfl := Except.ok.inj h
      obtain rfl := Dimension.ofText?_eq_some_iff.mp hdim
      obtain rfl := Level.ofText?_eq_some_iff.mp hlevel
      exact ⟨by simpa using named, Nat.le_of_not_lt large, Nat.pos_of_ne_zero positive,
        factor, stride, rfl, number_eq_ok_iff.mp hn, number_eq_ok_iff.mp hm⟩
    · rintro ⟨named, large, positive, _, _, same, hn, hm⟩
      obtain ⟨rfl, rfl, rfl, rfl, rfl⟩ : kernel = c.kernel ∧ dim = c.params.dim.text ∧
          level = c.params.level.text ∧ factor = _ ∧ stride = _ := by simpa using same
      rw [if_neg (by simpa using named), Dimension.ofText?_text, Level.ofText?_text,
        number_eq_ok_iff.mpr hn, number_eq_ok_iff.mpr hm]
      simp only [if_neg (Nat.not_lt.mpr large), if_neg (Nat.ne_of_gt positive)]
  · rename_i other
    constructor
    · simp
    · rintro ⟨-, -, -, factor, stride, found, -⟩
      exact absurd found (other _ _ _ _ _)

/-- The names of dimensions and levels have neither blanks nor commas. -/
theorem solid_of_names (d : Dimension) (l : Level) :
    (∀ c ∈ d.text.toList, isBlank c = false ∧ c ≠ ',') ∧
      ∀ c ∈ l.text.toList, isBlank c = false ∧ c ≠ ',' := by
  constructor
  · cases d <;> simp [Dimension.text, isBlank]
  · cases l <;> simp [Level.text, isBlank]

/-- What is left of a text without its blanks, if there are none inside. -/
theorem trim_eq_iff_of_solid {s t : String} (solid : ∀ c ∈ t.toList, isBlank c = false ∧ c ≠ ',') :
    trim s = t ↔ Padded t s := by
  rw [trim_eq_iff, and_iff_right (bare_of_solid fun c hc => (solid c hc).1)]

theorem comma_notMem_of_solid {s t : String} (padded : Padded t s)
    (solid : ∀ c ∈ t.toList, isBlank c = false ∧ c ≠ ',') : ',' ∉ s.toList := by
  rw [padded.comma_mem_iff]
  exact fun mem => (solid ',' mem).2 rfl

/-- A text is read as a configuration exactly if the configuration can be written and the text
writes it. -/
theorem parse_eq_ok_iff : parse text = .ok c ↔ c.Valid ∧ c.Writes text := by
  obtain ⟨dims, levels⟩ := solid_of_names c.params.dim c.params.level
  rw [parse_eq_ok_iff_fields]
  constructor
  · rintro ⟨named, large, positive, factor, stride, found, hn, hm⟩
    obtain ⟨n, smallN⟩ := word?_eq_some_iff.mp hn
    obtain ⟨m, smallM⟩ := word?_eq_some_iff.mp hm
    simp only [List.map_eq_cons_iff, List.map_eq_nil_iff] at found
    obtain ⟨k, _, cut, hk, d, _, rfl, hd, l, _, rfl, hl, f, _, rfl, hf, s, _, rfl, hs, rfl⟩ := found
    obtain ⟨shape, free⟩ := split_eq_iff.mp cut
    obtain ⟨bare, padded⟩ := trim_eq_iff.mp hk
    have undivided : ',' ∉ c.kernel.toList := padded.comma_mem_iff.not.mp (free k (by simp))
    exact ⟨⟨named, undivided, bare, ⟨large, smallN⟩, positive, smallM⟩, k, d, l, f, s, shape, padded,
      (trim_eq_iff_of_solid dims).mp hd, (trim_eq_iff_of_solid levels).mp hl,
      ⟨factor, (trim_eq_iff_of_solid (solid_of_spells n)).mp hf, n⟩,
      stride, (trim_eq_iff_of_solid (solid_of_spells m)).mp hs, m⟩
  · rintro ⟨valid, k, d, l, f, s, rfl, hk, hd, hl, ⟨factor, hf, n⟩, stride, hs, m⟩
    have cut : split ',' (fields k d l f s) = [k, d, l, f, s] := by
      refine split_eq_iff.mpr ⟨rfl, ?_⟩
      simp only [List.forall_mem_cons]
      exact ⟨hk.comma_mem_iff.not.mpr valid.undivided, comma_notMem_of_solid hd dims,
        comma_notMem_of_solid hl levels, comma_notMem_of_solid hf (solid_of_spells n),
        comma_notMem_of_solid hs (solid_of_spells m), by simp⟩
    refine ⟨valid.named, valid.factor.1, valid.stride.1, factor, stride, ?_,
      word?_eq_some_iff.mpr ⟨n, valid.factor.2⟩, word?_eq_some_iff.mpr ⟨m, valid.stride.2⟩⟩
    rw [cut, List.map_cons, List.map_cons, List.map_cons, List.map_cons, List.map_cons, List.map_nil,
      trim_eq_iff.mpr ⟨valid.bare, hk⟩, (trim_eq_iff_of_solid dims).mpr hd,
      (trim_eq_iff_of_solid levels).mpr hl, (trim_eq_iff_of_solid (solid_of_spells n)).mpr hf,
      (trim_eq_iff_of_solid (solid_of_spells m)).mpr hs]

/-- The text of a configuration writes it. -/
theorem writes_text (c : DispatchConfig) : c.Writes c.text :=
  ⟨_, _, _, _, _, rfl, padded_self _, padded_self _, padded_self _,
    ⟨_, padded_self _, spells_toString _⟩, _, padded_self _, spells_toString _⟩

/-- Configurations are read back, whatever blanks stand around their fields, and nothing else is
read: what is read as a configuration writes one that can be written, and the text of that one is
read as it too. -/
theorem parse_text (c : DispatchConfig) :
    (c.Valid → ∀ kernel dim level factor stride : String, Padded c.kernel kernel →
      Padded c.params.dim.text dim → Padded c.params.level.text level →
      Padded (toString c.params.factor) factor → Padded (toString c.params.stride) stride →
        parse (kernel ++ "," ++ dim ++ "," ++ level ++ "," ++ factor ++ "," ++ stride) = .ok c) ∧
    ∀ text, parse text = .ok c → c.Valid ∧ c.Writes text ∧ parse c.text = .ok c := by
  constructor
  · intro valid kernel dim level factor stride hk hd hl hf hs
    exact parse_eq_ok_iff.mpr ⟨valid, kernel, dim, level, factor, stride, rfl, hk, hd, hl,
      ⟨_, hf, spells_toString _⟩, _, hs, spells_toString _⟩
  · intro text h
    obtain ⟨valid, writes⟩ := parse_eq_ok_iff.mp h
    exact ⟨valid, writes, parse_eq_ok_iff.mpr ⟨valid, writes_text c⟩⟩

/-- A configuration that is read although blanks stand around its kernel and its factor. -/
theorem parse_vecAdd :
    Valid ⟨"vecAdd", ⟨.thread, .x, 4, 2⟩⟩ ∧ Padded "vecAdd" " vecAdd\t" ∧ Padded "4" "  4" ∧
      parse (" vecAdd\t" ++ "," ++ "x" ++ "," ++ "thread" ++ "," ++ "  4" ++ "," ++ "2") =
        .ok ⟨"vecAdd", ⟨.thread, .x, 4, 2⟩⟩ ∧
      parse "vecAdd,x,thread,4,2" = .ok ⟨"vecAdd", ⟨.thread, .x, 4, 2⟩⟩ := by
  have valid : Valid ⟨"vecAdd", ⟨.thread, .x, 4, 2⟩⟩ := by
    refine ⟨by decide, by simp, bare_of_solid ?_, by decide, by decide⟩
    simp [isBlank]
  have kernel : Padded "vecAdd" " vecAdd\t" :=
    ⟨[' '], ['\t'], by simp [isBlank], by simp [isBlank], by simp⟩
  have factor : Padded "4" "  4" := ⟨[' ', ' '], [], by simp [isBlank], by simp, by simp⟩
  obtain ⟨reads, only⟩ := parse_text ⟨"vecAdd", ⟨.thread, .x, 4, 2⟩⟩
  have read := reads valid _ _ _ _ _ kernel (padded_self _) (padded_self _) factor (padded_self _)
  exact ⟨valid, kernel, factor, read, (only _ read).2.2⟩

end DispatchConfig

end KernelCoarsening
