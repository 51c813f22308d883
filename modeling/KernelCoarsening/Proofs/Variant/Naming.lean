/-
Names of variants.

The symbol of a variant is read back as the identifiers of the kernel with the suffix behind
the innermost one, and the suffix tells how the kernel was coarsened:

* `MangledName.ofChars?_withIdent` — a symbol with a longer identifier is read back as such;
* `baseName_suffixSymbol` — so the base name of a variant is that of the kernel with the
  suffix behind it;
* `CoarseningParams.append_suffix_inj` — a base name with a suffix behind it tells both;
* `CoarseningParams.symbol_spec` — the symbol of a variant is that of the kernel, but for the
  innermost identifier and its length.
-/
import KernelCoarsening.Variant.Catalog
import Mathlib

namespace KernelCoarsening

namespace MangledName

/-! ### Lengths -/

theorem takeBytes?_byteLength (taken rest : List Char) :
    takeBytes? (byteLength taken) (taken ++ rest) = some (taken, rest) := by
  induction taken with
  | nil => cases rest <;> simp [byteLength, takeBytes?]
  | cons c taken ih =>
    obtain ⟨n, hn⟩ : ∃ n, byteLength (c :: taken) = n + 1 := by
      have := c.utf8Size_pos
      exact ⟨c.utf8Size - 1 + byteLength taken, by simp only [byteLength, List.foldr_cons]; omega⟩
    have split : byteLength (c :: taken) = c.utf8Size + byteLength taken := rfl
    rw [hn, List.cons_append, takeBytes?, if_pos (by omega),
      show n + 1 - c.utf8Size = byteLength taken by omega, ih]
    rfl

theorem byteLength_of_takeBytes? {n : Nat} {cs taken rest : List Char}
    (h : takeBytes? n cs = some (taken, rest)) : byteLength taken = n := by
  induction n, cs using takeBytes?.induct generalizing taken with
  | case1 cs =>
    obtain ⟨rfl, -⟩ : [] = taken ∧ cs = rest := by simpa [takeBytes?] using h
    rfl
  | case2 n hn => cases n <;> simp_all [takeBytes?]
  | case3 n c cs fits ih =>
    simp only [takeBytes?, fits, if_true, Option.map_eq_some_iff, Prod.mk.injEq] at h
    obtain ⟨⟨more, rest'⟩, hmore, rfl, rfl⟩ := h
    have := ih hmore
    simp only [byteLength, List.foldr_cons] at this ⊢
    omega
  | case4 n c cs big => simp [takeBytes?, big] at h

/-- The digits of a number, as they are written. -/
def numeral (n : Nat) : List Char := (toString n).toList

theorem numeral_eq (n : Nat) : numeral n = Nat.toDigits 10 n := Nat.toList_repr

theorem isDigit_of_mem_numeral {n : Nat} {c : Char} (h : c ∈ numeral n) : c.isDigit := by
  rw [numeral_eq] at h
  exact Nat.isDigit_of_mem_toDigits (by decide) (by decide) h

theorem numeral_ne_nil (n : Nat) : numeral n ≠ [] := by
  rw [numeral_eq]
  exact Nat.toDigits_ne_nil

theorem digitsValue_numeral (n : Nat) : Text.digitsValue (numeral n) = n := by
  have value := Nat.ofDigitChars_ten_toDigits (n := n)
  rw [Nat.ofDigitChars_eq_foldl] at value
  rw [numeral_eq]
  simpa [Text.digitsValue, Nat.mul_comm] using value

/-! ### Identifiers -/

/-- The first character, if there is one, is no digit. -/
def NoDigitFirst (cs : List Char) : Prop := ∀ c ∈ cs.head?, c.isDigit = false

theorem NoDigitFirst.append {cs more : List Char} (h : NoDigitFirst cs) (some : cs ≠ []) :
    NoDigitFirst (cs ++ more) := by
  cases cs with
  | nil => exact absurd rfl some
  | cons c cs => exact h

theorem NoDigitFirst.takeWhile {digits cs : List Char} (all : ∀ d ∈ digits, d.isDigit)
    (h : NoDigitFirst cs) : (digits ++ cs).takeWhile Char.isDigit = digits ∧
      (digits ++ cs).dropWhile Char.isDigit = cs := by
  have stop : cs.takeWhile Char.isDigit = [] ∧ cs.dropWhile Char.isDigit = cs := by
    cases cs with
    | nil => simp
    | cons c cs =>
      have : c.isDigit = false := h c (by simp)
      simp [this]
  rw [List.takeWhile_append_of_pos all, List.dropWhile_append_of_pos all, stop.1, stop.2]
  simp

/-- A length and an identifier of that length are read back. -/
theorem sourceName?_append {digits ident rest : List Char} (some : digits ≠ [])
    (all : ∀ d ∈ digits, d.isDigit) (length : Text.digitsValue digits = byteLength ident)
    (first : NoDigitFirst (ident ++ rest)) :
    sourceName? (digits ++ (ident ++ rest)) = .some (digits, ident, rest) := by
  obtain ⟨taken, dropped⟩ := first.takeWhile all
  simp [sourceName?, taken, dropped, some, length, takeBytes?_byteLength]

theorem sourceName?_numeral {ident rest : List Char} (first : NoDigitFirst (ident ++ rest)) :
    sourceName? (numeral (byteLength ident) ++ (ident ++ rest)) =
      some (numeral (byteLength ident), ident, rest) :=
  sourceName?_append (numeral_ne_nil _) (fun _ => isDigit_of_mem_numeral)
    (digitsValue_numeral _) first

/-- What has been read as a length and an identifier. -/
theorem sourceName?_spec {cs digits ident rest : List Char}
    (h : sourceName? cs = some (digits, ident, rest)) :
    digits ≠ [] ∧ (∀ d ∈ digits, d.isDigit) ∧ Text.digitsValue digits = byteLength ident ∧
      NoDigitFirst (ident ++ rest) ∧ cs = digits ++ (ident ++ rest) := by
  obtain ⟨nonempty, shape⟩ := sourceName?_eq_some h
  rw [List.append_assoc] at shape
  simp only [sourceName?] at h
  split at h
  · simp at h
  · cases ht : takeBytes? (Text.digitsValue (cs.takeWhile Char.isDigit))
        (cs.dropWhile Char.isDigit) with
    | none => simp [ht] at h
    | some found =>
      obtain ⟨taken, left⟩ := found
      obtain ⟨rfl, rfl, rfl⟩ : cs.takeWhile Char.isDigit = digits ∧ taken = ident ∧ left = rest := by
        simpa [ht] using h
      refine ⟨nonempty, fun d hd => List.all_eq_true.mp List.all_takeWhile d hd,
        (byteLength_of_takeBytes? ht).symm, ?_, shape⟩
      rw [← takeBytes?_eq_some ht]
      intro c hc
      by_contra digit
      have stop := List.head?_dropWhile_not Char.isDigit cs
      simp only [Option.mem_def] at hc
      simp [hc, digit] at stop

/-! ### Symbols -/

theorem withIdent_eq (m : MangledName) (ident : List Char) :
    m.withIdent ident = m.lead ++ (numeral (byteLength ident) ++ (ident ++ m.tail)) := by
  simp [withIdent, numeral]

section suffix

variable {suffix : List Char}

/-- Reading a nested name goes on behind its first identifier. -/
theorem nested?_of_sourceName? {cs digits ident rest : List Char} {c : Char}
    (h : sourceName? cs = some (digits, ident, c :: rest)) :
    nested? cs = if c.isDigit then (nested? (c :: rest)).map (·.inside digits ident)
      else if c = 'E' ∨ c = 'I' then some { lead := [], outer := [], ident, tail := c :: rest }
      else none := by
  rw [nested?]
  split
  · simp_all
  · simp_all
  · rename_i digits' ident' c' rest' h'
    obtain ⟨rfl, rfl, rfl, rfl⟩ : digits' = digits ∧ ident' = ident ∧ c' = c ∧ rest' = rest := by
      simpa [h'] using h
    rfl

/-- A nested name with a longer innermost identifier is read back; it starts with a digit. -/
theorem nested?_withIdent (some : suffix ≠ []) (first : NoDigitFirst suffix) {cs : List Char}
    {m : MangledName} (h : nested? cs = .some m) :
    nested? (m.withIdent (m.ident ++ suffix)) = .some { m with ident := m.ident ++ suffix } ∧
      ∀ d ∈ (m.withIdent (m.ident ++ suffix)).head?, d.isDigit := by
  have digitFirst : ∀ {digits more : List Char}, digits ≠ [] → (∀ d ∈ digits, d.isDigit) →
      ∀ d ∈ (digits ++ more).head?, d.isDigit := by
    intro digits more nonempty all d hd
    cases digits with
    | nil => exact absurd rfl nonempty
    | cons e digits =>
      obtain rfl : e = d := by simpa using hd
      exact all e (by simp)
  induction cs using nested?.induct generalizing m with
  | case1 cs unread =>
    rw [nested?] at h
    split at h <;> simp_all
  | case2 cs digits ident read =>
    rw [nested?] at h
    split at h <;> simp_all
  | case3 cs digits ident c rest read digit ih =>
    rw [nested?_of_sourceName? read, if_pos digit, Option.map_eq_some_iff] at h
    obtain ⟨inner, hinner, rfl⟩ := h
    obtain ⟨again, digits'⟩ := ih hinner
    obtain ⟨nonempty, all, length, noDigit, -⟩ := sourceName?_spec read
    -- the outer identifier is not empty, since a digit follows it
    have outer : ident ≠ [] := by
      rintro rfl
      have := noDigit c (by simp)
      simp [digit] at this
    have shape : (inner.inside digits ident).withIdent ((inner.inside digits ident).ident ++ suffix) =
        digits ++ (ident ++ inner.withIdent (inner.ident ++ suffix)) := by
      simp [withIdent, inside]
    rw [shape]
    refine ⟨?_, digitFirst nonempty all⟩
    have noDigit : NoDigitFirst ident := by
      cases ident with
      | nil => exact absurd rfl outer
      | cons e ident => exact noDigit
    have ahead : NoDigitFirst (ident ++ inner.withIdent (inner.ident ++ suffix)) :=
      noDigit.append outer
    have read' := sourceName?_append nonempty all length ahead
    cases hc : inner.withIdent (inner.ident ++ suffix) with
    | nil => simp [withIdent_eq, numeral_ne_nil] at hc
    | cons d more =>
      rw [hc] at read' again digits'
      rw [nested?_of_sourceName? read', if_pos (digits' d (by simp)), again]
      rfl
  | case4 cs digits ident c rest read noDigit last =>
    rw [nested?_of_sourceName? read, if_neg noDigit, if_pos last] at h
    obtain rfl : _ = m := by simpa using h
    have follows : NoDigitFirst (ident ++ suffix ++ (c :: rest)) := by
      obtain ⟨_, _, _, noDigit', _⟩ := sourceName?_spec read
      cases ident with
      | nil => exact first.append some
      | cons e ident => exact noDigit'
    rw [withIdent_eq, List.nil_append]
    refine ⟨?_, digitFirst (numeral_ne_nil _) fun _ => isDigit_of_mem_numeral⟩
    rw [nested?_of_sourceName? (sourceName?_numeral follows), if_neg noDigit, if_pos last]
  | case5 cs digits ident c rest read noDigit other =>
    rw [nested?_of_sourceName? read, if_neg noDigit, if_neg other] at h
    simp at h

/-- An identifier that does not end in a small letter was not cut short. -/
theorem widen_of_last {ident : List Char} (last : ∀ c ∈ ident.getLast?, c.isLower = false)
    (rest : List Char) : widen ident rest = (ident, rest) := by
  unfold widen
  split
  · rename_i c d e more hc
    simp [last c hc]
  · rfl

/-- A plain name with a longer identifier is read back, if the identifier does not end in a
letter. -/
theorem plain?_withIdent (first : NoDigitFirst suffix) (some : suffix ≠ [])
    (last : ∀ c ∈ suffix.getLast?, c.isLower = false) {lead cs : List Char} {m : MangledName}
    (h : plain? lead cs = .some m) :
    plain? lead (numeral (byteLength (m.ident ++ suffix)) ++ (m.ident ++ suffix ++ m.tail)) =
      .some { m with ident := m.ident ++ suffix } ∧ m.lead = lead := by
  cases hs : sourceName? cs with
  | none => simp [plain?, hs] at h
  | some read =>
    obtain ⟨digits, ident, rest⟩ := read
    obtain ⟨_, _, _, noDigit, _⟩ := sourceName?_spec hs
    obtain rfl : { lead, outer := [], ident := (widen ident rest).1, tail := (widen ident rest).2 }
        = m := by
      simpa [plain?, hs] using h
    refine ⟨?_, rfl⟩
    -- the length that is written is the whole numeral: no digit follows it
    have follows : NoDigitFirst ((widen ident rest).1 ++ suffix ++ (widen ident rest).2) := by
      cases ident with
      | nil =>
        have : widen [] rest = ([], rest) := by cases rest <;> rfl
        rw [this]
        exact first.append some
      | cons e ident =>
        have : (widen (e :: ident) rest).1 = e :: ident ∨
            ∃ c, (widen (e :: ident) rest).1 = e :: ident ++ [c] := by
          unfold widen
          split
          · split
            · exact .inr ⟨_, rfl⟩
            · exact .inl rfl
          · exact .inl rfl
        rcases this with same | ⟨c, same⟩ <;> rw [same] <;> exact noDigit
    have ends : ((widen ident rest).1 ++ suffix).getLast? = suffix.getLast? := by
      rw [List.getLast?_append]
      cases hl : suffix.getLast? with
      | none => exact absurd (List.getLast?_eq_none_iff.mp hl) some
      | some c => rfl
    have kept := widen_of_last (ends ▸ last) (widen ident rest).2
    rw [plain?, sourceName?_numeral follows]
    simp [kept]

/-- Reads the name behind the lead of a mangled symbol. -/
def named? (lead : List Char) : List Char → Option MangledName
  | 'N' :: cs =>
    let lead := lead ++ 'N' :: cs.takeWhile isQualifier
    (nested? (cs.dropWhile isQualifier)).map fun m => { m with lead := lead ++ m.lead }
  | cs => plain? lead cs

theorem ofChars?_of_head {c : Char} (other : c ≠ 'L') (cs : List Char) :
    ofChars? ('_' :: 'Z' :: c :: cs) = named? ['_', 'Z'] (c :: cs) := by
  unfold ofChars?
  split
  · rename_i shape
    obtain ⟨_, _, rfl⟩ : '_' = '_' ∧ 'Z' = 'Z' ∧ _ = c :: cs := by
      simpa using shape.symm
    split
    rename_i lead rest shape
    split at shape
    · rename_i same
      exact absurd (List.cons.inj same).1 other
    · obtain ⟨rfl, rfl⟩ : ['_', 'Z'] = lead ∧ c :: cs = rest := by simpa using shape
      rfl
  · rename_i no
    exact absurd rfl (no (c :: cs))

theorem named?_of_digit {c : Char} (digit : c.isDigit) (lead cs : List Char) :
    named? lead (c :: cs) = plain? lead (c :: cs) := by
  unfold named?
  split
  · rename_i shape
    obtain ⟨rfl, -⟩ := List.cons.inj shape
    exact absurd digit (by decide)
  · rfl

/-- What a suffix has to look like to stay a part of the identifier. -/
structure IsSuffix (suffix : List Char) : Prop where
  under : suffix.head? = some '_'
  plain : ¬ ['_', 'Z'] <+: suffix
  last : ∀ c ∈ suffix.getLast?, c.isLower = false

theorem IsSuffix.some (h : IsSuffix suffix) : suffix ≠ [] := by
  rintro rfl
  exact absurd h.under (by simp)

theorem IsSuffix.first (h : IsSuffix suffix) : NoDigitFirst suffix := by
  intro c hc
  obtain rfl : '_' = c := by simpa [h.under] using hc
  decide

theorem named?_withIdent (h : IsSuffix suffix) {lead cs : List Char} {m : MangledName}
    (read : named? lead cs = some m) :
    ∃ c more, c ≠ 'L' ∧ m.withIdent (m.ident ++ suffix) = lead ++ (c :: more) ∧
      named? lead (c :: more) = some { m with ident := m.ident ++ suffix } := by
  unfold named? at read
  split at read
  · rename_i rest
    rw [Option.map_eq_some_iff] at read
    obtain ⟨inner, hinner, rfl⟩ := read
    obtain ⟨again, digit⟩ := nested?_withIdent h.some h.first hinner
    refine ⟨'N', rest.takeWhile isQualifier ++ inner.withIdent (inner.ident ++ suffix), by decide,
      by simp [withIdent], ?_⟩
    -- the digit that the names start with ends the qualifiers
    have stop : (inner.withIdent (inner.ident ++ suffix)).takeWhile isQualifier = [] ∧
        (inner.withIdent (inner.ident ++ suffix)).dropWhile isQualifier =
          inner.withIdent (inner.ident ++ suffix) := by
      cases hc : inner.withIdent (inner.ident ++ suffix) with
      | nil => simp
      | cons d more =>
        have : isQualifier d = false := by
          have digit := digit d (by simp [hc])
          by_contra qualifier
          simp only [isQualifier, Bool.not_eq_false, Bool.or_eq_true, beq_iff_eq] at qualifier
          rcases qualifier with (rfl | rfl) | rfl <;> exact absurd digit (by decide)
        simp [this]
    have all : ∀ c ∈ rest.takeWhile isQualifier, isQualifier c :=
      fun c hc => List.all_eq_true.mp List.all_takeWhile c hc
    simp only [named?, List.takeWhile_append_of_pos all, List.dropWhile_append_of_pos all, stop.1,
      stop.2, again, List.append_nil, Option.map_some]
  · obtain ⟨again, same⟩ := plain?_withIdent h.first h.some h.last read
    cases hn : numeral (byteLength (m.ident ++ suffix)) with
    | nil => exact absurd hn (numeral_ne_nil _)
    | cons d more =>
      have digit : d.isDigit := isDigit_of_mem_numeral (by rw [hn]; simp)
      rw [hn] at again
      refine ⟨d, more ++ (m.ident ++ suffix ++ m.tail), ?_, ?_, ?_⟩
      · rintro rfl
        exact absurd digit (by decide)
      · rw [withIdent_eq, hn, same]
        rfl
      · rw [named?_of_digit digit]
        exact again

theorem ofChars?_of_unmangled {cs : List Char} (plain : ¬ ['_', 'Z'] <+: cs) :
    ofChars? cs = none := by
  unfold ofChars?
  split
  · rename_i rest
    exact absurd ⟨rest, rfl⟩ plain
  · rfl

/-- A symbol that can be taken apart has one of two leads. -/
theorem named?_of_ofChars? {cs : List Char} {m : MangledName} (read : ofChars? cs = some m) :
    ∃ rest, cs = ['_', 'Z', 'L'] ++ rest ∧ named? ['_', 'Z', 'L'] rest = some m ∨
      cs = ['_', 'Z'] ++ rest ∧ named? ['_', 'Z'] rest = some m := by
  by_cases mangled : ['_', 'Z'] <+: cs
  · obtain ⟨rest, rfl⟩ := mangled
    cases rest with
    | nil => exact ⟨[], .inr ⟨rfl, read⟩⟩
    | cons c rest =>
      by_cases same : c = 'L'
      · subst same
        exact ⟨rest, .inl ⟨rfl, read⟩⟩
      · exact ⟨c :: rest, .inr ⟨rfl, (ofChars?_of_head same rest).symm.trans read⟩⟩
  · rw [ofChars?_of_unmangled mangled] at read
    simp at read

/-- A symbol with a longer innermost identifier is read back as such. -/
theorem ofChars?_withIdent (h : IsSuffix suffix) {cs : List Char} {m : MangledName}
    (read : ofChars? cs = some m) : ofChars? (m.withIdent (m.ident ++ suffix)) =
      some { m with ident := m.ident ++ suffix } := by
  obtain ⟨rest, ⟨-, read⟩ | ⟨-, read⟩⟩ := named?_of_ofChars? read
  · obtain ⟨c, more, -, shape, again⟩ := named?_withIdent h read
    rw [shape]
    exact again
  · obtain ⟨c, more, other, shape, again⟩ := named?_withIdent h read
    rw [shape]
    exact (ofChars?_of_head other more).trans again

end suffix

/-! ### Parts -/

theorem byteLength_eq (cs : List Char) : byteLength cs = (String.ofList cs).utf8ByteSize := by
  induction cs with
  | nil => rfl
  | cons c cs ih =>
    rw [String.ofList_cons, String.utf8ByteSize_append, String.utf8ByteSize_singleton, ← ih]
    rfl

/-- Characters are the parts of a symbol that has been taken apart, and the length of its
innermost identifier. -/
def IsWritten (m : MangledName) (cs : List Char) : Prop :=
  ∃ digits, digits ≠ [] ∧ (∀ d ∈ digits, d.isDigit) ∧ cs = m.lead ++ digits ++ m.ident ++ m.tail

theorem widen_append (ident rest : List Char) :
    (widen ident rest).1 ++ (widen ident rest).2 = ident ++ rest := by
  unfold widen
  split
  · split
    · simp
    · rfl
  · rfl

theorem isWritten_of_plain? {lead cs : List Char} {m : MangledName} (read : plain? lead cs = some m) :
    m.IsWritten (lead ++ cs) := by
  cases hs : sourceName? cs with
  | none => simp [plain?, hs] at read
  | some parts =>
    obtain ⟨digits, ident, rest⟩ := parts
    obtain ⟨nonempty, all, -, -, rfl⟩ := sourceName?_spec hs
    obtain rfl : { lead, outer := [], ident := (widen ident rest).1, tail := (widen ident rest).2 }
        = m := by
      simpa [plain?, hs] using read
    refine ⟨digits, nonempty, all, ?_⟩
    simp only [List.append_assoc, widen_append]

theorem isWritten_of_nested? {cs : List Char} {m : MangledName} (read : nested? cs = some m) :
    m.IsWritten cs := by
  induction cs using nested?.induct generalizing m with
  | case1 cs unread =>
    rw [nested?] at read
    split at read <;> simp_all
  | case2 cs digits ident ended =>
    rw [nested?] at read
    split at read <;> simp_all
  | case3 cs digits ident c rest first digit ih =>
    rw [nested?_of_sourceName? first, if_pos digit, Option.map_eq_some_iff] at read
    obtain ⟨inner, hinner, rfl⟩ := read
    obtain ⟨more, nonempty, all, shape⟩ := ih hinner
    obtain ⟨-, -, -, -, rfl⟩ := sourceName?_spec first
    refine ⟨more, nonempty, all, ?_⟩
    simp only [inside, shape, List.append_assoc]
  | case4 cs digits ident c rest first noDigit last =>
    rw [nested?_of_sourceName? first, if_neg noDigit, if_pos last] at read
    obtain rfl : _ = m := by simpa using read
    obtain ⟨nonempty, all, -, -, rfl⟩ := sourceName?_spec first
    exact ⟨digits, nonempty, all, by simp⟩
  | case5 cs digits ident c rest first noDigit other =>
    rw [nested?_of_sourceName? first, if_neg noDigit, if_neg other] at read
    simp at read

theorem isWritten_of_named? {lead cs : List Char} {m : MangledName} (read : named? lead cs = some m) :
    m.IsWritten (lead ++ cs) := by
  unfold named? at read
  split at read
  · rename_i rest
    obtain ⟨inner, hinner, rfl⟩ := Option.map_eq_some_iff.mp read
    obtain ⟨digits, nonempty, all, shape⟩ := isWritten_of_nested? hinner
    have whole : rest = rest.takeWhile isQualifier ++ (inner.lead ++ digits ++ inner.ident ++
        inner.tail) := by
      rw [← shape, List.takeWhile_append_dropWhile]
    refine ⟨digits, nonempty, all, ?_⟩
    calc lead ++ 'N' :: rest
        = lead ++ 'N' :: (rest.takeWhile isQualifier ++ (inner.lead ++ digits ++ inner.ident ++
            inner.tail)) := by rw [← whole]
      _ = _ := by simp
  · exact isWritten_of_plain? read

/-- A symbol that has been taken apart is written as its parts. -/
theorem isWritten_of_ofChars? {cs : List Char} {m : MangledName} (read : ofChars? cs = some m) :
    m.IsWritten cs := by
  obtain ⟨rest, ⟨rfl, name⟩ | ⟨rfl, name⟩⟩ := named?_of_ofChars? read
  · exact isWritten_of_named? name
  · exact isWritten_of_named? name

/-! ### Base names -/

theorem intercalate_append_last (sep suffix last : List Char) (outer : List (List Char)) :
    List.intercalate sep (outer ++ [last ++ suffix]) =
      List.intercalate sep (outer ++ [last]) ++ suffix := by
  induction outer with
  | nil => simp [List.intercalate]
  | cons first outer ih =>
    cases outer with
    | nil => simp [List.intercalate]
    | cons second outer =>
      simp only [List.intercalate, List.cons_append, List.intersperse_cons_cons, List.flatten_cons,
        List.append_assoc] at ih ⊢
      rw [ih]

end MangledName

open MangledName

/-- A symbol can be taken apart, or it does not look as if it could. -/
def Readable (symbol : String) : Prop :=
  (ofChars? symbol.toList).isSome ∨ ¬ ['_', 'Z'] <+: symbol.toList

/-- A symbol that does not look mangled does not do so with a suffix behind it. -/
theorem unmangled_append {cs suffix : List Char} (h : IsSuffix suffix)
    (plain : ¬ ['_', 'Z'] <+: cs) : ¬ ['_', 'Z'] <+: cs ++ suffix := by
  match cs with
  | [] => exact h.plain
  | [c] =>
    have under := h.under
    cases suffix with
    | nil => simp at under
    | cons d suffix =>
      obtain rfl : d = '_' := by simpa using under
      simp
  | c :: d :: cs => simpa using plain

/-- The base name of a symbol with a suffix is the base name with the suffix behind it. -/
theorem baseName_suffixSymbol {symbol suffix : String} (readable : Readable symbol)
    (h : IsSuffix suffix.toList) :
    baseName (suffixSymbol symbol suffix) = baseName symbol ++ suffix := by
  cases hm : ofChars? symbol.toList with
  | some m =>
    simp only [baseName, suffixSymbol, hm, String.toList_ofList, ofChars?_withIdent h hm,
      qualified, intercalate_append_last, String.ofList_append, String.ofList_toList]
  | none =>
    have plain := readable.resolve_left (by simp [hm])
    simp [baseName, suffixSymbol, hm, String.toList_append,
      ofChars?_of_unmangled (unmangled_append h plain)]

/-! ### Suffixes -/

/-- The characters of the suffix of a variant. -/
def suffixChars (dim blockFactor threadFactor stride : Nat) : List Char :=
  '_' :: numeral dim ++ '_' :: numeral blockFactor ++ '_' :: numeral threadFactor ++
    '_' :: numeral stride

theorem toList_variantSuffix (dim : Dimension) (blockFactor threadFactor stride : Nat) :
    (variantSuffix dim blockFactor threadFactor stride).toList =
      suffixChars dim.index blockFactor threadFactor stride := by
  simp [variantSuffix, suffixChars, numeral]

theorem isSuffix_suffixChars (dim blockFactor threadFactor stride : Nat) :
    IsSuffix (suffixChars dim blockFactor threadFactor stride) where
  under := rfl
  plain := by
    rw [suffixChars]
    cases hn : numeral dim with
    | nil => exact absurd hn (numeral_ne_nil dim)
    | cons d more =>
      have digit : d.isDigit := isDigit_of_mem_numeral (by rw [hn]; simp)
      intro mangled
      obtain rfl : 'Z' = d := by simpa using mangled
      exact absurd digit (by decide)
  last := by
    intro c hc
    have ends : (suffixChars dim blockFactor threadFactor stride).getLast? =
        (numeral stride).getLast? := by
      cases hl : (numeral stride).getLast? with
      | none => exact absurd (List.getLast?_eq_none_iff.mp hl) (numeral_ne_nil stride)
      | some d => simp [suffixChars, List.getLast?_append, List.getLast?_cons, hl]
    rw [ends] at hc
    have digit := isDigit_of_mem_numeral (List.mem_of_getLast? hc)
    rw [Char.isDigit_iff_toNat] at digit
    by_contra lower
    simp only [Char.isLower, Bool.not_eq_false, Bool.and_eq_true, decide_eq_true_eq] at lower
    have low : 'a'.toNat ≤ c.toNat := lower.1
    have high : c.toNat ≤ '9'.toNat := digit.2
    exact absurd (Nat.le_trans low high) (by decide)

theorem under_not_mem_numeral (n : Nat) : '_' ∉ numeral n := by
  rw [numeral_eq]
  exact Nat.underscore_not_in_toDigits

theorem numeral_inj {n m : Nat} (h : numeral n = numeral m) : n = m := by
  rw [← digitsValue_numeral n, h, digitsValue_numeral]

/-- A text tells what stands before and behind its last underscore. -/
theorem append_under_inj {xs ys ds es : List Char} (hd : '_' ∉ ds) (he : '_' ∉ es)
    (h : xs ++ '_' :: ds = ys ++ '_' :: es) : xs = ys ∧ ds = es := by
  rcases List.append_eq_append_iff.mp h with ⟨a, rfl, shape⟩ | ⟨a, rfl, shape⟩
  · cases a with
    | nil => exact ⟨by simp, by simpa using shape⟩
    | cons c a =>
      have : '_' ∈ ds := by
        rw [(List.cons.inj shape).2]
        simp
      exact absurd this hd
  · cases a with
    | nil => exact ⟨by simp, by simpa using shape.symm⟩
    | cons c a =>
      have : '_' ∈ es := by
        rw [(List.cons.inj shape).2]
        simp
      exact absurd this he

/-- A text with the suffix of a variant behind it tells both. -/
theorem append_suffixChars_inj {xs ys : List Char} {a b c d a' b' c' d' : Nat}
    (h : xs ++ suffixChars a b c d = ys ++ suffixChars a' b' c' d') :
    xs = ys ∧ a = a' ∧ b = b' ∧ c = c' ∧ d = d' := by
  have shape : ∀ (zs : List Char) (a b c d : Nat), zs ++ suffixChars a b c d =
      (((zs ++ '_' :: numeral a) ++ '_' :: numeral b) ++ '_' :: numeral c) ++ '_' :: numeral d := by
    intro zs a b c d
    simp [suffixChars]
  rw [shape, shape] at h
  obtain ⟨h, hd⟩ := append_under_inj (under_not_mem_numeral _) (under_not_mem_numeral _) h
  obtain ⟨h, hc⟩ := append_under_inj (under_not_mem_numeral _) (under_not_mem_numeral _) h
  obtain ⟨h, hb⟩ := append_under_inj (under_not_mem_numeral _) (under_not_mem_numeral _) h
  obtain ⟨h, ha⟩ := append_under_inj (under_not_mem_numeral _) (under_not_mem_numeral _) h
  exact ⟨h, numeral_inj ha, numeral_inj hb, numeral_inj hc, numeral_inj hd⟩

namespace CoarseningParams

theorem isSuffix_suffix (v : CoarseningParams) : IsSuffix v.suffix.toList := by
  rw [suffix, toList_variantSuffix]
  exact isSuffix_suffixChars _ _ _ _

/-- The base name of a variant is that of the kernel with the suffix behind it. -/
theorem baseName_symbol (v : CoarseningParams) {kernel : String} (readable : Readable kernel) :
    baseName (v.symbol kernel) = baseName kernel ++ v.suffix :=
  baseName_suffixSymbol readable v.isSuffix_suffix

/-- The symbol of a variant of a kernel with a mangled symbol is read back. -/
theorem ofChars?_symbol (v : CoarseningParams) {kernel : String} {m : MangledName}
    (read : ofChars? kernel.toList = some m) :
    ofChars? (v.symbol kernel).toList = some { m with ident := m.ident ++ v.suffix.toList } := by
  rw [symbol, suffixSymbol, read]
  simpa using ofChars?_withIdent v.isSuffix_suffix read

/-- The symbol of a variant of a kernel whose symbol does not look mangled does not do so. -/
theorem ofChars?_symbol_of_none (v : CoarseningParams) {kernel : String}
    (readable : Readable kernel) (unread : ofChars? kernel.toList = none) :
    ofChars? (v.symbol kernel).toList = none := by
  have plain := readable.resolve_left (by simp [unread])
  rw [symbol, suffixSymbol, unread, String.toList_append]
  exact ofChars?_of_unmangled (unmangled_append v.isSuffix_suffix plain)

/-- The base name of a variant is that of the kernel with the suffix behind it.  If the symbol of
the kernel is mangled, that of the variant has the suffix behind the innermost identifier, whose
length is written anew in bytes; what stands before and behind is the same, and the symbol is read
back so. -/
theorem symbol_spec (v : CoarseningParams) (kernel : String) (readable : Readable kernel) :
    baseName (v.symbol kernel) = baseName kernel ++ v.suffix ∧
    ∀ m, ofChars? kernel.toList = some m →
      (∃ digits : String, digits ≠ "" ∧ (∀ d ∈ digits.toList, d.isDigit) ∧
        kernel = String.ofList m.lead ++ digits ++ String.ofList m.ident ++ String.ofList m.tail) ∧
      v.symbol kernel = String.ofList m.lead ++
        toString (String.ofList m.ident ++ v.suffix).utf8ByteSize ++
        (String.ofList m.ident ++ v.suffix) ++ String.ofList m.tail ∧
      ofChars? (v.symbol kernel).toList = some { m with ident := m.ident ++ v.suffix.toList } := by
  refine ⟨v.baseName_symbol readable, fun m read => ⟨?_, ?_, v.ofChars?_symbol read⟩⟩
  · obtain ⟨digits, nonempty, all, shape⟩ := isWritten_of_ofChars? read
    refine ⟨String.ofList digits, ?_, by simpa using all, ?_⟩
    · simpa [String.ext_iff] using nonempty
    · rw [← String.ofList_append, ← String.ofList_append, ← String.ofList_append, ← shape,
        String.ofList_toList]
  · rw [symbol, suffixSymbol, read]
    simp only [withIdent, byteLength_eq, String.ofList_append, String.ofList_toList]

/-- A name that is nested, with a qualifier and an identifier that grows past nine bytes. -/
theorem symbol_nested :
    Readable "_ZNK2ns6kernelEPi" ∧
    (CoarseningParams.mk .thread .x 4 2).symbol "_ZNK2ns6kernelEPi" =
      "_ZNK2ns14kernel_0_1_4_2EPi" ∧
    baseName ((CoarseningParams.mk .thread .x 4 2).symbol "_ZNK2ns6kernelEPi") =
      "ns::kernel_0_1_4_2" := by
  have readable : Readable "_ZNK2ns6kernelEPi" := .inl (by decide +kernel)
  obtain ⟨base, -⟩ := symbol_spec ⟨.thread, .x, 4, 2⟩ _ readable
  refine ⟨readable, by decide +kernel, ?_⟩
  rw [base]
  decide +kernel

/-- A name with the suffix of a variant behind it tells the name and the variant. -/
theorem append_suffix_inj {v w : CoarseningParams} (hv : 2 ≤ v.factor) (hw : 2 ≤ w.factor)
    {a b : String} (h : a ++ v.suffix = b ++ w.suffix) : a = b ∧ v = w := by
  have chars : a.toList ++ v.suffix.toList = b.toList ++ w.suffix.toList := by
    rw [← String.toList_append, h, String.toList_append]
  simp only [suffix, toList_variantSuffix] at chars
  obtain ⟨names, dims, blocks, threads, strides⟩ := append_suffixChars_inj chars
  refine ⟨String.toList_injective names, ?_⟩
  obtain ⟨level, dim, factor, stride⟩ := v
  obtain ⟨level', dim', factor', stride'⟩ := w
  have dims : dim = dim' := by cases dim <;> cases dim' <;> simp_all [Dimension.index]
  -- the factor of the other level is one, which no variant has
  cases level <;> cases level' <;> simp_all [blockFactor, threadFactor] <;> omega

/-- The symbol of a variant of one kernel tells the variant. -/
theorem symbol_inj {v w : CoarseningParams} (hv : 2 ≤ v.factor) (hw : 2 ≤ w.factor)
    {kernel : String} (h : v.symbol kernel = w.symbol kernel) : v = w := by
  cases read : ofChars? kernel.toList with
  | some m =>
    have parts := w.ofChars?_symbol read
    rw [← h, v.ofChars?_symbol read] at parts
    have same : v.suffix = w.suffix := by
      simpa [String.toList_inj] using parts
    exact (append_suffix_inj hv hw (congrArg (kernel ++ ·) same)).2
  | none =>
    simp only [symbol, suffixSymbol, read] at h
    exact (append_suffix_inj hv hw h).2

/-- Variants of two kernels have one symbol if they are the same variant, and the symbols of the
kernels, if not the same, are mangled and differ in a length that counts the innermost
identifier. -/
theorem symbol_eq_symbol_iff {v w : CoarseningParams} (hv : 2 ≤ v.factor) (hw : 2 ≤ w.factor)
    {k k' : String} (readable : Readable k) (readable' : Readable k') :
    v.symbol k = w.symbol k' ↔ v = w ∧
      (k = k' ∨ ∃ m, ofChars? k.toList = some m ∧ ofChars? k'.toList = some m) := by
  constructor
  · intro h
    have bases : baseName k ++ v.suffix = baseName k' ++ w.suffix := by
      rw [← v.baseName_symbol readable, h, w.baseName_symbol readable']
    obtain ⟨-, rfl⟩ := append_suffix_inj hv hw bases
    refine ⟨rfl, ?_⟩
    cases read : ofChars? k.toList with
    | some m =>
      have parts := v.ofChars?_symbol read
      cases read' : ofChars? k'.toList with
      | some m' =>
        rw [h, v.ofChars?_symbol read'] at parts
        obtain ⟨lead, outer, ident, tail⟩ := m
        obtain ⟨lead', outer', ident', tail'⟩ := m'
        obtain ⟨rfl, rfl, rfl, rfl⟩ : lead' = lead ∧ outer' = outer ∧ ident' = ident ∧
            tail' = tail := by
          simpa using parts
        exact .inr ⟨_, rfl, rfl⟩
      | none =>
        rw [h, v.ofChars?_symbol_of_none readable' read'] at parts
        simp at parts
    | none =>
      cases read' : ofChars? k'.toList with
      | some m' =>
        have parts := v.ofChars?_symbol read'
        rw [← h, v.ofChars?_symbol_of_none readable read] at parts
        simp at parts
      | none =>
        simp only [symbol, suffixSymbol, read, read'] at h
        exact .inl (append_suffix_inj hv hw h).1
  · rintro ⟨rfl, rfl | ⟨m, read, read'⟩⟩
    · rfl
    · simp only [symbol, suffixSymbol, read, read']

end CoarseningParams

end KernelCoarsening
