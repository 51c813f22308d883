/-
JSON texts are read back.

To the reader blanks between the parts of a text do not matter, and a number ends where a character
follows that cannot belong to it:

* `Json.readString_quote` — a string is read back, whatever its characters are;
* `Json.readNumber_int` — an integer is read back;
* `Json.Plain` — values without fractions, exponents and ill-formed strings;
* `Json.parse?_write` — the text of such a value is read back, in every layout that puts nothing but
  blanks between the parts.
-/
import KernelCoarsening.Json.Reader
import KernelCoarsening.Json.Writer
import KernelCoarsening.Proofs.Variant.Naming

namespace KernelCoarsening

namespace Json

open MangledName (numeral numeral_eq numeral_ne_nil isDigit_of_mem_numeral digitsValue_numeral
  NoDigitFirst)

variable {cs rest : List Char} {c : Char}

/-! ### Blanks -/

/-- A text of blanks. -/
def Blanks (cs : List Char) : Prop := ∀ c ∈ cs, isBlank c = true

theorem Blanks.skip (blank : Blanks cs) : skipBlanks (cs ++ rest) = skipBlanks rest :=
  List.dropWhile_append_of_pos blank

theorem skipBlanks_cons (solid : isBlank c = false) : skipBlanks (c :: rest) = c :: rest := by
  simp [skipBlanks, solid]

theorem Blanks.skip_cons (blank : Blanks cs) (solid : isBlank c = false) :
    skipBlanks (cs ++ c :: rest) = c :: rest := by
  rw [blank.skip, skipBlanks_cons solid]

/-! ### Strings -/

theorem hexValue?_hexDigit : ∀ n < 16, hexValue? (hexDigit n) = some n := by decide

/-- A character gives its code, escaped or not. -/
theorem readCodes_escape (codes : List Nat) (c : Char) :
    readCodes codes (escape c ++ rest) = readCodes (c.toNat :: codes) rest := by
  unfold escape
  split
  any_goals rfl
  rename_i notQuote notSlash _ _ _ _ _
  split
  · rename_i control
    have spelled : unit? '0' '0' (hexDigit (c.toNat / 16)) (hexDigit (c.toNat % 16)) =
        some c.toNat := by
      have zero : hexValue? '0' = some 0 := by decide
      simp only [unit?, zero, hexValue?_hexDigit (c.toNat / 16) (by omega),
        hexValue?_hexDigit (c.toNat % 16) (by omega), Option.pure_def, Option.bind_eq_bind,
        Option.bind_some, Option.some.injEq]
      omega
    simp only [List.cons_append, List.nil_append]
    rw [readCodes, spelled]
  · rename_i large
    have plain : ¬(c.toNat < 32 ∨ c = '\\') := by
      rintro (small | slash)
      · exact large small
      · exact notSlash slash
    simp only [List.cons_append, List.nil_append]
    rw [readCodes, if_neg plain]
    all_goals simp_all

theorem readCodes_quoted (codes : List Nat) (s : List Char) :
    readCodes codes (s.flatMap escape ++ '"' :: rest) =
      some (codes.reverse ++ s.map Char.toNat, rest) := by
  induction s generalizing codes with
  | nil => simp [readCodes]
  | cons c s ih =>
    rw [List.flatMap_cons, List.append_assoc, readCodes_escape, ih]
    simp

/-- No character is half of a pair. -/
theorem toNat_not_half (c : Char) : ¬(0xD800 ≤ c.toNat ∧ c.toNat < 0xE000) := by
  have valid : c.toNat < 0xD800 ∨ 0xDFFF < c.toNat ∧ c.toNat < 0x110000 := c.valid
  omega

theorem decodeCodes_map (text s : List Char) :
    decodeCodes text (s.map Char.toNat) = some (text.reverse ++ s) := by
  induction s generalizing text with
  | nil => simp [decodeCodes]
  | cons c s ih =>
    have whole := toNat_not_half c
    rw [List.map_cons, decodeCodes.eq_def]
    dsimp only
    rw [if_neg (by omega), if_neg (by omega), ih, Char.ofNat_toNat]
    simp

/-- A string is read back. -/
theorem readString_quote (s : String) :
    readString (s.toList.flatMap escape ++ '"' :: rest) = some (some s, rest) := by
  simp [readString, readCodes_quoted, decodeCodes_map]

/-! ### Numbers -/

/-- No character follows that could belong to a number. -/
def Ends (rest : List Char) : Prop :=
  ∀ c ∈ rest.head?, c.isDigit = false ∧ c ≠ '.' ∧ c ≠ 'e' ∧ c ≠ 'E'

theorem ends_nil : Ends [] := by simp [Ends]

theorem ends_cons (h : c.isDigit = false ∧ c ≠ '.' ∧ c ≠ 'e' ∧ c ≠ 'E') : Ends (c :: rest) := by
  simpa [Ends] using h

theorem Blanks.ends (blank : Blanks cs) (ends : Ends rest) : Ends (cs ++ rest) := by
  cases cs with
  | nil => exact ends
  | cons c cs =>
    have first := blank c (by simp)
    simp only [isBlank, Bool.or_eq_true, beq_iff_eq] at first
    rcases first with ((rfl | rfl) | rfl) | rfl <;> exact ends_cons (by decide)

theorem Ends.noDigit (ends : Ends rest) : NoDigitFirst rest := fun c hc => (ends c hc).1

theorem Ends.readFraction (ends : Ends rest) : readFraction rest = some ([], rest) := by
  cases rest with
  | nil => rfl
  | cons c rest =>
    obtain ⟨-, notDot, -⟩ := ends c (by simp)
    rw [Json.readFraction]
    simp_all

theorem Ends.readExponent (ends : Ends rest) : readExponent rest = some ([], rest) := by
  cases rest with
  | nil => rfl
  | cons c rest =>
    obtain ⟨-, -, small, large⟩ := ends c (by simp)
    simp [Json.readExponent, small, large]

/-- A number above zero does not start with a zero. -/
theorem head?_numeral (n : Nat) (positive : 0 < n) : (numeral n).head? ≠ some '0' := by
  induction n using Nat.strongRecOn with
  | ind n ih =>
    rw [numeral_eq]
    by_cases small : n < 10
    · rw [Nat.toDigits_of_lt_base small]
      interval_cases n <;> decide
    · rw [Nat.toDigits_of_base_le (by decide) (by omega), ← numeral_eq,
        List.head?_append_of_ne_nil _ (numeral_ne_nil _)]
      exact ih (n / 10) (by omega) (by omega)

theorem readMagnitude_numeral (negative : Bool) (n : Nat) (ends : Ends rest)
    (signed : negative = true → n ≠ 0) :
    readMagnitude negative (numeral n ++ rest) =
      some (.int (if negative then -n else n), rest) := by
  have all : ∀ d ∈ numeral n, d.isDigit := fun _ => isDigit_of_mem_numeral
  obtain ⟨taken, dropped⟩ := ends.noDigit.takeWhile all
  have span : spanDigits (numeral n ++ rest) = (numeral n, rest) := by
    rw [spanDigits, List.span_eq_takeWhile_dropWhile, taken, dropped]
  have wellFormed : ((numeral n).isEmpty ||
      ((numeral n).length > 1 && (numeral n).head? == some '0')) = false := by
    rcases Nat.eq_zero_or_pos n with rfl | positive
    · decide
    · simp [numeral_ne_nil, head?_numeral n positive]
  have integral : (negative && n == 0) = false := by
    cases negative <;> simp_all
  simp only [readMagnitude, span, wellFormed, Bool.false_eq_true, if_false, ends.readFraction,
    Option.bind_eq_bind, Option.bind_some, ends.readExponent, digitsValue_numeral, integral]
  rfl

/-- The text of an integer: its digits, perhaps behind a sign. -/
theorem toString_int (n : Int) :
    (toString n).toList = if 0 ≤ n then numeral n.toNat else '-' :: numeral (-n).toNat := by
  rw [Int.toString_eq_repr, Int.repr_eq_if]
  split
  · rfl
  · exact String.toList_append

/-- The first character of an integer tells it from all other values. -/
theorem exists_toString_int (n : Int) :
    ∃ c cs, (toString n).toList = c :: cs ∧ (c.isDigit ∨ c = '-') := by
  rw [toString_int]
  split
  · cases digits : numeral n.toNat with
    | nil => exact absurd digits (numeral_ne_nil _)
    | cons c cs =>
      exact ⟨c, cs, rfl, .inl (isDigit_of_mem_numeral (n := n.toNat) (by simp [digits]))⟩
  · exact ⟨'-', _, rfl, .inr rfl⟩

/-- An integer is read back. -/
theorem readNumber_int (n : Int) (ends : Ends rest) :
    readNumber ((toString n).toList ++ rest) = some (.int n, rest) := by
  rw [toString_int]
  split
  · rename_i positive
    have notSign : ∀ more, numeral n.toNat ++ rest ≠ '-' :: more := by
      intro more same
      cases digits : numeral n.toNat with
      | nil => exact numeral_ne_nil _ digits
      | cons d ds =>
        have digit : d.isDigit := isDigit_of_mem_numeral (n := n.toNat) (by simp [digits])
        obtain rfl : d = '-' := by simpa [digits] using congrArg List.head? same
        exact absurd digit (by decide)
    rw [readNumber.eq_2 _ notSign, readMagnitude_numeral false _ ends (by simp)]
    simp [Int.toNat_of_nonneg positive]
  · rename_i negative
    rw [List.cons_append, readNumber, readMagnitude_numeral true _ ends (by omega), if_pos rfl]
    congr 3
    omega

/-! ### Values -/

/-- A value without fractions, exponents and ill-formed strings. -/
inductive Plain : Json → Prop where
  | null : Plain null
  | bool (b : Bool) : Plain (bool b)
  | int (n : Int) : Plain (int n)
  | str (s : String) : Plain (str s)
  | arr {items : List Json} (each : ∀ v ∈ items, Plain v) : Plain (arr items)
  | obj {members : List (String × Json)} (each : ∀ m ∈ members, Plain m.2) : Plain (obj members)

/-- A layout that adds nothing but blanks. -/
structure Layout.Spaced (layout : Layout) : Prop where
  lineBreak : ∀ depth, Blanks (layout.lineBreak depth)
  colon : ∃ blanks, layout.colon = ':' :: blanks ∧ Blanks blanks

theorem Layout.spaced_compact : Layout.compact.Spaced :=
  ⟨fun _ => by simp [compact, Blanks], [], rfl, by simp [Blanks]⟩

theorem Layout.spaced_indented : Layout.indented.Spaced := by
  refine ⟨fun depth c hc => ?_, [' '], rfl, by simp [Blanks, isBlank]⟩
  rcases List.mem_cons.mp hc with rfl | hc
  · rfl
  · rw [List.eq_of_mem_replicate hc]
    rfl

/-- The text of a value starts neither with a blank nor with a closing bracket. -/
theorem Plain.exists_write {v : Json} (plain : v.Plain) (layout : Layout) (depth : Nat) :
    ∃ c cs, v.write layout depth = c :: cs ∧ isBlank c = false ∧ c ≠ ']' := by
  cases plain with
  | null => exact ⟨'n', _, rfl, by decide⟩
  | bool b => cases b <;> exact ⟨_, _, rfl, by decide⟩
  | int n =>
    obtain ⟨c, cs, text, first⟩ := exists_toString_int n
    refine ⟨c, cs, text, ?_, ?_⟩
    · rcases first with digit | rfl
      · by_contra blank
        simp only [isBlank, Bool.not_eq_false, Bool.or_eq_true, beq_iff_eq] at blank
        rcases blank with ((rfl | rfl) | rfl) | rfl <;> exact absurd digit (by decide)
      · decide
    · rintro rfl
      exact absurd first (by decide)
  | str s => exact ⟨'"', _, rfl, by decide⟩
  | @arr items _ => cases items <;> exact ⟨'[', _, rfl, by decide⟩
  | @obj members _ => cases members <;> exact ⟨_, _, rfl, by decide⟩

theorem readValue_blanks {fuel : Nat} (blank : Blanks cs) :
    readValue fuel (cs ++ rest) = readValue fuel rest := by
  cases fuel with
  | zero => rfl
  | succ fuel => simp only [readValue, blank.skip]

theorem readValue_bracket (fuel : Nat) (rest : List Char) :
    readValue (fuel + 1) ('[' :: rest) =
      match skipBlanks rest with
      | ']' :: rest => some (arr [], rest)
      | rest => (readItems fuel rest).bind fun (items, rest) => some (arr items, rest) := rfl

theorem readValue_brace (fuel : Nat) (rest : List Char) :
    readValue (fuel + 1) ('\x7b' :: rest) =
      match skipBlanks rest with
      | '\x7d' :: rest => some (obj [], rest)
      | rest => (readMembers fuel rest).bind fun (members, rest) => some (object members, rest) :=
  rfl

/-- The text of a value is read back with fuel for twice its length. -/
def ReadBack (layout : Layout) (v : Json) : Prop :=
  ∀ depth fuel rest, 2 * (v.write layout depth).length ≤ fuel → Ends rest →
    readValue fuel (v.write layout depth ++ rest) = some (v, rest)

theorem readBack_int (layout : Layout) (n : Int) : ReadBack layout (int n) := by
  intro depth fuel rest enough ends
  obtain ⟨c, cs, text, first⟩ := exists_toString_int n
  have number := readNumber_int n ends
  rw [write, text] at enough ⊢
  rw [text] at number
  obtain ⟨fuel, rfl⟩ : ∃ n, fuel = n + 1 := ⟨fuel - 1, by rw [List.length_cons] at enough; omega⟩
  have solid : isBlank c = false := by
    obtain ⟨c', cs', text', solid, -⟩ := (Plain.int n).exists_write layout depth
    rw [write, text] at text'
    obtain ⟨rfl, -⟩ : c = c' ∧ cs = cs' := by simpa using text'
    exact solid
  rw [readValue, List.cons_append, skipBlanks_cons solid]
  -- neither a digit nor a sign starts another value
  split
  any_goals
    rename_i same
    obtain ⟨rfl, -⟩ := List.cons.inj same
    exact absurd first (by decide)
  exact number

theorem readBack_str (layout : Layout) (s : String) : ReadBack layout (str s) := by
  intro depth fuel rest enough _
  rw [write, quote] at enough ⊢
  obtain ⟨fuel, rfl⟩ : ∃ n, fuel = n + 1 := ⟨fuel - 1, by simp at enough; omega⟩
  have text : '"' :: (s.toList.flatMap escape ++ ['"']) ++ rest =
      '"' :: (s.toList.flatMap escape ++ '"' :: rest) := by simp
  rw [text, readValue, skipBlanks_cons (by decide)]
  simp [readString_quote]

theorem object_map (members : List (String × Json)) :
    object (members.map fun m => (some m.1, m.2)) = obj members := by
  have named : (members.map fun m => (some m.1, m.2)).mapM
      (fun (m : Option String × Json) => m.1.map (·, m.2)) = some members := by
    induction members with
    | nil => rfl
    | cons m members ih => simp [ih]
  simp only [object, named]

/-- What follows an item: a comma, a blank or the closing bracket. -/
theorem ends_writeItems (blank : Blanks cs) (layout : Layout) (depth : Nat) (items : List Json)
    (rest : List Char) : Ends (writeItems layout depth items ++ (cs ++ ']' :: rest)) := by
  cases items with
  | nil => exact blank.ends (ends_cons (by decide))
  | cons v items => exact ends_cons (by decide)

/-- What follows a member: a comma, a blank or the closing brace. -/
theorem ends_writeMembers (blank : Blanks cs) (layout : Layout) (depth : Nat)
    (members : List (String × Json)) (rest : List Char) :
    Ends (writeMembers layout depth members ++ (cs ++ '\x7d' :: rest)) := by
  cases members with
  | nil => exact blank.ends (ends_cons (by decide))
  | cons m members => exact ends_cons (by decide)

section

variable {layout : Layout} (spaced : layout.Spaced)

include spaced

/-- Items are read back, behind blanks `lead` and before blanks `cs`. -/
theorem readItems_write {lead : List Char} (front : Blanks lead) (blank : Blanks cs) (v : Json)
    {items : List Json} (each : ∀ w ∈ v :: items, ReadBack layout w) (depth fuel : Nat)
    (enough : 2 * ((v.write layout depth).length + (writeItems layout depth items).length) ≤ fuel)
    (rest : List Char) :
    readItems (fuel + 1) (lead ++ (v.write layout depth ++
      (writeItems layout depth items ++ (cs ++ ']' :: rest)))) = some (v :: items, rest) := by
  induction items generalizing v fuel lead with
  | nil =>
    have first := each v (by simp) depth fuel (cs ++ ']' :: rest) (by omega)
      (blank.ends (ends_cons (by decide)))
    rw [readItems, readValue_blanks front, writeItems, List.nil_append, first]
    simp only [Option.bind_eq_bind, Option.bind_some, blank.skip_cons (c := ']') (by decide)]
    rfl
  | cons w items ih =>
    rw [writeItems] at enough
    simp only [List.length_cons, List.length_append] at enough
    have first := each v (by simp) depth fuel _ (by omega)
      (ends_writeItems blank layout depth (w :: items) rest)
    obtain ⟨fuel, rfl⟩ : ∃ n, fuel = n + 1 := ⟨fuel - 1, by omega⟩
    have others := ih (spaced.lineBreak depth) w
      (fun x hx => each x (List.mem_cons_of_mem _ hx)) fuel (by omega)
    rw [readItems, readValue_blanks front, first]
    simp only [Option.bind_eq_bind, Option.bind_some, writeItems, List.cons_append,
      List.append_assoc, skipBlanks_cons (c := ',') (by decide), others]
    rfl

/-- A key and its colon are read, and the member goes on behind them. -/
theorem readMembers_key {lead : List Char} (front : Blanks lead) (k : String) (fuel : Nat)
    (more : List Char) :
    readMembers (fuel + 1) (lead ++ (quote k ++ (layout.colon ++ more))) =
      (readValue fuel more).bind fun (v, rest) =>
        match skipBlanks rest with
        | ',' :: rest => (readMembers fuel rest).bind fun (members, rest) =>
          some ((some k, v) :: members, rest)
        | '\x7d' :: rest => some ([(some k, v)], rest)
        | _ => none := by
  obtain ⟨spaces, colon, blank⟩ := spaced.colon
  have text : quote k ++ (layout.colon ++ more) =
      '"' :: (k.toList.flatMap escape ++ '"' :: (':' :: (spaces ++ more))) := by
    simp [quote, colon]
  rw [text, readMembers, front.skip_cons (by decide)]
  simp only [readString_quote, Option.bind_eq_bind, Option.bind_some,
    skipBlanks_cons (c := ':') (by decide), readValue_blanks blank]
  rfl

/-- Members are read back, behind blanks `lead` and before blanks `cs`. -/
theorem readMembers_write {lead : List Char} (front : Blanks lead) (blank : Blanks cs) (k : String)
    (v : Json) {members : List (String × Json)}
    (each : ∀ m ∈ (k, v) :: members, ReadBack layout m.2) (depth fuel : Nat)
    (enough : 2 * ((v.write layout depth).length + (writeMembers layout depth members).length) ≤
      fuel) (rest : List Char) :
    readMembers (fuel + 1) (lead ++ (quote k ++ (layout.colon ++ (v.write layout depth ++
      (writeMembers layout depth members ++ (cs ++ '\x7d' :: rest)))))) =
        some (((k, v) :: members).map fun m => (some m.1, m.2), rest) := by
  induction members generalizing k v fuel lead with
  | nil =>
    have first := each (k, v) (by simp) depth fuel (cs ++ '\x7d' :: rest)
      (by dsimp only; omega) (blank.ends (ends_cons (by decide)))
    rw [readMembers_key spaced front, writeMembers, List.nil_append, first]
    simp only [Option.bind_some, blank.skip_cons (c := '\x7d') (by decide)]
    rfl
  | cons m members ih =>
    obtain ⟨k', w⟩ := m
    rw [writeMembers] at enough
    simp only [List.length_cons, List.length_append] at enough
    have first := each (k, v) (by simp) depth fuel _ (by dsimp only; omega)
      (ends_writeMembers blank layout depth ((k', w) :: members) rest)
    obtain ⟨fuel, rfl⟩ : ∃ n, fuel = n + 1 := ⟨fuel - 1, by omega⟩
    have others := ih (spaced.lineBreak depth) k' w
      (fun x hx => each x (List.mem_cons_of_mem _ hx)) fuel (by omega)
    rw [readMembers_key spaced front, first]
    simp only [Option.bind_some, writeMembers, List.cons_append, List.append_assoc,
      skipBlanks_cons (c := ',') (by decide), others]
    rfl

theorem readBack_arr {items : List Json} (plain : ∀ v ∈ items, v.Plain)
    (each : ∀ v ∈ items, ReadBack layout v) : ReadBack layout (arr items) := by
  intro depth fuel rest enough _
  cases items with
  | nil =>
    obtain ⟨fuel, rfl⟩ : ∃ n, fuel = n + 1 := ⟨fuel - 1, by simp [write] at enough; omega⟩
    rfl
  | cons v items =>
    rw [write] at enough ⊢
    simp only [List.length_cons, List.length_append] at enough
    obtain ⟨fuel, rfl⟩ : ∃ n, fuel = n + 2 := ⟨fuel - 2, by omega⟩
    have none : Blanks [] := by simp [Blanks]
    have inside := readItems_write spaced none (spaced.lineBreak depth) v each (depth + 1) fuel
      (by omega) rest
    -- the first item is no closing bracket
    obtain ⟨c, cs, text, solid, notClose⟩ := (plain v (by simp)).exists_write layout (depth + 1)
    simp only [text, List.nil_append, List.cons_append, List.append_assoc] at inside ⊢
    rw [readValue_bracket, (spaced.lineBreak (depth + 1)).skip_cons solid]
    split
    · rename_i same
      exact absurd (List.cons.inj same).1 notClose
    · simp [inside]

theorem readBack_obj {members : List (String × Json)}
    (each : ∀ m ∈ members, ReadBack layout m.2) : ReadBack layout (obj members) := by
  intro depth fuel rest enough _
  cases members with
  | nil =>
    obtain ⟨fuel, rfl⟩ : ∃ n, fuel = n + 1 := ⟨fuel - 1, by simp [write] at enough; omega⟩
    rfl
  | cons m members =>
    obtain ⟨k, v⟩ := m
    rw [write] at enough ⊢
    simp only [List.length_cons, List.length_append] at enough
    obtain ⟨fuel, rfl⟩ : ∃ n, fuel = n + 2 := ⟨fuel - 2, by omega⟩
    have none : Blanks [] := by simp [Blanks]
    have inside := readMembers_write spaced none (spaced.lineBreak depth) k v each (depth + 1) fuel
      (by omega) rest
    simp only [quote, List.nil_append, List.cons_append, List.append_assoc] at inside ⊢
    rw [readValue_brace, (spaced.lineBreak (depth + 1)).skip_cons (c := '"') (by decide)]
    split
    · rename_i same
      exact absurd (List.cons.inj same).1 (by decide)
    · simp only [inside, Option.bind_some, object_map]

/-- The text of a value is read back. -/
theorem Plain.readBack {v : Json} (plain : v.Plain) : ReadBack layout v := by
  induction plain with
  | null =>
    intro depth fuel rest enough _
    obtain ⟨fuel, rfl⟩ : ∃ n, fuel = n + 1 := ⟨fuel - 1, by simp [write] at enough; omega⟩
    rfl
  | bool b =>
    intro depth fuel rest enough _
    cases b <;>
    · obtain ⟨fuel, rfl⟩ : ∃ n, fuel = n + 1 := ⟨fuel - 1, by simp [write] at enough; omega⟩
      rfl
  | int n => exact readBack_int layout n
  | str s => exact readBack_str layout s
  | arr plain each => exact readBack_arr spaced plain each
  | obj _ each => exact readBack_obj spaced each

/-- A text that holds a value and nothing else is read as the value. -/
theorem parse?_write {v : Json} (plain : v.Plain) (depth : Nat) :
    parse? (String.ofList (v.write layout depth)) = some v := by
  have whole := plain.readBack spaced depth (2 * (v.write layout depth).length + 1) []
    (by omega) ends_nil
  rw [List.append_nil] at whole
  simp only [parse?, String.toList_ofList, whole]
  rfl

end

theorem Plain.parse?_compact {v : Json} (plain : v.Plain) : parse? v.compact = some v :=
  parse?_write Layout.spaced_compact plain 0

theorem Plain.parse?_pretty {v : Json} (plain : v.Plain) : parse? v.pretty = some v :=
  parse?_write Layout.spaced_indented plain 0

end Json

end KernelCoarsening
