/-
Base names of plain symbols.

The symbol of a kernel that lies in no namespace is `_Z`, the length of its identifier, the
identifier, and the codes of the types of its parameters.  Such a symbol is read back as the
identifier, except where a producer that counts one byte short could have written it:

* `IsIdentifier`, `TypeCode`, `IsParameterList` — what such a symbol consists of;
* `MangledName.Wedged` — a small letter stands between an identifier and a capital;
* `wedged_types_iff` — the parameters that wedge a letter: a first one of a built-in type or a
  restricted one, and a capital behind its letter;
* `baseName_plainSymbol` — the base name is the identifier exactly if no letter is wedged, and
  otherwise it has that letter behind it.
-/
import KernelCoarsening.Proofs.Variant.Naming

namespace KernelCoarsening

/-- An identifier: letters, digits and underscores, the first of them no digit. -/
structure IsIdentifier (id : String) : Prop where
  nonempty : id ≠ ""
  chars : ∀ c ∈ id.toList, c.isAlphanum ∨ c = '_'
  first : ∀ c ∈ id.toList.head?, c.isDigit = false

/-- The letters of the built-in types. -/
def builtinLetters : List Char :=
  ['v', 'w', 'b', 'c', 'a', 'h', 's', 't', 'i', 'j', 'l', 'm', 'x', 'y', 'n', 'o', 'f', 'd', 'e',
    'g', 'z']

/-- The code of the type of a parameter. -/
inductive TypeCode : List Char → Prop where
  | builtin {c : Char} (letter : c ∈ builtinLetters) : TypeCode [c]
  /-- A pointer or a reference to a type, or a type with a qualifier. -/
  | modified {c : Char} {type : List Char} (mark : c ∈ ['P', 'R', 'O', 'K', 'V', 'r'])
      (code : TypeCode type) : TypeCode (c :: type)
  /-- Something that has been written before, by its number in base 36. -/
  | substitution {number : List Char} (digits : ∀ c ∈ number, c.isDigit ∨ c.isUpper) :
      TypeCode ('S' :: (number ++ ['_']))
  /-- A class: the length of its name and the name. -/
  | named {name : String} (h : IsIdentifier name) :
      TypeCode ((toString name.length).toList ++ name.toList)

/-- The codes of the types of parameters, of which there is at least one: a function without
parameters has one of type `void`. -/
def IsParameterList (tail : String) : Prop :=
  ∃ types : List (List Char), types ≠ [] ∧ (∀ type ∈ types, TypeCode type) ∧
    tail.toList = types.flatten

/-- The symbol of a function with an identifier and with what follows it. -/
def plainSymbol (id tail : String) : String := "_Z" ++ toString id.length ++ id ++ tail

namespace MangledName

/-- A small letter stands between the small letter that ends an identifier and a capital. -/
def Wedged (ident tail : List Char) (c : Char) : Prop :=
  (∃ last ∈ ident.getLast?, last.isLower) ∧ c.isLower ∧
    ∃ capital rest, tail = c :: capital :: rest ∧ capital.isUpper

variable {ident tail : List Char} {c : Char}

/-- A wedged letter is taken into the identifier. -/
theorem widen_of_wedged (h : Wedged ident tail c) :
    widen ident tail = (ident ++ [c], tail.tail) := by
  obtain ⟨⟨last, ends, small⟩, letter, capital, rest, rfl, upper⟩ := h
  have ends : ident.getLast? = some last := ends
  simp [widen, ends, small, letter, upper]

/-- If no letter is wedged, the identifier is left as it was counted. -/
theorem widen_of_not_wedged (h : ∀ c, ¬ Wedged ident tail c) :
    widen ident tail = (ident, tail) := by
  unfold widen
  split
  · rename_i last c capital rest ends
    split
    · rename_i wedged
      simp only [Bool.and_eq_true] at wedged
      exact absurd ⟨⟨last, ends, wedged.1.1⟩, wedged.1.2, capital, rest, rfl, wedged.2⟩ (h c)
    · rfl
  · rfl

/-! ### Characters of one byte -/

theorem byteLength_of_ascii (h : ∀ c ∈ ident, c.utf8Size = 1) :
    byteLength ident = ident.length := by
  induction ident with
  | nil => rfl
  | cons c rest ih =>
    rw [List.forall_mem_cons] at h
    have tail := ih h.2
    simp only [byteLength, List.foldr_cons, List.length_cons] at tail ⊢
    rw [h.1, tail, Nat.add_comm]

end MangledName

open MangledName

namespace IsIdentifier

variable {id : String}

theorem utf8Size_eq_one {c : Char} (h : c.isAlphanum ∨ c = '_') : c.utf8Size = 1 := by
  rw [Char.utf8Size_eq_one_iff]
  rcases h with h | rfl
  · simp only [Char.isAlphanum, Char.isAlpha, Char.isUpper, Char.isLower, Char.isDigit,
      Bool.or_eq_true, Bool.and_eq_true, decide_eq_true_eq, UInt32.le_iff_toNat_le, ge_iff_le] at h
    have : 'Z'.val.toNat = 90 := rfl
    have : 'z'.val.toNat = 122 := rfl
    have : '9'.val.toNat = 57 := rfl
    rw [UInt32.le_iff_toNat_le, show (127 : UInt32).toNat = 127 from rfl]
    omega
  · decide

/-- The length of an identifier counts its bytes. -/
theorem byteLength_eq_length (h : IsIdentifier id) : byteLength id.toList = id.length := by
  rw [byteLength_of_ascii fun c hc => utf8Size_eq_one (h.chars c hc), String.length_toList]

theorem toList_ne_nil (h : IsIdentifier id) : id.toList ≠ [] :=
  fun none => h.nonempty (String.toList_eq_nil_iff.mp none)

/-- A plain symbol is taken apart behind its length. -/
theorem ofChars?_plainSymbol (h : IsIdentifier id) (tail : String) :
    ofChars? (plainSymbol id tail).toList = some
      { lead := ['_', 'Z'], outer := [], ident := (widen id.toList tail.toList).1,
        tail := (widen id.toList tail.toList).2 } := by
  have first : NoDigitFirst id.toList := h.first
  have follows : NoDigitFirst (id.toList ++ tail.toList) := first.append h.toList_ne_nil
  have read := sourceName?_numeral follows
  rw [h.byteLength_eq_length] at read
  have shape : (plainSymbol id tail).toList =
      '_' :: 'Z' :: (numeral id.length ++ (id.toList ++ tail.toList)) := by
    simp [plainSymbol, numeral]
  rw [shape]
  cases digits : numeral id.length with
  | nil => exact absurd digits (numeral_ne_nil _)
  | cons d more =>
    have digit : d.isDigit := isDigit_of_mem_numeral (n := id.length) (by simp [digits])
    have other : d ≠ 'L' := by
      rintro rfl
      exact absurd digit (by decide)
    rw [digits] at read
    rw [List.cons_append, ofChars?_of_head other, named?_of_digit digit, plain?,
      ← List.cons_append, read]
    rfl

end IsIdentifier

/-! ### Parameters that wedge a letter -/

theorem TypeCode.ne_nil {type : List Char} (h : TypeCode type) : type ≠ [] := by
  cases h with
  | builtin _ => simp
  | modified _ _ => simp
  | substitution _ => simp
  | named _ => simp

/-- A code that starts with a small letter is this letter, of a built-in type, or that of a
restricted type. -/
theorem TypeCode.of_small {c : Char} {type : List Char} (h : TypeCode (c :: type))
    (small : c.isLower) : c ∈ builtinLetters ∧ type = [] ∨ c = 'r' ∧ TypeCode type := by
  generalize whole : c :: type = code at h
  cases h with
  | builtin letter =>
    obtain ⟨rfl, rfl⟩ := List.cons.inj whole
    exact .inl ⟨letter, rfl⟩
  | modified mark inner =>
    obtain ⟨rfl, rfl⟩ := List.cons.inj whole
    refine .inr ⟨?_, inner⟩
    have marks : ∀ m ∈ ['P', 'R', 'O', 'K', 'V', 'r'], m.isLower → m = 'r' := by
      simp [Char.isLower]
    exact marks c mark small
  | substitution _ =>
    obtain ⟨rfl, -⟩ := List.cons.inj whole
    exact absurd small (by decide)
  | @named name _ =>
    -- the code starts with a digit of the length
    have digit : c.isDigit := by
      cases digits : numeral name.length with
      | nil => exact absurd digits (numeral_ne_nil _)
      | cons d more =>
        have written : (toString name.length).toList = d :: more := digits
        rw [written] at whole
        obtain rfl : c = d := (List.cons.inj whole).1
        exact isDigit_of_mem_numeral (n := name.length) (by simp [digits])
    simp only [Char.isDigit, Char.isLower, Bool.and_eq_true, decide_eq_true_eq,
      UInt32.le_iff_toNat_le, ge_iff_le] at digit small
    have : 'a'.val.toNat = 97 := rfl
    have : '9'.val.toNat = 57 := rfl
    omega

/-- The first parameter wedges a letter if it is of a built-in type or restricted, and a capital
follows its letter. -/
theorem wedged_types_iff {ident : List Char} {types : List (List Char)} {c : Char}
    (codes : ∀ type ∈ types, TypeCode type) :
    Wedged ident types.flatten c ↔ (∃ last ∈ ident.getLast?, last.isLower) ∧
      ∃ type rest, (∃ capital ∈ type.head?, capital.isUpper) ∧
        (c ∈ builtinLetters ∧ types = [c] :: type :: rest ∨
          c = 'r' ∧ types = ('r' :: type) :: rest) := by
  constructor
  · rintro ⟨ends, small, capital, rest, whole, upper⟩
    refine ⟨ends, ?_⟩
    cases types with
    | nil => simp at whole
    | cons first others =>
      rw [List.forall_mem_cons] at codes
      obtain ⟨d, type, rfl⟩ := List.exists_cons_of_ne_nil codes.1.ne_nil
      rw [List.flatten_cons, List.cons_append] at whole
      obtain ⟨rfl, behind⟩ := List.cons.inj whole
      rcases codes.1.of_small small with ⟨letter, rfl⟩ | ⟨rfl, inner⟩
      · -- the capital starts the code of the second parameter
        cases others with
        | nil => simp at behind
        | cons second others =>
          obtain ⟨e, type, rfl⟩ := List.exists_cons_of_ne_nil (codes.2 second (by simp)).ne_nil
          obtain ⟨rfl, -⟩ : e = capital ∧ _ := by simpa using behind
          exact ⟨e :: type, others, ⟨e, by simp, upper⟩, .inl ⟨letter, rfl⟩⟩
      · obtain ⟨e, type, rfl⟩ := List.exists_cons_of_ne_nil inner.ne_nil
        obtain ⟨rfl, -⟩ : e = capital ∧ _ := by simpa using behind
        exact ⟨e :: type, others, ⟨e, by simp, upper⟩, .inr ⟨rfl, rfl⟩⟩
  · rintro ⟨ends, type, rest, ⟨capital, starts, upper⟩, ⟨letter, rfl⟩ | ⟨rfl, rfl⟩⟩
    · obtain ⟨more, rfl⟩ := List.head?_eq_some_iff.mp starts
      exact ⟨ends, List.all_eq_true.mp (show builtinLetters.all Char.isLower by decide) c letter,
        capital, _, rfl, upper⟩
    · obtain ⟨more, rfl⟩ := List.head?_eq_some_iff.mp starts
      exact ⟨ends, by decide, capital, _, rfl, upper⟩

/-! ### Base names -/

/-- A plain symbol has its identifier as base name, exactly if no letter is wedged between the
identifier and what follows; otherwise the base name takes in that letter.  The codes of parameters
wedge a letter behind a small one if the first is of a built-in type, which this letter stands for,
or of a restricted one, and a capital comes behind the letter. -/
theorem baseName_plainSymbol {id : String} (h : IsIdentifier id) (tail : String) :
    (baseName (plainSymbol id tail) = id ↔ ∀ c, ¬ Wedged id.toList tail.toList c) ∧
      (∀ c, Wedged id.toList tail.toList c → baseName (plainSymbol id tail) = id.push c) ∧
      ∀ types : List (List Char), (∀ type ∈ types, TypeCode type) → tail.toList = types.flatten →
        ∀ c, Wedged id.toList tail.toList c ↔ (∃ last ∈ id.toList.getLast?, last.isLower) ∧
          ∃ type rest, (∃ capital ∈ type.head?, capital.isUpper) ∧
            (c ∈ builtinLetters ∧ types = [c] :: type :: rest ∨
              c = 'r' ∧ types = ('r' :: type) :: rest) := by
  have read : baseName (plainSymbol id tail) =
      String.ofList (widen id.toList tail.toList).1 := by
    rw [baseName, h.ofChars?_plainSymbol tail]
    simp [qualified, List.intercalate]
  have taken : ∀ c, Wedged id.toList tail.toList c →
      baseName (plainSymbol id tail) = id.push c := by
    intro c wedged
    rw [read, widen_of_wedged wedged, String.ext_iff]
    simp
  refine ⟨⟨fun same c wedged => ?_, fun none => ?_⟩, taken, fun types codes written c => ?_⟩
  · have longer := congrArg String.length ((taken c wedged).symm.trans same)
    simp at longer
  · rw [read, widen_of_not_wedged none, String.ofList_toList]
  · rw [written]
    exact wedged_types_iff codes

/-- A kernel of two pointers to numbers has its identifier as base name; one of a number and a
pointer, whose identifier ends in a small letter, has not. -/
theorem baseName_vecAdd_scale :
    IsIdentifier "vecAdd" ∧ baseName "_Z6vecAddPfS_S_" = "vecAdd" ∧
      IsIdentifier "scale" ∧ baseName "_Z5scalefPf" = "scalef" := by
  have vecAdd : IsIdentifier "vecAdd" := ⟨by decide, by simp, by simp⟩
  have scale : IsIdentifier "scale" := ⟨by decide, by simp, by simp⟩
  refine ⟨vecAdd, ?_, scale, ?_⟩
  · refine (baseName_plainSymbol vecAdd "PfS_S_").1.mpr ?_
    rintro c ⟨-, letter, _, _, same, -⟩
    obtain rfl : 'P' = c := (List.cons.inj same).1
    exact absurd letter (by decide)
  · exact (baseName_plainSymbol scale "fPf").2.1 'f'
      ⟨⟨'e', by decide +kernel, by decide⟩, by decide, 'P', ['f'], by decide +kernel, by decide⟩

/-- The symbol of a kernel `myKerne` of a long number and a pointer is read as that of a kernel
`myKernel` of a pointer, counted one byte short. -/
theorem baseName_countedShort :
    IsIdentifier "myKerne" ∧ IsParameterList "lPi" ∧
      plainSymbol "myKerne" "lPi" = "_Z7myKernelPi" ∧
      baseName (plainSymbol "myKerne" "lPi") = "myKernel" ∧
      baseName (plainSymbol "myKerne" "lPi") ≠ "myKerne" := by
  refine ⟨⟨by decide, by simp, by simp⟩, ⟨[['l'], ['P', 'i']], by simp, ?_, by decide +kernel⟩,
    by decide +kernel, by decide +kernel, by decide +kernel⟩
  rw [List.forall_mem_cons, List.forall_mem_singleton]
  exact ⟨.builtin (by decide), .modified (by decide) (.builtin (by decide))⟩

end KernelCoarsening
