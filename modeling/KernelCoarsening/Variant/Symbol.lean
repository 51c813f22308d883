/-
Symbols of kernels and of their variants.

A mangled symbol is `_Z`, perhaps an `L`, and a name.  A plain name is a length and
an identifier; a nested name is an `N`, qualifiers, such names from the outside
inward, and an `E` or the `I` of template arguments.  Lengths count the bytes of the
UTF-8 form.  What follows the name, the types of the parameters, is kept as it is.

A variant is named by a suffix behind the innermost identifier, whose length is
written anew.  A symbol that is not mangled gets the suffix at its end.

Design notes: some producers count a plain identifier one byte short.  A small
letter between a small letter that ends the identifier and a capital that starts a
type is therefore taken into the identifier.
-/
import KernelCoarsening.Data.Text
import KernelCoarsening.Grid.Coordinate

namespace KernelCoarsening

/-- A mangled symbol, taken apart at its innermost identifier. -/
structure MangledName where
  /-- What stands before the length of the innermost identifier. -/
  lead : List Char
  /-- The outer identifiers, outermost first. -/
  outer : List (List Char)
  ident : List Char
  /-- What stands behind the innermost identifier. -/
  tail : List Char
  deriving DecidableEq

namespace MangledName

/-- The number of bytes of the UTF-8 form. -/
def byteLength (cs : List Char) : Nat := cs.foldr (fun c n => c.utf8Size + n) 0

/-- Splits off characters of so many bytes together; a character is not divided. -/
def takeBytes? : Nat → List Char → Option (List Char × List Char)
  | 0, cs => some ([], cs)
  | _, [] => none
  | n + 1, c :: cs =>
    if c.utf8Size ≤ n + 1 then
      (takeBytes? (n + 1 - c.utf8Size) cs).map fun (taken, rest) => (c :: taken, rest)
    else none
termination_by _ cs => cs.length

theorem takeBytes?_eq_some {n : Nat} {cs taken rest : List Char}
    (h : takeBytes? n cs = some (taken, rest)) : cs = taken ++ rest := by
  induction n, cs using takeBytes?.induct generalizing taken with
  | case1 cs => simp_all [takeBytes?]
  | case2 n hn => cases n <;> simp_all [takeBytes?]
  | case3 n c cs fits ih =>
    simp only [takeBytes?, fits, if_true, Option.map_eq_some_iff, Prod.mk.injEq] at h
    obtain ⟨⟨more, rest'⟩, hmore, rfl, rfl⟩ := h
    simp [ih hmore]
  | case4 n c cs big => simp [takeBytes?, big] at h

/-- Reads a length and an identifier of that length. -/
def sourceName? (cs : List Char) : Option (List Char × List Char × List Char) := do
  let digits := cs.takeWhile Char.isDigit
  if digits.isEmpty then none
  let (ident, rest) ← takeBytes? (Text.digitsValue digits) (cs.dropWhile Char.isDigit)
  return (digits, ident, rest)

theorem sourceName?_eq_some {cs digits ident rest : List Char}
    (h : sourceName? cs = some (digits, ident, rest)) :
    digits ≠ [] ∧ cs = digits ++ ident ++ rest := by
  simp only [sourceName?] at h
  split at h
  · simp at h
  · rename_i nonempty
    cases ht : takeBytes? (Text.digitsValue (cs.takeWhile Char.isDigit))
        (cs.dropWhile Char.isDigit) with
    | none => simp [ht] at h
    | some found =>
      obtain ⟨taken, left⟩ := found
      obtain ⟨rfl, rfl, rfl⟩ : cs.takeWhile Char.isDigit = digits ∧ taken = ident ∧ left = rest := by
        simpa [ht] using h
      refine ⟨by simpa using nonempty, ?_⟩
      rw [List.append_assoc, ← takeBytes?_eq_some ht, List.takeWhile_append_dropWhile]

/-- Takes a letter into an identifier that was counted one byte short. -/
def widen (ident rest : List Char) : List Char × List Char :=
  match ident.getLast?, rest with
  | some last, c :: d :: more =>
    if last.isLower && c.isLower && d.isUpper then (ident ++ [c], d :: more) else (ident, rest)
  | _, _ => (ident, rest)

/-- Reads a plain name behind what has been read. -/
def plain? (lead cs : List Char) : Option MangledName := do
  let (_, ident, rest) ← sourceName? cs
  let (ident, tail) := widen ident rest
  return { lead, outer := [], ident, tail }

/-- The name inside another identifier, whose length has these digits. -/
def inside (m : MangledName) (digits ident : List Char) : MangledName :=
  { m with lead := digits ++ ident ++ m.lead, outer := ident :: m.outer }

/-- Reads the identifiers of a nested name. -/
def nested? (cs : List Char) : Option MangledName :=
  match _h : sourceName? cs with
  | none => none
  | some (_, _, []) => none
  | some (digits, ident, c :: rest) =>
    if c.isDigit then (nested? (c :: rest)).map (·.inside digits ident)
    else if c = 'E' ∨ c = 'I' then some { lead := [], outer := [], ident, tail := c :: rest }
    else none
termination_by cs.length
decreasing_by
  obtain ⟨nonempty, rfl⟩ := sourceName?_eq_some _h
  have := List.length_pos_iff.mpr nonempty
  simp only [List.length_append, List.length_cons]
  omega

/-- A letter that qualifies a nested name. -/
def isQualifier (c : Char) : Bool := c == 'K' || c == 'V' || c == 'r'

/-- Takes a symbol apart, if it is mangled. -/
def ofChars? : List Char → Option MangledName
  | '_' :: 'Z' :: cs =>
    let (lead, cs) := match cs with
      | 'L' :: cs => (['_', 'Z', 'L'], cs)
      | cs => (['_', 'Z'], cs)
    match cs with
    | 'N' :: cs =>
      let lead := lead ++ 'N' :: cs.takeWhile isQualifier
      (nested? (cs.dropWhile isQualifier)).map fun m => { m with lead := lead ++ m.lead }
    | cs => plain? lead cs
  | _ => none

/-- The symbol with another innermost identifier. -/
def withIdent (m : MangledName) (ident : List Char) : List Char :=
  m.lead ++ (toString (byteLength ident)).toList ++ ident ++ m.tail

/-- The identifiers, joined as in source text. -/
def qualified (m : MangledName) : List Char :=
  List.intercalate [':', ':'] (m.outer ++ [m.ident])

end MangledName

/-- The name that a kernel is selected by: its identifiers if the symbol is mangled, and
otherwise the symbol. -/
def baseName (symbol : String) : String :=
  match MangledName.ofChars? symbol.toList with
  | some m => String.ofList m.qualified
  | none => symbol

/-- The suffix of a variant: the dimension, both factors and the stride. -/
def variantSuffix (dim : Dimension) (blockFactor threadFactor stride : Nat) : String :=
  "_" ++ toString dim.index ++ "_" ++ toString blockFactor ++ "_" ++ toString threadFactor
    ++ "_" ++ toString stride

/-- The symbol with a suffix behind its innermost identifier. -/
def suffixSymbol (symbol suffix : String) : String :=
  match MangledName.ofChars? symbol.toList with
  | some m => String.ofList (m.withIdent (m.ident ++ suffix.toList))
  | none => symbol ++ suffix

end KernelCoarsening
