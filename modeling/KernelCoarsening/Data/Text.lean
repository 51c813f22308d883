/-
Small operations on text.

Texts are taken apart as lists of characters.  `Text.isBlank` is the Unicode
property `White_Space`, which decides what `Text.trim` removes.
-/
import KernelCoarsening.Data.Word

namespace KernelCoarsening

namespace Text

/-- What follows a leading text. -/
def after? (lead : String) (s : String) : Option String :=
  if lead.toList.isPrefixOf s.toList then some (String.ofList (s.toList.drop lead.toList.length))
  else none

/-- A text starts with another. -/
def startsWith (lead : String) (s : String) : Bool := lead.toList.isPrefixOf s.toList

/-- The two sides of the first place where a character stands. -/
def splitOnce? (c : Char) (s : String) : Option (String × String) :=
  match s.toList.span (· != c) with
  | (_, []) => none
  | (before, _ :: behind) => some (String.ofList before, String.ofList behind)

/-- The pieces between the places where a character stands. -/
def pieces (c : Char) : List Char → List (List Char)
  | [] => [[]]
  | d :: rest =>
    if d = c then [] :: pieces c rest
    else match pieces c rest with
      | piece :: more => (d :: piece) :: more
      | [] => [[d]]

/-- The texts between the places where a character stands; there is one more than places. -/
def split (c : Char) (s : String) : List String := (pieces c s.toList).map String.ofList

/-- The characters with the Unicode property `White_Space`. -/
def isBlank (c : Char) : Bool :=
  let n := c.toNat
  (9 ≤ n && n ≤ 13) || n == 0x20 || n == 0x85 || n == 0xA0 || n == 0x1680
    || (0x2000 ≤ n && n ≤ 0x200A) || n == 0x2028 || n == 0x2029 || n == 0x202F
    || n == 0x205F || n == 0x3000

/-- A list of characters without blanks at its ends. -/
def trimChars (cs : List Char) : List Char :=
  ((cs.dropWhile isBlank).reverse.dropWhile isBlank).reverse

/-- A text without blanks at its ends. -/
def trim (s : String) : String := String.ofList (trimChars s.toList)

/-- The number that decimal digits spell. -/
def digitsValue (ds : List Char) : Nat := ds.foldl (fun n d => n * 10 + (d.toNat - 48)) 0

/-- The number of 32 bits that a text spells: decimal digits, perhaps behind a plus sign. -/
def word? (s : String) : Option Nat :=
  let ds := match s.toList with
    | '+' :: ds => ds
    | ds => ds
  if ds.isEmpty || !ds.all Char.isDigit then none
  else if digitsValue ds < limit32 then some (digitsValue ds) else none

/-- The lines of a text.  A line break ends a line, so the last one opens none; a carriage
return before it is dropped. -/
def lines (s : String) : List String :=
  let parts := pieces '\n' s.toList
  let ended := parts.dropLast.map fun line =>
    String.ofList (if line.getLast? = some '\r' then line.dropLast else line)
  match parts.getLast? with
  | none | some [] => ended
  | some last => ended ++ [String.ofList last]

end Text

end KernelCoarsening
