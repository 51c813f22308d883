/-
JSON text.

There are two layouts: a compact one without blanks, and one with a line for
each item and member, indented by two blanks a level.  In strings only quotes,
backslashes and control characters are escaped.
-/
import KernelCoarsening.Json.Basic

namespace KernelCoarsening

namespace Json

/-- What stands between the parts of a text: the line break before an item at a depth, and
the mark behind a key. -/
structure Layout where
  lineBreak : Nat → List Char
  colon : List Char

/-- No blanks at all. -/
def Layout.compact : Layout := { lineBreak := fun _ => [], colon := [':'] }

/-- A line for each item, indented by two blanks a level. -/
def Layout.indented : Layout :=
  { lineBreak := fun depth => '\n' :: List.replicate (2 * depth) ' ', colon := [':', ' '] }

/-- A digit of a hexadecimal number, in lower case. -/
def hexDigit (n : Nat) : Char := if n < 10 then Char.ofNat (48 + n) else Char.ofNat (87 + n)

/-- A character as it stands between quotes. -/
def escape (c : Char) : List Char :=
  match c with
  | '"' => ['\\', '"']
  | '\\' => ['\\', '\\']
  | '\x08' => ['\\', 'b']
  | '\x0c' => ['\\', 'f']
  | '\n' => ['\\', 'n']
  | '\r' => ['\\', 'r']
  | '\t' => ['\\', 't']
  | c =>
    if c.toNat < 32 then
      ['\\', 'u', '0', '0', hexDigit (c.toNat / 16), hexDigit (c.toNat % 16)]
    else [c]

/-- A string between quotes. -/
def quote (s : String) : List Char := '"' :: (s.toList.flatMap escape ++ ['"'])

mutual

/-- The text of a value at a depth.  A text that is no Unicode text is written empty. -/
def write (layout : Layout) (depth : Nat) : Json → List Char
  | null => "null".toList
  | bool true => "true".toList
  | bool false => "false".toList
  | int n => (toString n).toList
  | real literal => literal.toList
  | str s => quote s
  | illFormed => quote ""
  | arr [] => ['[', ']']
  | arr (v :: items) =>
    '[' :: (layout.lineBreak (depth + 1) ++ write layout (depth + 1) v
      ++ writeItems layout (depth + 1) items ++ layout.lineBreak depth ++ [']'])
  | obj [] => ['\x7b', '\x7d']
  | obj ((k, v) :: members) =>
    '\x7b' :: (layout.lineBreak (depth + 1) ++ quote k ++ layout.colon
      ++ write layout (depth + 1) v ++ writeMembers layout (depth + 1) members
      ++ layout.lineBreak depth ++ ['\x7d'])

/-- The text of the items behind the first. -/
def writeItems (layout : Layout) (depth : Nat) : List Json → List Char
  | [] => []
  | v :: items =>
    ',' :: (layout.lineBreak depth ++ write layout depth v ++ writeItems layout depth items)

/-- The text of the members behind the first. -/
def writeMembers (layout : Layout) (depth : Nat) : List (String × Json) → List Char
  | [] => []
  | (k, v) :: members =>
    ',' :: (layout.lineBreak depth ++ quote k ++ layout.colon ++ write layout depth v
      ++ writeMembers layout depth members)

end

/-- The text without blanks. -/
def compact (v : Json) : String := String.ofList (v.write .compact 0)

/-- The text with a line for each item. -/
def pretty (v : Json) : String := String.ofList (v.write .indented 0)

end Json

end KernelCoarsening
