import Lox.Decimal.Layout

/-!
# JSON documents

A small type of JSON documents with the two texts they are shown in: compact on one line, and
pretty with two blanks per level.  Object members keep the order in which they were given.
-/

namespace Lox
namespace Text

/-- A JSON document. -/
inductive Json where
  | null
  | count (value : Nat)
  | number (value : Float)
  | string (value : String)
  | array (items : List Json)
  | object (members : List (String × Json))

namespace Json

/-- Numbers in JSON: positional from `0.00001` to seventeen places, with a fraction throughout;
a tie goes to the even digit.  Infinite values have no number. -/
def numberLayout : Decimal.Layout where
  tie := .even
  positional x := -5 ≤ x ∧ x ≤ 15
  pointed _ := true
  exact := false
  mark := "e"
  plus := "+"
  pointedDigit := false
  nan := "null"
  infinity := "null"

/-- The lower-case hexadecimal digit of a number below sixteen. -/
def hexDigit (n : Nat) : Char :=
  Nat.digitChar n

/-- One character inside a JSON string. -/
def escape (c : Char) : List Char :=
  if c = '"' then ['\\', '"']
  else if c = '\\' then ['\\', '\\']
  else if c = '\x08' then ['\\', 'b']
  else if c = '\t' then ['\\', 't']
  else if c = '\n' then ['\\', 'n']
  else if c = '\x0c' then ['\\', 'f']
  else if c = '\r' then ['\\', 'r']
  else if c.toNat < 0x20 then
    ['\\', 'u', '0', '0', hexDigit (c.toNat / 16), hexDigit (c.toNat % 16)]
  else [c]

/-- A JSON string with its quotes. -/
def quote (s : String) : String :=
  String.ofList ('"' :: (s.toList.flatMap escape ++ ['"']))

/-- The text of a number; an infinite one is `null`, whatever its sign. -/
def numberText (x : Float) : String :=
  match Decimal.magnitude x with
  | .finite _ => numberLayout.text x
  | _ => "null"

mutual

/-- The text of a document without blanks. -/
def compact : Json → String
  | .null => "null"
  | .count n => String.ofList (Decimal.digitsOf n)
  | .number x => numberText x
  | .string s => quote s
  | .array items => "[" ++ String.intercalate "," (compactItems items) ++ "]"
  | .object members => "\x7b" ++ String.intercalate "," (compactMembers members) ++ "\x7d"

/-- The compact texts of the items of an array. -/
def compactItems : List Json → List String
  | [] => []
  | item :: rest => compact item :: compactItems rest

/-- The compact texts of the members of an object. -/
def compactMembers : List (String × Json) → List String
  | [] => []
  | (key, value) :: rest => (quote key ++ ":" ++ compact value) :: compactMembers rest

end

/-- A line break followed by two blanks per level. -/
def lineBreak (level : Nat) : String :=
  String.ofList ('\n' :: List.replicate (2 * level) ' ')

/-- Sets the parts of an array or object, one a line, between its brackets. -/
def spread (level : Nat) (opening closing : String) (parts : List String) : String :=
  match parts with
  | [] => opening ++ closing
  | _ =>
      opening ++ lineBreak (level + 1)
        ++ String.intercalate ("," ++ lineBreak (level + 1)) parts
        ++ lineBreak level ++ closing

mutual

/-- The text of a document laid out over lines, starting at the given level. -/
def prettyAt (level : Nat) : Json → String
  | .null => "null"
  | .count n => String.ofList (Decimal.digitsOf n)
  | .number x => numberText x
  | .string s => quote s
  | .array items => spread level "[" "]" (prettyItems (level + 1) items)
  | .object members => spread level "\x7b" "\x7d" (prettyMembers (level + 1) members)

/-- The texts of the items of an array at a level. -/
def prettyItems (level : Nat) : List Json → List String
  | [] => []
  | item :: rest => prettyAt level item :: prettyItems level rest

/-- The texts of the members of an object at a level. -/
def prettyMembers (level : Nat) : List (String × Json) → List String
  | [] => []
  | (key, value) :: rest =>
      (quote key ++ ": " ++ prettyAt level value) :: prettyMembers level rest

end

/-- The text of a document laid out over lines. -/
def pretty (document : Json) : String :=
  prettyAt 0 document

end Json

end Text
end Lox
