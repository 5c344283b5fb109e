import TagTree.Text.Quoted
import TagTree.Value.Basic

/-!
# The text of attribute values

Arrays and objects put a comma and a space between their parts, an object's keys stand bare, and
texts are quoted.
-/

namespace TagTree

/-- An integer in decimal digits, with a minus sign if it is negative. -/
def integerText (value : Int) : List Char :=
  if value < 0 then '-' :: Nat.toDigits 10 value.natAbs else Nat.toDigits 10 value.natAbs

namespace Value

mutual

/-- The text of a value, and what follows it. -/
def write (rest : List Char) : Value → List Char
  | null => "null".toList ++ rest
  | bool true => "true".toList ++ rest
  | bool false => "false".toList ++ rest
  | integer value => integerText value.toInt ++ rest
  | text value => Text.literalText value.toList ++ rest
  | array items => '[' :: writeItems (']' :: rest) items
  | object entries => '{' :: writeEntries ('}' :: rest) entries

/-- The texts of the items, separated, and what follows them. -/
def writeItems (rest : List Char) : List Value → List Char
  | [] => rest
  | item :: later => item.write (writeLaterItems rest later)

/-- The texts of the items after the first, each with its separator, and what follows them. -/
def writeLaterItems (rest : List Char) : List Value → List Char
  | [] => rest
  | item :: later => ',' :: ' ' :: item.write (writeLaterItems rest later)

/-- The texts of the entries, separated, and what follows them. -/
def writeEntries (rest : List Char) : List (String × Value) → List Char
  | [] => rest
  | (key, value) :: later => key.toList ++ ':' :: ' ' :: value.write (writeLaterEntries rest later)

/-- The texts of the entries after the first, each with its separator, and what follows them. -/
def writeLaterEntries (rest : List Char) : List (String × Value) → List Char
  | [] => rest
  | (key, value) :: later =>
    ',' :: ' ' :: key.toList ++ ':' :: ' ' :: value.write (writeLaterEntries rest later)

end

/-- The text of a value. -/
def chars (value : Value) : List Char :=
  value.write []

/-- The text of a value, as a string. -/
def print (value : Value) : String :=
  String.ofList value.chars

end Value

namespace Attributes

/-- The text of attributes: `key=value`, separated by single spaces. -/
def chars : Attributes → List Char
  | [] => []
  | [(key, value)] => key.toList ++ '=' :: value.chars
  | (key, value) :: next :: rest => key.toList ++ '=' :: value.chars ++ ' ' :: chars (next :: rest)

/-- The text of attributes, as a string. -/
def print (attributes : Attributes) : String :=
  String.ofList attributes.chars

end Attributes

end TagTree
