import TagTree.Text.CodeRange

/-!
# Blanks and control characters

The Unicode property `White_Space`, which separates tags and attributes, and the general category of
control characters, which a quoted text never holds in plain form.
-/

namespace TagTree.Text

/-- The code points with the property `White_Space`, as closed ranges in increasing order. -/
def blankRanges : List (Nat × Nat) :=
  [(0x9, 0xd), (0x20, 0x20), (0x85, 0x85), (0xa0, 0xa0), (0x1680, 0x1680), (0x2000, 0x200a),
  (0x2028, 0x2029), (0x202f, 0x202f), (0x205f, 0x205f), (0x3000, 0x3000)]

/-- The character has the Unicode property `White_Space`. -/
def isBlank (c : Char) : Bool :=
  inRanges blankRanges c.toNat

/-- The character is a control character: below the space, or from delete up to 0x9f. -/
def isControl (c : Char) : Bool :=
  c.toNat < 0x20 || (0x7f ≤ c.toNat && c.toNat ≤ 0x9f)

/-- The text after its leading blanks. -/
def skipBlanks (input : List Char) : List Char :=
  input.dropWhile isBlank

/-- Skipping blanks leaves no more than there was. -/
theorem length_skipBlanks_le (input : List Char) : (skipBlanks input).length ≤ input.length :=
  (List.dropWhile_sublist isBlank).length_le

end TagTree.Text
