import TagTree.Text.IdentifierStart

/-!
# Characters that continue an identifier

The Unicode property `XID_Continue`, as of Unicode 16. It extends `XID_Start` by digits, marks and
connector punctuation, of which ASCII has the digits and the underscore.
-/

namespace TagTree.Text

/-- The code points from 128 on that have the Unicode property `XID_Continue` and not
`XID_Start`. -/
def identifierExtraRanges : List (Nat × Nat) :=
  rangesFrom 128
    [55, 1, 584, 112, 23, 1, 251, 5, 265, 45, 1, 1, 1, 2, 1, 2, 1, 1, 72, 11, 48, 31, 6, 1, 101, 7,
    2, 6, 2, 2, 1, 4, 2, 10, 23, 1, 30, 27, 91, 11, 15, 10, 33, 9, 9, 1, 24, 4, 1, 9, 1, 3, 1, 5,
    43, 3, 59, 9, 42, 24, 1, 33, 54, 3, 1, 18, 1, 7, 10, 2, 2, 10, 17, 3, 56, 1, 1, 7, 2, 2, 2, 3,
    9, 1, 10, 2, 2, 10, 14, 1, 2, 3, 56, 1, 1, 5, 4, 2, 2, 3, 3, 1, 20, 12, 3, 1, 11, 3, 56, 1, 1,
    8, 1, 3, 1, 3, 20, 2, 2, 10, 10, 6, 1, 3, 56, 1, 1, 7, 2, 2, 2, 3, 7, 3, 10, 2, 2, 10, 18, 1,
    59, 5, 3, 3, 1, 4, 9, 1, 14, 10, 16, 5, 55, 1, 1, 7, 1, 3, 1, 4, 7, 2, 11, 2, 2, 10, 17, 3, 56,
    1, 1, 7, 1, 3, 1, 4, 7, 2, 11, 2, 2, 10, 3, 1, 12, 4, 55, 2, 1, 7, 1, 3, 1, 4, 9, 1, 10, 2, 2,
    10, 17, 3, 70, 1, 4, 6, 1, 1, 1, 8, 6, 10, 2, 2, 61, 1, 1, 8, 12, 8, 1, 10, 87, 1, 1, 10, 11, 7,
    1, 10, 62, 2, 6, 10, 11, 1, 1, 1, 1, 1, 4, 2, 49, 20, 1, 2, 5, 11, 1, 36, 9, 1, 100, 20, 1, 10,
    12, 4, 4, 3, 1, 3, 2, 7, 3, 4, 13, 12, 1, 15, 703, 3, 9, 9, 928, 4, 28, 3, 29, 2, 30, 2, 64, 32,
    9, 1, 2, 10, 33, 3, 1, 11, 143, 1, 118, 12, 4, 12, 10, 10, 128, 11, 60, 5, 57, 10, 1, 29, 2, 11,
    6, 10, 22, 14, 1, 16, 49, 5, 47, 17, 11, 10, 17, 9, 12, 3, 30, 13, 2, 10, 44, 14, 48, 20, 8, 10,
    6, 10, 118, 3, 1, 21, 4, 1, 6, 1, 2, 3, 198, 64, 524, 2, 49, 2, 19, 1, 123, 13, 4, 1, 3, 12,
    3070, 3, 141, 1, 96, 32, 554, 6, 105, 2, 96, 1, 29988, 10, 69, 1, 4, 10, 32, 2, 80, 2, 272, 1,
    3, 1, 4, 1, 23, 5, 4, 1, 83, 2, 50, 18, 10, 10, 6, 18, 13, 11, 28, 8, 25, 13, 44, 4, 47, 14, 15,
    10, 11, 1, 10, 10, 47, 14, 12, 1, 8, 2, 2, 10, 33, 3, 50, 1, 1, 3, 2, 2, 5, 2, 1, 1, 41, 5, 5,
    2, 236, 8, 1, 2, 2, 10, 20260, 1, 737, 16, 16, 16, 3, 2, 24, 3, 192, 10, 37, 1, 37, 1, 56, 2,
    605, 1, 226, 1, 149, 5, 293, 10, 1367, 3, 1, 2, 5, 4, 40, 3, 4, 1, 165, 2, 573, 4, 8, 10, 6, 10,
    31, 5, 317, 2, 79, 4, 70, 11, 49, 4, 122, 3, 53, 15, 31, 11, 2, 2, 10, 4, 45, 11, 7, 1, 45, 10,
    6, 3, 36, 14, 1, 10, 5, 2, 44, 1, 12, 3, 48, 14, 8, 4, 1, 12, 82, 12, 6, 1, 2, 1, 157, 12, 5,
    10, 6, 4, 55, 2, 1, 7, 2, 2, 2, 3, 9, 1, 10, 2, 2, 7, 3, 5, 67, 9, 1, 1, 2, 1, 1, 4, 1, 5, 1, 1,
    14, 2, 82, 18, 9, 10, 4, 1, 81, 20, 12, 10, 213, 7, 2, 9, 27, 2, 82, 17, 15, 10, 81, 13, 8, 10,
    6, 20, 57, 15, 4, 10, 242, 15, 165, 10, 70, 6, 1, 2, 2, 4, 1, 1, 1, 2, 12, 10, 119, 7, 2, 7, 3,
    1, 28, 10, 40, 7, 1, 4, 8, 1, 9, 11, 46, 16, 342, 10, 53, 8, 1, 8, 16, 10, 56, 22, 1, 14, 122,
    6, 3, 1, 1, 2, 1, 7, 1, 1, 8, 10, 48, 5, 1, 2, 1, 5, 8, 10, 329, 4, 9, 2, 1, 1, 48, 7, 3, 5, 13,
    11, 5349, 1, 6, 15, 11464, 28, 2342, 10, 86, 10, 38, 5, 59, 7, 25, 10, 534, 10, 469, 1, 1, 55,
    7, 4, 81, 1, 11, 2, 19627, 2, 4177, 10, 518, 46, 2, 23, 542, 5, 3, 6, 8, 8, 2, 7, 30, 4, 148, 3,
    1417, 50, 512, 55, 4, 50, 8, 1, 14, 1, 22, 5, 1, 15, 1360, 7, 1, 17, 2, 7, 1, 2, 1, 5, 100, 1,
    160, 7, 9, 10, 356, 1, 61, 14, 498, 14, 244, 2, 1, 10, 725, 7, 109, 7, 5, 10, 4758, 10, 787718,
    240]

/-- The character has the Unicode property `XID_Continue`. -/
def isIdentifierContinue (c : Char) : Bool :=
  isIdentifierStart c ||
    if c.toNat < 128 then c.isDigit || c == '_' else inRanges identifierExtraRanges c.toNat

end TagTree.Text
