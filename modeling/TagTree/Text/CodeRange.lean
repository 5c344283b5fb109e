/-!
# Ranges of code points

A character class is a list of closed ranges of code points. A large class is given by the lengths
of the runs of code points outside and inside of it (`rangesFrom`), so that its ranges lie apart and
in increasing order.
-/

namespace TagTree.Text

/-- The code point lies in one of the closed ranges. -/
def inRanges (ranges : List (Nat × Nat)) (code : Nat) : Bool :=
  ranges.any fun range => range.1 ≤ code && code ≤ range.2

/-- The ranges of a class, from a code point on. The lengths are by turns those of a run outside and
of one inside of the class. -/
def rangesFrom (code : Nat) : List Nat → List (Nat × Nat)
  | outside :: inside :: lengths =>
    let first := code + outside
    (first, first + inside - 1) :: rangesFrom (first + inside) lengths
  | _ => []

/-- A code point lies in the ranges exactly if one of them holds it. -/
theorem inRanges_iff {ranges : List (Nat × Nat)} {code : Nat} :
    inRanges ranges code = true ↔ ∃ range ∈ ranges, range.1 ≤ code ∧ code ≤ range.2 := by
  simp [inRanges]

end TagTree.Text
