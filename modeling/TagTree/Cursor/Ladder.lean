/-!
# Ladders

A trail keeps short cuts to its ancestors at the distances of a ladder, which are the first powers
of four.
-/

namespace TagTree

/-- The number of short cuts that a trail may keep. -/
structure Ladder where
  levels : Nat := 3
  deriving DecidableEq, Repr

/-- The distances of a ladder, nearest first. -/
def Ladder.distances (ladder : Ladder) : List Nat :=
  (List.range ladder.levels).map fun level => Nat.pow 4 (level + 1)

theorem Ladder.mem_distances {ladder : Ladder} {distance : Nat} :
    distance ∈ ladder.distances ↔
      ∃ level, level < ladder.levels ∧ distance = Nat.pow 4 (level + 1) := by
  simp [distances, eq_comm]

end TagTree
