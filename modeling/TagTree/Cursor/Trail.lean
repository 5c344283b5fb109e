import TagTree.Cursor.Ladder
import TagTree.Cursor.Survey

/-!
# Trails

A trail is the way by which a traversal came to a node: the trail of the node above, the slot there
that led on, and short cuts to some of the ancestors. The node above in a trail is the one that the
traversal came from, which during a replay need not be the one that the node is bound in.
-/

namespace TagTree

/-- The way to a node. -/
structure Trail where
  place : Place
  parent : Option Trail
  /-- The slot in the parent's node that led here. -/
  parentSlot : Nat
  depth : Nat
  ladder : Ladder
  /-- Ancestors at distances of the ladder, nearest first. -/
  skips : List Trail
  /-- The slot whose gap stands for itself, for a node that was entered through a shift. -/
  bareSlot : Option Nat
  survey : Survey
  /-- For each item, the place of the value that came there first. -/
  arrivals : Array (Except Error Place)
  survey_eq : survey = Survey.of place := by rfl
  arrivals_eq : arrivals = survey.arrivals := by rfl

namespace Trail

/-- The node at the end of the trail. -/
def node (trail : Trail) : Node :=
  trail.place.node

/-- The trail that starts at a place. -/
def start (place : Place) (ladder : Ladder) : Trail :=
  let survey := Survey.of place
  { place := place
    parent := none
    parentSlot := 0
    depth := 0
    ladder := ladder
    skips := []
    bareSlot := none
    survey := survey
    arrivals := survey.arrivals }

mutual

/-- The ancestor at a depth, by the longest short cuts that do not pass it. -/
def hop (target : Nat) : Trail → Option Trail
  | trail@⟨_, parent, _, depth, _, skips, _, _, _, _, _⟩ =>
    if depth ≤ target then some trail
    else
      match hopSkips target skips with
      | some found => found
      | none => hopParent target parent

/-- The way on from the last short cut that does not pass the depth, if there is one. -/
def hopSkips (target : Nat) : List Trail → Option (Option Trail)
  | [] => none
  | skip :: rest =>
    match hopSkips target rest with
    | some found => some found
    | none => if target ≤ skip.depth then some (hop target skip) else none

/-- The way on from the parent. -/
def hopParent (target : Nat) : Option Trail → Option Trail
  | none => none
  | some parent => hop target parent

end

/-- The ancestor at a depth, which is the trail itself at its own depth. -/
def ancestor (trail : Trail) (depth : Nat) : Except LookupError Trail :=
  if trail.depth < depth then .error (.depth depth)
  else
    match trail.hop depth with
    | some found => .ok found
    | none => .error (.depth depth)

/-- The distances at which a trail of the given depth keeps short cuts. -/
def skipDistances (trail : Trail) (depth : Nat) : List Nat :=
  trail.ladder.distances.filter fun distance => depth % distance == 0

/-- The trail one step further, to a place that a slot led to. -/
def child (trail : Trail) (place : Place) (slot : Nat) (bare : Option Nat) : Trail :=
  let survey := Survey.of place
  { place := place
    parent := some trail
    parentSlot := slot
    depth := trail.depth + 1
    ladder := trail.ladder
    skips := (trail.skipDistances (trail.depth + 1)).filterMap fun distance =>
      (trail.ancestor (trail.depth + 1 - distance)).toOption
    bareSlot := bare
    survey := survey
    arrivals := survey.arrivals }

end Trail

end TagTree
