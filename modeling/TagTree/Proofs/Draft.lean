import TagTree.Builder.Frame
import TagTree.Proofs.Segment

/-!
# Drafts

A draft is an open node as the rules of building see it: its segments so far, the value that it has
yet to take back, and how far the next segment has come. A frame tells a draft (`Frame.Tells`) if it
holds the same, in the form in which the builder can work with it. What each step of a frame does is
said here once, in terms of drafts.
-/

namespace TagTree

/-- Some node that is bound or embedded has a gap. -/
def Node.anyGap (properties : Entries (Property Node)) (items : List (Item Node)) : Bool :=
  properties.any (fun entry => entry.2.bindings.any fun binding => binding.node.hasGap) ||
    items.any fun item => item.node?.any Node.hasGap

/-- A node with the given parts. Its gap marks and its size follow from them. -/
def Node.assemble (start label : OpenTag) (items : List (Item Node))
    (properties : Entries (Property Node)) (held : Option Nat) : Node :=
  .element {
    start := start.marked (anyGap properties items)
    label := label.marked (anyGap properties items)
    items := items.toArray
    properties := properties
    held := held
    size := 1 + Node.propertiesSize properties + Node.itemsSize items }

/-- The finished node of a frame is assembled from its parts. -/
theorem Frame.toNode_eq (frame : Frame) :
    frame.toNode = Node.assemble frame.start frame.label frame.items.toList
      frame.properties.toList frame.held := by
  simp [Frame.toNode, Node.assemble, Node.anyGap, Frame.hasGap, Frame.size, Register.toList]

/-- What a node is made of. -/
structure Outline where
  start : OpenTag
  label : OpenTag
  segments : List (Segment Node)
  /-- The position, among the items, of the gap that took back a shifted value. -/
  held : Option Nat

/-- The node with an outline. -/
def Outline.toNode (outline : Outline) : Node :=
  .assemble outline.start outline.label (Segment.allItems outline.segments)
    (Segment.properties outline.segments) outline.held

/-- A value with its shifts, as the node keeps them. -/
def Segment.bound (edge : Reference) (node : Node) (shifts : Nat) : Segment Node :=
  .value (edge.marked node.hasGap) node shifts

/-- How far the next segment of an open node has come. -/
inductive Stage where
  /-- Nothing of it is there. -/
  | resting
  /-- It is a value that a shift may still detach. -/
  | bound (edge : Reference) (node : Node) (shifts : Nat)
  /-- Its reference is there and the value is not. -/
  | waiting (edge : Reference)
  /-- It is a value that has been detached, and the node that takes it back is not there. -/
  | shifting (edge : Reference) (node : Node) (shifts : Nat)

namespace Stage

/-- The segment as it stands. -/
def segments : Stage → List (Segment Node)
  | bound edge node shifts | shifting edge node shifts => [.bound edge node shifts]
  | _ => []

/-- The items after the segment as it stands. -/
def items : Stage → List (Item Node)
  | waiting edge => [.reference (edge.marked false)]
  | shifting _ _ shifts => [.shift (shifts + 1)]
  | _ => []

/-- A reference is there and its value is not. -/
def isWaiting : Stage → Bool
  | waiting _ => true
  | _ => false

/-- A value has been detached, and the node that takes it back is not there. -/
def isShifting : Stage → Bool
  | shifting _ _ _ => true
  | _ => false

/-- The mention that the segment will be. -/
def mentions : Stage → List Mention
  | waiting edge => if edge.isReserved then [] else [.value (edge.marked false)]
  | _ => []

end Stage

/-- An open node. -/
structure Draft extends Outline where
  /-- The shifted value that the node has yet to take back. -/
  owed : Option Node
  stage : Stage

namespace Draft

/-- The draft of a node that has just been opened. -/
def fresh (start : OpenTag) (inherited : Option String) (owed : Option Node) : Draft :=
  { start := start, label := start.label inherited, segments := [], held := none, owed := owed,
    stage := .resting }

/-- The segments, with the last as it stands. -/
def allSegments (draft : Draft) : List (Segment Node) :=
  draft.segments ++ draft.stage.segments

/-- The items so far. -/
def items (draft : Draft) : List (Item Node) :=
  Segment.allItems draft.allSegments ++ draft.stage.items

/-- The mentions so far. -/
def mentions (draft : Draft) : List Mention :=
  Segment.mentions draft.allSegments ++ draft.stage.mentions

/-- Where the value of a reference that comes after the finished segments goes. -/
def target (draft : Draft) (edge : Reference) : Target :=
  ⟨edge.marked false, Mention.indexOf (Segment.mentions draft.segments) edge,
    (Segment.allItems draft.segments).length⟩

/-- Where a node that opens now goes. -/
def destination (draft : Draft) : Option Target :=
  match draft.stage with
  | .waiting edge => if edge.isReserved then none else some (draft.target edge)
  | .shifting edge _ _ => some (draft.target edge)
  | _ => none

/-- The draft at another stage. -/
def inStage (draft : Draft) (stage : Stage) : Draft :=
  { draft with stage := stage }

/-- The draft whose value is no longer to be detached. -/
def settled (draft : Draft) : Draft :=
  { draft with segments := draft.allSegments, stage := .resting }

/-- The draft with a finished segment more. -/
def add (draft : Draft) (segment : Segment Node) : Draft :=
  { draft with segments := draft.segments ++ [segment], stage := .resting }

/-- The draft whose next value is the one that it had yet to take back. -/
def hold (draft : Draft) : Draft :=
  { draft with owed := none, held := some draft.items.length }

/-- The draft after the node that was opened last is finished. -/
def receive (draft : Draft) (node : Node) : Draft :=
  match draft.stage with
  | .waiting edge =>
    if edge.isReserved then draft.add (.embedded (some (edge.marked false)) node)
    else draft.inStage (.bound edge node 0)
  | .shifting edge _ shifts => draft.inStage (.bound edge node (shifts + 1))
  | _ => draft.add (.embedded none node)

/-- The finished node. -/
def toNode (draft : Draft) : Node :=
  draft.settled.toOutline.toNode

/-- No segment has been begun. -/
def Idle (draft : Draft) : Prop :=
  draft.stage = .resting ∨ ∃ edge node shifts, draft.stage = .bound edge node shifts

/-- A node, embedded or bound, may open there. That leaves the draft as given, and the node has to
take back the given value. -/
inductive Opens (draft : Draft) : Bool → Draft → Option Node → Prop where
  | beside (hi : draft.Idle) : Opens draft true draft.settled none
  | reserved {edge : Reference} (hs : draft.stage = .waiting edge) (hr : edge.isReserved = true) :
    Opens draft true draft none
  | value {edge : Reference} (hs : draft.stage = .waiting edge)
    (hb : Mention.Bindable (Segment.mentions draft.segments) edge) : Opens draft false draft none
  | shifted {edge : Reference} {node : Node} {shifts : Nat}
    (hs : draft.stage = .shifting edge node shifts) : Opens draft false draft (some node)

end Draft

/-- The frame holds what the draft says. -/
structure Frame.Tells (frame : Frame) (draft : Draft) : Prop where
  start : frame.start = draft.start
  label : frame.label = draft.label
  owed : frame.owed = draft.owed
  held : frame.held = draft.held
  items : frame.items.toList = draft.items
  properties : frame.properties.toList = Segment.properties draft.allSegments
  scope : frame.scope.Counts draft.mentions
  orderly : Mention.Orderly [] (Segment.mentions draft.allSegments)
  referable : ∀ edge, draft.stage = .waiting edge →
    Mention.Referable (Segment.mentions draft.segments) edge

/-- The frame whose reference waits no longer. -/
def Frame.taken (frame : Frame) : Frame :=
  { frame with pending := none }

/-- The frame whose next value is the one that it had yet to take back. -/
def Frame.hold (frame : Frame) : Frame :=
  { frame with owed := none, held := some frame.items.size }

/-- The innermost frame, which the next tag comes to. -/
def Frame.Active (frame : Frame) (draft : Draft) : Prop :=
  match draft.stage with
  | .resting =>
    frame.pending = none ∧ frame.shifted = none ∧
    ∀ target ∈ frame.lastBound, target.position + 2 * (frame.shifts + 1) < frame.items.size
  | .bound edge _ shifts =>
    frame.pending = none ∧ frame.shifted = none ∧
    frame.lastBound = some (draft.target edge) ∧ frame.shifts = shifts
  | .waiting edge =>
    frame.pending = some (draft.target edge) ∧ frame.shifted = none ∧
    frame.lastBound = none ∧ frame.shifts = 0
  | .shifting edge node shifts =>
    frame.pending = none ∧ frame.shifted = some (draft.target edge, node) ∧
    frame.lastBound = none ∧ frame.shifts = shifts + 1

/-- A frame whose pending reference or detached value has been taken, for a value or for a node
that is open. -/
def Frame.Passive (frame : Frame) (draft : Draft) : Prop :=
  frame.pending = none ∧ frame.shifted = none ∧
  match draft.stage with
  | .resting =>
    ∀ target ∈ frame.lastBound, target.position + 2 * (frame.shifts + 1) ≤ frame.items.size
  | .bound _ _ _ => False
  | .waiting edge =>
    frame.lastBound = none ∧ frame.shifts = 0 ∧
    (edge.isReserved = false → Mention.Bindable (Segment.mentions draft.segments) edge)
  | .shifting _ _ shifts => frame.lastBound = none ∧ frame.shifts = shifts + 1

end TagTree
