import TagTree.Builder.Frame

/-!
# Building trees

A builder takes tags one by one and grows a tree. With expressions it stops at every gap that takes
back no shifted value and asks for what to put there. A tag that is refused leaves the builder
usable.

A step within a node is given the innermost open node, the open nodes around it, and the builder
without its open nodes; it puts them back together (`withTop`).
-/

namespace TagTree

/-- What the builder wants after a tag: more tags, or an expression first. -/
inductive Feed where
  | accepted
  | needsExpression
  deriving DecidableEq, Repr

/-- A tree that is being built, with its open nodes, innermost first. -/
structure Builder where
  /-- Gaps ask for an expression. -/
  expressions : Bool := false
  doctype : Option Doctype := none
  /-- The root, once it is closed. -/
  root : Option Node := none
  frames : List Frame := []
  /-- The target that waits for an expression. -/
  awaiting : Option Target := none
  /-- The number of nodes made so far. -/
  created : Nat := 0

namespace Builder

/-- The number of open nodes. -/
def depth (builder : Builder) : Nat :=
  (builder.frames.head?.map Frame.depth).getD 0

/-- The builder waits for an expression. -/
def needsExpression (builder : Builder) : Bool :=
  builder.awaiting.isSome

/-- The root has been opened. -/
def hasRoot (builder : Builder) : Bool :=
  builder.root.isSome || !builder.frames.isEmpty

/-- The builder with another innermost open node, above the given ones. -/
def withTop (builder : Builder) (below : List Frame) (frame : Frame) : Builder :=
  { builder with frames := frame :: below }

/-- A step of the innermost open node as a step of the builder. -/
def lift {α : Type} (builder : Builder) (below : List Frame) (attempt : Attempt Frame α) :
    Attempt Builder α :=
  attempt.mapError fun refusal => ⟨refusal.error, builder.withTop below refusal.state⟩

/-- The builder after one more node was made. -/
def make (builder : Builder) : Builder :=
  { builder with created := builder.created + 1 }

/-- A node is both an escape and trivia. -/
def isContradictory (start : OpenTag) : Bool :=
  start.flags.escape && start.flags.trivia

/-- The header comes before the root, once. -/
def pushDoctype (builder : Builder) (doctype : Doctype) : Attempt Builder Builder :=
  if builder.hasRoot || builder.doctype.isSome then refuse .misplacedDoctype builder
  else .ok { builder with doctype := some doctype }

/-- The root opens. Without a language of its own it has that of the document. -/
def openRoot (builder : Builder) (start : OpenTag) : Attempt Builder Builder :=
  if isContradictory start then refuse (.escapeAndTrivia (start.typeName.getD "")) builder
  else
    let start := start.plain
    let label := start.label (builder.doctype.bind Doctype.language)
    .ok { builder.make with
      frames := [{ start := start, label := label, destination := none, owed := none }] }

/-- A node opens within the innermost open node. -/
def openChild (builder : Builder) (frame : Frame) (below : List Frame) (start : OpenTag) :
    Attempt Builder Builder :=
  if isContradictory start then
    refuse (.escapeAndTrivia (start.typeName.getD "")) (builder.withTop below frame)
  else do
    let start := start.plain
    let (frame, destination, owed) ← builder.lift below (frame.opening start)
    let child : Frame :=
      { depth := frame.depth + 1, start := start, label := start.label none,
        destination := destination, owed := owed,
        withinOwed := frame.withinOwed || frame.owed.isSome }
    return { builder.make with frames := child :: frame :: below }

/-- The innermost open node closes. -/
def close (builder : Builder) (frame : Frame) (below : List Frame) : Attempt Builder Builder :=
  match frame.checkClose with
  | .error error => refuse error (builder.withTop below frame)
  | .ok () =>
    match below with
    | [] => .ok { builder with frames := [], root := some frame.toNode }
    | parent :: outer => do
      let parent ← builder.lift outer (parent.receive frame.destination frame.toNode)
      return builder.withTop outer parent

/-- A gap takes back the shifted value that the node is owed, or asks for an expression, or stays.
While an outer node is owed a value, no gap is admitted. -/
def gap (builder : Builder) (frame : Frame) (below : List Frame) :
    Attempt Builder (Feed × Builder) := do
  let (target, frame) ← builder.lift below (frame.takePending .gap)
  if frame.withinOwed then
    refuse .shiftedValueNotReattached (builder.withTop below frame)
  else
    match frame.owed with
    | some node =>
      let held := frame.items.size
      let frame := { frame with owed := none, held := some held }
      let frame ← builder.lift below (frame.bind target node)
      return (.accepted, builder.withTop below frame)
    | none =>
      if builder.expressions then
        return (.needsExpression, { builder.withTop below frame with awaiting := some target })
      else
        let frame ← builder.make.lift below (frame.bind target .gap)
        return (.accepted, builder.make.withTop below frame)

/-- The value `null`, which no shift may detach. -/
def null (builder : Builder) (frame : Frame) (below : List Frame) : Attempt Builder Builder := do
  let (target, frame) ← builder.lift below (frame.takePending .null)
  let frame ← builder.make.lift below (frame.bind target .null)
  return builder.make.withTop below { frame with lastBound := none }

/-- A literal is the value of the waiting reference, or content if none waits. -/
def literal (builder : Builder) (frame : Frame) (below : List Frame) (text : String) :
    Attempt Builder Builder :=
  if frame.pending.isNone then .ok (builder.withTop below (frame.push (.literal text)))
  else do
    let (target, frame) ← builder.lift below (frame.takePending .literal)
    let frame ← builder.make.lift below (frame.bind target (.literal text))
    return builder.make.withTop below frame

/-- A tag outside of every node. -/
def pushOutside (builder : Builder) (tag : Tag) : Attempt Builder Builder :=
  if builder.root.isSome then refuse (.trailingTag tag.kind) builder
  else
    match tag with
    | .opening start => builder.openRoot start
    | .closing => refuse .unbalancedClose builder
    | tag => refuse (.outsideNode tag.kind) builder

/-- The tag opens a node that is to be bound. -/
def opensBound : Tag → Bool
  | .opening start => !start.flags.isEmbedded
  | _ => false

/-- A tag within the innermost open node. After a shift only a node to be bound may open. -/
def pushInside (builder : Builder) (frame : Frame) (below : List Frame) (tag : Tag) :
    Attempt Builder (Feed × Builder) :=
  if frame.shifted.isSome && !opensBound tag then
    refuse .shiftedValueNotReattached (builder.withTop below frame)
  else
    let onTop (attempt : Attempt Frame Frame) : Attempt Builder (Feed × Builder) := do
      return (.accepted, builder.withTop below (← builder.lift below attempt))
    match tag with
    | .opening start => return (.accepted, ← builder.openChild frame below start)
    | .closing => return (.accepted, ← builder.close frame below)
    | .reference edge => onTop (frame.reference edge)
    | .shift index => onTop (frame.shift index)
    | .gap => builder.gap frame below
    | .null => return (.accepted, ← builder.null frame below)
    | .arrayStart => onTop frame.startArray
    | .literal text => return (.accepted, ← builder.literal frame below text)
    | .embedded => refuse (.valueWithoutReference .embedded) (builder.withTop below frame)
    | .doctype _ | .effect _ => return (.accepted, builder.withTop below frame)

/-- The builder takes one tag. Effects are no part of the tree. -/
def push (builder : Builder) (tag : Tag) : Attempt Builder (Feed × Builder) :=
  if builder.needsExpression then refuse .expressionPending builder
  else
    match tag with
    | .effect _ => .ok (.accepted, builder)
    | .doctype header => return (.accepted, ← builder.pushDoctype header)
    | tag =>
      match builder.frames with
      | [] => return (.accepted, ← builder.pushOutside tag)
      | frame :: below => { builder with frames := [] }.pushInside frame below tag

/-- The finished tree. -/
def finish (builder : Builder) : Except StructuralError Tree :=
  if builder.needsExpression then .error .expressionPending
  else if builder.frames ≠ [] then .error (.unclosedNodes builder.depth)
  else
    match builder.root with
    | some root => .ok ⟨builder.doctype, root, builder.created⟩
    | none => .error .emptyStream

/-- A builder is finished with the root that it has closed. -/
theorem of_finish {builder : Builder} {tree : Tree} (h : builder.finish = .ok tree) :
    builder.frames = [] ∧ builder.root = some tree.root ∧ tree.doctype = builder.doctype ∧
    tree.created = builder.created := by
  unfold finish at h
  split at h
  · cases h
  · split at h
    · cases h
    · rename_i hframes
      split at h
      · rename_i hroot
        cases h
        exact ⟨Decidable.not_not.mp hframes, hroot, rfl, rfl⟩
      · cases h

end Builder

end TagTree
