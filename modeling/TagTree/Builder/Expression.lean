import TagTree.Builder.Basic

/-!
# Expressions

A gap can be filled with another tree. A node takes the place of the gap; a fragment is spliced,
each of its own values being bound to the gap's reference, for which an array takes any number and a
single property exactly one.
-/

namespace TagTree

namespace Builder

/-- A value made elsewhere is bound to a target of the innermost open node. The shifts that it took
part in stay behind. -/
def graft (builder : Builder) (frame : Frame) (below : List Frame) (target : Target) (node : Node) :
    Attempt Builder (Builder × Frame) := do
  let builder := { builder with created := builder.created + node.size }
  let frame ← builder.lift below (frame.bind target node.withoutHold)
  return (builder, frame)

/-- The values after the first are bound to further references to the same array. -/
def splice (builder : Builder) (frame : Frame) (below : List Frame) (edge : Reference) :
    List Node → Attempt Builder Builder
  | [] => .ok (builder.withTop below frame)
  | node :: rest =>
    let pushed := frame.push (.reference edge)
    match pushed.scope.consume edge with
    | (scope, .error error) => refuse error (builder.withTop below { pushed with scope := scope })
    | (scope, .ok index) => do
      let target := ⟨edge, index, pushed.items.size - 1⟩
      let (builder, frame) ← builder.graft { pushed with scope := scope } below target node
      builder.splice frame below edge rest

/-- A tree fills the gap of a target. The reference is marked as that of an expression. -/
def fill (builder : Builder) (frame : Frame) (below : List Frame) (target : Target) (root : Node) :
    Attempt Builder Builder := do
  let mark (flags : ReferenceFlags) : ReferenceFlags := { flags with expression := true }
  let edge := { target.reference with flags := mark target.reference.flags }
  let target := { target with reference := edge }
  let frame := { frame with items := Frame.markReference frame.items target.position mark }
  if root.type ≠ .fragment then
    let (builder, frame) ← builder.graft frame below target root
    return builder.withTop below frame
  else
    let values := root.directory.values
    if !edge.isArray && values.length ≠ 1 then
      refuse (.fragmentArity edge.name values.length) (builder.withTop below frame)
    else
      match values with
      | [] => return builder.withTop below { frame with
          items := frame.items.take target.position
          scope := frame.scope.retract edge.name }
      | first :: rest =>
        let (builder, frame) ← builder.graft frame below target first
        builder.splice frame below edge rest

/-- The answer to the request for an expression: a tree, or nothing to leave the gap. -/
def supply (builder : Builder) (expression : Option Tree) : Attempt Builder Builder :=
  match builder.awaiting, builder.frames with
  | some target, frame :: below =>
    let builder := { builder with awaiting := none, frames := [] }
    match expression with
    | none => do
      let frame ← builder.make.lift below (frame.bind target .gap)
      return builder.make.withTop below frame
    | some tree => builder.fill frame below target tree.root
  | _, _ => refuse .unexpectedExpression builder

end Builder

end TagTree
