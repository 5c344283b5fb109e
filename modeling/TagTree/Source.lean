import TagTree.Cursor.Walk

/-!
# Source text

The source text of a node is all the text beneath it, in the order of the finished tree. The cooked
text of a token is what it means: escapes are replaced by what they stand for, and trivia are left
out.
-/

namespace TagTree

/-- The text of a literal tag. -/
def Tag.literalText : Tag → String
  | .literal text => text
  | _ => ""

namespace Node

/-- The pieces of the cooked text of the items of a token. -/
def cookItems : List (Item Node) → Except LookupError (List String)
  | [] => .ok []
  | .literal text :: rest => do return text :: (← cookItems rest)
  | .embedded node :: rest =>
    if node.flags.trivia then cookItems rest
    else
      match (Entries.get? "cooked" node.attributes).bind Value.text? with
      | some text => do return text :: (← cookItems rest)
      | none => .error .uncookedEscape
  | .reference edge :: rest => if edge.isReserved then cookItems rest else .error .uncookable
  | _ => .error .uncookable

/-- The cooked text of a node. Gaps and `null` mean nothing, and a node with properties has no
cooked text. -/
def cooked : Node → Except LookupError String
  | gap | null => .ok ""
  | literal text => .ok text
  | element body => do return String.join (← cookItems body.items.toList)

/-- The source text of a node. -/
def sourceText (node : Node) : Except Error String := do
  let cursors ← ((Cursor.start (.root node)).walk .final).toExcept
  return String.join (cursors.map fun cursor => cursor.tag.literalText)

end Node

end TagTree
