import TagTree.Replay
import TagTree.Tag.Printer

/-!
# Text of trees

A tree is written as the tags that it replays, without any space or laid out in lines.
-/

namespace TagTree.Tree

variable [Alphabet]

/-- The text of a tree without any space that is not needed. -/
def canonical (tree : Tree) : Except Error String := do
  return Tag.canonical (← tree.tags)

/-- The text of a tree in lines. -/
def pretty (layout : Layout) (tree : Tree) : Except Error String := do
  return Tag.pretty layout (← tree.tags)

end TagTree.Tree
