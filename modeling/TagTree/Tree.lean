import TagTree.Node.Equality
import TagTree.Node.Place

/-!
# Trees

A tree is a root node with the header of its document. It remembers how many nodes were made while
it was built, some of which may have been replaced.
-/

namespace TagTree

/-- A tree with its document header and the number of nodes made for it. -/
structure Tree where
  doctype : Option Doctype
  root : Node
  created : Nat

namespace Tree

/-- The two headers agree, or there is none on either side. -/
def sameDoctype : Option Doctype → Option Doctype → Bool
  | none, none => true
  | some left, some right => left.same right
  | _, _ => false

/-- The two trees agree. The number of nodes made does not count. -/
def same (left right : Tree) : Bool :=
  sameDoctype left.doctype right.doctype && left.root.same right.root

end Tree

end TagTree
