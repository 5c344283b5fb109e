import TagTree.Builder.Expression
import TagTree.Tag.Reader

/-!
# Trees from tags and text

A whole sequence of tags makes a tree, or fails with the first refusal. A template is such a
sequence with expressions for its gaps, in order; when they run out, the gaps stay.
-/

namespace TagTree

namespace Builder

/-- The builder takes all tags, answering each request with the next expression. -/
def pushAll (builder : Builder) : List Tag → List (Option Tree) → Except StructuralError Builder
  | [], _ => .ok builder
  | tag :: tags, expressions =>
    match builder.push tag with
    | .error refusal => .error refusal.error
    | .ok (.accepted, builder) => builder.pushAll tags expressions
    | .ok (.needsExpression, builder) =>
      match builder.supply expressions.head?.join with
      | .error refusal => .error refusal.error
      | .ok builder => builder.pushAll tags expressions.tail

end Builder

namespace Tree

/-- The tree of a whole sequence of tags, whose gaps stay. -/
def ofTags (tags : List Tag) : Except StructuralError Tree := do
  (← ({} : Builder).pushAll tags []).finish

/-- The tree of a template, whose gaps are filled with the expressions in order. -/
def ofTemplate (tags : List Tag) (expressions : List (Option Tree)) :
    Except StructuralError Tree := do
  (← ({ expressions := true } : Builder).pushAll tags expressions).finish

/-- The tree that a text writes. -/
def parse [Alphabet] (text : String) : Except Error Tree := do
  (ofTags (← Tag.parse text)).mapError .structural

end Tree

end TagTree
