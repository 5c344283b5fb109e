import TagTree.Builder.Run

/-!
# Templates

What fills the gaps of a template is given as a list in which some members are spread, and texts are
given as nodes that hold literals only.
-/

namespace TagTree

/-- A member of the list that fills the gaps of a template: one expression, or several for as many
gaps. An expression that is missing leaves its gap. -/
inductive Interpolation where
  | value (expression : Option Tree)
  | spread (expressions : List (Option Tree))

/-- The expressions of a member. -/
def Interpolation.expressions : Interpolation → List (Option Tree)
  | value expression => [expression]
  | spread expressions => expressions

/-- All expressions in order. -/
def Interpolation.flatten (members : List Interpolation) : List (Option Tree) :=
  members.flatMap expressions

namespace Tree

/-- The tag is a literal. -/
def checkLiteral (tag : Tag) : Except Error Unit :=
  match tag with
  | .literal _ => .ok ()
  | tag => .error (.validation (.nonLiteralContent tag.kind))

/-- The opening tag of a text node. -/
def contentStart : OpenTag :=
  { flags := {}, language := some "String", typeName := some "Content", attributes := [] }

/-- The text node that holds the given literals. -/
def ofLiterals (parts : List Tag) : Except Error Tree := do
  parts.forM checkLiteral
  (ofTags (.opening contentStart :: parts ++ [.closing])).mapError .structural

end Tree

end TagTree
