import TagTree.Name
import TagTree.Value.Basic

/-!
# Tags

A tree is flattened to a sequence of tags. A node is a pair of an opening and a closing tag; between
them every child slot is a reference followed by one value, and the content stands as literals.
Effects travel with the tags without being part of the tree.
-/

namespace TagTree

/-- The marks of a node. A node is embedded, and not bound to a reference, if it is an escape or
trivia. `hasGap` is computed when a node closes. -/
structure NodeFlags where
  token : Bool := false
  trivia : Bool := false
  escape : Bool := false
  intrinsic : Bool := false
  expression : Bool := false
  hasGap : Bool := false
  deriving DecidableEq, Repr, Inhabited

namespace NodeFlags

/-- The marks of a literal that is bound directly to a reference. -/
def intrinsicToken : NodeFlags := { token := true, intrinsic := true }

/-- Escape and trivia nodes are embedded in their parent instead of bound. -/
def isEmbedded (flags : NodeFlags) : Bool :=
  flags.escape || flags.trivia

/-- The same marks without `hasGap`. -/
def withoutGap (flags : NodeFlags) : NodeFlags :=
  { flags with hasGap := false }

end NodeFlags

/-- The marks of a reference. -/
structure ReferenceFlags where
  expression : Bool := false
  hasGap : Bool := false
  deriving DecidableEq, Repr, Inhabited

/-- A named edge to the next child slot, for an array with an optional explicit index. -/
structure Reference where
  name : String
  isArray : Bool
  index : Option Nat
  flags : ReferenceFlags
  deriving DecidableEq, Repr, Inhabited

/-- A reserved reference introduces an embedded node and never becomes a property. -/
def Reference.isReserved (reference : Reference) : Bool :=
  Name.isReserved reference.name

/-- The header of a document. -/
structure Doctype where
  version : Nat
  name : String
  attributes : Attributes
  deriving Inhabited

namespace Doctype

/-- The language that the document declares. -/
def language (doctype : Doctype) : Option String := do
  let value ← Entries.get? "language" doctype.attributes
  value.text?

/-- The two headers agree, up to the order of attributes. -/
def same (left right : Doctype) : Bool :=
  left.version == right.version && left.name == right.name &&
    Attributes.same left.attributes right.attributes

end Doctype

/-- The start of a node. One without a type starts a fragment. -/
structure OpenTag where
  flags : NodeFlags
  language : Option String
  typeName : Option String
  attributes : Attributes
  deriving Inhabited

/-- The tag as a node keeps it until it closes. -/
def OpenTag.plain (start : OpenTag) : OpenTag :=
  { start with flags := start.flags.withoutGap }

/-- The tag with the mark of a gap set. -/
def OpenTag.marked (start : OpenTag) (hasGap : Bool) : OpenTag :=
  { start with flags := { start.flags with hasGap := hasGap } }

/-- The marks, the language, the type and the attributes of a node that opens with the tag. They are
kept apart from the tag, and a node whose tag says no language may inherit one. -/
def OpenTag.label (start : OpenTag) (inherited : Option String) : OpenTag where
  flags := start.flags
  language := start.language <|> inherited
  typeName := start.typeName
  attributes := start.attributes

/-- The two tags agree, up to the order of attributes. -/
def OpenTag.same (left right : OpenTag) : Bool :=
  left.flags == right.flags && left.language == right.language && left.typeName == right.typeName &&
    Attributes.same left.attributes right.attributes

/-- An event for the output that is not part of the tree. -/
inductive Effect where
  | write (text : String) (options : Attributes)
  | pushStyle (spans : List String)
  | popStyle
  deriving Inhabited

/-- One event of a flattened tree. A shift detaches the previous value of a reference and counts the
shifts of that reference from one. `embedded` marks the place of an embedded node among the tags of
its parent and occurs in no flattened tree. -/
inductive Tag where
  | doctype (header : Doctype)
  | opening (tag : OpenTag)
  | closing
  | reference (reference : Reference)
  | shift (index : Nat)
  | gap
  | null
  | arrayStart
  | literal (text : String)
  | embedded
  | effect (effect : Effect)
  deriving Inhabited

/-- The kinds of tags. -/
inductive TagKind where
  | doctype
  | opening
  | closing
  | reference
  | shift
  | gap
  | null
  | arrayStart
  | literal
  | embedded
  | effect
  deriving DecidableEq, Repr

/-- The name of a kind in messages. -/
def TagKind.name : TagKind → String
  | doctype => "doctype"
  | opening => "open tag"
  | closing => "close tag"
  | reference => "reference"
  | shift => "shift"
  | gap => "gap"
  | null => "null"
  | arrayStart => "array initializer"
  | literal => "literal"
  | embedded => "embedded node"
  | effect => "effect"

/-- The kind of a tag. -/
def Tag.kind : Tag → TagKind
  | .doctype _ => .doctype
  | .opening _ => .opening
  | .closing => .closing
  | .reference _ => .reference
  | .shift _ => .shift
  | .gap => .gap
  | .null => .null
  | .arrayStart => .arrayStart
  | .literal _ => .literal
  | .embedded => .embedded
  | .effect _ => .effect

/-- The tag stands in text: effects and marks of embedded nodes do not. -/
def Tag.isVisible : Tag → Bool
  | .effect _ | .embedded => false
  | _ => true

end TagTree
