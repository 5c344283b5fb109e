import TagTree.Tag.Basic
import TagTree.Value.Printer

/-!
# The text of tags

The canonical text writes the tags one after the other, with a single space between `null` and a
reference after it, so that the two do not run together. The pretty text gives each tag a line,
indented by depth, keeps a value on the line of the reference or shift before it, and writes a token
as one self-closing tag.
-/

namespace TagTree

variable [Alphabet]

/-- The marks of a node, in a fixed order. -/
def NodeFlags.chars (flags : NodeFlags) : List Char :=
  let mark (set : Bool) (c : Char) : List Char := if set then [c] else []
  mark flags.trivia '#' ++ mark flags.intrinsic '~' ++ mark flags.token '*' ++
    mark flags.escape '@' ++ mark flags.expression '+' ++ mark flags.hasGap '$'

/-- The marks of a reference. -/
def ReferenceFlags.chars (flags : ReferenceFlags) : List Char :=
  (if flags.expression then ['+'] else []) ++ if flags.hasGap then ['$'] else []

/-- A language before a type: bare if it is an identifier, quoted otherwise. -/
def languageChars (language : String) : List Char :=
  if Name.isIdentifier language then language.toList else Text.literalText language.toList

/-- The type with its language. A fragment has neither. -/
def OpenTag.nameChars (tag : OpenTag) : List Char :=
  match tag.typeName, tag.language with
  | none, _ => []
  | some typeName, none => typeName.toList
  | some typeName, some language => languageChars language ++ ':' :: typeName.toList

/-- What stands between the angle brackets of an opening tag. -/
def OpenTag.bodyChars (tag : OpenTag) : List Char :=
  let head := tag.flags.chars ++ tag.nameChars
  if tag.attributes.isEmpty then head
  else if tag.typeName.isSome || tag.flags != {} then head ++ ' ' :: Attributes.chars tag.attributes
  else head ++ Attributes.chars tag.attributes

/-- The header of a document. -/
def Doctype.chars (doctype : Doctype) : List Char :=
  let head := '<' :: '!' :: Nat.toDigits 10 doctype.version ++ ':' :: doctype.name.toList
  if doctype.attributes.isEmpty then head ++ ['>']
  else head ++ ' ' :: Attributes.chars doctype.attributes ++ ['>']

/-- The index of an array reference, in brackets. -/
def Reference.indexChars (reference : Reference) : List Char :=
  if reference.isArray then
    '[' :: (match reference.index with
      | some index => Nat.toDigits 10 index
      | none => []) ++ [']']
  else []

/-- A reference with its colon. -/
def Reference.chars (reference : Reference) : List Char :=
  reference.name.toList ++ reference.indexChars ++ reference.flags.chars ++ [':']

namespace Tag

/-- The text of one tag. Effects and marks of embedded nodes have none. -/
def chars : Tag → List Char
  | doctype header => header.chars
  | opening start => '<' :: start.bodyChars ++ ['>']
  | closing => ['<', '/', '>']
  | reference edge => edge.chars
  | shift _ => ['^', '^', '^']
  | gap => ['<', '/', '/', '>']
  | null => ['n', 'u', 'l', 'l']
  | arrayStart => ['[', ']']
  | literal text => Text.literalText text.toList
  | embedded | effect _ => []

/-- The text of one tag, as a string. -/
def print (tag : Tag) : String :=
  String.ofList tag.chars

/-- The space that a tag needs before it. -/
def space (afterNull : Bool) : Tag → List Char
  | reference _ => if afterNull then [' '] else []
  | _ => []

/-- The canonical text of the tags, given whether the last visible tag before them is `null`. -/
def canonicalChars (afterNull : Bool) : List Tag → List Char
  | [] => []
  | tag :: rest =>
    tag.space afterNull ++ tag.chars ++
      canonicalChars (match tag with
        | null => true
        | embedded | effect _ => afterNull
        | _ => false) rest

/-- The canonical text of the tags. -/
def canonical (tags : List Tag) : String :=
  String.ofList (canonicalChars false tags)

end Tag

/-- How the pretty text is laid out. -/
structure Layout where
  /-- One level of indentation. -/
  indent : String := "  "
  /-- Values stand on the line of the reference or shift before them. -/
  inline : Bool := true

/-- The margins of the open nodes, innermost first. -/
abbrev Margins := List String

/-- The margin of the innermost open node. -/
def Margins.current (margins : Margins) : String :=
  margins.headD ""

/-- What the pretty text writes in one piece: a token with its content, or a tag. -/
inductive Line where
  | token (start : OpenTag) (content : Option String)
  | single (tag : Tag)

namespace Line

/-- The node is written as one piece with its content and its closing tag. -/
def isToken (start : OpenTag) : Bool :=
  start.flags.token && !start.flags.escape

/-- The tags as pieces. A token is collapsed if it holds at most one literal. -/
def ofTags : List Tag → List Line
  | [] => []
  | .opening start :: .closing :: rest =>
    if isToken start then token start none :: ofTags rest
    else single (.opening start) :: single .closing :: ofTags rest
  | .opening start :: .literal text :: .closing :: rest =>
    if isToken start then token start (some text) :: ofTags rest
    else single (.opening start) :: single (.literal text) :: single .closing :: ofTags rest
  | tag :: rest => single tag :: ofTags rest

/-- The text of a piece. -/
def chars : Line → List Char
  | single tag => tag.chars
  | token start content =>
    let body := start.bodyChars
    '<' :: body ++ (if body.isEmpty then [] else [' ']) ++
      (match content with
        | some text => Text.literalText text.toList ++ [' ']
        | none => []) ++ ['/', '>']

/-- The margins at which a piece is written, given those after the pieces before it. -/
def marginsAt (margins : Margins) : Line → Margins
  | single .closing => margins.tail
  | _ => margins

/-- The margins after a piece that is written at the given ones. -/
def marginsAfter (layout : Layout) (margins : Margins) : Line → Margins
  | single (.opening _) => (margins.current ++ layout.indent) :: margins
  | _ => margins

/-- The next piece is the value of this one. -/
def expectsValue : Line → Bool
  | single (.reference _) | single (.shift _) => true
  | _ => false

/-- What stands between a piece and the one before it: a space, or a line break and the margin. -/
def separator (layout : Layout) (margin : String) (inline : Bool) : List String :=
  if inline && layout.inline then [" "] else ["\n", margin]

/-- The text of a piece, as a string. -/
def print (line : Line) : String :=
  String.ofList line.chars

/-- The texts of the pieces after the first, each with what stands before it. -/
def laterTexts (layout : Layout) :
    (margins : Margins) → (inline : Bool) → List Line → List String
  | _, _, [] => []
  | margins, inline, line :: rest =>
    let margins := line.marginsAt margins
    separator layout margins.current inline ++ line.print ::
      laterTexts layout (line.marginsAfter layout margins) line.expectsValue rest

/-- The texts of the pieces, each after the first with what stands before it. -/
def texts (layout : Layout) : List Line → List String
  | [] => []
  | line :: rest =>
    line.print :: laterTexts layout (line.marginsAfter layout []) line.expectsValue rest

end Line

/-- The pretty text of the tags. -/
def Tag.pretty (layout : Layout) (tags : List Tag) : String :=
  String.join (Line.texts layout (Line.ofTags (tags.filter Tag.isVisible)))

end TagTree
