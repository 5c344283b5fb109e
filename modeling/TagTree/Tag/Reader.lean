import TagTree.Tag.Checked
import TagTree.Value.Reader

/-!
# Reading tags

Blanks between tags mean nothing. A self-closing tag stands for an opening tag, its literal if it
has one, and a closing tag. The reader checks each tag by itself and gives every shift its number,
counted from the last reference of the innermost open node; whether the tags form a tree is not its
concern.
-/

namespace TagTree.Tag

open Text (Parsed skipBlanks faultAt faultBetween)

variable [Alphabet]

/-- A checked part of a tag, as a step of reading. -/
def checkPart {α : Type} : Except ValidationError α → Except ReadError α
  | .ok part => .ok part
  | .error error => .error (.invalid error)

/-! ### References and `null` -/

/-- The name of a reference: a reserved one or a word. -/
def readName (input : List Char) : Except ReadError (Parsed Char String input.length) :=
  match input with
  | '#' :: rest => .ok (.ofRest Name.trivia rest)
  | '@' :: rest => .ok (.ofRest Name.escape rest)
  | input =>
    match Text.word? Name.continuesReference input with
    | some parsed => .ok (parsed.map String.ofList)
    | none => .error (faultAt .unexpectedCharacter input)

/-- The brackets of an array reference, with the index if there is one. -/
def readIndex (input : List Char) :
    Except ReadError (Parsed Char (Bool × Option Int) (input.length + 1)) :=
  match input with
  | '[' :: bracketed => do
    let ⟨digits, ended, _⟩ := Text.span Char.isDigit bracketed
    let ⟨_, rest, _⟩ ← Text.readChar ']' ended
    if digits.isEmpty then return ⟨(true, none), rest, by simp only [List.length_cons]; omega⟩
    else
      match Text.decimalBelow? 0x8000000000000000 digits with
      | some index => return ⟨(true, some index), rest, by simp only [List.length_cons]; omega⟩
      | none => .error (faultBetween .indexOutOfRange bracketed rest)
  | input => .ok (.ofRest (false, none) input)

/-- The character marks a reference. -/
def isReferenceMark (c : Char) : Bool :=
  c == '+' || c == '$'

/-- After the word `null`, the character makes it the name of a reference. -/
def continuesNull (c : Char) : Bool :=
  c == '[' || c == ':' || c == '+' || c == '$'

/-- The word `null` or a reference. -/
def readWord (input : List Char) : Except ReadError (Parsed Char Tag input.length) := do
  let ⟨name, named, _⟩ ← readName input
  if name = "null" ∧ ¬ named.head?.any continuesNull then return ⟨.null, named, by omega⟩
  else
    let ⟨(isArray, index), indexed, _⟩ ← readIndex named
    let ⟨marks, marked, _⟩ := Text.span isReferenceMark indexed
    match Text.eat? ':' marked with
    | none => .error (faultAt .expectedReference input)
    | some ⟨_, rest, _⟩ =>
      let flags : ReferenceFlags := ⟨marks.contains '+', marks.contains '$'⟩
      let reference ← checkPart (Reference.checked name isArray index flags)
      return ⟨.reference reference, rest, by omega⟩

/-! ### Tags in angle brackets -/

/-- The header of a document, after `<!`. -/
def readDoctype (input : List Char) : Except ReadError (Parsed Char Tag input.length) := do
  let ⟨digits, ended, _⟩ := Text.span Char.isDigit input
  match Text.decimalBelow? 0x100000000 digits with
  | none => .error (faultBetween .expectedVersion input ended)
  | some version =>
    let ⟨_, colon, _⟩ ← Text.readChar ':' ended
    let ⟨name, named, _⟩ ← Text.readIdentifier .expectedDoctypeName colon
    let ⟨attributes, body, _⟩ ← Attributes.read named
    let ⟨_, rest, _⟩ ← Text.readChar '>' body
    return ⟨.doctype ⟨version, name, attributes⟩, rest, by omega⟩

/-- The character marks a node. -/
def isNodeMark (c : Char) : Bool :=
  c == '#' || c == '~' || c == '*' || c == '@' || c == '+' || c == '$'

/-- The marks that the characters set. -/
def nodeFlags (marks : List Char) : NodeFlags where
  token := marks.contains '*'
  trivia := marks.contains '#'
  escape := marks.contains '@'
  intrinsic := marks.contains '~'
  expression := marks.contains '+'
  hasGap := marks.contains '$'

/-- What stands in an opening tag before the attributes. A literal there leaves no room for them. -/
structure Head where
  language : Option String := none
  typeName : Option String := none
  literal : Option String := none

/-- The type with its language, or a literal, or nothing. A word before `=` is an attribute. -/
def readHead (input : List Char) : Except ReadError (Parsed Char Head (input.length + 1)) :=
  if input.head?.any Text.isQuote then do
    let ⟨text, after, _⟩ ← Text.readLiteral input
    match Text.eat? ':' after with
    | none => return ⟨{ literal := some text }, after, by omega⟩
    | some ⟨_, colon, _⟩ =>
      let ⟨typeName, rest, _⟩ ← Text.readIdentifier .expectedNodeType colon
      return ⟨{ language := some text, typeName := some typeName }, rest, by omega⟩
  else
    match Text.identifier? input with
    | none => .ok (.ofRest {} input)
    | some ⟨word, after, _⟩ =>
      match Text.eat? ':' after with
      | some ⟨_, colon, _⟩ => do
        let ⟨typeName, rest, _⟩ ← Text.readIdentifier .expectedNodeType colon
        return ⟨{ language := some word, typeName := some typeName }, rest, by omega⟩
      | none =>
        if after.head? = some '=' then .ok (.ofRest {} input)
        else .ok ⟨{ typeName := some word }, after, by omega⟩

/-- The attributes and the literal after the head of an opening tag. -/
def readContent (head : Head) (input : List Char) :
    Except ReadError (Parsed Char (Attributes × Option String) (input.length + 1)) :=
  if head.literal.isSome then .ok (.ofRest ([], head.literal) input)
  else do
    let ⟨attributes, body, _⟩ ← Attributes.read input
    if body.head?.any Text.isQuote then
      let ⟨text, rest, _⟩ ← Text.readLiteral body
      return ⟨(attributes, some text), rest, by omega⟩
    else return ⟨(attributes, none), body, by omega⟩

/-- The end of an opening tag, and whether it closes the node too. A tag with a literal has to. -/
def readTagEnd (hasLiteral : Bool) (input : List Char) :
    Except ReadError (Parsed Char Bool input.length) :=
  match input with
  | '/' :: '>' :: rest => .ok ⟨true, rest, by simp only [List.length_cons]; omega⟩
  | '>' :: rest =>
    if hasLiteral then .error (faultAt .expectedTagEnd ('>' :: rest))
    else .ok (.ofRest false rest)
  | input => .error (faultAt .expectedTagEnd input)

/-- The opening tag with a checked type and checked attributes. -/
def checkOpening (flags : NodeFlags) (head : Head) (attributes : Attributes) :
    Except ValidationError OpenTag :=
  match head.typeName with
  | some typeName => OpenTag.checked flags head.language typeName attributes
  | none => OpenTag.checkedFragment flags attributes

/-- The tags of a node's start, after `<`, and whether the node is closed at once. -/
def readOpening (input : List Char) :
    Except ReadError (Parsed Char (List Tag × Bool) input.length) := do
  let ⟨marks, marked, _⟩ := Text.span isNodeMark input
  let ⟨head, named, _⟩ ← readHead marked
  let ⟨(attributes, content), body, _⟩ ← readContent head named
  have := Text.length_skipBlanks_le body
  let ⟨isClosed, rest, _⟩ ← readTagEnd content.isSome (skipBlanks body)
  let flags := nodeFlags marks
  let start ← checkPart (checkOpening flags head attributes)
  let opened := opening { start with flags := flags }
  let tags := if isClosed then opened :: content.toList.map Tag.literal ++ [closing] else [opened]
  return ⟨(tags, isClosed), rest, by omega⟩

/-! ### Documents -/

/-- The numbers of shifts since the last reference, for each open node, innermost first. -/
abbrev ShiftCounts := List Nat

/-- The counts after a reference: the innermost starts again. -/
def ShiftCounts.restart : ShiftCounts → ShiftCounts
  | [] => []
  | _ :: outer => 0 :: outer

/-- The counts after a tag that is neither an opening tag nor a shift. -/
def ShiftCounts.after (counts : ShiftCounts) : Tag → ShiftCounts
  | .closing => counts.tail
  | .reference _ => counts.restart
  | _ => counts

/-- The tags at the front of a text that starts with no blank, and the counts after them. -/
def readTag (counts : ShiftCounts) (input : List Char) :
    Except ReadError (Parsed Char (List Tag × ShiftCounts) input.length) :=
  match input with
  | '<' :: '/' :: '>' :: rest =>
    .ok ⟨([closing], counts.after closing), rest, by simp only [List.length_cons]; omega⟩
  | '<' :: '/' :: '/' :: '>' :: rest =>
    .ok ⟨([gap], counts), rest, by simp only [List.length_cons]; omega⟩
  | '<' :: '!' :: rest => do
    let ⟨tag, after, _⟩ ← readDoctype rest
    return ⟨([tag], counts), after, by simp only [List.length_cons]; omega⟩
  | '<' :: rest => do
    let ⟨(tags, isClosed), after, _⟩ ← readOpening rest
    let counts := if isClosed then counts else 0 :: counts
    return ⟨(tags, counts), after, by simp only [List.length_cons]; omega⟩
  | '^' :: '^' :: '^' :: rest =>
    match counts with
    | [] => .error (faultAt .shiftOutsideNode rest)
    | count :: outer =>
      .ok ⟨([shift (count + 1)], (count + 1) :: outer), rest,
        by simp only [List.length_cons]; omega⟩
  | '^' :: rest => .error (faultAt (.expected "^^^") ('^' :: rest))
  | '[' :: ']' :: rest => .ok ⟨([arrayStart], counts), rest, by simp only [List.length_cons]; omega⟩
  | '[' :: rest => .error (faultAt (.expected "[]") ('[' :: rest))
  | input =>
    if input.head?.any Text.isQuote then do
      let ⟨text, rest, _⟩ ← Text.readLiteral input
      return ⟨([literal text], counts), rest, by omega⟩
    else do
      let ⟨tag, rest, _⟩ ← readWord input
      return ⟨([tag], counts.after tag), rest, by omega⟩

/-- All tags of a text. -/
def readAll (counts : ShiftCounts) (input : List Char) : Except ReadError (List Tag) :=
  have := Text.length_skipBlanks_le input
  if (skipBlanks input).isEmpty then .ok []
  else do
    let ⟨(tags, counts), rest, _⟩ ← readTag counts (skipBlanks input)
    return tags ++ (← readAll counts rest)
termination_by input.length
decreasing_by omega

/-- The tags of a text. -/
def parse (text : String) : Except Error (List Tag) :=
  (readAll [0] text.toList).mapError (ReadError.toError text.utf8ByteSize)

end TagTree.Tag
