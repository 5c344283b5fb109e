import TagTree.Proofs.Text.Bytes
import TagTree.Tag.Reader

/-!
# Reading by position

A second way to read the tags of a text. The text is kept whole, and a reader moves a position, in
bytes, over it. All of its moves are recorded.

Such a reader can go wrong: it takes a part of the text that does not start and end between
characters, it goes back by more than there is before it, or it starts a turn of a loop without
having advanced. It then has no result. That this does not happen is shown in
`TagTree.Proofs.Text.Advance`.
-/

namespace TagTree

/-- What a reader does with its position. -/
inductive Move where
  /-- The reader moves on. -/
  | forward (start stop : Nat)
  /-- The reader moves back over a word, which is the key of an attribute. -/
  | backToKey (start stop : Nat)
  /-- The reader moves back to the start of a reference, which is malformed. -/
  | backToReference (start stop : Nat)
  /-- The reader has completed a turn of a loop and starts another one. -/
  | turn (start stop : Nat)
  deriving DecidableEq, Repr

/-- The places from where and to where a move leads. -/
def Move.places : Move → List Nat
  | .forward start stop | .backToKey start stop | .backToReference start stop | .turn start stop =>
    [start, stop]

/-- A reader at a position of a text, with the moves that it has made. -/
structure Scan where
  text : String
  position : Nat
  trail : List Move

/-- The number of bytes behind the position. -/
def Scan.left (scan : Scan) : Nat :=
  scan.text.utf8ByteSize - scan.position

/-- The characters between two places of a text, if these are in order and lie between characters.
-/
def Text.slice? (text : String) (start stop : Nat) : Option (List Char) :=
  if h : String.Pos.Raw.IsValid text ⟨start⟩ ∧ String.Pos.Raw.IsValid text ⟨stop⟩ ∧
    start ≤ stop then
    some (text.extract ⟨⟨start⟩, h.1⟩ ⟨⟨stop⟩, h.2.1⟩).toList
  else none

/-- A step of reading. It has no result if it goes wrong. -/
abbrev Scanner := ExceptT Error (StateT Scan Option)

namespace Scanner

open Text (isBlank isQuote)

variable [Alphabet] {α ε σ φ : Type}

/-! ### Positions -/

/-- A result that is there, or the step goes wrong. -/
def ofOption (result : Option α) : Scanner α := fun scan =>
  result.map fun value => (.ok value, scan)

/-- The position of the reader. -/
def position : Scanner Nat := fun scan => some (.ok scan.position, scan)

/-- The position is changed, and the change is recorded. -/
def move (how : Nat → Nat → Move) (stop : Nat) : Scanner Unit := fun scan =>
  some (.ok (), ⟨scan.text, stop, scan.trail ++ [how scan.position stop]⟩)

/-- The end of a turn that started at a place is recorded. -/
def record (start : Nat) : Scanner Unit := fun scan =>
  some (.ok (), ⟨scan.text, scan.position, scan.trail ++ [.turn start scan.position]⟩)

/-- The reader moves on by a number of bytes. -/
def advance (width : Nat) : Scanner Unit := do
  move .forward ((← position) + width)

/-- The reader moves back over a key of a number of bytes. -/
def stepBack (width : Nat) : Scanner Unit := do
  let start ← position
  if width ≤ start then move .backToKey (start - width) else ofOption none

/-- The text from the position on. -/
def rest : Scanner (List Char) := fun scan =>
  ofOption (Text.slice? scan.text scan.position scan.text.utf8ByteSize) scan

/-- The text from a place to the position. -/
def since (start : Nat) : Scanner (List Char) := fun scan =>
  ofOption (Text.slice? scan.text start scan.position) scan

/-! ### Recursion -/

/-- Recursion in which a call must have fewer bytes before it than the one that makes it. -/
def descend (body : (σ → Scanner α) → σ → Scanner α) (state : σ) (scan : Scan) :
    Option (Except Error α × Scan) :=
  body (fun next after => if after.left < scan.left then descend body next after else none)
    state scan
termination_by scan.left

/-- What follows a turn of a loop: its result, or another turn. -/
def continueWith (again : σ → Scanner α) (start : Nat) : σ ⊕ α → Scanner α
  | .inr result => return result
  | .inl next => do
    record start
    again next

/-- Turns are taken until there is a result. -/
def loop (turn : σ → Scanner (σ ⊕ α)) : σ → Scanner α :=
  descend fun again state => do
    let start ← position
    continueWith again start (← turn state)

/-! ### Characters and words -/

/-- The next character. -/
def peek : Scanner (Option Char) := return (← rest).head?

/-- The next character is passed. -/
def bump : Scanner Unit := do
  match ← peek with
  | some c => advance c.utf8Size
  | none => return ()

/-- The given text is passed if it comes next. -/
def eat (word : String) : Scanner Bool := do
  if word.toList.isPrefixOf (← rest) then
    advance word.utf8ByteSize
    return true
  else return false

/-- A fault about the next character, or about the end of the text. -/
def fault (cause : SyntaxFault) : Scanner α := do
  let start ← position
  let width := ((← peek).map Char.utf8Size).getD 0
  throw (.reading ⟨cause, start, start + width⟩)

/-- A fault about the text from a place to the position. -/
def faultSince (cause : SyntaxFault) (start : Nat) : Scanner α := do
  throw (.reading ⟨cause, start, ← position⟩)

/-- The given text, which must come next, is passed. -/
def expect (word : String) : Scanner Unit := do
  if ← eat word then return () else fault (.expected word)

/-- Characters are passed as long as they pass a test. -/
def skipWhile (test : Char → Bool) : Scanner Unit :=
  loop (fun _ => do
    if (← peek).any test then
      bump
      return .inl ()
    else return .inr ()) ()

/-- The word that comes next. -/
def word? (continues : Char → Bool) : Scanner (Option (List Char)) := do
  let start ← position
  if (← peek).any Name.startsWord then
    bump
    skipWhile continues
    return some (← since start)
  else return none

/-- The identifier that comes next. -/
def identifier? : Scanner (Option String) :=
  return (← word? Name.continuesIdentifier).map String.ofList

/-- The identifier that comes next, or the given fault. -/
def identifier (cause : SyntaxFault) : Scanner String := do
  match ← identifier? with
  | some name => return name
  | none => fault cause

/-- The quoted text that comes next, read from the bytes of the text. -/
def quoted : Scanner String := do
  let start ← position
  match ← ofOption (Text.quotedAt (Text.utf8 (← rest))) with
  | .ok (text, used) =>
    advance used
    return text
  | .error (cause, offset) => throw (.reading ⟨.quoted cause, start + offset, start + offset + 1⟩)

/-- The marks that come next are set, one after the other. -/
def marks (set? : φ → Char → Option φ) : φ → Scanner φ :=
  loop fun flags => do
    match (← peek).bind (set? flags) with
    | some marked =>
      bump
      return .inl marked
    | none => return .inr flags

/-! ### Values -/

/-- What stands before an item of an array or an object: nothing before the first, a comma before
the others. -/
def separator (first : Bool) : Scanner Unit :=
  if first then return () else expect ","

/-- What stands before the key of an entry of an object. -/
def keySeparator (first : Bool) : Scanner Unit :=
  if first then return ()
  else do
    expect ","
    skipWhile isBlank

/-- The key of an object with its value, which is read as given. -/
def entry (value : Scanner Value) : Scanner (String × Value) := do
  let key ← identifier .expectedObjectKey
  skipWhile isBlank
  expect ":"
  return (key, ← value)

/-- One more element up to the closing character, or the whole. An element is read as given, knowing
whether it is the first one. -/
def elementTurn (close : Char) (element : Bool → Scanner ε) (whole : List ε → Value)
    (before : List ε) : Scanner (List ε ⊕ Value) := do
  skipWhile isBlank
  if ← eat (String.singleton close) then return .inr (whole before)
  else return .inl (before ++ [← element before.isEmpty])

/-- The items of an array after `[`, read as given. -/
def items (value : Scanner Value) : Scanner Value :=
  loop (elementTurn ']' (fun first => do separator first; value) .array) []

/-- The entries of an object after `{`, their values read as given. -/
def entries (value : Scanner Value) : Scanner Value :=
  loop (elementTurn '}' (fun first => do keySeparator first; entry value)
    fun pairs => .object (Entries.ofPairs pairs)) []

/-- A bare value. -/
def bare : Scanner Value := do
  let start ← position
  skipWhile Value.isBare
  let token ← since start
  match Value.ofBare? token with
  | some value => return value
  | none => faultSince (.invalidValue (String.ofList token)) start

/-- A value, the values within it read as given. -/
def valueOf (inner : Scanner Value) : Scanner Value := do
  skipWhile isBlank
  let next ← peek
  if next.any isQuote then return .text (← quoted)
  else if next = some '[' then do
    bump
    items inner
  else if next = some '{' then do
    bump
    entries inner
  else bare

/-- The value that comes next. -/
def value : Scanner Value :=
  descend (fun inner _ => valueOf (inner ())) ()

/-- The value of a key: what follows `=`, or `true` for a key alone. -/
def assigned : Scanner Value := do
  if ← eat "=" then value else return .bool true

/-- One more attribute, or all of them. -/
def attributeTurn (before : List (String × Value)) :
    Scanner (List (String × Value) ⊕ Attributes) := do
  skipWhile isBlank
  match ← identifier? with
  | none => return .inr (Entries.ofPairs before)
  | some key => return .inl (before ++ [(key, ← assigned)])

/-- The attributes that come next. -/
def attributes : Scanner Attributes :=
  loop attributeTurn []

/-! ### References and `null` -/

open Tag (ShiftCounts continuesNull checkOpening)

/-- A checked part of a tag, as a step of reading. -/
def checked : Except ValidationError α → Scanner α
  | .ok part => return part
  | .error error => throw (.validation error)

/-- The name of a reference: a reserved one or a word. -/
def referenceName : Scanner String := do
  if ← eat "#" then return Name.trivia
  else if ← eat "@" then return Name.escape
  else
    match ← word? Name.continuesReference with
    | some word => return String.ofList word
    | none => fault .unexpectedCharacter

/-- The brackets of an array reference, with the index if there is one. -/
def arrayIndex : Scanner (Bool × Option Int) := do
  if ← eat "[" then
    let start ← position
    skipWhile Char.isDigit
    let digits ← since start
    expect "]"
    if digits.isEmpty then return (true, none)
    else
      match Text.decimalBelow? 0x8000000000000000 digits with
      | some index => return (true, some index)
      | none => faultSince .indexOutOfRange start
  else return (false, none)

/-- The flags of a reference with a mark set, if the character is one. -/
def markReference? (flags : ReferenceFlags) (c : Char) : Option ReferenceFlags :=
  if c = '+' then some { flags with expression := true }
  else if c = '$' then some { flags with hasGap := true }
  else none

/-- The word `null` or a reference. -/
def wordTag : Scanner Tag := do
  let start ← position
  let name ← referenceName
  if name = "null" ∧ ¬ (← peek).any continuesNull then return .null
  else
    let (isArray, index) ← arrayIndex
    let flags ← marks markReference? {}
    if ← eat ":" then
      return .reference (← checked (Reference.checked name isArray index flags))
    else
      move .backToReference start
      fault .expectedReference

/-! ### Tags in angle brackets -/

/-- The header of a document, after `<!`. -/
def doctype : Scanner Tag := do
  let start ← position
  skipWhile Char.isDigit
  match Text.decimalBelow? 0x100000000 (← since start) with
  | none => faultSince .expectedVersion start
  | some version =>
    expect ":"
    let name ← identifier .expectedDoctypeName
    let given ← attributes
    expect ">"
    return .doctype ⟨version, name, given⟩

/-- The flags of a node with a mark set, if the character is one. -/
def markNode? (flags : NodeFlags) (c : Char) : Option NodeFlags :=
  if c = '#' then some { flags with trivia := true }
  else if c = '~' then some { flags with intrinsic := true }
  else if c = '*' then some { flags with token := true }
  else if c = '@' then some { flags with escape := true }
  else if c = '+' then some { flags with expression := true }
  else if c = '$' then some { flags with hasGap := true }
  else none

/-- The type of a node after its language. -/
def typeAfter (language : String) : Scanner Tag.Head := do
  return { language := some language, typeName := some (← identifier .expectedNodeType) }

/-- What stands before the attributes if it starts with a word. A word before `=` is an attribute.
-/
def headOf (word : String) : Scanner Tag.Head := do
  if ← eat ":" then typeAfter word
  else if (← peek) = some '=' then
    stepBack word.utf8ByteSize
    return {}
  else return { typeName := some word }

/-- The type with its language, or a literal, or nothing. -/
def head : Scanner Tag.Head := do
  let next ← peek
  if next.any isQuote then
    let text ← quoted
    if ← eat ":" then typeAfter text else return { literal := some text }
  else if next.any Name.startsWord then headOf (← identifier .expectedNodeType)
  else return {}

/-- The literal after the attributes of an opening tag. -/
def literalAfter (given : Attributes) : Scanner (Attributes × Option String) := do
  skipWhile isBlank
  if (← peek).any isQuote then return (given, some (← quoted))
  else return (given, none)

/-- The attributes and the literal after the head of an opening tag. -/
def content (head : Tag.Head) : Scanner (Attributes × Option String) := do
  if head.literal.isSome then return ([], head.literal)
  else literalAfter (← attributes)

/-- The end of an opening tag, and whether it closes the node too. A tag with a literal has to. -/
def tagEnd (hasLiteral : Bool) : Scanner Bool := do
  if ← eat "/>" then return true
  else if hasLiteral then fault .expectedTagEnd
  else if ← eat ">" then return false
  else fault .expectedTagEnd

/-- The tags of a node's start, after its content, and whether the node is closed at once. -/
def openingEnd (flags : NodeFlags) (head : Tag.Head) (found : Attributes × Option String) :
    Scanner (List Tag × Bool) := do
  skipWhile isBlank
  let isClosed ← tagEnd found.2.isSome
  let start ← checked (checkOpening flags head found.1)
  let opened := Tag.opening { start with flags := flags }
  let tags := if isClosed then opened :: found.2.toList.map Tag.literal ++ [.closing] else [opened]
  return (tags, isClosed)

/-- The tags of a node's start, after `<`, and whether the node is closed at once. -/
def opening : Scanner (List Tag × Bool) := do
  let flags ← marks markNode? {}
  let head ← head
  openingEnd flags head (← content head)

/-- A tag in angle brackets, and the numbers of shifts after it. -/
def angle (counts : ShiftCounts) : Scanner (List Tag × ShiftCounts) := do
  if ← eat "</>" then return ([.closing], counts.after .closing)
  else if ← eat "<//>" then return ([.gap], counts)
  else if ← eat "<!" then return ([← doctype], counts)
  else
    expect "<"
    let (tags, isClosed) ← opening
    return (tags, if isClosed then counts else 0 :: counts)

/-! ### Documents -/

/-- The tags that start with the given character, and the numbers of shifts after them. -/
def tagsAt (counts : ShiftCounts) (c : Char) : Scanner (List Tag × ShiftCounts) := do
  if c = '<' then angle counts
  else if isQuote c then return ([.literal (← quoted)], counts)
  else if c = '^' then
    expect "^^^"
    match counts with
    | [] => fault .shiftOutsideNode
    | count :: outer => return ([.shift (count + 1)], (count + 1) :: outer)
  else if c = '[' then
    expect "[]"
    return ([.arrayStart], counts)
  else
    let tag ← wordTag
    return ([tag], counts.after tag)

/-- Some more tags, or all of them, given those before and the numbers of shifts. -/
def documentTurn (before : List Tag × ShiftCounts) :
    Scanner ((List Tag × ShiftCounts) ⊕ List Tag) := do
  skipWhile isBlank
  match ← peek with
  | none => return .inr before.1
  | some c =>
    let (tags, counts) ← tagsAt before.2 c
    return .inl (before.1 ++ tags, counts)

/-- All tags of a text. -/
def document : Scanner (List Tag) :=
  loop documentTurn ([], [0])

end Scanner

/-- The text is read from its start. -/
def Scan.run [Alphabet] (text : String) : Option (Except Error (List Tag) × Scan) :=
  Scanner.document ⟨text, 0, []⟩

end TagTree
