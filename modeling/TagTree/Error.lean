import TagTree.Tag.Basic
import TagTree.Text.Quoted

/-!
# Errors

Every failure is a cause of one of four classes: a malformed sequence of tags, a tag that can never
be valid, a look-up that finds nothing, and text that cannot be read. The wording of each cause
stands here and nowhere else.
-/

namespace TagTree

/-- A malformed sequence of tags. -/
inductive StructuralError where
  | emptyStream
  | unclosedNodes (count : Nat)
  | unbalancedClose
  | referencePendingAtClose (name : String)
  | consecutiveReferences (first second : String)
  | valueWithoutReference (tag : TagKind)
  | outsideNode (tag : TagKind)
  | trailingTag (tag : TagKind)
  | misplacedDoctype
  | duplicateBinding (name : String)
  | arrayIndexMismatch (name : String) (expected found : Nat)
  | uninitializedArray (name : String)
  | arrayInitializedTwice (name : String)
  | initializerForScalar (name : String)
  | escapeAndTrivia (typeName : String)
  | embeddedUnderNamedReference (name : String)
  | reservedReferenceMisuse (name : String)
  | nothingToShift
  | shiftIndexMismatch (index : Nat)
  | shiftedValueNotReattached
  | unexpectedExpression
  | expressionPending
  | fragmentArity (name : String) (count : Nat)
  | danglingReference (slot : Nat)
  deriving DecidableEq, Repr

/-- A part of a tag that can never be valid. -/
inductive ValidationError where
  | referenceName (name : String)
  | nodeType (name : String)
  | nodeTypeLocator (name : String)
  | attributeKey (key : String)
  | language (language : String)
  | index (index : Int)
  | shiftIndex
  | escapeAndTrivia
  | nonLiteralContent (tag : TagKind)
  deriving DecidableEq, Repr

/-- A look-up that finds nothing. -/
inductive LookupError where
  | property (name : String)
  | arrayElement (name : String) (index : Nat)
  | notAnArray (name : String)
  | slot (slot : Nat)
  | depth (depth : Nat)
  | uncookable
  | uncookedEscape
  deriving DecidableEq, Repr

/-- Why text cannot be read. -/
inductive SyntaxFault where
  | expected (text : String)
  | quoted (fault : Text.QuoteFault)
  | unexpectedCharacter
  | indexOutOfRange
  | expectedReference
  | expectedVersion
  | expectedDoctypeName
  | expectedNodeType
  | expectedTagEnd
  | expectedObjectKey
  | invalidValue (token : String)
  | shiftOutsideNode
  | invalidIndex (digits : String)
  | notAnOpenTag (text : String)
  deriving DecidableEq, Repr

/-- A fault in a text, with the bytes of the text that it is about. -/
structure SyntaxError where
  fault : SyntaxFault
  first : Nat
  last : Nat
  deriving DecidableEq, Repr

/-- Any failure. -/
inductive Error where
  | structural (error : StructuralError)
  | validation (error : ValidationError)
  | lookup (error : LookupError)
  | reading (error : SyntaxError)
  deriving DecidableEq, Repr

/-- The wording of a malformed sequence of tags. -/
def StructuralError.message : StructuralError → String
  | emptyStream => "the tag stream is empty"
  | unclosedNodes count => s!"the tag stream ended with {count} unclosed node(s)"
  | unbalancedClose => "close tag with no open node"
  | referencePendingAtClose name => s!"close tag while reference `{name}` is still pending"
  | consecutiveReferences first second =>
    s!"reference `{second}` follows reference `{first}` with no value between them"
  | valueWithoutReference tag => s!"{tag.name} requires a pending reference"
  | outsideNode tag => s!"{tag.name} appeared outside of any node"
  | trailingTag tag => s!"{tag.name} appeared after the root node was closed"
  | misplacedDoctype => "doctype must precede the root node"
  | duplicateBinding name => s!"scalar property `{name}` is already bound"
  | arrayIndexMismatch name expected found =>
    s!"array property `{name}` expected index {expected}, found {found}"
  | uninitializedArray name => s!"array property `{name}` was referenced before its initializer"
  | arrayInitializedTwice name => s!"array property `{name}` was initialized twice"
  | initializerForScalar name => s!"array initializer follows scalar reference `{name}`"
  | escapeAndTrivia typeName => s!"node `{typeName}` cannot be both escape and trivia"
  | embeddedUnderNamedReference name => s!"reference `{name}` cannot bind an embedded node"
  | reservedReferenceMisuse name =>
    s!"reserved reference `{name}` must be followed by an escape or trivia node"
  | nothingToShift => "shift does not follow a shiftable value"
  | shiftIndexMismatch index => s!"shift index {index} does not point at a reference"
  | shiftedValueNotReattached => "a shifted value was never reattached"
  | unexpectedExpression => "a gap was offered to an expression source that is not attached"
  | expressionPending => "tag pushed while the builder is waiting for an expression"
  | fragmentArity name count =>
    s!"fragment with {count} bindings spliced into scalar reference `{name}`"
  | danglingReference slot => s!"reference at child {slot} is not followed by a value"

/-- The wording of an invalid part of a tag. -/
def ValidationError.message : ValidationError → String
  | referenceName name => s!"invalid reference name `{name}`"
  | nodeType name => s!"invalid node type `{name}`"
  | nodeTypeLocator name => s!"node type `{name}` looks like a resource locator"
  | attributeKey key => s!"invalid attribute key `{key}`"
  | language given => s!"invalid language `{given}`"
  | index given => s!"index {given} is not a finite non-negative integer"
  | shiftIndex => "shift index must be at least 1"
  | escapeAndTrivia => "node flags cannot combine escape and trivia"
  | nonLiteralContent tag => s!"string content must be literal, found {tag.name}"

/-- The wording of a failed look-up. -/
def LookupError.message : LookupError → String
  | property name => s!"cannot resolve property `{name}`"
  | arrayElement name index => s!"cannot resolve `{name}[{index}]`"
  | notAnArray name => s!"property `{name}` is not an array"
  | slot position => s!"child slot {position} does not hold a bound value"
  | depth wanted => s!"no ancestor at depth {wanted}"
  | uncookable => "cookable nodes must not contain other nodes"
  | uncookedEscape => "cannot cook string: it contains uncooked escapes"

/-- The wording of a fault in a text. -/
def SyntaxFault.message : SyntaxFault → String
  | expected text => s!"expected `{text}`"
  | quoted fault => fault.message
  | unexpectedCharacter => "unexpected character"
  | indexOutOfRange => "index out of range"
  | expectedReference => "expected a reference"
  | expectedVersion => "expected a doctype version"
  | expectedDoctypeName => "expected a doctype name"
  | expectedNodeType => "expected a node type"
  | expectedTagEnd => "expected `>` or `/>`"
  | expectedObjectKey => "expected an object key"
  | invalidValue token => s!"invalid attribute value `{token}`"
  | shiftOutsideNode => "shift outside of any node"
  | invalidIndex digits => s!"invalid index `{digits}`"
  | notAnOpenTag text => s!"`{text}` is not an open tag"

/-- The wording of a fault in a text, with its bytes. -/
def SyntaxError.message (error : SyntaxError) : String :=
  s!"{error.fault.message} at {error.first}..{error.last}"

/-- The wording of any failure. -/
def Error.message : Error → String
  | structural error => error.message
  | validation error => error.message
  | lookup error => error.message
  | reading error => error.message

/-- Two steps succeed if the first does and then the second. -/
theorem bind_eq_ok {ε α β : Type} {first : Except ε α} {second : α → Except ε β} {result : β} :
    (first >>= second) = .ok result ↔ ∃ value, first = .ok value ∧ second value = .ok result := by
  cases first with
  | error => exact ⟨nofun, nofun⟩
  | ok value => exact ⟨fun h => ⟨value, rfl, h⟩, fun ⟨_, rfl, h⟩ => h⟩

/-- What is found with another wording of failures was found before. -/
theorem ok_of_mapError {ε ε' α : Type} {wording : ε → ε'} {value : α} :
    {result : Except ε α} → result.mapError wording = .ok value → result = .ok value
  | .ok _, h => congrArg Except.ok (Except.ok.inj h)
  | .error _, h => nomatch h

/-- Whether a step has a result of a given kind is found by evaluation. -/
instance decidableExistsOk {ε α : Type} (attempt : Except ε α) (kind : α → Prop)
    [DecidablePred kind] : Decidable (∃ value, attempt = .ok value ∧ kind value) :=
  decidable_of_iff (attempt.toOption.any fun value => decide (kind value)) (by
    cases attempt <;> simp [Except.toOption])

/-- A step whose result cannot be turned into another has failed. -/
theorem error_of_map {ε α β : Type} {attempt : Except ε α} {fault : ε} {f : α → β}
    (h : attempt.map f = .error fault) : attempt = .error fault := by
  cases attempt with
  | error => exact congrArg _ (Except.error.inj h)
  | ok => cases h

end TagTree
