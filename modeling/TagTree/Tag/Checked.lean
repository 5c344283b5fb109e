import TagTree.Error

/-!
# Checked tags

Tags made from parts that may be invalid. Each maker reports the first part that can never be valid.
-/

namespace TagTree

variable [Alphabet]

/-- A type is an identifier; one with a colon or a slash looks like a locator. -/
def checkTypeName (name : String) : Except ValidationError Unit :=
  if name.toList.any (fun c => c == ':' || c == '/') then .error (.nodeTypeLocator name)
  else if Name.isIdentifier name then .ok () else .error (.nodeType name)

/-- Every attribute key is an identifier. -/
def checkAttributes (attributes : Attributes) : Except ValidationError Unit :=
  match attributes.find? fun entry => !Name.isIdentifier entry.1 with
  | some entry => .error (.attributeKey entry.1)
  | none => .ok ()

/-- A node is not both an escape and trivia. -/
def checkFlags (flags : NodeFlags) : Except ValidationError Unit :=
  if flags.escape && flags.trivia then .error .escapeAndTrivia else .ok ()

/-- A given language is not empty. -/
def checkLanguage (language : Option String) : Except ValidationError Unit :=
  if language = some "" then .error (.language "") else .ok ()

/-- The header of a document of this version of the notation. -/
def Doctype.checked (attributes : Attributes) : Except ValidationError Doctype := do
  checkAttributes attributes
  return ⟨0, "cstml", attributes⟩

/-- The start of a node with a type. -/
def OpenTag.checked (flags : NodeFlags) (language : Option String) (typeName : String)
    (attributes : Attributes) : Except ValidationError OpenTag := do
  checkFlags flags
  checkTypeName typeName
  checkAttributes attributes
  checkLanguage language
  return ⟨flags.withoutGap, language, some typeName, attributes⟩

/-- The start of a fragment. -/
def OpenTag.checkedFragment (flags : NodeFlags) (attributes : Attributes) :
    Except ValidationError OpenTag := do
  checkFlags flags
  checkAttributes attributes
  return ⟨flags.withoutGap, none, none, attributes⟩

/-- An index given as an integer is not negative. -/
def checkIndex : Option Int → Except ValidationError (Option Nat)
  | none => .ok none
  | some index => if index < 0 then .error (.index index) else .ok (some index.toNat)

/-- A reference with a name and an optional index. -/
def Reference.checked (name : String) (isArray : Bool) (index : Option Int)
    (flags : ReferenceFlags) : Except ValidationError Reference := do
  if Name.isReferenceName name then
    let index ← checkIndex index
    return ⟨name, isArray, index, flags⟩
  else .error (.referenceName name)

/-- A shift counts from one. -/
def Tag.checkedShift (index : Nat) : Except ValidationError Tag :=
  if index = 0 then .error .shiftIndex else .ok (.shift index)

/-- An effect that turns on the styles named in a text, between spaces. -/
def Effect.styles (spans : String) : Effect :=
  .pushStyle (((spans.toList.splitOnP (· == ' ')).filter (!·.isEmpty)).map String.ofList)

end TagTree
