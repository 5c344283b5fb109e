import TagTree.Text.Alphanumeric
import TagTree.Text.Reading
import TagTree.Value.Bare

/-!
# Reading attribute values

A value is a quoted text, an array, an object or a bare token. Blanks may stand before a value and
around the separators of arrays and objects. Attributes are keys with a value after `=`, or keys
alone, which stand for `true`.
-/

namespace TagTree.Value

open Text (Parsed skipBlanks faultAt faultBetween)

variable [Alphabet]

/-- The character belongs to a bare token. -/
def isBare (c : Char) : Bool :=
  Text.isAlphanumeric c || c == '-' || c == '_' || c == '.'

/-- A bare value. -/
def readBare (input : List Char) : Except ReadError (Parsed Char Value input.length) :=
  match Text.run? isBare isBare input with
  | none => .error (faultBetween (.invalidValue "") input input)
  | some ⟨token, rest, short⟩ =>
    match ofBare? token with
    | some value => .ok ⟨value, rest, short⟩
    | none => .error (faultBetween (.invalidValue (String.ofList token)) input rest)

/-- What stands before an item of an array or an object: nothing before the first, a comma before
the others. -/
def readSeparator (first : Bool) (input : List Char) :
    Except ReadError (Parsed Char Unit (input.length + 1)) :=
  if first then .ok (.ofRest () input)
  else do return (← Text.readChar ',' input).widen (by omega)

mutual

/-- The value at the front of a text that starts with no blank. -/
def readTrimmed (input : List Char) : Except ReadError (Parsed Char Value input.length) :=
  match input with
  | '[' :: rest => do
    have := Text.length_skipBlanks_le rest
    let ⟨items, after, _⟩ ← readItems true (skipBlanks rest)
    return ⟨array items, after, by simp only [List.length_cons]; omega⟩
  | '{' :: rest => do
    have := Text.length_skipBlanks_le rest
    let ⟨pairs, after, _⟩ ← readEntries true (skipBlanks rest)
    return ⟨object (Entries.ofPairs pairs), after, by simp only [List.length_cons]; omega⟩
  | input =>
    if input.head?.any Text.isQuote then do return (← Text.readLiteral input).map Value.text
    else readBare input
termination_by 2 * input.length
decreasing_by all_goals simp only [List.length_cons]; omega

/-- The items of an array up to its closing bracket, given whether none has been read yet. -/
def readItems (first : Bool) (input : List Char) :
    Except ReadError (Parsed Char (List Value) input.length) :=
  match input with
  | ']' :: rest => .ok (.ofRest [] rest)
  | input => do
    let ⟨_, body, _⟩ ← readSeparator first input
    have := Text.length_skipBlanks_le body
    let ⟨item, after, _⟩ ← readTrimmed (skipBlanks body)
    have := Text.length_skipBlanks_le after
    let ⟨items, rest, _⟩ ← readItems false (skipBlanks after)
    return ⟨item :: items, rest, by omega⟩
termination_by 2 * input.length + 1
decreasing_by all_goals omega

/-- The entries of an object up to its closing brace, given whether none has been read yet. -/
def readEntries (first : Bool) (input : List Char) :
    Except ReadError (Parsed Char (List (String × Value)) input.length) :=
  match input with
  | '}' :: rest => .ok (.ofRest [] rest)
  | input => do
    let ⟨_, body, _⟩ ← readSeparator first input
    have := Text.length_skipBlanks_le body
    let ⟨key, named, _⟩ ← Text.readIdentifier .expectedObjectKey (skipBlanks body)
    have := Text.length_skipBlanks_le named
    let ⟨_, assigned, _⟩ ← Text.readChar ':' (skipBlanks named)
    have := Text.length_skipBlanks_le assigned
    let ⟨value, after, _⟩ ← readTrimmed (skipBlanks assigned)
    have := Text.length_skipBlanks_le after
    let ⟨pairs, rest, _⟩ ← readEntries false (skipBlanks after)
    return ⟨(key, value) :: pairs, rest, by omega⟩
termination_by 2 * input.length + 1
decreasing_by all_goals omega

end

/-- The value at the front of a text, after blanks. -/
def read (input : List Char) : Except ReadError (Parsed Char Value input.length) := do
  return (← readTrimmed (skipBlanks input)).widen (Text.length_skipBlanks_le input)

end TagTree.Value

namespace TagTree.Attributes

open Text (Parsed skipBlanks)

variable [Alphabet]

/-- The value of a key: what follows `=`, or `true` for a key alone. -/
def readAssigned (input : List Char) : Except ReadError (Parsed Char Value (input.length + 1)) :=
  match input with
  | '=' :: body => do
    let ⟨value, rest, _⟩ ← Value.read body
    return ⟨value, rest, by simp only [List.length_cons]; omega⟩
  | input => .ok (.ofRest (.bool true) input)

/-- The attributes at the front of a text, as pairs in the order of the text, and what follows the
blanks after them. -/
def readPairs (input : List Char) :
    Except ReadError (Parsed Char (List (String × Value)) (input.length + 1)) :=
  have := Text.length_skipBlanks_le input
  match Text.identifier? (skipBlanks input) with
  | none => .ok ⟨[], skipBlanks input, by omega⟩
  | some ⟨key, following, _⟩ => do
    let ⟨value, after, _⟩ ← readAssigned following
    let ⟨pairs, rest, _⟩ ← readPairs after
    return ⟨(key, value) :: pairs, rest, by omega⟩
termination_by input.length
decreasing_by omega

/-- The attributes at the front of a text. A key that comes again replaces the earlier value. -/
def read (input : List Char) : Except ReadError (Parsed Char Attributes (input.length + 1)) := do
  return (← readPairs input).map Entries.ofPairs

end TagTree.Attributes
