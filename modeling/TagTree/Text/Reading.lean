import TagTree.Error

/-!
# Reading text

The parts that the readers of values and tags share. A fault is reported by the number of bytes that
are left where it starts and the number of bytes that it is about, so that no reader keeps count of
its position.
-/

namespace TagTree

open Text (Parsed byteLength)

/-- Why reading stops: a fault, with the bytes left at its start and its width, or a bad tag. -/
inductive ReadError where
  | fault (cause : SyntaxFault) (left width : Nat)
  | invalid (error : ValidationError)

/-- The failure in terms of the bytes from the start of a text, given the text's length. -/
def ReadError.toError (total : Nat) : ReadError → Error
  | fault cause left width => .reading ⟨cause, total - left, total - left + width⟩
  | invalid error => .validation error

namespace Text

/-- A fault about the next character, or about the end of the text. -/
def faultAt (fault : SyntaxFault) (input : List Char) : ReadError :=
  .fault fault (byteLength input) (byteLength (input.take 1))

/-- A fault about the characters between two places in a text, given by what follows each. -/
def faultBetween (fault : SyntaxFault) (input rest : List Char) : ReadError :=
  .fault fault (byteLength input) (byteLength input - byteLength rest)

/-- The characters that pass a test, and what follows them, after a first character that passes
another. -/
def run? (starts continues : Char → Bool) (input : List Char) :
    Option (Parsed Char (List Char) input.length) :=
  match input with
  | [] => none
  | first :: later =>
    if starts first then
      some ⟨first :: later.takeWhile continues, later.dropWhile continues,
        Nat.lt_succ_of_le (List.dropWhile_sublist continues).length_le⟩
    else none

section Words

variable [Alphabet]

/-- The word at the front of a text. -/
def word? (continues : Char → Bool) (input : List Char) :
    Option (Parsed Char (List Char) input.length) :=
  run? Name.startsWord continues input

/-- The identifier at the front of a text. -/
def identifier? (input : List Char) : Option (Parsed Char String input.length) :=
  (word? Name.continuesIdentifier input).map (·.map String.ofList)

/-- The identifier at the front of a text, or the given fault. -/
def readIdentifier (fault : SyntaxFault) (input : List Char) :
    Except ReadError (Parsed Char String input.length) :=
  match identifier? input with
  | some parsed => .ok parsed
  | none => .error (faultAt fault input)

end Words

/-- What follows the given character at the front of a text. -/
def eat? (c : Char) (input : List Char) : Option (Parsed Char Unit input.length) :=
  match input with
  | [] => none
  | first :: rest => if first = c then some (.ofRest () rest) else none

/-- What follows the given character, which must stand at the front of a text. -/
def readChar (c : Char) (input : List Char) : Except ReadError (Parsed Char Unit input.length) :=
  match eat? c input with
  | some parsed => .ok parsed
  | none => .error (faultAt (.expected (String.singleton c)) input)

/-- The character opens a quoted text. -/
def isQuote (c : Char) : Bool :=
  c == '\'' || c == '"'

/-- The quoted text at the front of a text. Its faults are one byte wide. -/
def readLiteral (input : List Char) : Except ReadError (Parsed Char String input.length) :=
  match readQuoted input with
  | .ok parsed => .ok parsed
  | .error error => .error (.fault (.quoted error.fault) (byteLength error.rest) 1)

/-- The characters at the front of a text that pass a test. -/
def span (test : Char → Bool) (input : List Char) : Parsed Char (List Char) (input.length + 1) :=
  ⟨input.takeWhile test, input.dropWhile test,
    Nat.lt_succ_of_le (List.dropWhile_sublist test).length_le⟩

/-- The number that decimal digits write, if there is a digit and the number is below the bound. -/
def decimalBelow? (bound : Nat) (digits : List Char) : Option Nat :=
  (number? 10 (digits.map Char.toNat)).filter (· < bound)

end Text

end TagTree
