import TagTree.Text.Blank
import TagTree.Text.CodeUnit
import TagTree.Text.Digits
import TagTree.Text.Parsed

/-!
# Quoted text

A text stands between two equal quotes. Writing puts a backslash before the quote, gives the
backslash, carriage return, line feed, tab and null character a letter, and every other control
character its code point in hexadecimal digits. Reading works on characters and on bytes alike,
since all that it looks for is ASCII.
-/

namespace TagTree.Text

/-- The backslash, which starts an escape. -/
def backslash : Char := '\\'

/-- The letter that stands for a character after a backslash, if it has one. -/
def escapeLetter? (c : Char) : Option Char :=
  if c = backslash then some backslash
  else if c = '\r' then some 'r'
  else if c = '\n' then some 'n'
  else if c = '\t' then some 't'
  else if c = Char.ofNat 0 then some '0'
  else none

/-- The character for which a letter stands after a backslash, given the letter's code. -/
def unescape? (code : Nat) : Option Char :=
  if code = backslash.toNat then some backslash
  else if code = '\''.toNat then some '\''
  else if code = '"'.toNat then some '"'
  else if code = 'r'.toNat then some '\r'
  else if code = 'n'.toNat then some '\n'
  else if code = 't'.toNat then some '\t'
  else if code = '0'.toNat then some (Char.ofNat 0)
  else none

/-- One character of a text between quotes, as it is written. -/
def quoteChar (quote c : Char) : List Char :=
  if c = quote then [backslash, c]
  else match escapeLetter? c with
    | some letter => [backslash, letter]
    | none => if isControl c then [backslash, 'u', '{'] ++ Nat.toDigits 16 c.toNat ++ ['}'] else [c]

/-- The text between two of the given quotes. -/
def quoted (quote : Char) (text : List Char) : List Char :=
  quote :: text.flatMap (quoteChar quote) ++ [quote]

/-- The text in single quotes, or in double quotes if it is exactly one single quote. -/
def literalText (text : List Char) : List Char :=
  if text = ['\''] then quoted '"' text else quoted '\'' text

/-- Why a quoted text cannot be read. -/
inductive QuoteFault where
  | notQuoted
  | unterminated
  | unterminatedEscape
  | invalidCodePoint
  | unknownEscape
  | invalidEncoding
  deriving DecidableEq, Repr

/-- The wording of a fault. -/
def QuoteFault.message : QuoteFault → String
  | .notQuoted => "expected a quoted string"
  | .unterminated => "unterminated string"
  | .unterminatedEscape => "unterminated escape"
  | .invalidCodePoint => "invalid unicode escape"
  | .unknownEscape => "unknown escape"
  | .invalidEncoding => "string is not valid UTF-8"

/-- A fault and the input from where it is reported. -/
structure QuoteError (υ : Type) where
  fault : QuoteFault
  rest : List υ

/-- A piece of a quoted text: a unit as it stands, or the character of an escape. -/
inductive Piece (υ : Type) where
  | plain (unit : υ)
  | escaped (c : Char)

section Reading

variable {υ : Type} [CodeUnit υ]

/-- The number that hexadecimal digits write, with at most one plus sign before them. -/
def hexNumber? (codes : List Nat) : Option Nat :=
  if codes.head? = some '+'.toNat then number? 16 codes.tail else number? 16 codes

/-- The character with the given code point, if there is one. -/
def character? (code : Nat) : Option Char :=
  if code.isValidChar then some (Char.ofNat code) else none

/-- A code point in braces, as it stands after the letter `u` of an escape. -/
def codePoint? (input : List υ) : Option (Parsed υ Char input.length) :=
  match input with
  | [] => none
  | brace :: rest =>
    if CodeUnit.code brace = '{'.toNat then
      match closing : rest.dropWhile (CodeUnit.code · != '}'.toNat) with
      | [] => none
      | _ :: after => do
        let digits := rest.takeWhile (CodeUnit.code · != '}'.toNat)
        let number ← hexNumber? (digits.map CodeUnit.code)
        let c ← character? number
        some ⟨c, after, length_after_lt closing⟩
    else none

/-- The pieces up to the closing quote, whose code is given. -/
def scanQuoted (quote : Nat) (input : List υ) :
    Except (QuoteError υ) (Parsed υ (List (Piece υ)) input.length) :=
  match input with
  | [] => .error ⟨.unterminated, []⟩
  | unit :: rest =>
    if CodeUnit.code unit = quote then .ok (.ofRest [] rest)
    else if CodeUnit.code unit = backslash.toNat then
      match rest with
      | [] => .error ⟨.unterminatedEscape, []⟩
      | letter :: after =>
        if CodeUnit.code letter = 'u'.toNat then
          match codePoint? after with
          | none => .error ⟨.invalidCodePoint, letter :: after⟩
          | some ⟨c, following, short⟩ => do
            let parsed ← scanQuoted quote following
            return (parsed.map (.escaped c :: ·)).widen (by simp only [List.length_cons]; omega)
        else
          match unescape? (CodeUnit.code letter) with
          | none => .error ⟨.unknownEscape, letter :: after⟩
          | some c => do
            let parsed ← scanQuoted quote after
            return (parsed.map (.escaped c :: ·)).widen (by simp only [List.length_cons]; omega)
    else do
      let parsed ← scanQuoted quote rest
      return (parsed.map (.plain unit :: ·)).widen (Nat.le_succ _)
termination_by input.length
decreasing_by all_goals simp only [List.length_cons]; omega

/-- The pieces of the quoted text at the front of the input. -/
def readPieces (input : List υ) : Except (QuoteError υ) (Parsed υ (List (Piece υ)) input.length) :=
  match input with
  | [] => .error ⟨.notQuoted, []⟩
  | quote :: rest =>
    if CodeUnit.code quote = '\''.toNat ∨ CodeUnit.code quote = '"'.toNat then do
      let parsed ← scanQuoted (CodeUnit.code quote) rest
      return parsed.widen (Nat.le_succ _)
    else .error ⟨.notQuoted, quote :: rest⟩

end Reading

/-- The character that a piece of characters stands for. -/
def Piece.toChar : Piece Char → Char
  | .plain c => c
  | .escaped c => c

/-- The bytes that a piece of bytes stands for. -/
def Piece.toBytes : Piece UInt8 → List UInt8
  | .plain byte => [byte]
  | .escaped c => String.utf8EncodeChar c

/-- The quoted text at the front of a text. -/
def readQuoted (input : List Char) :
    Except (QuoteError Char) (Parsed Char String input.length) := do
  let parsed ← readPieces input
  return parsed.map fun pieces => String.ofList (pieces.map Piece.toChar)

/-- The quoted text at the front of a run of bytes, and the number of bytes that it takes. The text
must be valid UTF-8. -/
def readQuotedBytes (input : List UInt8) : Except (QuoteFault × Nat) (String × Nat) :=
  let used (rest : List UInt8) := byteLength input - byteLength rest
  match readPieces input with
  | .error error => .error (error.fault, used error.rest)
  | .ok ⟨pieces, rest, _⟩ =>
    match String.fromUTF8? ⟨(pieces.flatMap Piece.toBytes).toArray⟩ with
    | some text => .ok (text, used rest)
    | none => .error (.invalidEncoding, used rest)

end TagTree.Text
