import TagTree.Text.Digits
import TagTree.Value.Basic

/-!
# Bare values

A value without quotes is one of the words `null`, `true` and `false`, or an integer: an optional
minus sign and digits, in hexadecimal after `0x`, octal after `0o`, binary after `0b` and decimal
otherwise. An integer outside the 64-bit range is no value.
-/

namespace TagTree.Value

/-- The integer as a 64-bit word, if it is in range. -/
def word? (value : Int) : Option Int64 :=
  (Text.signedWord? value).map Int64.ofInt

/-- The radix that the first characters of an unsigned integer name, and its digits. -/
def radixAndDigits (unsigned : List Char) : Nat × List Char :=
  match unsigned with
  | '0' :: 'x' :: digits | '0' :: 'X' :: digits => (16, digits)
  | '0' :: 'o' :: digits | '0' :: 'O' :: digits => (8, digits)
  | '0' :: 'b' :: digits | '0' :: 'B' :: digits => (2, digits)
  | digits => (10, digits)

/-- The magnitude that an unsigned integer writes. -/
def magnitude? (unsigned : List Char) : Option Nat :=
  let (radix, digits) := radixAndDigits unsigned
  Text.number? radix (digits.map Char.toNat)

/-- The 64-bit integer that a token writes. -/
def bareInteger? (token : List Char) : Option Int64 :=
  match token with
  | '-' :: unsigned => do word? (-(← magnitude? unsigned))
  | unsigned => do word? (← magnitude? unsigned)

/-- The value that a token without quotes writes. -/
def ofBare? (token : List Char) : Option Value :=
  if token = "null".toList then some null
  else if token = "true".toList then some (bool true)
  else if token = "false".toList then some (bool false)
  else (bareInteger? token).map integer

end TagTree.Value
