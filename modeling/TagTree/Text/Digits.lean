/-!
# Digits in a radix

The value of a digit is that of the ASCII digits and letters, of either case, below the radix.
-/

namespace TagTree.Text

/-- The value of a digit given by its code, if it is one of the radix. -/
def digitValue? (radix code : Nat) : Option Nat :=
  let value? :=
    if 48 ≤ code ∧ code ≤ 57 then some (code - 48)
    else if 97 ≤ code ∧ code ≤ 122 then some (code - 87)
    else if 65 ≤ code ∧ code ≤ 90 then some (code - 55)
    else none
  value?.filter (· < radix)

/-- The value of a run of digits, most significant first, continued from `start`; every code must be
a digit of the radix. -/
def digitsValue? (radix : Nat) : (codes : List Nat) → (start : Nat) → Option Nat
  | [], start => some start
  | code :: codes, start => do
    let digit ← digitValue? radix code
    digitsValue? radix codes (radix * start + digit)

/-- The value of a run of at least one digit of the radix. -/
def number? (radix : Nat) (codes : List Nat) : Option Nat :=
  if codes.isEmpty then none else digitsValue? radix codes 0

/-- The integer, if it is in the range of signed 64-bit words. -/
def signedWord? (value : Int) : Option Int :=
  if -0x8000000000000000 ≤ value ∧ value < 0x8000000000000000 then some value else none

end TagTree.Text
