import TagTree.Tag.Reader

/-!
# Shorthand for single tags

A reference can be given by its notation alone, with or without the colon, and an opening tag by
what stands between its angle brackets.
-/

namespace TagTree

open Text (byteLength)

variable [Alphabet]

/-- The integer in the range of 64 bits that a text writes: an optional sign and decimal digits. -/
def signedDecimal? (digits : List Char) : Option Int :=
  match digits with
  | '-' :: magnitude => do Text.signedWord? (-(← Text.number? 10 (magnitude.map Char.toNat)))
  | '+' :: magnitude => do Text.signedWord? (← Text.number? 10 (magnitude.map Char.toNat))
  | magnitude => do Text.signedWord? (← Text.number? 10 (magnitude.map Char.toNat))

namespace Reference

/-- The name before the brackets and what stands in them, if the text ends in a bracket. -/
def bracketed? (written : List Char) : Option (List Char × List Char) :=
  if written.getLast? = some ']' then
    let body := written.dropLast
    match body.dropWhile (· != '[') with
    | [] => none
    | _ :: digits => some (body.takeWhile (· != '['), digits)
  else none

/-- A reference from what stands before its marks. -/
def ofFront (front : List Char) (flags : ReferenceFlags) : Except Error Reference :=
  let checked (name : List Char) (isArray : Bool) (index : Option Int) : Except Error Reference :=
    (Reference.checked (String.ofList name) isArray index flags).mapError .validation
  match bracketed? front with
  | none => checked front false none
  | some (name, []) => checked name true none
  | some (name, digits) =>
    match signedDecimal? digits with
    | some index => checked name true (some index)
    | none =>
      .error (.reading
        ⟨.invalidIndex (String.ofList digits), byteLength name + 1, byteLength front - 1⟩)

/-- The reference that a notation such as `name`, `items[]`, `items[2]` or `value+$` stands for; a
colon may follow. -/
def ofShorthand (text : String) : Except Error Reference :=
  let reversed := text.toList.reverse
  let reversed := if reversed.head? = some ':' then reversed.tail else reversed
  let marks := reversed.takeWhile Tag.isReferenceMark
  let front := (reversed.dropWhile Tag.isReferenceMark).reverse
  ofFront front ⟨marks.contains '+', marks.contains '$'⟩

end Reference

/-- The opening tag with the given text between its angle brackets. -/
def OpenTag.ofShorthand (text : String) : Except Error OpenTag := do
  match ← Tag.parse ("<" ++ text ++ ">") with
  | [.opening tag] => return tag
  | _ => .error (.reading ⟨.notAnOpenTag text, 0, text.utf8ByteSize⟩)

end TagTree
