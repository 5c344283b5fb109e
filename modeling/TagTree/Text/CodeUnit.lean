/-!
# Code units

Text is read either as characters or as the bytes of its UTF-8 form. Both have a numeric code and a
width in bytes, and the markup's own characters have the same code in both.
-/

namespace TagTree.Text

/-- A unit of text with its numeric code and the number of bytes that it takes. -/
class CodeUnit (υ : Type) where
  code : υ → Nat
  width : υ → Nat

/-- A character's code is its code point, its width that of its UTF-8 form. -/
instance : CodeUnit Char where
  code := Char.toNat
  width := Char.utf8Size

/-- A byte is its own code and one byte wide. -/
instance : CodeUnit UInt8 where
  code := UInt8.toNat
  width _ := 1

/-- The number of bytes that the units take together. -/
def byteLength {υ : Type} [CodeUnit υ] : List υ → Nat
  | [] => 0
  | unit :: units => CodeUnit.width unit + byteLength units

/-- No units take no bytes. -/
@[simp] theorem byteLength_nil {υ : Type} [CodeUnit υ] : byteLength ([] : List υ) = 0 := rfl

/-- One unit more adds its own width. -/
@[simp] theorem byteLength_cons {υ : Type} [CodeUnit υ] (unit : υ) (units : List υ) :
    byteLength (unit :: units) = CodeUnit.width unit + byteLength units := rfl

/-- Widths add up over concatenation. -/
@[simp] theorem byteLength_append {υ : Type} [CodeUnit υ] (left right : List υ) :
    byteLength (left ++ right) = byteLength left + byteLength right := by
  induction left with
  | nil => simp
  | cons unit units ih => simp [ih, Nat.add_assoc]

end TagTree.Text
