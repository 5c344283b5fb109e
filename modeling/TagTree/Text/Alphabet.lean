import TagTree.Text.Blank
import TagTree.Text.IdentifierContinue

/-!
# Alphabets

Which characters form words is left open. All that is known of an alphabet is that punctuation and
blanks are not in it (`Alphabet`). Where none is given, it is that of the Unicode properties for
identifiers.
-/

namespace TagTree

namespace Text

variable {c : Char}

/-- The visible ASCII characters that are no letters, digits or low lines, and the blanks, as closed
ranges of code points. -/
def separatorRanges : List (Nat × Nat) :=
  [(33, 47), (58, 64), (91, 94), (96, 96), (123, 126)] ++ blankRanges

/-- The character is punctuation or a blank. -/
def isSeparator (c : Char) : Bool :=
  inRanges separatorRanges c.toNat

/-- A blank is a separator. -/
theorem isSeparator_of_isBlank (h : isBlank c = true) : isSeparator c = true := by
  obtain ⟨range, hmem, hrange⟩ := inRanges_iff.mp h
  exact inRanges_iff.mpr ⟨range, List.mem_append_right _ hmem, hrange⟩

/-- Ranges that lie apart hold no code point in common. -/
theorem inRanges_eq_false {ranges others : List (Nat × Nat)} {code : Nat}
    (ha : (ranges.all fun range => others.all fun other =>
      range.2 < other.1 || other.2 < range.1) = true)
    (h : inRanges ranges code = true) : inRanges others code = false := by
  obtain ⟨range, hrange, hlow, hhigh⟩ := inRanges_iff.mp h
  refine Bool.eq_false_iff.mpr fun hother => ?_
  obtain ⟨other, hmem, hbelow, habove⟩ := inRanges_iff.mp hother
  have hapart := List.all_eq_true.mp (List.all_eq_true.mp ha range hrange) other hmem
  simp only [Bool.or_eq_true, decide_eq_true_eq] at hapart
  omega

/-- The ASCII letters as ranges. -/
theorem inRanges_of_isAlpha (h : c.isAlpha = true) :
    inRanges [(65, 90), (97, 122)] c.toNat = true := by
  have hclass : (decide (c.val ≥ 'A'.val ∧ c.val ≤ 'Z'.val) ||
      (decide (c.val ≥ 'a'.val) && decide (c.val ≤ 'z'.val))) = true := h
  simp only [Bool.or_eq_true, Bool.and_eq_true, decide_eq_true_eq, UInt32.le_iff_toNat_le] at hclass
  simpa [inRanges] using hclass

/-- The ASCII digits as a range. -/
theorem inRanges_of_isDigit (h : c.isDigit = true) : inRanges [(48, 57)] c.toNat = true := by
  simp only [Char.isDigit, Bool.and_eq_true, decide_eq_true_eq, UInt32.le_iff_toNat_le] at h
  simpa [inRanges] using h

/-- No separator starts an identifier. -/
theorem isIdentifierStart_eq_false (h : isSeparator c = true) : isIdentifierStart c = false := by
  rw [isIdentifierStart]
  split
  · refine Bool.eq_false_iff.mpr fun halpha => ?_
    have hapart : isSeparator c = false :=
      inRanges_eq_false (by decide) (inRanges_of_isAlpha halpha)
    rw [hapart] at h
    cases h
  · exact inRanges_eq_false (by decide +kernel) h

/-- No separator continues an identifier. -/
theorem isIdentifierContinue_eq_false (h : isSeparator c = true) :
    isIdentifierContinue c = false := by
  rw [isIdentifierContinue, isIdentifierStart_eq_false h, Bool.false_or]
  split
  · rw [Bool.or_eq_false_iff, beq_eq_false_iff_ne]
    constructor
    · refine Bool.eq_false_iff.mpr fun hdigit => ?_
      have hapart : isSeparator c = false :=
        inRanges_eq_false (by decide) (inRanges_of_isDigit hdigit)
      rw [hapart] at h
      cases h
    · rintro rfl
      cases h
  · exact inRanges_eq_false (by decide +kernel) h

end Text

/-- Which characters start and continue a word. Punctuation and blanks are not among them. -/
class Alphabet where
  starts : Char → Bool
  continues : Char → Bool
  starts_eq_false {c : Char} : Text.isSeparator c = true → starts c = false
  continues_eq_false {c : Char} : Text.isSeparator c = true → continues c = false

/-- The Unicode properties `XID_Start` and `XID_Continue`. -/
instance : Alphabet where
  starts := Text.isIdentifierStart
  continues := Text.isIdentifierContinue
  starts_eq_false := Text.isIdentifierStart_eq_false
  continues_eq_false := Text.isIdentifierContinue_eq_false

end TagTree
