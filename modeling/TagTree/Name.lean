import TagTree.Text.Alphabet

/-!
# Names

Types, attribute keys and object keys are identifiers. The name of a reference is either one of the
two reserved names, which introduce trivia and escapes, or a word that may hold dots. Words are made
of the characters of an alphabet.
-/

namespace TagTree.Name

/-- The reserved name before a trivia node. -/
def trivia : String := "#"

/-- The reserved name before an escape node. -/
def escape : String := "@"

/-- The name is one of the two reserved ones. -/
def isReserved (name : String) : Bool :=
  name == trivia || name == escape

variable [Alphabet]

/-- The character can stand first in a word. -/
def startsWord (c : Char) : Bool :=
  Alphabet.starts c || c == '_'

/-- The character can stand later in an identifier. -/
def continuesIdentifier (c : Char) : Bool :=
  Alphabet.continues c || c == '-'

/-- The character can stand later in the name of a reference. -/
def continuesReference (c : Char) : Bool :=
  Alphabet.continues c || c == '.'

variable {c : Char}

/-- No word starts with a separator. -/
theorem startsWord_eq_false (h : Text.isSeparator c = true) : startsWord c = false := by
  rw [startsWord, Alphabet.starts_eq_false h, Bool.false_or, beq_eq_false_iff_ne]
  rintro rfl
  cases h

/-- The first character of a word is no separator. -/
theorem isSeparator_of_startsWord (h : startsWord c = true) : Text.isSeparator c = false := by
  refine Bool.eq_false_iff.mpr fun hseparator => ?_
  rw [startsWord_eq_false hseparator] at h
  cases h

/-- An identifier is continued by no separator but a hyphen. -/
theorem continuesIdentifier_eq_false (h : (Text.isSeparator c && c != '-') = true) :
    continuesIdentifier c = false := by
  rw [Bool.and_eq_true, bne_iff_ne] at h
  rw [continuesIdentifier, Alphabet.continues_eq_false h.1, Bool.false_or, beq_eq_false_iff_ne]
  exact h.2

/-- The name of a reference is continued by no separator but a dot. -/
theorem continuesReference_eq_false (h : (Text.isSeparator c && c != '.') = true) :
    continuesReference c = false := by
  rw [Bool.and_eq_true, bne_iff_ne] at h
  rw [continuesReference, Alphabet.continues_eq_false h.1, Bool.false_or, beq_eq_false_iff_ne]
  exact h.2

/-- The characters form a word whose later characters pass the test. -/
def isWord (continues : Char → Bool) : List Char → Bool
  | [] => false
  | first :: later => startsWord first && later.all continues

/-- The text is an identifier. -/
def isIdentifier (text : String) : Bool :=
  isWord continuesIdentifier text.toList

/-- The text can name a reference. -/
def isReferenceName (text : String) : Bool :=
  isReserved text || isWord continuesReference text.toList

end TagTree.Name
