import TagTree.Proofs.Text.Value
import TagTree.Tag.Printer
import TagTree.Tag.Reader

/-!
# Tags read back

A valid tag is read back from its text (`Tag.readTag_chars`), and a token that is written in one
piece as its tags (`Tag.readTag_filled`). Only after `null` does it matter what follows.
-/

namespace TagTree

open Text (Reads Stops stops_cons skipBlanks isBlank)
open Text (span_append readChar_cons isQuote eat?_cons eq_of_isQuote stops_of_isWord eat?
  stops_literalText)
open Name (isIdentifier isReferenceName isWord continuesReference startsWord_eq_false startsWord
  continuesIdentifier_eq_false)

variable {brackets marks text word following : List Char} {isArray isClosed : Bool}
  {attributes : Attributes} {name : String} {input body rest : List Char} {edge : Reference}
  {start : OpenTag} {test : Char → Bool}

/-! ### Marks and ends of parts -/

/-- What stands between the name of a reference and its marks: nothing, or the brackets of an array
with an index or without. -/
inductive Brackets : List Char → Bool → Option Nat → Prop where
  | none : Brackets [] false none
  | empty : Brackets ['[', ']'] true none
  | index {digits : List Char} {index : Nat}
      (h : Text.decimalBelow? 0x8000000000000000 digits = some index) :
      Brackets ('[' :: (digits ++ [']'])) true (some index)

namespace Tag

variable {index : Option Nat}

/-- The brackets of an array reference are read, or nothing where there are none. -/
theorem readIndex_brackets (hb : Brackets brackets isArray index) (hr : rest.head? ≠ some '[') :
    Reads (readIndex (brackets ++ rest)) (isArray, index.map Int.ofNat) rest := by
  have hstops : Stops Char.isDigit (']' :: rest) := stops_cons (by decide) rest
  cases hb with
  | none =>
    show Reads (readIndex rest) (false, none) rest
    rw [readIndex]
    · exact .ok ..
    · rintro later rfl
      exact hr rfl
  | empty =>
    obtain ⟨short, hspan⟩ := span_append (List.forall_mem_nil _) hstops
    show Reads (readIndex ('[' :: ([] ++ ']' :: rest))) (true, none) rest
    rw [readIndex, hspan]
    exact (readChar_cons ']' rest).bind fun _ => .ok ..
  | index h =>
    obtain ⟨hne, hdigits⟩ := Text.isDigit_of_decimalBelow? h
    obtain ⟨short, hspan⟩ := span_append hdigits hstops
    rw [List.cons_append, List.append_assoc, List.singleton_append, readIndex, hspan]
    refine (readChar_cons ']' rest).bind fun _ => ?_
    simp only [if_neg (mt List.isEmpty_iff.mp hne), h]
    exact .ok ..

/-- After its brackets, a reference goes on with a mark or the colon. -/
theorem exists_cons_marks (hm : ∀ mark ∈ marks, isReferenceMark mark = true) (rest : List Char) :
    ∃ c later, marks ++ ':' :: rest = c :: later ∧ (c = '+' ∨ c = '$' ∨ c = ':') := by
  cases marks with
  | nil => exact ⟨':', rest, rfl, by decide⟩
  | cons mark marks =>
    have hmark := hm mark List.mem_cons_self
    rw [isReferenceMark, Bool.or_eq_true, beq_iff_eq, beq_iff_eq] at hmark
    exact ⟨mark, _, rfl, hmark.imp_right .inl⟩

/-- The marks of a node are read back. -/
theorem nodeFlags_chars (flags : NodeFlags) : nodeFlags flags.chars = flags := by
  obtain ⟨token, trivia, escape, intrinsic, expression, hasGap⟩ := flags
  cases token <;> cases trivia <;> cases escape <;> cases intrinsic <;> cases expression <;>
    cases hasGap <;> rfl

/-- All marks of a node are such marks. -/
theorem isNodeMark_of_mem_chars (flags : NodeFlags) : ∀ c ∈ flags.chars, isNodeMark c = true := by
  obtain ⟨token, trivia, escape, intrinsic, expression, hasGap⟩ := flags
  cases token <;> cases trivia <;> cases escape <;> cases intrinsic <;> cases expression <;>
    cases hasGap <;> exact List.all_eq_true.mp (by decide)

end Tag

namespace Attributes

/-- The text of attributes, after a space if there are any. -/
def spaced (attributes : Attributes) : List Char :=
  if attributes.isEmpty then [] else ' ' :: chars attributes

/-- What a space stops is stopped by attributes, or by what follows where there are none. -/
theorem stops_spaced (hs : test ' ' = false) (hr : Stops test rest) :
    Stops test (spaced attributes ++ rest) := by
  unfold spaced
  split
  · exact hr
  · exact stops_cons hs _

end Attributes

/-- The text of a header, part by part. -/
theorem Doctype.chars_eq (header : Doctype) :
    header.chars = '<' :: '!' :: (Nat.toDigits 10 header.version ++
      ':' :: (header.name.toList ++ (Attributes.spaced header.attributes ++ ['>']))) := by
  unfold Doctype.chars Attributes.spaced
  split <;> simp

/-- The attributes as they stand after the type. Where nothing stands before them they need no
space. -/
def OpenTag.attributeChars (start : OpenTag) : List Char :=
  if start.typeName.isSome || start.flags != {} then start.attributes.spaced
  else start.attributes.chars

namespace Tag

/-- The opening tag goes on with a space or ends. -/
def EndsPart (text : List Char) : Prop :=
  ∃ c later, text = c :: later ∧ (c = ' ' ∨ c = '>')

variable {c : Char}

/-- What neither a space nor the end of a tag continues stops there. -/
theorem EndsPart.stops (h : EndsPart text) (hspace : test ' ' = false) (hend : test '>' = false) :
    Stops test text := by
  obtain ⟨c, later, rfl, rfl | rfl⟩ := h
  · exact stops_cons hspace later
  · exact stops_cons hend later

/-- What goes on with a space or ends starts with no other character. -/
theorem EndsPart.head?_ne (h : EndsPart text) (hspace : c ≠ ' ') (hend : c ≠ '>') :
    text.head? ≠ some c := by
  obtain ⟨first, later, rfl, rfl | rfl⟩ := h
  · exact fun heq => hspace (Option.some.inj heq).symm
  · exact fun heq => hend (Option.some.inj heq).symm

/-- Attributes go on with a space, or what follows them does. -/
theorem EndsPart.spaced (h : EndsPart rest) (attributes : Attributes) :
    EndsPart (attributes.spaced ++ rest) := by
  unfold Attributes.spaced
  split
  · exact h
  · exact ⟨' ', _, rfl, .inl rfl⟩

/-- After a type, attributes start with a space. -/
theorem EndsPart.attributeChars_of_isSome (h : EndsPart rest)
    (hs : start.typeName.isSome = true) : EndsPart (start.attributeChars ++ rest) := by
  rw [OpenTag.attributeChars, hs]
  exact h.spaced start.attributes

/-- Attributes start with a space, unless they stand first in the tag. -/
theorem EndsPart.attributeChars (h : EndsPart rest) (start : OpenTag) :
    EndsPart (start.attributeChars ++ rest) ∨
    ∃ key value later after, start.attributes = (key, value) :: later ∧
      start.attributeChars = key.toList ++ '=' :: after := by
  unfold OpenTag.attributeChars
  split
  · exact .inl (h.spaced start.attributes)
  · cases start.attributes with
    | nil => exact .inl h
    | cons entry later =>
      obtain ⟨key, value⟩ := entry
      refine .inr ⟨key, value, later, ?_⟩
      cases later with
      | nil => exact ⟨_, rfl, rfl⟩
      | cons next others =>
        refine ⟨value.chars ++ ' ' :: Attributes.chars (next :: others), rfl, ?_⟩
        simp [Attributes.chars]

/-- What stops before a quote does not start with one. -/
theorem any_isQuote_of_stops (h : Stops isQuote input) : ¬ input.head?.any isQuote = true := by
  cases input with
  | nil => nofun
  | cons c input => exact Bool.eq_false_iff.mp (h c rfl)

/-- The blank before the end of a closed tag is skipped. -/
theorem skipBlanks_closed (rest : List Char) :
    skipBlanks (' ' :: '/' :: '>' :: rest) = '/' :: '>' :: rest := by
  exact Text.skipBlanks_append Text.isBlank_space (stops_cons (by decide) _)

end Tag

/-! ### Valid tags -/

variable [Alphabet]

/-- The parts of a header can be written. -/
structure Doctype.IsValid (header : Doctype) : Prop where
  version : header.version < 0x100000000
  name : isIdentifier header.name = true
  attributes : Attributes.IsKeyed header.attributes

/-- The parts of an opening tag can be written. -/
structure OpenTag.IsValid (start : OpenTag) : Prop where
  flags : (start.flags.escape && start.flags.trivia) = false
  typeName : ∀ name ∈ start.typeName, isIdentifier name = true
  language : start.language ≠ some ""
  fragment : start.typeName = none → start.language = none
  attributes : Attributes.IsKeyed start.attributes

/-- The parts of a reference can be written. -/
structure Reference.IsValid (edge : Reference) : Prop where
  name : isReferenceName edge.name = true
  index : ∀ index ∈ edge.index, edge.isArray = true ∧ index < 0x8000000000000000

/-- The tag can be written. The word `null` is read as names of references are. -/
def Tag.IsValid : Tag → Prop
  | doctype header => header.IsValid
  | opening start => start.IsValid
  | reference edge => edge.IsValid
  | null => isReferenceName "null" = true
  | embedded | effect _ => False
  | _ => True

/-! ### References and `null` -/

/-- What is written for a reference, up to its colon. -/
inductive Reference.IsWritten : List Char → Reference → Prop where
  | mk {name : String} {brackets marks : List Char} {isArray : Bool} {index : Option Nat}
      (hn : isReferenceName name = true) (hb : Brackets brackets isArray index)
      (hm : ∀ mark ∈ marks, Tag.isReferenceMark mark = true) :
      IsWritten (name.toList ++ (brackets ++ marks))
        ⟨name, isArray, index, ⟨marks.contains '+', marks.contains '$'⟩⟩

/-- The name of a reference is reserved or a word. -/
theorem Name.isReferenceName_iff : isReferenceName name = true ↔
    name = Name.trivia ∨ name = Name.escape ∨ isWord continuesReference name.toList := by
  simp [isReferenceName, Name.isReserved, or_assoc]

namespace Tag

variable {index : Option Nat}

/-- A word is read as the name of a reference. -/
theorem readName_of_word (htrivia : input.head? ≠ some '#') (hescape : input.head? ≠ some '@')
    (hw : ∃ short, Text.word? continuesReference input = some ⟨word, rest, short⟩) :
    Reads (readName input) (String.ofList word) rest := by
  obtain ⟨short, hw⟩ := hw
  rw [readName]
  · simp only [hw]
    exact .ok ..
  · rintro later rfl
    exact htrivia rfl
  · rintro later rfl
    exact hescape rfl

/-- The name of a reference is read whole. -/
theorem readName_append (hn : isReferenceName name = true) (hr : Stops continuesReference rest) :
    Reads (readName (name.toList ++ rest)) name rest := by
  rcases Name.isReferenceName_iff.mp hn with rfl | rfl | hword
  · exact .ok ..
  · exact .ok ..
  · have hread := readName_of_word (Text.head?_ne_of_isWord hword
      (startsWord_eq_false (by decide)) rest)
      (Text.head?_ne_of_isWord hword (startsWord_eq_false (by decide)) rest)
      (Text.word?_append hword hr)
    rwa [String.ofList_toList] at hread

/-- After its name, a reference goes on with a character that tells it from a word. -/
theorem exists_cons_brackets (hm : ∀ mark ∈ marks, isReferenceMark mark = true)
    (hb : Brackets brackets isArray index) (rest : List Char) :
    ∃ c later, brackets ++ (marks ++ ':' :: rest) = c :: later ∧
      continuesNull c = true ∧ continuesReference c = false := by
  cases hb with
  | none =>
    obtain ⟨c, later, hcons, hc⟩ := exists_cons_marks hm rest
    refine ⟨c, later, hcons, ?_⟩
    rcases hc with rfl | rfl | rfl <;>
      exact ⟨by decide, Name.continuesReference_eq_false (by decide)⟩
  | empty => exact ⟨'[', _, rfl, by decide, Name.continuesReference_eq_false (by decide)⟩
  | index h => exact ⟨'[', _, rfl, by decide, Name.continuesReference_eq_false (by decide)⟩

/-- A reference with a valid name passes its check. -/
theorem checked_reference {flags : ReferenceFlags} (hn : isReferenceName name = true) :
    Reference.checked name isArray (index.map Int.ofNat) flags =
      .ok ⟨name, isArray, index, flags⟩ := by
  rw [Reference.checked, if_pos hn]
  cases index with
  | none => rfl
  | some index =>
    have hindex : ¬ Int.ofNat index < 0 := Int.not_lt.mpr (Int.natCast_nonneg index)
    simp only [Option.map_some, checkIndex, if_neg hindex]
    rfl

/-- What is written for a reference is read as the reference. -/
theorem readWord_of_isWritten (h : edge.IsWritten body)
    (rest : List Char) : Reads (readWord (body ++ ':' :: rest)) (.reference edge) rest := by
  obtain @⟨name, brackets, marks, isArray, index, hn, hb, hm⟩ := h
  obtain ⟨c, later, hcons, hnull, hstop⟩ := exists_cons_brackets hm hb rest
  have hstops : Stops continuesReference (brackets ++ (marks ++ ':' :: rest)) := by
    rw [hcons]
    exact stops_cons hstop later
  have hword : ¬ (name = "null" ∧
      ¬ (brackets ++ (marks ++ ':' :: rest)).head?.any continuesNull = true) := by
    rw [hcons]
    exact fun h => h.2 hnull
  have hhead : (marks ++ ':' :: rest).head? ≠ some '[' := by
    obtain ⟨c, later, hcons, hc⟩ := exists_cons_marks hm rest
    rw [hcons]
    rintro ⟨⟩
    exact absurd hc (by decide)
  have hcolon : Stops isReferenceMark (':' :: rest) := stops_cons (by decide) rest
  obtain ⟨short, hspan⟩ := span_append hm hcolon
  rw [List.append_assoc, List.append_assoc]
  refine (readName_append hn hstops).bind fun _ => ?_
  simp only [if_neg hword]
  refine (readIndex_brackets hb hhead).bind fun _ => ?_
  generalize Text.span isReferenceMark (marks ++ ':' :: rest) = marked at hspan ⊢
  subst hspan
  simp only [eat?_cons, checked_reference hn]
  exact .ok ..

/-- A valid reference is written by its text. -/
theorem isWritten_chars (hv : edge.IsValid) :
    ∃ body, edge.chars = body ++ [':'] ∧ edge.IsWritten body := by
  obtain ⟨name, isArray, index, ⟨expression, hasGap⟩⟩ := edge
  have hb : Brackets (Reference.indexChars ⟨name, isArray, index, ⟨expression, hasGap⟩⟩) isArray
      index := by
    cases index with
    | none => cases isArray with
      | false => exact .none
      | true => exact .empty
    | some index =>
      obtain ⟨rfl, hlt⟩ := hv.index index rfl
      exact .index (Text.decimalBelow?_toDigits hlt)
  refine ⟨name.toList ++ (Reference.indexChars ⟨name, isArray, index, ⟨expression, hasGap⟩⟩ ++
    ReferenceFlags.chars ⟨expression, hasGap⟩), by simp [Reference.chars], ?_⟩
  cases expression <;> cases hasGap <;> exact .mk hv.name hb (List.all_eq_true.mp (by decide))

/-- The word `null` is read back, unless what follows makes it a longer word or a reference. -/
theorem readWord_null (hn : isReferenceName "null" = true)
    (hr : Stops (fun c => continuesReference c || continuesNull c) rest) :
    Reads (readWord ("null".toList ++ rest)) .null rest := by
  have hcontinues : Stops continuesReference rest := fun c hc =>
    (Bool.or_eq_false_iff.mp (hr c hc)).1
  have hnull : ¬ rest.head?.any continuesNull = true := by
    cases rest with
    | nil => nofun
    | cons c rest => exact Bool.eq_false_iff.mp (Bool.or_eq_false_iff.mp (hr c rfl)).2
  refine (readName_append hn hcontinues).bind fun _ => ?_
  simp only [true_and, if_pos hnull]
  exact .ok ..

end Tag

/-! ### Tags in angle brackets -/

/-- Attributes are read back, with the space before them if there are any. -/
theorem Attributes.read_spaced (hk : attributes.IsKeyed) (hr : Stops Value.isBare rest)
    (he : Stops startsWord (skipBlanks rest)) :
    Reads (read (spaced attributes ++ rest)) attributes (skipBlanks rest) := by
  cases attributes with
  | nil => exact read_chars hr he (List.forall_mem_nil _) hk
  | cons entry later => exact read_chars hr he Text.isBlank_space hk

/-- The text between angle brackets is made of marks, the type and the attributes. -/
theorem OpenTag.bodyChars_eq (start : OpenTag) :
    start.bodyChars = start.flags.chars ++ (start.nameChars ++ start.attributeChars) := by
  obtain ⟨flags, language, typeName, attributes⟩ := start
  unfold bodyChars attributeChars Attributes.spaced
  cases attributes with
  | nil => simp [Attributes.chars]
  | cons entry later =>
    simp only [List.isEmpty_cons, Bool.false_eq_true, if_false]
    split <;> simp

namespace Tag

/-- The header of a document is read back. -/
theorem readDoctype_chars {header : Doctype} (hv : header.IsValid) :
    Reads (readDoctype (Nat.toDigits 10 header.version ++ ':' :: (header.name.toList ++
      (Attributes.spaced header.attributes ++ '>' :: rest)))) (.doctype header) rest := by
  have hdigits : ∀ c ∈ Nat.toDigits 10 header.version, c.isDigit = true := fun c hmem =>
    Nat.isDigit_of_mem_toDigits (by decide) (by decide) hmem
  let named := Attributes.spaced header.attributes ++ '>' :: rest
  have hnamed : Stops Name.continuesIdentifier named :=
    Attributes.stops_spaced (continuesIdentifier_eq_false (by decide))
      (stops_cons (continuesIdentifier_eq_false (by decide)) rest)
  have hblank : skipBlanks ('>' :: rest) = '>' :: rest :=
    Text.skipBlanks_of_stops (stops_cons (by decide) rest)
  have hword : Stops startsWord (skipBlanks ('>' :: rest)) := by
    rw [hblank]
    exact stops_cons (startsWord_eq_false (by decide)) rest
  have hattributes := Attributes.read_spaced hv.attributes (stops_cons (by decide) rest) hword
  rw [hblank] at hattributes
  obtain ⟨short, hspan⟩ := span_append hdigits
    (stops_cons (by decide) _ : Stops Char.isDigit (':' :: (header.name.toList ++ named)))
  rw [readDoctype, hspan]
  simp only [Text.decimalBelow?_toDigits hv.version]
  refine (readChar_cons ':' _).bind fun _ => ?_
  refine (Text.readIdentifier_append _ hv.name hnamed).bind fun _ => ?_
  refine hattributes.bind fun _ => ?_
  exact (readChar_cons '>' rest).bind fun _ => .ok ..

variable {c : Char}

/-- Nothing is read where neither a quote nor an identifier stands. -/
theorem readHead_of_none (hq : ¬ input.head?.any isQuote = true)
    (hi : Text.identifier? input = none) : Reads (readHead input) {} input := by
  rw [readHead, if_neg hq]
  simp only [hi]
  exact .ok ..

/-- No word starts with a quote. -/
theorem isQuote_of_startsWord (h : startsWord c = true) : isQuote c = false := by
  refine Bool.eq_false_iff.mpr fun hquote => ?_
  rcases eq_of_isQuote hquote with rfl | rfl <;>
    exact absurd (Name.isSeparator_of_startsWord h) (by decide)

/-- A word does not start with a quote. -/
theorem any_isQuote_of_isWord {continues : Char → Bool} (h : isWord continues word = true)
    (rest : List Char) : ¬ (word ++ rest).head?.any isQuote = true :=
  any_isQuote_of_stops (stops_of_isWord (fun _ => isQuote_of_startsWord) h rest)

/-- Nothing is read where the tag has no type. -/
theorem readHead_fragment (hk : Attributes.IsKeyed start.attributes) (hr : EndsPart rest) :
    Reads (readHead (start.attributeChars ++ rest)) {} (start.attributeChars ++ rest) := by
  rcases hr.attributeChars start with hends | ⟨key, value, later, after, hattributes, htext⟩
  · exact readHead_of_none (any_isQuote_of_stops (hends.stops (by decide) (by decide)))
      (Text.identifier?_of_stops (hends.stops (startsWord_eq_false (by decide))
        (startsWord_eq_false (by decide))))
  · have hkeys := hk.2
    rw [hattributes] at hkeys
    have hstops : Stops Name.continuesIdentifier ('=' :: (after ++ rest)) :=
      stops_cons (continuesIdentifier_eq_false (by decide)) _
    obtain ⟨short, hfound⟩ := Text.identifier?_append hkeys.1 hstops
    have hcolon : eat? ':' ('=' :: (after ++ rest)) = none := Text.eat?_of_stops nofun
    rw [htext, List.append_assoc, List.cons_append, readHead,
      if_neg (any_isQuote_of_isWord hkeys.1 _)]
    simp only [hfound, hcolon]
    exact .ok ..

/-- A type without a language is read back. -/
theorem readHead_type (hn : isIdentifier name = true) (hr : EndsPart rest) :
    Reads (readHead (name.toList ++ rest)) { typeName := some name } rest := by
  obtain ⟨short, hfound⟩ := Text.identifier?_append hn
    (hr.stops (continuesIdentifier_eq_false (by decide)) (continuesIdentifier_eq_false (by decide)))
  have hcolon : eat? ':' rest = none := Text.eat?_of_stops (hr.head?_ne (by decide) (by decide))
  rw [readHead, if_neg (any_isQuote_of_isWord hn _)]
  simp only [hfound, hcolon, if_neg (hr.head?_ne (by decide) (by decide) : rest.head? ≠ some '=')]
  exact .ok ..

/-- A type is read back with the language before it. -/
theorem readHead_language {language : String} (hn : isIdentifier name = true) (hr : EndsPart rest) :
    Reads (readHead (languageChars language ++ ':' :: (name.toList ++ rest)))
      { language := some language, typeName := some name } rest := by
  have htype := fun fault =>
    Text.readIdentifier_append fault hn (hr.stops (continuesIdentifier_eq_false (by decide))
      (continuesIdentifier_eq_false (by decide)))
  unfold languageChars
  by_cases hl : isIdentifier language = true
  · rw [if_pos hl]
    have hstops : Stops Name.continuesIdentifier (':' :: (name.toList ++ rest)) :=
      stops_cons (continuesIdentifier_eq_false (by decide)) _
    obtain ⟨short, hfound⟩ := Text.identifier?_append hl hstops
    rw [readHead, if_neg (any_isQuote_of_isWord hl _)]
    simp only [hfound, eat?_cons]
    exact (htype _).bind fun _ => .ok ..
  · rw [if_neg hl]
    have hliteral := Text.readLiteral_literalText language (':' :: (name.toList ++ rest))
    rw [readHead, if_pos (Text.any_isQuote_literalText ..)]
    refine hliteral.bind fun _ => ?_
    simp only [eat?_cons]
    exact (htype _).bind fun _ => .ok ..

/-- What is read before the attributes of an opening tag. -/
def headOf (start : OpenTag) : Head :=
  { language := start.language, typeName := start.typeName }

/-- What stands before the attributes is read back. -/
theorem readHead_nameChars (hv : start.IsValid) (hr : EndsPart rest) :
    Reads (readHead (start.nameChars ++ (start.attributeChars ++ rest)))
      (headOf start) (start.attributeChars ++ rest) := by
  have hfragment := readHead_fragment hv.attributes hr
  have hends : start.typeName.isSome = true → EndsPart (start.attributeChars ++ rest) :=
    hr.attributeChars_of_isSome
  generalize start.attributeChars ++ rest = following at hfragment hends ⊢
  obtain ⟨flags, language, typeName, attributes⟩ := start
  cases typeName with
  | none =>
    obtain rfl : language = none := hv.fragment rfl
    exact hfragment
  | some name =>
    cases language with
    | none => exact readHead_type (hv.typeName name rfl) (hends rfl)
    | some language =>
      rw [OpenTag.nameChars, List.append_assoc]
      exact readHead_language (hv.typeName name rfl) (hends rfl)

/-- The attributes are read back. -/
theorem read_attributeChars (hv : start.IsValid) (hr : EndsPart rest)
    (he : Stops startsWord (skipBlanks rest)) :
    Reads (Attributes.read (start.attributeChars ++ rest)) start.attributes (skipBlanks rest) := by
  have hbare : Stops Value.isBare rest := hr.stops (by decide) (by decide)
  rcases Bool.eq_false_or_eq_true (start.typeName.isSome || start.flags != {}) with hfront | hfront
  · rw [OpenTag.attributeChars, if_pos hfront]
    exact Attributes.read_spaced hv.attributes hbare he
  · rw [OpenTag.attributeChars, if_neg (Bool.eq_false_iff.mp hfront)]
    exact Attributes.read_chars hbare he (List.forall_mem_nil _) hv.attributes

/-- The attributes are read back where no literal follows. -/
theorem readContent_none (hv : start.IsValid) (hr : EndsPart rest)
    (he : Stops startsWord (skipBlanks rest)) (hq : Stops isQuote (skipBlanks rest)) :
    Reads (readContent (headOf start) (start.attributeChars ++ rest)) (start.attributes, none)
      (skipBlanks rest) := by
  have hliteral : ¬ (headOf start).literal.isSome = true := nofun
  rw [readContent, if_neg hliteral]
  refine (read_attributeChars hv hr he).bind fun _ => ?_
  simp only [if_neg (any_isQuote_of_stops hq)]
  exact .ok ..

/-- The attributes are read back with the literal that follows. -/
theorem readContent_literal (hv : start.IsValid) (text : String) (rest : List Char) :
    Reads (readContent (headOf start)
        (start.attributeChars ++ ' ' :: (Text.literalText text.toList ++ rest)))
      (start.attributes, some text) rest := by
  have hliteral : ¬ (headOf start).literal.isSome = true := nofun
  have hread := Text.readLiteral_literalText text rest
  have hskip : skipBlanks (' ' :: (Text.literalText text.toList ++ rest)) =
      Text.literalText text.toList ++ rest :=
    Text.skipBlanks_append Text.isBlank_space (stops_literalText (by decide) (by decide) _ _)
  have hstops : Stops startsWord
      (skipBlanks (' ' :: (Text.literalText text.toList ++ rest))) := by
    rw [hskip]
    exact stops_literalText (startsWord_eq_false (by decide))
      (startsWord_eq_false (by decide)) _ _
  have hattributes := read_attributeChars hv ⟨' ', _, rfl, .inl rfl⟩ hstops
  rw [hskip] at hattributes
  rw [readContent, if_neg hliteral]
  refine hattributes.bind fun _ => ?_
  simp only [if_pos (Text.any_isQuote_literalText text.toList rest)]
  exact hread.bind fun _ => .ok ..

/-- An identifier passes the check of types. -/
theorem checkTypeName_of_isIdentifier (h : isIdentifier name = true) :
    checkTypeName name = .ok () := by
  have hplain : ¬ name.toList.any (fun c => c == ':' || c == '/') = true := by
    intro hany
    obtain ⟨c, hmem, hc⟩ := List.any_eq_true.mp hany
    rw [Bool.or_eq_true, beq_iff_eq, beq_iff_eq] at hc
    rcases hc with rfl | rfl
    all_goals
      exact Text.not_mem_of_isWord h (startsWord_eq_false (by decide))
        (continuesIdentifier_eq_false (by decide)) hmem
  rw [checkTypeName, if_neg hplain, if_pos h]

/-- Attributes with valid keys pass their check. -/
theorem checkAttributes_of_isKeyed (h : attributes.IsKeyed) :
    checkAttributes attributes = .ok () := by
  have hnone : attributes.find? (fun entry => !isIdentifier entry.1) = none := by
    refine List.find?_eq_none.mpr fun entry hmem => ?_
    simp [(Value.haveKeys_iff.mp h.2 entry hmem).1]
  rw [checkAttributes, hnone]

/-- What is read of a valid opening tag passes its check. -/
theorem checkOpening_of_isValid (hv : start.IsValid) :
    checkOpening start.flags (headOf start) start.attributes = .ok start.plain := by
  obtain ⟨flags, language, typeName, attributes⟩ := start
  have hflags : checkFlags flags = .ok () := if_neg (Bool.eq_false_iff.mp hv.flags)
  have hattributes : checkAttributes attributes = .ok () := checkAttributes_of_isKeyed hv.attributes
  cases typeName with
  | none =>
    obtain rfl : language = none := hv.fragment rfl
    simp only [checkOpening, headOf, OpenTag.checkedFragment, hflags, hattributes]
    rfl
  | some name =>
    have htype : checkTypeName name = .ok () := checkTypeName_of_isIdentifier (hv.typeName name rfl)
    have hlanguage : checkLanguage language = .ok () := if_neg hv.language
    simp only [checkOpening, headOf, OpenTag.checked, hflags, htype, hattributes, hlanguage]
    rfl

/-- After the marks of a node comes a word, a quote, a space or the end of the tag. -/
theorem stops_nameChars (hv : start.IsValid) (hr : EndsPart rest)
    (hw : ∀ c, startsWord c = true → test c = false) (hsingle : test '\'' = false)
    (hdouble : test '"' = false) (hs : test ' ' = false) (he : test '>' = false) :
    Stops test (start.nameChars ++ (start.attributeChars ++ rest)) := by
  have hattributes : Stops test (start.attributeChars ++ rest) := by
    rcases hr.attributeChars start with hends | ⟨key, value, later, after, hcons, htext⟩
    · exact hends.stops hs he
    · have hkeys := hv.attributes.2
      rw [hcons] at hkeys
      rw [htext, List.append_assoc]
      exact stops_of_isWord hw hkeys.1 _
  generalize start.attributeChars ++ rest = following at hattributes ⊢
  obtain ⟨flags, language, typeName, attributes⟩ := start
  cases typeName with
  | none => exact hattributes
  | some name =>
    cases language with
    | none => exact stops_of_isWord hw (hv.typeName name rfl) _
    | some language =>
      rw [OpenTag.nameChars, List.append_assoc, languageChars]
      split
      · rename_i hidentifier
        exact stops_of_isWord hw hidentifier _
      · exact stops_literalText hsingle hdouble _ _

/-- No word starts with a mark of a node. -/
theorem isNodeMark_of_startsWord (h : startsWord c = true) : isNodeMark c = false := by
  refine Bool.eq_false_iff.mpr fun hmark => ?_
  simp only [isNodeMark, Bool.or_eq_true, beq_iff_eq] at hmark
  rcases hmark with ((((rfl | rfl) | rfl) | rfl) | rfl) | rfl <;>
    exact absurd (Name.isSeparator_of_startsWord h) (by decide)

/-- An opening tag is read back up to where its attributes and its content end. -/
theorem readOpening_bodyChars {content : Option String} (hv : start.IsValid)
    (hr : EndsPart following)
    (hc : Reads (readContent (headOf start) (start.attributeChars ++ following))
      (start.attributes, content) body)
    (he : Reads (readTagEnd content.isSome (skipBlanks body)) isClosed rest) :
    Reads (readOpening (start.bodyChars ++ following))
      ((if isClosed then .opening start :: content.toList.map .literal ++ [.closing]
        else [.opening start]), isClosed) rest := by
  have htext : start.bodyChars ++ following =
      start.flags.chars ++ (start.nameChars ++ (start.attributeChars ++ following)) := by
    rw [OpenTag.bodyChars_eq, List.append_assoc, List.append_assoc]
  have hmarks : Stops isNodeMark (start.nameChars ++ (start.attributeChars ++ following)) :=
    stops_nameChars hv hr (fun _ => isNodeMark_of_startsWord) (by decide) (by decide) (by decide)
      (by decide)
  obtain ⟨short, hspan⟩ := span_append (isNodeMark_of_mem_chars start.flags) hmarks
  rw [htext, readOpening, hspan]
  refine (readHead_nameChars hv hr).bind fun _ => hc.bind fun _ => he.bind fun _ => ?_
  simp only [nodeFlags_chars, checkOpening_of_isValid hv]
  exact .ok ..

/-! ### Tags and the counts of shifts -/

/-- The counts after a tag. -/
def ShiftCounts.next (counts : ShiftCounts) : Tag → ShiftCounts
  | .opening _ => 0 :: counts
  | .shift _ =>
    match counts with
    | [] => []
    | count :: outer => (count + 1) :: outer
  | tag => counts.after tag

/-- If the tag is a shift, it has the number that comes next. -/
def IsNumbered (counts : ShiftCounts) : Tag → Prop
  | shift index => ∃ count outer, counts = count :: outer ∧ index = count + 1
  | _ => True

variable {counts : ShiftCounts} {tag : Tag}

/-- What follows an angle bracket is read as an opening tag, if it is no other tag. -/
theorem readTag_of_opening {tags : List Tag} (hs : Stops (fun c => c == '/' || c == '!') body)
    (h : Reads (readOpening body) (tags, isClosed) rest) :
    Reads (readTag counts ('<' :: body)) (tags, if isClosed then counts else 0 :: counts) rest := by
  rw [readTag]
  · exact h.bind fun _ => .ok ..
  all_goals
    rintro later rfl
    exact absurd (hs _ rfl) (by decide)

/-- A word is read as a tag where no other tag starts. -/
theorem readTag_of_word (hangle : c ≠ '<')
    (hcaret : c ≠ '^') (hbracket : c ≠ '[') (hq : isQuote c = false)
    (h : Reads (readWord (c :: input)) tag rest) :
    Reads (readTag counts (c :: input)) ([tag], counts.after tag) rest := by
  have hany : ¬ (c :: input).head?.any isQuote = true := Bool.eq_false_iff.mp hq
  rw [readTag]
  · rw [if_neg hany]
    exact h.bind fun _ => .ok ..
  all_goals
    rintro later ⟨⟩
    first
    | exact hangle rfl
    | exact hcaret rfl
    | exact hbracket rfl

/-- An opening tag starts with neither a slash nor an exclamation mark. -/
theorem stops_bodyChars (hv : start.IsValid) (hr : EndsPart following) :
    Stops (fun c => c == '/' || c == '!') (start.bodyChars ++ following) := by
  rw [OpenTag.bodyChars_eq, List.append_assoc, List.append_assoc]
  cases hchars : start.flags.chars with
  | nil =>
    refine stops_nameChars hv hr ?_ (by decide) (by decide) (by decide) (by decide)
    intro c hword
    refine Bool.eq_false_iff.mpr fun hc => ?_
    rw [Bool.or_eq_true, beq_iff_eq, beq_iff_eq] at hc
    rcases hc with rfl | rfl <;>
      exact absurd (Name.isSeparator_of_startsWord hword) (by decide)
  | cons first later =>
    have hmark : isNodeMark first = true :=
      isNodeMark_of_mem_chars start.flags first (hchars ▸ List.mem_cons_self ..)
    refine stops_cons (Bool.eq_false_iff.mpr fun hc => ?_) _
    rw [Bool.or_eq_true, beq_iff_eq, beq_iff_eq] at hc
    rcases hc with rfl | rfl <;> exact absurd hmark (by decide)

/-- An opening tag without content is read back, whichever mark it ends with. -/
theorem readTag_unfilled {later : List Char} (hv : start.IsValid) (hr : EndsPart following)
    (hskip : skipBlanks following = c :: later)
    (hc : (Text.isSeparator c && !isQuote c && !isBlank c) = true)
    (he : Reads (readTagEnd false (c :: later)) isClosed rest) :
    Reads (readTag counts ('<' :: (start.bodyChars ++ following)))
      ((if isClosed then [.opening start, .closing] else [.opening start]),
        if isClosed then counts else 0 :: counts) rest := by
  rw [Bool.and_eq_true, Bool.and_eq_true, Bool.not_eq_true', Bool.not_eq_true'] at hc
  obtain ⟨⟨hseparator, hquote⟩, hblank⟩ := hc
  have hcontent := readContent_none hv hr
    (hskip ▸ stops_cons (startsWord_eq_false hseparator) later)
    (hskip ▸ stops_cons hquote later)
  rw [hskip] at hcontent
  rw [← Text.skipBlanks_of_stops (stops_cons hblank later)] at he
  exact readTag_of_opening (stops_bodyChars hv hr) (readOpening_bodyChars hv hr hcontent he)

/-- An opening tag is read back. -/
theorem readTag_opening (hv : start.IsValid) :
    Reads (readTag counts ('<' :: (start.bodyChars ++ '>' :: rest)))
      ([.opening start], 0 :: counts) rest :=
  readTag_unfilled hv ⟨'>', rest, rfl, .inr rfl⟩
    (Text.skipBlanks_of_stops (stops_cons (by decide) rest)) (by decide) (.ok ..)

/-- A token without content that is written in one piece is read back as its tags. -/
theorem readTag_empty (hv : start.IsValid) :
    Reads (readTag counts ('<' :: (start.bodyChars ++ ' ' :: '/' :: '>' :: rest)))
      ([.opening start, .closing], counts) rest :=
  readTag_unfilled hv ⟨' ', _, rfl, .inl rfl⟩ (skipBlanks_closed rest) (by decide) (.ok ..)

/-- A token with content that is written in one piece is read back as its tags. -/
theorem readTag_filled (hv : start.IsValid) (text : String) :
    Reads (readTag counts ('<' :: (start.bodyChars ++
        ' ' :: (Text.literalText text.toList ++ ' ' :: '/' :: '>' :: rest))))
      ([.opening start, .literal text, .closing], counts) rest := by
  have hends : EndsPart (' ' :: (Text.literalText text.toList ++ ' ' :: '/' :: '>' :: rest)) :=
    ⟨' ', _, rfl, .inl rfl⟩
  have hend : Reads (readTagEnd true (skipBlanks (' ' :: '/' :: '>' :: rest))) true rest := by
    rw [skipBlanks_closed]
    exact .ok ..
  exact readTag_of_opening (stops_bodyChars hv hends)
    (readOpening_bodyChars hv hends (readContent_literal hv text _) hend)

/-- A literal is read back. -/
theorem readTag_literal (text : String) :
    Reads (readTag counts (Text.literalText text.toList ++ rest))
      ([.literal text], counts) rest := by
  have hread := Text.readLiteral_literalText text rest
  have hany := Text.any_isQuote_literalText text.toList rest
  obtain ⟨quote, later, hquote, hliteral⟩ := Text.exists_cons_literalText text.toList
  rw [hliteral] at hread hany ⊢
  rcases eq_of_isQuote hquote with rfl | rfl <;>
  · rw [readTag]
    · rw [if_pos hany]
      exact hread.bind fun _ => .ok ..
    all_goals nofun

/-- The name of a reference starts with a word, or is reserved. -/
theorem exists_cons_of_isReferenceName (h : isReferenceName name = true) :
    ∃ c later, name.toList = c :: later ∧ (startsWord c = true ∨ c = '#' ∨ c = '@') := by
  rcases Name.isReferenceName_iff.mp h with rfl | rfl | hword
  · exact ⟨'#', [], rfl, .inr (.inl rfl)⟩
  · exact ⟨'@', [], rfl, .inr (.inr rfl)⟩
  · obtain ⟨first, later, hcons, hfirst⟩ := Text.exists_cons_of_isWord hword
    exact ⟨first, later, hcons, .inl hfirst⟩

/-- A character that starts the name of a reference starts no other tag. -/
theorem ne_of_startsReference {other : Char} (h : startsWord c = true ∨ c = '#' ∨ c = '@')
    (ho : (Text.isSeparator other && other != '#' && other != '@') = true) : c ≠ other := by
  rintro rfl
  rw [Bool.and_eq_true, Bool.and_eq_true, bne_iff_ne, bne_iff_ne] at ho
  rcases h with hword | hreserved | hreserved
  · exact Bool.eq_false_iff.mp (Name.isSeparator_of_startsWord hword) ho.1.1
  · exact ho.1.2 hreserved
  · exact ho.2 hreserved

/-- What is written for a reference is read as a tag. -/
theorem readTag_of_isWritten (h : edge.IsWritten body) (rest : List Char) :
    Reads (readTag counts (body ++ ':' :: rest)) ([.reference edge], counts.restart) rest := by
  have hread := readWord_of_isWritten h rest
  obtain ⟨hn, hb, hm⟩ := h
  obtain ⟨c, later, hcons, hfirst⟩ := exists_cons_of_isReferenceName hn
  have hquote : isQuote c = false := by
    refine Bool.eq_false_iff.mpr fun hq => ?_
    rcases eq_of_isQuote hq with heq | heq
    · exact ne_of_startsReference hfirst (by decide) heq
    · exact ne_of_startsReference hfirst (by decide) heq
  rw [hcons] at hread ⊢
  exact readTag_of_word (ne_of_startsReference hfirst (by decide))
    (ne_of_startsReference hfirst (by decide)) (ne_of_startsReference hfirst (by decide)) hquote
    hread

/-- A reference is read back. -/
theorem readTag_reference (hv : edge.IsValid) :
    Reads (readTag counts (edge.chars ++ rest)) ([.reference edge], counts.restart) rest := by
  obtain ⟨body, hbody, hwritten⟩ := isWritten_chars hv
  rw [hbody, List.append_assoc, List.singleton_append]
  exact readTag_of_isWritten hwritten rest

/-- The header of a document is read back. -/
theorem readTag_doctype {header : Doctype} (hv : header.IsValid) :
    Reads (readTag counts (header.chars ++ rest)) ([.doctype header], counts) rest := by
  have htext : header.chars ++ rest = '<' :: '!' :: (Nat.toDigits 10 header.version ++
      ':' :: (header.name.toList ++ (Attributes.spaced header.attributes ++ '>' :: rest))) := by
    simp [Doctype.chars_eq]
  rw [htext]
  exact (readDoctype_chars hv).bind fun _ => .ok ..

/-- What follows `null` makes it neither a longer word nor a reference. -/
def EndsNull (text : List Char) : Prop :=
  Stops (fun c => continuesReference c || continuesNull c) text

/-- A separator ends `null`, unless it is a dot or tells a reference from a word. -/
theorem endsNull_cons (h : (Text.isSeparator c && c != '.' && !continuesNull c) = true)
    (rest : List Char) : EndsNull (c :: rest) := by
  rw [Bool.and_eq_true, Bool.not_eq_true'] at h
  refine stops_cons ?_ rest
  rw [Name.continuesReference_eq_false h.1, h.2, Bool.false_or]

/-- A tag is read back. -/
theorem readTag_chars (hv : tag.IsValid) (hn : tag.IsNumbered counts)
    (hr : tag = .null → EndsNull rest) :
    Reads (readTag counts (tag.chars ++ rest)) ([tag], counts.next tag) rest := by
  cases tag with
  | doctype header => exact readTag_doctype hv
  | opening start =>
    have htext : (opening start).chars ++ rest = '<' :: (start.bodyChars ++ '>' :: rest) := by
      simp [chars]
    rw [htext]
    exact readTag_opening hv
  | closing => exact .ok ..
  | reference edge => exact readTag_reference hv
  | shift index =>
    obtain ⟨count, outer, rfl, rfl⟩ := hn
    exact .ok ..
  | gap => exact .ok ..
  | null =>
    exact readTag_of_word (by decide) (by decide) (by decide) (by decide)
      (readWord_null hv (hr rfl))
  | arrayStart => exact .ok ..
  | literal text => exact readTag_literal text
  | embedded | effect => exact hv.elim

/-- No tag starts with a blank. -/
theorem stops_isBlank_chars (hv : tag.IsValid) (rest : List Char) :
    Stops isBlank (tag.chars ++ rest) := by
  cases tag with
  | doctype header =>
    rw [chars, Doctype.chars_eq]
    exact stops_cons (by decide) _
  | reference edge =>
    obtain ⟨c, later, hcons, hfirst⟩ := exists_cons_of_isReferenceName hv.name
    rw [chars, Reference.chars, hcons]
    refine stops_cons ?_ _
    rcases hfirst with hword | rfl | rfl
    · exact Text.isBlank_of_startsWord hword
    · decide
    · decide
  | literal text =>
    rw [chars]
    exact stops_literalText (by decide) (by decide) _ _
  | embedded | effect => exact hv.elim
  | _ => exact stops_cons (by decide) _

end Tag

end TagTree
