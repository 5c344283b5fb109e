import TagTree.Proofs.Text.Document

/-!
# What is read is valid

Every tag that the reader gives can be written, and its shifts are numbered from the last reference
of the innermost open node (`Tag.parse_eq_ok`). `Tag.parse_emits` counts them in the tags alone.
-/

namespace TagTree

open Text (Reads Stops skipBlanks)

variable {input : List Char} {attributes : Attributes} {index : Option Int} {name text : String}
  {start : OpenTag} {edge : Reference} {head : Head}

/-! ### Words -/

namespace Text

/-- A number that is read below a bound is below it. -/
theorem lt_of_decimalBelow? {bound value : Nat} {digits : List Char}
    (h : decimalBelow? bound digits = some value) : value < bound :=
  (decimalBelow?_eq_some_iff.mp h).2

variable [Alphabet]

/-- A word that is read is one, and stands at the front of the text. -/
theorem isWord_of_word? {continues : Char → Bool}
    {parsed : Parsed Char (List Char) input.length} (h : word? continues input = some parsed) :
    Name.isWord continues parsed.value = true ∧ input = parsed.value ++ parsed.rest := by
  cases input with
  | nil => cases h
  | cons first later =>
    rw [word?, run?] at h
    split at h
    · rename_i hfirst
      cases h
      refine ⟨?_, congrArg (first :: ·) List.takeWhile_append_dropWhile.symm⟩
      rw [Name.isWord, hfirst]
      exact List.all_takeWhile ..
    · cases h

/-- An identifier that is found is one. -/
theorem isIdentifier_of_identifier? {parsed : Parsed Char String input.length}
    (h : identifier? input = some parsed) : Name.isIdentifier parsed.value = true := by
  obtain ⟨word, hword, rfl⟩ := Option.map_eq_some_iff.mp h
  have hvalue := (isWord_of_word? hword).1
  rwa [Name.isIdentifier, Parsed.map, String.toList_ofList]

/-- An identifier that is read is one. -/
theorem isIdentifier_of_readIdentifier {fault : SyntaxFault}
    {parsed : Parsed Char String input.length} (h : readIdentifier fault input = .ok parsed) :
    Name.isIdentifier parsed.value = true := by
  rw [readIdentifier] at h
  split at h
  · rename_i found hfound
    cases h
    exact isIdentifier_of_identifier? hfound
  · cases h

end Text

/-! ### Values -/

namespace Value

variable [Alphabet]

/-- A bare value holds no object. -/
theorem isKeyed_of_ofBare? {token : List Char} {value : Value} (h : ofBare? token = some value) :
    value.IsKeyed := by
  unfold ofBare? at h
  repeat' split at h
  · cases h
    trivial
  · cases h
    trivial
  · cases h
    trivial
  · obtain ⟨word, -, rfl⟩ := Option.map_eq_some_iff.mp h
    trivial

/-- A bare value that is read holds no object. -/
theorem isKeyed_of_readBare {parsed : Text.Parsed Char Value input.length}
    (h : readBare input = .ok parsed) : parsed.value.IsKeyed := by
  unfold readBare at h
  split at h
  · cases h
  · split at h
    · rename_i value hvalue
      cases h
      exact isKeyed_of_ofBare? hvalue
    · cases h

/-- Of two entries with one key, only one is kept. -/
theorem isKeyed_ofPairs {pairs : List (String × Value)} (h : HaveKeys pairs) :
    Attributes.IsKeyed (Entries.ofPairs pairs) :=
  ⟨(Register.ofPairs pairs).nodup_keys, haveKeys_iff.mpr fun entry hmem =>
    haveKeys_iff.mp h entry (Entries.mem_of_mem_ofPairs hmem)⟩

mutual

/-- The objects of a value that is read have distinct identifiers as keys. -/
theorem isKeyed_of_readTrimmed (input : List Char)
    {parsed : Text.Parsed Char Value input.length} (h : readTrimmed input = .ok parsed) :
    parsed.value.IsKeyed := by
  rw [readTrimmed.eq_def] at h
  split at h
  · rename_i rest
    obtain ⟨items, hitems, h⟩ := bind_eq_ok.mp h
    cases h
    have := Text.length_skipBlanks_le rest
    exact areKeyed_of_readItems true (skipBlanks rest) hitems
  · rename_i rest
    obtain ⟨pairs, hpairs, h⟩ := bind_eq_ok.mp h
    cases h
    have := Text.length_skipBlanks_le rest
    exact isKeyed_ofPairs (haveKeys_of_readEntries true (skipBlanks rest) hpairs)
  · split at h
    · obtain ⟨text, -, h⟩ := bind_eq_ok.mp h
      cases h
      trivial
    · exact isKeyed_of_readBare h
termination_by 2 * input.length
decreasing_by all_goals subst_vars; simp only [List.length_cons]; omega

/-- The items that are read hold objects with such keys only. -/
theorem areKeyed_of_readItems (first : Bool) (input : List Char)
    {parsed : Text.Parsed Char (List Value) input.length} (h : readItems first input = .ok parsed) :
    AreKeyed parsed.value := by
  rw [readItems.eq_def] at h
  split at h
  · cases h
    trivial
  · obtain ⟨⟨_, body, _⟩, -, h⟩ := bind_eq_ok.mp h
    obtain ⟨⟨item, after, _⟩, hitem, h⟩ := bind_eq_ok.mp h
    obtain ⟨⟨items, rest, _⟩, hitems, h⟩ := bind_eq_ok.mp h
    cases h
    have := Text.length_skipBlanks_le body
    have := Text.length_skipBlanks_le after
    exact ⟨isKeyed_of_readTrimmed (skipBlanks body) hitem,
      areKeyed_of_readItems false (skipBlanks after) hitems⟩
termination_by 2 * input.length + 1
decreasing_by all_goals omega

/-- The entries that are read have such keys. -/
theorem haveKeys_of_readEntries (first : Bool) (input : List Char)
    {parsed : Text.Parsed Char (List (String × Value)) input.length}
    (h : readEntries first input = .ok parsed) : HaveKeys parsed.value := by
  rw [readEntries.eq_def] at h
  split at h
  · cases h
    trivial
  · obtain ⟨⟨_, body, _⟩, -, h⟩ := bind_eq_ok.mp h
    obtain ⟨⟨key, named, _⟩, hkey, h⟩ := bind_eq_ok.mp h
    obtain ⟨⟨_, assigned, _⟩, -, h⟩ := bind_eq_ok.mp h
    obtain ⟨⟨value, after, _⟩, hvalue, h⟩ := bind_eq_ok.mp h
    obtain ⟨⟨pairs, rest, _⟩, hpairs, h⟩ := bind_eq_ok.mp h
    cases h
    have := Text.length_skipBlanks_le body
    have := Text.length_skipBlanks_le named
    have := Text.length_skipBlanks_le assigned
    have := Text.length_skipBlanks_le after
    exact ⟨Text.isIdentifier_of_readIdentifier hkey,
      isKeyed_of_readTrimmed (skipBlanks assigned) hvalue,
      haveKeys_of_readEntries false (skipBlanks after) hpairs⟩
termination_by 2 * input.length + 1
decreasing_by all_goals omega

end

/-- A value that is read after blanks has such keys. -/
theorem isKeyed_of_read {parsed : Text.Parsed Char Value input.length}
    (h : read input = .ok parsed) : parsed.value.IsKeyed := by
  obtain ⟨value, hvalue, h⟩ := bind_eq_ok.mp h
  cases h
  exact isKeyed_of_readTrimmed (skipBlanks input) hvalue

end Value

namespace Attributes

variable [Alphabet]

/-- A value that is read after a key has such keys. -/
theorem isKeyed_of_readAssigned {parsed : Text.Parsed Char Value (input.length + 1)}
    (h : readAssigned input = .ok parsed) : parsed.value.IsKeyed := by
  unfold readAssigned at h
  split at h
  · obtain ⟨value, hvalue, h⟩ := bind_eq_ok.mp h
    cases h
    exact Value.isKeyed_of_read hvalue
  · cases h
    trivial

/-- The attributes that are read have identifiers as keys. -/
theorem haveKeys_of_readPairs (input : List Char)
    {parsed : Text.Parsed Char (List (String × Value)) (input.length + 1)}
    (h : readPairs input = .ok parsed) : Value.HaveKeys parsed.value := by
  have := Text.length_skipBlanks_le input
  rw [readPairs.eq_def] at h
  split at h
  · cases h
    trivial
  · rename_i key following _ hkey
    obtain ⟨⟨value, after, _⟩, hvalue, h⟩ := bind_eq_ok.mp h
    obtain ⟨⟨pairs, rest, _⟩, hpairs, h⟩ := bind_eq_ok.mp h
    cases h
    exact ⟨Text.isIdentifier_of_identifier? hkey, isKeyed_of_readAssigned hvalue,
      haveKeys_of_readPairs after hpairs⟩
termination_by input.length
decreasing_by omega

/-- The attributes that are read have distinct identifiers as keys. -/
theorem isKeyed_of_read {parsed : Text.Parsed Char Attributes (input.length + 1)}
    (h : read input = .ok parsed) : parsed.value.IsKeyed := by
  obtain ⟨pairs, hpairs, h⟩ := bind_eq_ok.mp h
  cases h
  exact Value.isKeyed_ofPairs (haveKeys_of_readPairs _ hpairs)

end Attributes

/-! ### Checks -/

section Checked

variable {flags : NodeFlags} {language : Option String}

/-- Marks that pass their check are not of trivia and of an escape at once. -/
theorem checkFlags_eq_ok (h : checkFlags flags = .ok ()) :
    (flags.escape && flags.trivia) = false := by
  unfold checkFlags at h
  split at h
  · cases h
  · rename_i hflags
    exact Bool.eq_false_iff.mpr hflags

/-- A language that passes its check is not empty. -/
theorem checkLanguage_eq_ok (h : checkLanguage language = .ok ()) : language ≠ some "" := by
  unfold checkLanguage at h
  split at h
  · cases h
  · assumption

/-- An index that passes its check is not negative. -/
theorem checkIndex_eq_ok {checked : Option Nat} (h : checkIndex index = .ok checked) :
    index = checked.map Int.ofNat := by
  unfold checkIndex at h
  split at h
  · cases h
    rfl
  · split at h
    · cases h
    · rename_i index hnonneg
      cases h
      exact congrArg some (Int.toNat_of_nonneg (Int.not_lt.mp hnonneg)).symm

variable [Alphabet]

/-- A type that passes its check is an identifier. -/
theorem checkTypeName_eq_ok (h : checkTypeName name = .ok ()) : Name.isIdentifier name = true := by
  unfold checkTypeName at h
  repeat' split at h
  · cases h
  · assumption
  · cases h

/-- The start of a node with a type is valid with the marks that were checked. -/
theorem OpenTag.isValid_of_checked {typeName : String}
    (h : OpenTag.checked flags language typeName attributes = .ok start)
    (ha : Attributes.IsKeyed attributes) : OpenTag.IsValid { start with flags := flags } := by
  obtain ⟨_, hflags, h⟩ := bind_eq_ok.mp h
  obtain ⟨_, htype, h⟩ := bind_eq_ok.mp h
  obtain ⟨_, -, h⟩ := bind_eq_ok.mp h
  obtain ⟨_, hlanguage, h⟩ := bind_eq_ok.mp h
  cases h
  exact {
    flags := checkFlags_eq_ok hflags
    typeName := by
      rintro name ⟨⟩
      exact checkTypeName_eq_ok htype
    language := checkLanguage_eq_ok hlanguage
    fragment := nofun
    attributes := ha }

/-- The start of a fragment is valid with the marks that were checked. -/
theorem OpenTag.isValid_of_checkedFragment
    (h : OpenTag.checkedFragment flags attributes = .ok start)
    (ha : Attributes.IsKeyed attributes) :
    OpenTag.IsValid { start with flags := flags } := by
  obtain ⟨_, hflags, h⟩ := bind_eq_ok.mp h
  obtain ⟨_, -, h⟩ := bind_eq_ok.mp h
  cases h
  exact {
    flags := checkFlags_eq_ok hflags
    typeName := nofun
    language := nofun
    fragment := fun _ => rfl
    attributes := ha }

/-- A reference that passes its check has the given parts, with a valid name and index. -/
theorem Reference.checked_eq_ok {isArray : Bool} {flags : ReferenceFlags}
    (h : Reference.checked name isArray index flags = .ok edge) :
    Name.isReferenceName name = true ∧
    ∃ checked, index = checked.map Int.ofNat ∧ edge = ⟨name, isArray, checked, flags⟩ := by
  unfold Reference.checked at h
  split at h
  · rename_i hname
    obtain ⟨checked, hindex, h⟩ := bind_eq_ok.mp h
    cases h
    exact ⟨hname, checked, checkIndex_eq_ok hindex, rfl⟩
  · cases h

end Checked

/-- What is written for a reference makes it valid. -/
theorem Reference.IsWritten.isValid [Alphabet] {body : List Char} (h : edge.IsWritten body) :
    edge.IsValid := by
  obtain ⟨hn, hb, -⟩ := h
  refine ⟨hn, ?_⟩
  cases hb with
  | none => exact nofun
  | empty => exact nofun
  | index hindex =>
    rintro _ ⟨⟩
    exact ⟨rfl, Text.lt_of_decimalBelow? hindex⟩

namespace Tag

variable {tags : List Tag}

open Text (Parsed)

/-- A part that is read passed its check. -/
theorem checkPart_eq_ok {α : Type} {result : Except ValidationError α} {part : α}
    (h : checkPart result = .ok part) : result = .ok part := by
  cases result with
  | ok found =>
    cases h
    rfl
  | error => cases h

/-! ### References and headers -/

/-- What is read as brackets are brackets. -/
theorem readIndex_eq_ok {parsed : Parsed Char (Bool × Option Int) (input.length + 1)}
    (h : readIndex input = .ok parsed) :
    ∃ brackets index, Brackets brackets parsed.value.1 index ∧
      parsed.value.2 = index.map Int.ofNat ∧ input = brackets ++ parsed.rest := by
  unfold readIndex at h
  split at h
  · rename_i bracketed
    obtain ⟨⟨_, rest, _⟩, hclosing, h⟩ := bind_eq_ok.mp h
    have hsplit : bracketed.takeWhile Char.isDigit ++ ']' :: rest = bracketed := by
      rw [← Text.eq_cons_of_readChar hclosing]
      exact List.takeWhile_append_dropWhile
    dsimp only [Text.span] at h
    split at h
    · rename_i hempty
      cases h
      rw [List.isEmpty_iff.mp hempty] at hsplit
      exact ⟨_, _, .empty, rfl, congrArg ('[' :: ·) hsplit.symm⟩
    · split at h
      · rename_i index hindex
        cases h
        refine ⟨_, _, .index hindex, rfl, ?_⟩
        rw [List.cons_append, List.append_assoc, List.singleton_append]
        exact congrArg ('[' :: ·) hsplit.symm
      · cases h
  · cases h
    exact ⟨_, _, .none, rfl, rfl⟩

variable [Alphabet]

/-- A name that is read is that of a reference, and stands at the front of the text. -/
theorem readName_eq_ok {parsed : Parsed Char String input.length}
    (h : readName input = .ok parsed) :
    Name.isReferenceName parsed.value = true ∧ input = parsed.value.toList ++ parsed.rest := by
  unfold readName at h
  split at h
  · cases h
    exact ⟨rfl, by simp [Parsed.ofRest, Name.trivia]⟩
  · cases h
    exact ⟨rfl, by simp [Parsed.ofRest, Name.escape]⟩
  · split at h
    · rename_i found hfound
      cases h
      obtain ⟨hword, hsplit⟩ := Text.isWord_of_word? hfound
      rw [Parsed.map, String.toList_ofList, Name.isReferenceName, String.toList_ofList, hword,
        Bool.or_true]
      exact ⟨rfl, hsplit⟩
    · cases h

/-- What is read is `null`, which is a name too, or a reference and all that is written for it. -/
theorem readWord_eq_ok {parsed : Parsed Char Tag input.length} (h : readWord input = .ok parsed) :
    (parsed.value = null ∧ Name.isReferenceName "null" = true) ∨
    ∃ edge body, edge.IsWritten body ∧ parsed.value = reference edge ∧
      input = body ++ ':' :: parsed.rest := by
  obtain ⟨⟨name, named, _⟩, hread, h⟩ := bind_eq_ok.mp h
  obtain ⟨hname, hinput⟩ := readName_eq_ok hread
  dsimp only at h
  split at h
  · rename_i hnull
    cases h
    obtain rfl : name = "null" := hnull.1
    exact .inl ⟨rfl, hname⟩
  · obtain ⟨⟨⟨isArray, index⟩, indexed, _⟩, hindex, h⟩ := bind_eq_ok.mp h
    obtain ⟨brackets, found, hb, hfound, hnamed⟩ := readIndex_eq_ok hindex
    dsimp only [Text.span] at h
    split at h
    · cases h
    · rename_i after _ hcolon
      obtain ⟨edge, hedge, h⟩ := bind_eq_ok.mp h
      cases h
      obtain ⟨-, checked, hchecked, rfl⟩ := Reference.checked_eq_ok (checkPart_eq_ok hedge)
      obtain rfl : checked = found :=
        Option.map_injective (fun _ _ => Int.ofNat.inj) (hchecked.symm.trans hfound)
      have hmarks : indexed = indexed.takeWhile isReferenceMark ++ ':' :: after := by
        rw [← Text.eq_cons_of_eat? hcolon]
        exact List.takeWhile_append_dropWhile.symm
      have hlater := hnamed.trans (congrArg (brackets ++ ·) hmarks)
      refine .inr ⟨_, _, .mk hname hb (List.all_eq_true.mp (List.all_takeWhile ..)), rfl, ?_⟩
      simp only [List.append_assoc]
      exact hinput.trans (congrArg (name.toList ++ ·) hlater)

/-- A header that is read is valid. -/
theorem readDoctype_eq_ok {parsed : Parsed Char Tag input.length}
    (h : readDoctype input = .ok parsed) :
    ∃ header : Doctype, header.IsValid ∧ parsed.value = doctype header := by
  unfold readDoctype at h
  dsimp only at h
  split at h
  · cases h
  · rename_i version hversion
    obtain ⟨⟨_, colon, _⟩, -, h⟩ := bind_eq_ok.mp h
    obtain ⟨⟨name, named, _⟩, hname, h⟩ := bind_eq_ok.mp h
    obtain ⟨⟨attributes, body, _⟩, hattributes, h⟩ := bind_eq_ok.mp h
    obtain ⟨_, -, h⟩ := bind_eq_ok.mp h
    cases h
    refine ⟨_, ?_, rfl⟩
    exact {
      version := Text.lt_of_decimalBelow? hversion
      name := Text.isIdentifier_of_readIdentifier hname
      attributes := Attributes.isKeyed_of_read hattributes }

/-! ### Opening tags -/

/-- The attributes in front of the content have distinct identifiers as keys. -/
theorem isKeyed_of_readContent
    {parsed : Parsed Char (Attributes × Option String) (input.length + 1)}
    (h : readContent head input = .ok parsed) : Attributes.IsKeyed parsed.value.1 := by
  unfold readContent at h
  split at h
  · cases h
    exact ⟨List.nodup_nil, trivial⟩
  · obtain ⟨⟨attributes, body, _⟩, hattributes, h⟩ := bind_eq_ok.mp h
    have hkeyed : Attributes.IsKeyed attributes := Attributes.isKeyed_of_read hattributes
    dsimp only at h
    split at h
    · obtain ⟨_, -, h⟩ := bind_eq_ok.mp h
      cases h
      exact hkeyed
    · cases h
      exact hkeyed

/-- The start of a node that passes its check is valid with the marks that were checked. -/
theorem isValid_of_checkOpening {flags : NodeFlags}
    (h : checkOpening flags head attributes = .ok start) (ha : Attributes.IsKeyed attributes) :
    OpenTag.IsValid { start with flags := flags } := by
  unfold checkOpening at h
  split at h
  · exact OpenTag.isValid_of_checked h ha
  · exact OpenTag.isValid_of_checkedFragment h ha

/-- What is read is a valid start of a node, alone or with the rest of the node: its literal if it
has one, and its end. -/
theorem readOpening_eq_ok
    {parsed : Parsed Char (List Tag × Bool) input.length} (h : readOpening input = .ok parsed) :
    ∃ start : OpenTag, start.IsValid ∧
      (parsed.value = ([opening start], false) ∨
        ∃ content : Option String,
          parsed.value = (opening start :: content.toList.map literal ++ [closing], true)) := by
  obtain ⟨⟨head, named, _⟩, -, h⟩ := bind_eq_ok.mp h
  obtain ⟨⟨⟨attributes, content⟩, body, _⟩, hcontent, h⟩ := bind_eq_ok.mp h
  obtain ⟨⟨isClosed, rest, _⟩, -, h⟩ := bind_eq_ok.mp h
  obtain ⟨start, hstart, h⟩ := bind_eq_ok.mp h
  cases h
  refine ⟨_, isValid_of_checkOpening (checkPart_eq_ok hstart) (isKeyed_of_readContent hcontent), ?_⟩
  cases isClosed with
  | false => exact .inl rfl
  | true => exact .inr ⟨content, rfl⟩

/-! ### Documents -/

/-- The tags can be written, their shifts are numbered from the given counts, and they lead from
these counts to others. -/
structure Follow (counts : ShiftCounts) (tags : List Tag) (after : ShiftCounts) : Prop where
  isValid : ∀ tag ∈ tags, tag.IsValid
  numbered : Numbered counts tags
  counts : tags.foldl ShiftCounts.next counts = after

variable {counts : ShiftCounts}

/-- One valid tag with its number follows the counts. -/
theorem Follow.single {tag : Tag} (hv : tag.IsValid) (hn : tag.IsNumbered counts) :
    Follow counts [tag] (counts.next tag) :=
  ⟨by simpa using hv, ⟨hn, trivial⟩, rfl⟩

/-- Tags follow the counts that earlier tags lead to. -/
theorem Follow.append {first second : List Tag} {between after : ShiftCounts}
    (hfirst : Follow counts first between) (hsecond : Follow between second after) :
    Follow counts (first ++ second) after where
  isValid := List.forall_mem_append.mpr ⟨hfirst.isValid, hsecond.isValid⟩
  numbered := numbered_append.mpr ⟨hfirst.numbered, hfirst.counts ▸ hsecond.numbered⟩
  counts := by rw [List.foldl_append, hfirst.counts, hsecond.counts]

/-- A start of a node that is read, alone or with the rest of the node, follows the counts. -/
theorem follow_readOpening {parsed : Parsed Char (List Tag × Bool) input.length}
    (h : readOpening input = .ok parsed) :
    Follow counts parsed.value.1 (if parsed.value.2 then counts else 0 :: counts) := by
  obtain ⟨start, hstart, hvalue | ⟨content, hvalue⟩⟩ := readOpening_eq_ok h
  · rw [hvalue]
    exact .single hstart trivial
  · have hopened : Follow counts [opening start] (0 :: counts) := .single hstart trivial
    have hclosed : Follow (0 :: counts) [closing] counts := .single trivial trivial
    rw [hvalue]
    cases content with
    | none => exact hopened.append hclosed
    | some text =>
      have hliteral : Follow (0 :: counts) [literal text] (0 :: counts) := .single trivial trivial
      exact hopened.append (hliteral.append hclosed)

/-- What is read at the front of a text is valid and follows the counts. A reference alone is read
as a word. -/
theorem readTag_eq_ok {parsed : Parsed Char (List Tag × ShiftCounts) input.length}
    (h : readTag counts input = .ok parsed) :
    Follow counts parsed.value.1 parsed.value.2 ∧ parsed.value.1 ≠ [] ∧
    ∀ edge, parsed.value.1 = [reference edge] →
      ∃ short, readWord input = .ok ⟨reference edge, parsed.rest, short⟩ := by
  unfold readTag at h
  split at h
  · cases h
    exact ⟨.single trivial trivial, by simp⟩
  · cases h
    exact ⟨.single trivial trivial, by simp⟩
  · obtain ⟨header, hheader, h⟩ := bind_eq_ok.mp h
    cases h
    obtain ⟨header, hv, hvalue⟩ := readDoctype_eq_ok hheader
    dsimp only
    rw [hvalue]
    exact ⟨.single hv trivial, by simp⟩
  · obtain ⟨opened, hopened, h⟩ := bind_eq_ok.mp h
    cases h
    refine ⟨follow_readOpening hopened, ?_⟩
    obtain ⟨start, -, hvalue | ⟨content, hvalue⟩⟩ := readOpening_eq_ok hopened <;> simp [hvalue]
  · split at h
    · cases h
    · cases h
      exact ⟨.single trivial ⟨_, _, rfl, rfl⟩, by simp⟩
  · cases h
  · cases h
    exact ⟨.single trivial trivial, by simp⟩
  · cases h
  · split at h
    · obtain ⟨text, -, h⟩ := bind_eq_ok.mp h
      cases h
      exact ⟨.single trivial trivial, by simp⟩
    · obtain ⟨⟨tag, rest, short⟩, hword, h⟩ := bind_eq_ok.mp h
      cases h
      refine ⟨?_, List.cons_ne_nil _ _, fun edge hedge => ?_⟩
      · obtain ⟨rfl, hnull⟩ | ⟨edge, body, hwritten, rfl, -⟩ := readWord_eq_ok hword
        · exact .single hnull trivial
        · exact .single hwritten.isValid trivial
      · obtain ⟨rfl, -⟩ := List.cons.inj hedge
        exact ⟨short, hword⟩

/-- All tags of a text are valid and follow the counts. -/
theorem follow_readAll (counts : ShiftCounts) (input : List Char) {tags : List Tag}
    (h : readAll counts input = .ok tags) : ∃ after, Follow counts tags after := by
  have := Text.length_skipBlanks_le input
  rw [readAll] at h
  split at h
  · cases h
    exact ⟨counts, List.forall_mem_nil _, trivial, rfl⟩
  · obtain ⟨⟨⟨first, between⟩, rest, _⟩, hfirst, h⟩ := bind_eq_ok.mp h
    obtain ⟨later, hlater, h⟩ := bind_eq_ok.mp h
    cases h
    obtain ⟨after, hafter⟩ := follow_readAll between rest hlater
    exact ⟨after, (readTag_eq_ok hfirst).1.append hafter⟩
termination_by input.length
decreasing_by omega

/-- The tags of a text are all that is read from its characters. -/
theorem readAll_of_parse (h : parse text = .ok tags) : readAll [0] text.toList = .ok tags :=
  ok_of_mapError h

/-- All tags of a text are valid and numbered. -/
theorem parse_eq_ok (h : parse text = .ok tags) :
    (∀ tag ∈ tags, tag.IsValid) ∧ Numbered [0] tags := by
  obtain ⟨_, hfollow⟩ := follow_readAll [0] text.toList (readAll_of_parse h)
  exact ⟨hfollow.isValid, hfollow.numbered⟩

end Tag

/-! ### The numbers of shifts -/

namespace Tag

/-- Of the tags before a place, newest first, those that lie directly in the innermost open node; or
in the node around it if that is closed too, and so on for each level. -/
def directly : (level : Nat) → List Tag → List Tag
  | _, [] => []
  | level, closing :: earlier => directly (level + 1) earlier
  | 0, opening _ :: _ => []
  | level + 1, opening _ :: earlier => directly level earlier
  | 0, tag :: earlier => tag :: directly 0 earlier
  | level + 1, _ :: earlier => directly (level + 1) earlier

/-- The number of shifts since the last reference, where the newest tag comes first. -/
def shiftsSince : List Tag → Nat
  | [] | reference _ :: _ => 0
  | shift _ :: earlier => shiftsSince earlier + 1
  | _ :: earlier => shiftsSince earlier

/-- The counts are those of the tags before, newest first, at every level. -/
def Tells (counts : ShiftCounts) (earlier : List Tag) : Prop :=
  ∀ level count, counts[level]? = some count → count = shiftsSince (directly level earlier)

variable {counts : ShiftCounts} {earlier : List Tag}

/-- Counts that tell the shifts before a tag tell those before the next one. -/
theorem Tells.next (h : Tells counts earlier) (tag : Tag) :
    Tells (counts.next tag) (tag :: earlier) := by
  intro level count hcount
  cases tag with
  | closing =>
    rw [directly]
    refine h (level + 1) count ?_
    rwa [← List.getElem?_tail]
  | opening start =>
    cases level with
    | zero => exact (Option.some.inj hcount).symm
    | succ level => exact h level count hcount
  | reference edge =>
    obtain _ | ⟨top, outer⟩ := counts
    · cases hcount
    cases level with
    | zero => exact (Option.some.inj hcount).symm
    | succ level => exact h (level + 1) count hcount
  | shift index =>
    obtain _ | ⟨top, outer⟩ := counts
    · cases hcount
    cases level with
    | zero =>
      obtain rfl := Option.some.inj hcount
      exact congrArg (· + 1) (h 0 top rfl)
    | succ level => exact h (level + 1) count hcount
  | _ =>
    rw [h level count hcount]
    cases level <;> rfl

/-- The counts after tags tell the shifts among them. -/
theorem Tells.foldl_next (h : Tells counts earlier) (tags : List Tag) :
    Tells (tags.foldl ShiftCounts.next counts) (tags.reverse ++ earlier) := by
  induction tags generalizing counts earlier with
  | nil => exact h
  | cons tag tags ih =>
    rw [List.reverse_cons, List.append_assoc]
    exact ih (h.next tag)

/-- Every tag that is read is valid. A shift carries one more than the number of shifts since the
last reference, among the tags that lie directly in the same innermost open node. -/
theorem parse_emits [Alphabet] {text : String} {tags : List Tag} (h : parse text = .ok tags) :
    (∀ tag ∈ tags, tag.IsValid) ∧
    ∀ before index after, tags = before ++ shift index :: after →
      index = 1 + shiftsSince (directly 0 before.reverse) := by
  obtain ⟨hvalid, hnumbered⟩ := parse_eq_ok h
  refine ⟨hvalid, ?_⟩
  rintro before index after rfl
  have hstart : Tells [0] [] := by
    rintro (_ | level) count ⟨⟩
    rfl
  have htells := hstart.foldl_next before
  obtain ⟨count, outer, hcounts, rfl⟩ := (numbered_append.mp hnumbered).2.1
  rw [hcounts, List.append_nil] at htells
  rw [← htells 0 count rfl, Nat.add_comm]

/-- Shifts outside of nodes and within, past a node that closes itself and one that does not. The
last tag closes a node that was not opened. -/
def countedText : String :=
  "x: '1' ^^^ <A/> ^^^ <B>y: null ^^^ <C></> ^^^ null z: null ^^^</> ^^^ </>"

/-- The tags of that text, which hold six shifts. -/
theorem parse_emits_of_counted :
    ∃ tags, parse countedText = .ok tags ∧ tags.length = 20 ∧ (∀ tag ∈ tags, tag.IsValid) ∧
      ∀ before index after, tags = before ++ shift index :: after →
        index = 1 + shiftsSince (directly 0 before.reverse) := by
  obtain ⟨tags, hread, hlength⟩ : ∃ tags, parse countedText = .ok tags ∧ tags.length = 20 := by
    decide +kernel
  exact ⟨tags, hread, hlength, parse_emits hread⟩

end Tag

end TagTree
