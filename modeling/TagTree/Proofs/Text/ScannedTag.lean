import TagTree.Proofs.Text.ScannedValue
import TagTree.Proofs.Text.Validity

/-!
# Tags by position

All tags of a text are read by position as from what is left (`Scanner.follows_document`). The
reader goes back in two places only: over a word that is the key of an attribute, which it then
reads again, and over a reference that has no colon, which is then an error.
-/

namespace TagTree.Scanner

open Text (Parsed byteLength skipBlanks isBlank outcome)
open Tag (nodeFlags isReferenceMark isNodeMark readHead readContent readTagEnd readTag readAll)

variable {φ β : Type} {key : String} {c : Char} {text : String} {back : Bool}
  {rest left : List Char} {limit : Nat}

/-- The marks of a reference among the characters. -/
def referenceFlags (marks : List Char) : ReferenceFlags :=
  ⟨marks.contains '+', marks.contains '$'⟩

/-- A mark is among others and one more. -/
theorem contains_concat (marks : List Char) (c mark : Char) :
    (marks ++ [c]).contains mark = (marks.contains mark || c == mark) := by
  rw [List.contains_append, List.contains_cons, List.contains_nil, Bool.or_false, BEq.comm]

/-- One more mark of a reference is set. -/
theorem markReference?_getD (marks : List Char) (c : Char) :
    (markReference? (referenceFlags marks) c).getD (referenceFlags marks) =
      referenceFlags (marks ++ [c]) := by
  simp only [markReference?, referenceFlags, contains_concat]
  split_ifs <;> simp [*]

/-- One more mark of a node is set. -/
theorem markNode?_getD (marks : List Char) (c : Char) :
    (markNode? (nodeFlags marks) c).getD (nodeFlags marks) = nodeFlags (marks ++ [c]) := by
  simp only [markNode?, nodeFlags, contains_concat]
  split_ifs <;> simp [*]

/-- Marks that are set one after the other are all set. -/
theorem foldl_marks {set? : φ → Char → Option φ} {flags : List Char → φ}
    (h : ∀ marks c, (set? (flags marks) c).getD (flags marks) = flags (marks ++ [c]))
    (before marks : List Char) :
    marks.foldl (fun flags c => (set? flags c).getD flags) (flags before) =
      flags (before ++ marks) := by
  induction marks generalizing before with
  | nil => rw [List.append_nil, List.foldl_nil]
  | cons c marks ih => rw [List.foldl_cons, h, ih, List.append_assoc, List.singleton_append]

/-- The reader goes back over a word. -/
theorem stepBack_before {middle : List Char} (h : middle ++ left <:+ text.toList)
    (trail : List Move) :
    stepBack (byteLength middle) (.before text trail left) = (pure () : Scanner Unit) (.before text
      (trail ++ [.backToKey (placeOf text left) (placeOf text (middle ++ left))])
      (middle ++ left)) := by
  have hplace := placeOf_append h
  have hle : byteLength middle ≤ placeOf text left := by omega
  have hback : placeOf text left - byteLength middle = placeOf text (middle ++ left) := by omega
  show (if byteLength middle ≤ placeOf text left then
    move .backToKey (placeOf text left - byteLength middle) else ofOption none) _ = _
  rw [if_pos hle, hback]
  rfl

variable [Alphabet]

/-! ### References and `null` -/

/-- The name of a reference is read by position. -/
theorem follows_referenceName : Follows text back referenceName rest (Tag.readName rest) := by
  refine follows_eat (by decide) (fun after h => ?_) fun htrivia => ?_
  · subst h
    exact .refl
  refine follows_eat (by decide) (fun after h => ?_) fun hescape => ?_
  · subst h
    exact .refl
  rw [Tag.readName]
  · cases hword : Text.word? Name.continuesReference rest with
    | none => exact (leads_word_of_none hword).next.fails (fails_fault (by simp))
    | some parsed => exact (leads_word _ hword).next
  · exact fun after h => htrivia ⟨after, h.symm⟩
  · exact fun after h => hescape ⟨after, h.symm⟩

/-- Brackets are read by position. -/
theorem follows_arrayIndex : Follows text back arrayIndex rest (Tag.readIndex rest) := by
  refine Follows.of_suffix fun hrest => ?_
  refine follows_eat (by decide) (fun bracketed h => ?_) fun hopen => ?_
  · obtain rfl : rest = '[' :: bracketed := h
    have hbracketed : bracketed <:+ text.toList := (List.suffix_cons '[' bracketed).trans hrest
    refine leads_position.next.follows ?_
    refine (leads_skipWhile _ bracketed).next.follows ?_
    refine (leads_since hbracketed List.takeWhile_append_dropWhile).next.follows ?_
    refine (follows_expect ']').bind fun _ after _ _ hafter => ?_
    have hsuffix : after <:+ bracketed := hafter.trans (List.dropWhile_suffix _)
    by_cases hempty : (bracketed.takeWhile Char.isDigit).isEmpty = true
    · simp only [if_pos hempty]
      exact .refl
    · simp only [if_neg hempty]
      cases Text.decimalBelow? 0x8000000000000000 (bracketed.takeWhile Char.isDigit) with
      | none => exact fails_faultSince (by simp) hbracketed hsuffix
      | some index => exact .refl
  · rw [Tag.readIndex]
    · exact .refl
    · exact fun after h => hopen ⟨after, h.symm⟩

/-- All marks that come next are set. -/
theorem leads_marksOf {set? : φ → Char → Option φ} {flags : List Char → φ} {isMark : Char → Bool}
    (hs : ∀ flags c, (set? flags c).isSome = isMark c)
    (hf : ∀ marks c, (set? (flags marks) c).getD (flags marks) = flags (marks ++ [c])) :
    Leads text back (marks set? (flags [])) rest (pure (flags (rest.takeWhile isMark)))
      (rest.dropWhile isMark) := by
  have hmarks : Leads text back (marks set? (flags [])) rest _ _ := leads_marks hs (flags []) rest
  rwa [foldl_marks hf, List.nil_append] at hmarks

/-- The marks of a reference are read. -/
theorem leads_referenceMarks :
    Leads text back (marks markReference? {}) rest
      (pure (referenceFlags (rest.takeWhile isReferenceMark)))
      (rest.dropWhile isReferenceMark) := by
  refine leads_marksOf (fun flags c => ?_) markReference?_getD
  simp only [markReference?, isReferenceMark]
  split_ifs <;> simp [*]

/-- The marks of a node are read. -/
theorem leads_nodeMarks :
    Leads text back (marks markNode? {}) rest (pure (nodeFlags (rest.takeWhile isNodeMark)))
      (rest.dropWhile isNodeMark) := by
  refine leads_marksOf (fun flags c => ?_) markNode?_getD
  simp only [markNode?, isNodeMark]
  split_ifs <;> simp [*]

/-- A part that fails its check is an error. -/
theorem follows_checked {α : Type} {part : Except ValidationError α} {next : α → Scanner β}
    {second : α → Except ReadError (Parsed Char β limit)}
    (h : ∀ value, Follows text back (next value) rest (second value)) :
    Follows text back (checked part >>= next) rest (Tag.checkPart part >>= second) := by
  cases part with
  | ok value => exact h value
  | error error => exact Fails.bind (fails_throw .invalid) next

/-- A word is read by position as a tag. -/
theorem follows_wordTag : Follows text back wordTag rest (Tag.readWord rest) := by
  refine Follows.of_suffix fun hrest => ?_
  refine leads_position.next.follows ?_
  refine follows_referenceName.bind fun name named hnamed _ hsuffix => ?_
  refine leads_peek.next.follows ?_
  by_cases hnull : name = "null" ∧ ¬ named.head?.any Tag.continuesNull = true
  · simp only [if_pos hnull]
    exact .refl
  · simp only [if_neg hnull]
    refine follows_arrayIndex.bind fun index indexed _ _ hindexed => ?_
    refine leads_referenceMarks.next.follows ?_
    have hbehind : IsBehind (indexed.dropWhile isReferenceMark) rest :=
      .of_suffix ((List.dropWhile_suffix _).trans hindexed) ⟨hsuffix, hnamed⟩
    dsimp only [Text.span]
    cases hcolon : Text.eat? ':' (indexed.dropWhile isReferenceMark) with
    | none => exact (leads_eat?_of_none hcolon).next.fails (fails_malformed hbehind hrest)
    | some parsed =>
      refine (leads_eat? hcolon).next.follows ?_
      exact follows_checked fun _ => .refl

/-! ### Tags in angle brackets -/

/-- A header is read by position. -/
theorem follows_doctype : Follows text back doctype rest (Tag.readDoctype rest) := by
  refine Follows.of_suffix fun hrest => ?_
  refine leads_position.next.follows ((leads_skipWhile _ rest).next.follows ?_)
  refine (leads_since hrest List.takeWhile_append_dropWhile).next.follows ?_
  rw [Tag.readDoctype]
  dsimp only [Text.span]
  cases Text.decimalBelow? 0x100000000 (rest.takeWhile Char.isDigit) with
  | none => exact fails_faultSince (by simp) hrest (List.dropWhile_suffix _)
  | some version =>
    refine (follows_expect ':').bind fun _ colon _ _ _ => ?_
    refine (follows_identifier (by simp)).bind fun name named _ _ _ => ?_
    refine follows_attributes.bind fun given body _ _ _ => ?_
    exact (follows_expect '>').bind fun _ _ _ _ _ => .refl

/-- The type after a language is read by position. -/
theorem follows_typeAfter (language : String) (rest : List Char)
    (short : ∀ parsed : Parsed Char String rest.length, parsed.rest.length < limit) :
    Follows text back (typeAfter language) rest
      (Text.readIdentifier .expectedNodeType rest >>= fun parsed => pure
        (⟨{ language := some language, typeName := some parsed.value }, parsed.rest, short parsed⟩ :
          Parsed Char Tag.Head limit)) :=
  (follows_identifier (by simp)).bind fun _ _ _ _ _ => .refl

/-- The reader stands before a word that is the key of an attribute. -/
def BeforeKey (rest : List Char) : Prop :=
  ∃ key left short, Text.identifier? rest = some ⟨key, left, short⟩ ∧ left.head? = some '='

/-- An identifier comes where a word starts. -/
theorem isSome_identifier? (rest : List Char) :
    (Text.identifier? rest).isSome = rest.head?.any Name.startsWord := by
  cases rest with
  | nil => rfl
  | cons first later =>
    rw [Text.identifier?, Text.word?, Text.run?, Option.isSome_map, List.head?_cons,
      Option.any_some]
    split <;> simp [*]

/-- A word at the head of a tag is read. -/
theorem leads_headOf {short : left.length < rest.length}
    (h : Text.identifier? rest = some ⟨key, left, short⟩)
    (hquote : ¬ rest.head?.any Text.isQuote = true) :
    Leads text back head rest (headOf key) left := by
  have hstarts : rest.head?.any Name.startsWord = true := by
    rw [← isSome_identifier?, h]
    rfl
  have hword : Leads text back (identifier .expectedNodeType) rest (pure key) left :=
    (leads_identifier h).next
  refine leads_peek.next.trans ?_
  rw [if_neg hquote, if_pos hstarts]
  exact hword.next

/-- The head of a tag is read by position, unless it is the key of an attribute. -/
theorem follows_head (h : ¬ BeforeKey rest) : Follows text back head rest (readHead rest) := by
  rw [readHead]
  by_cases hquote : rest.head?.any Text.isQuote = true
  · refine leads_peek.next.follows ?_
    rw [if_pos hquote, if_pos hquote]
    refine (follows_quoted hquote).bind fun found after _ _ _ => ?_
    dsimp only
    cases hcolon : Text.eat? ':' after with
    | none => exact (leads_eat?_of_none hcolon).next.follows .refl
    | some parsed => exact (leads_eat? hcolon).next.follows (follows_typeAfter ..)
  · rw [if_neg hquote]
    cases hword : Text.identifier? rest with
    | none =>
      have hstarts : ¬ rest.head?.any Name.startsWord = true := by
        rw [← isSome_identifier?, hword]
        exact Bool.false_ne_true
      refine leads_peek.next.follows ?_
      rw [if_neg hquote, if_neg hstarts]
      exact .refl
    | some parsed =>
      obtain ⟨key, after, short⟩ := parsed
      refine (leads_headOf hword hquote).follows ?_
      dsimp only
      cases hcolon : Text.eat? ':' after with
      | some parsed => exact (leads_eat? hcolon).next.follows (follows_typeAfter ..)
      | none =>
        have hassign : after.head? ≠ some '=' := fun hassign =>
          h ⟨key, after, short, hword, hassign⟩
        refine (leads_eat?_of_none hcolon).next.follows (leads_peek.next.follows ?_)
        simp only [if_neg hassign]
        exact .refl

/-! ### Keys that are read twice -/

/-- No quote starts a word. -/
theorem startsWord_of_isQuote (h : Text.isQuote c = true) : Name.startsWord c = false := by
  rcases Text.eq_of_isQuote h with rfl | rfl <;> exact Name.startsWord_eq_false (by decide)

section Reread

variable {short : left.length < rest.length}

variable (h : Text.identifier? rest = some ⟨key, left, short⟩)

include h

/-- An identifier stands at the front. -/
theorem eq_append_of_identifier? : rest = key.toList ++ left := by
  cases rest with
  | nil => cases h
  | cons first later =>
    rw [Text.identifier?, Text.word?, Text.run?] at h
    split at h
    · cases h
      rw [String.toList_ofList, List.cons_append, List.takeWhile_append_dropWhile]
    · cases h

/-- An identifier before `=` is a key. -/
theorem isKey_of_identifier? (ha : left.head? = some '=') (hr : rest <:+ text.toList) :
    IsKey text (placeOf text rest) (placeOf text left) := by
  obtain ⟨front, hfront⟩ := hr
  obtain ⟨after, rfl⟩ := List.head?_eq_some_iff.mp ha
  have hsplit : text.toList = front ++ (key.toList ++ '=' :: after) := by
    rw [← hfront, eq_append_of_identifier? h]
  have hidentifier : Name.isIdentifier (String.ofList key.toList) = true := by
    rw [String.ofList_toList]
    exact Text.isIdentifier_of_identifier? h
  refine ⟨front, key.toList, after, hsplit, hidentifier, (placeOf_eq hfront.symm).symm, ?_⟩
  exact (placeOf_eq (hsplit.trans (List.append_assoc ..).symm)).symm

/-- The reader goes back over a key, and reads it again. -/
theorem leads_stepBack {x y : Scanner β}
    (ha : left.head? = some '=') (hr : rest <:+ text.toList) (hx : Leads text false x rest y left) :
    Leads text true (stepBack key.utf8ByteSize >>= fun _ => x) left y left := by
  have hkey := isKey_of_identifier? h ha hr
  obtain rfl := eq_append_of_identifier? h
  -- The moves of the second reading do not go back, so they can stand behind the one that does.
  refine ⟨fun _ => ⟨List.suffix_refl left, fun trail => ?_⟩⟩
  obtain ⟨moves, hmoves, hcourse⟩ := (hx.run hr).2
    (trail ++ [.backToKey (placeOf text left) (placeOf text (key.toList ++ left))])
  refine ⟨.backToKey (placeOf text left) (placeOf text (key.toList ++ left)) :: (moves ++ []), ?_,
    .reread hkey hcourse .stay⟩
  rw [← byteLength_toList, bind_congr (stepBack_before hr trail), pure_bind, hmoves,
    List.append_assoc, List.append_nil]
  rfl

/-- No identifier starts with a quote. -/
theorem not_isQuote_of_identifier? : rest.head?.any Text.isQuote = false := by
  have hstarts := isSome_identifier? rest
  rw [h] at hstarts
  cases rest with
  | nil => rfl
  | cons first later =>
    refine Bool.eq_false_iff.mpr fun hquote => ?_
    have hfirst : Name.startsWord first = true := hstarts.symm
    rw [startsWord_of_isQuote hquote] at hfirst
    cases hfirst

/-- What starts with the key of an attribute is read as attributes. -/
theorem leads_head {next : Tag.Head → Scanner β} {y : Scanner β} (ha : left.head? = some '=')
    (hnext : Leads text false (next {}) rest y left) :
    Leads text true (head >>= next) rest y left := by
  refine .of_suffix fun hrest => ?_
  have hquote : ¬ rest.head?.any Text.isQuote = true := by
    rw [not_isQuote_of_identifier? h]
    exact Bool.false_ne_true
  have hcolon : left.head? ≠ some ':' := by
    rw [ha]
    decide
  refine (leads_headOf h hquote).bind.trans ?_
  refine (leads_eat_char_of_ne hcolon).next.bind.trans ?_
  refine leads_peek.next.bind.trans ?_
  rw [if_pos ha, bind_assoc]
  exact leads_stepBack h ha hrest hnext

end Reread

/-! ### Contents of opening tags -/

/-- The literal after attributes, however these are read. -/
theorem follows_literalAfter {given : Scanner Attributes} {head : Tag.Head}
    (hl : head.literal = none)
    (h : Follows text back given left (Attributes.read rest)) :
    Follows text back (given >>= literalAfter) left (readContent head rest) := by
  have hliteral : ¬ head.literal.isSome = true := by
    rw [hl]
    exact Bool.false_ne_true
  rw [readContent, if_neg hliteral]
  refine h.bind fun found body _ hread _ => ?_
  have hblanks : skipBlanks body = body := skipBlanks_of_read hread
  refine leads_skipBlanks.next.follows ?_
  rw [hblanks]
  refine leads_peek.next.follows ?_
  by_cases hquote : body.head?.any Text.isQuote = true
  · simp only [if_pos hquote]
    exact (follows_quoted hquote).bind fun _ _ _ _ _ => .refl
  · simp only [if_neg hquote]
    exact .refl

/-- The content of a tag is read by position. -/
theorem follows_content (head : Tag.Head) (rest : List Char) :
    Follows text back (content head) rest (readContent head rest) := by
  cases hliteral : head.literal with
  | some literal =>
    have hsome : head.literal.isSome = true := by
      rw [hliteral]
      rfl
    rw [content, readContent, if_pos hsome, if_pos hsome]
    exact .refl
  | none =>
    have hnone : ¬ head.literal.isSome = true := by
      rw [hliteral]
      exact Bool.false_ne_true
    rw [content, if_neg hnone]
    exact follows_literalAfter hliteral follows_attributes

/-- The end of a tag is read by position. -/
theorem follows_tagEnd (hasLiteral : Bool) (rest : List Char) :
    Follows text back (tagEnd hasLiteral) rest (readTagEnd hasLiteral rest) := by
  refine follows_eat (by decide) (fun after h => ?_) fun hclose => ?_
  · subst h
    exact .refl
  by_cases hopen : rest.head? = some '>'
  · obtain ⟨after, rfl⟩ := List.head?_eq_some_iff.mp hopen
    cases hasLiteral with
    | true => exact fails_fault (by simp)
    | false => exact (leads_eat_char '>').next
  · rw [readTagEnd]
    · cases hasLiteral with
      | true => exact fails_fault (by simp)
      | false => exact (leads_eat_char_of_ne hopen).next.fails (fails_fault (by simp))
    · exact fun after h => hclose ⟨after, h.symm⟩
    · rintro after rfl
      exact hopen rfl

/-- The end of an opening tag is read by position, and the tag is checked. -/
theorem follows_openingEnd (flags : NodeFlags) (head : Tag.Head)
    (found : Attributes × Option String) (rest : List Char)
    (short : ∀ parsed : Parsed Char Bool (skipBlanks rest).length, parsed.rest.length < limit) :
    Follows text back (openingEnd flags head found) rest (do
      let parsed ← readTagEnd found.2.isSome (skipBlanks rest)
      let start ← Tag.checkPart (Tag.checkOpening flags head found.1)
      let opened := Tag.opening { start with flags := flags }
      let tags := if parsed.value then opened :: found.2.toList.map Tag.literal ++ [.closing]
        else [opened]
      return (⟨(tags, parsed.value), parsed.rest, short parsed⟩ :
        Parsed Char (List Tag × Bool) limit)) := by
  refine leads_skipBlanks.next.follows ?_
  refine (follows_tagEnd _ _).bind fun isClosed after _ _ _ => ?_
  exact follows_checked fun start => .refl

/-- The key of an attribute is not read as a head. -/
theorem readHead_of_key (h : BeforeKey rest) : readHead rest = .ok (.ofRest {} rest) := by
  obtain ⟨key, left, short, hword, hassign⟩ := h
  have hquote : ¬ rest.head?.any Text.isQuote = true := by
    rw [not_isQuote_of_identifier? hword]
    exact Bool.false_ne_true
  obtain ⟨after, rfl⟩ := List.head?_eq_some_iff.mp hassign
  rw [readHead, if_neg hquote, hword]
  rfl

/-- No blanks stand before an identifier that comes next. -/
theorem identifier?_skipBlanks {short : left.length < rest.length}
    (h : Text.identifier? rest = some ⟨key, left, short⟩) :
    ∃ short, Text.identifier? (skipBlanks rest) = some ⟨key, left, short⟩ := by
  have hstarts := isSome_identifier? rest
  have hblanks : skipBlanks rest = rest := by
    cases rest with
    | nil => rfl
    | cons first later =>
      rw [h] at hstarts
      have hfirst : Name.startsWord first = true := hstarts.symm
      exact Text.skipBlanks_of_stops (Text.stops_cons (Text.isBlank_of_startsWord hfirst) later)
  rw [hblanks]
  exact ⟨short, h⟩

/-- The content of a tag that starts with the key of an attribute. -/
theorem follows_keyed {next : Tag.Head → Attributes × Option String → Scanner β}
    {second : Parsed Char (Attributes × Option String) (rest.length + 1) →
      Except ReadError (Parsed Char β limit)} (hkey : BeforeKey rest)
    (h : ∀ found body short, Follows text true (next {} found) body (second ⟨found, body, short⟩)) :
    Follows text true (head >>= fun head => content head >>= next head) rest
      (readContent {} rest >>= second) := by
  refine Follows.of_suffix fun hrest => ?_
  obtain ⟨key, left, short, hword, hassign⟩ := hkey
  obtain ⟨hshort, hagain⟩ := identifier?_skipBlanks hword
  have hattributes : Leads text false attributes rest (attributeAfter text rest [] key) left :=
    leads_attributeAfter hagain
  -- From behind the key on, the attributes are read as if the key had been read only once.
  have hgiven : Follows text true (attributeAfter text rest [] key) left (Attributes.read rest) :=
    (follows_attributeAfter hagain hrest (hattributes.run hrest).1
      fun value after _ => follows_pairs [(key, value)] after).of_outcome (outcome_read rest)
  refine (leads_head hword hassign hattributes.bind.bind).follows ?_
  exact (follows_literalAfter rfl hgiven).bind fun found body short _ _ => h found body short

/-- An opening tag is read by position. -/
theorem follows_opening : Follows text true opening rest (Tag.readOpening rest) := by
  refine leads_nodeMarks.next.follows ?_
  rw [Tag.readOpening]
  dsimp only [Text.span]
  by_cases hkey : BeforeKey (rest.dropWhile isNodeMark)
  · rw [readHead_of_key hkey]
    exact follows_keyed hkey fun found body _ => follows_openingEnd _ {} found body _
  · refine (follows_head hkey).bind fun head named _ _ _ => ?_
    refine (follows_content head named).bind fun found body _ _ _ => ?_
    exact follows_openingEnd _ head found body _

/-- A tag in angle brackets is read by position. -/
theorem follows_angle (counts : Tag.ShiftCounts) (rest : List Char) :
    Follows text true (angle counts) ('<' :: rest) (readTag counts ('<' :: rest)) := by
  refine follows_eat (by decide) (fun after h => ?_) fun hclosing => ?_
  · obtain rfl := (List.cons.inj h).2
    exact .refl
  refine follows_eat (by decide) (fun after h => ?_) fun hgap => ?_
  · obtain rfl := (List.cons.inj h).2
    exact .refl
  refine follows_eat (by decide) (fun after h => ?_) fun hdoctype => ?_
  · obtain rfl := (List.cons.inj h).2
    exact follows_doctype.bind fun _ _ _ _ _ => .refl
  refine follows_expectWord (by decide) (fun after h => ?_) fun hopen => ?_
  · obtain rfl := (List.cons.inj h).2
    rw [readTag]
    · exact follows_opening.bind fun _ _ _ _ _ => .refl
    · exact fun after h => hclosing ⟨after, congrArg ('<' :: ·) h.symm⟩
    · exact fun after h => hgap ⟨after, congrArg ('<' :: ·) h.symm⟩
    · exact fun after h => hdoctype ⟨after, congrArg ('<' :: ·) h.symm⟩
  · exact absurd (List.prefix_append ['<'] rest) hopen

/-! ### Documents -/

/-- A shift is read by position. -/
theorem follows_shift (counts : Tag.ShiftCounts) (rest : List Char) :
    Follows text true (tagsAt counts '^') ('^' :: rest) (readTag counts ('^' :: rest)) := by
  refine follows_expectWord (by decide) (fun after h => ?_) fun hshift => ?_
  · obtain rfl := (List.cons.inj h).2
    cases counts with
    | nil => exact fails_fault (by simp)
    | cons count outer => exact .refl
  · rw [readTag]
    · rfl
    · exact fun after h => hshift ⟨after, congrArg ('^' :: ·) h.symm⟩

/-- The start of an array is read by position. -/
theorem follows_arrayStart (counts : Tag.ShiftCounts) (rest : List Char) :
    Follows text true (tagsAt counts '[') ('[' :: rest) (readTag counts ('[' :: rest)) := by
  refine follows_expectWord (by decide) (fun after h => ?_) fun harray => ?_
  · obtain rfl := (List.cons.inj h).2
    exact .refl
  · rw [readTag]
    · rfl
    · exact fun after h => harray ⟨after, congrArg ('[' :: ·) h.symm⟩

/-- The tags at the front are read by position. -/
theorem follows_tagsAt (counts : Tag.ShiftCounts) (c : Char) (rest : List Char) :
    Follows text true (tagsAt counts c) (c :: rest) (readTag counts (c :: rest)) := by
  by_cases hangle : c = '<'
  · subst hangle
    exact follows_angle counts rest
  by_cases hshift : c = '^'
  · subst hshift
    exact follows_shift counts rest
  by_cases harray : c = '['
  · subst harray
    exact follows_arrayStart counts rest
  rw [readTag]
  · simp only [tagsAt, if_neg hangle, if_neg hshift, if_neg harray]
    by_cases hquote : Text.isQuote c = true
    · have hhead : (c :: rest).head?.any Text.isQuote = true := hquote
      rw [if_pos hquote, if_pos hhead]
      exact (follows_quoted hhead).bind fun _ _ _ _ _ => .refl
    · have hhead : ¬ (c :: rest).head?.any Text.isQuote = true := hquote
      rw [if_neg hquote, if_neg hhead]
      exact follows_wordTag.bind fun _ _ _ _ _ => .refl
  all_goals simp [hangle, hshift, harray]

/-- The tags at the front are read, and then the others. -/
theorem readAll_of_cons (counts : Tag.ShiftCounts) (h : skipBlanks rest = c :: left) :
    readAll counts rest = outcome (readTag counts (c :: left)) >>= fun found =>
      (readAll found.1.2 found.2).map (found.1.1 ++ ·) := by
  have hempty : ¬ (skipBlanks rest).isEmpty = true := by
    rw [h]
    exact Bool.false_ne_true
  rw [readAll, if_neg hempty, ← h]
  cases readTag counts (skipBlanks rest) with
  | error error => rfl
  | ok parsed =>
    show (readAll parsed.value.2 parsed.rest >>= fun later => pure (parsed.value.1 ++ later)) =
      (readAll parsed.value.2 parsed.rest).map (parsed.value.1 ++ ·)
    cases readAll parsed.value.2 parsed.rest <;> rfl

/-- All tags of a text after those that have been read. -/
theorem follows_documentTurns (before : List Tag × Tag.ShiftCounts) (rest : List Char) :
    Follows text true (loop documentTurn before) rest ((readAll before.2 rest).map fun later =>
      (⟨before.1 ++ later, [], Nat.zero_lt_one⟩ : Parsed Char (List Tag) 1)) := by
  induction hlength : rest.length using Nat.strongRecOn generalizing rest before with
  | ind length ih =>
    subst hlength
    refine Follows.of_suffix fun hrest => ?_
    refine (leads_loop ..).follows (leads_skipBlanks.next.bind.follows ?_)
    refine leads_peek.next.bind.follows ?_
    have hsuffix := skipBlanks_suffix rest
    cases hblanks : skipBlanks rest with
    | nil =>
      rw [readAll, if_pos (List.isEmpty_iff.mpr hblanks)]
      refine .of_ok .refl ?_
      exact congrArg (fun tags => Except.ok (tags, [])) (List.append_nil before.1)
    | cons c after =>
      rw [hblanks] at hsuffix
      refine follows_turn hrest hsuffix hsuffix.length_le (follows_tagsAt before.2 c after)
        (fun found left hleft => ih _ hleft.shorter (before.1 ++ found.1, found.2) left rfl) ?_
      rw [readAll_of_cons before.2 hblanks]
      cases readTag before.2 (c :: after) with
      | error error => rfl
      | ok parsed =>
        show outcome (((readAll parsed.value.2 parsed.rest).map (parsed.value.1 ++ ·)).map _) =
          outcome ((readAll parsed.value.2 parsed.rest).map _)
        cases readAll parsed.value.2 parsed.rest with
        | error error => rfl
        | ok later =>
          exact congrArg (fun tags => Except.ok (tags, []))
            (List.append_assoc before.1 parsed.value.1 later).symm

/-- All tags of a text are read by position as from its characters. -/
theorem follows_document (rest : List Char) :
    Follows text true document rest ((readAll [0] rest).map fun tags =>
      (⟨tags, [], Nat.zero_lt_one⟩ : Parsed Char (List Tag) 1)) :=
  follows_documentTurns ([], [0]) rest

end TagTree.Scanner
