import TagTree.Proofs.Text.Scanning

/-!
# Words by position

Characters, words and quoted texts are read by position as from what is left, and faults are
reported at the same place (`Scanner.fault_before`). No step moves the reader off the characters of
the text.
-/

namespace TagTree.Scanner

open Text (Parsed byteLength utf8)

variable {α : Type} {text : String} {back : Bool} {rest middle left : List Char}
  {word : String} {c : Char} {cause : SyntaxFault} {short : left.length < rest.length}

/-- The next character is the first of what is left. -/
theorem peek_before (h : rest <:+ text.toList) (trail : List Move) :
    peek (.before text trail rest) =
      (pure rest.head? : Scanner (Option Char)) (.before text trail rest) :=
  bind_congr (rest_before h trail) _

/-- A fault does not move the reader. -/
theorem fault_before (h : rest <:+ text.toList) (cause : SyntaxFault) (trail : List Move) :
    (fault cause : Scanner α) (.before text trail rest) =
      some (.error ((Text.faultAt cause rest).toError text.utf8ByteSize),
        .before text trail rest) := by
  have hwidth : (rest.head?.map Char.utf8Size).getD 0 = byteLength (rest.take 1) := by
    cases rest <;> rfl
  show (peek >>= fun next => (throw (.reading ⟨cause, placeOf text rest, placeOf text rest +
    (next.map Char.utf8Size).getD 0⟩) : Scanner α)) (.before text trail rest) = _
  rw [bind_congr (peek_before h trail), pure_bind, hwidth]
  rfl

/-- A single character comes next if it is the first. -/
theorem singleton_prefix_iff : [c] <+: rest ↔ rest.head? = some c := by
  cases rest <;> simp [List.cons_prefix_cons, eq_comm]

/-- One character less takes fewer bytes. -/
theorem byteLength_cons_lt (c : Char) (later : List Char) :
    byteLength later < byteLength (c :: later) :=
  Nat.lt_add_of_pos_left c.utf8Size_pos

variable [Alphabet]

/-! ### Characters and words -/

/-- The next character is looked at. -/
theorem leads_peek : Leads text back peek rest (pure rest.head?) rest :=
  .of_eq peek_before

/-- The next character is passed. -/
theorem leads_bump (c : Char) (left : List Char) :
    Leads text back bump (c :: left) (pure ()) left := by
  have hadvance : Leads text back (advance (byteLength [c])) ([c] ++ left) (pure ()) left :=
    leads_advance (List.cons_ne_nil c [])
  exact leads_peek.next.trans hadvance

/-- A text that comes next is passed. -/
theorem leads_eat (h : word.toList ≠ []) :
    Leads text back (eat word) (word.toList ++ left) (pure true) left := by
  have hprefix : word.toList.isPrefixOf (word.toList ++ left) = true :=
    List.isPrefixOf_iff_prefix.mpr (List.prefix_append ..)
  refine leads_rest.next.trans ?_
  rw [if_pos hprefix, ← byteLength_toList]
  exact (leads_advance h).next

/-- A text that does not come next is not passed. -/
theorem leads_eat_of_not (h : ¬ word.toList <+: rest) :
    Leads text back (eat word) rest (pure false) rest := by
  refine leads_rest.next.trans ?_
  rw [if_neg (mt List.isPrefixOf_iff_prefix.mp h)]
  exact .refl

/-- An error is reported where the reader stands. -/
theorem fails_throw {error : ReadError} (h : error.IsLocated text) :
    Fails text back (throw (error.toError text.utf8ByteSize) : Scanner α) rest error := by
  refine ⟨fun _ => h, fun _ trail => ⟨[], placeOf text rest, ?_, .ahead .stay⟩⟩
  rw [List.append_nil]
  rfl

/-- A fault is reported with the places of its bytes. -/
theorem fails_reading {start stop left width : Nat}
    (h : ReadError.IsLocated text (.fault cause left width)) (hs : text.utf8ByteSize - left = start)
    (hw : start + width = stop) :
    Fails text back (throw (.reading ⟨cause, start, stop⟩) : Scanner α) rest
      (.fault cause left width) := by
  subst hs hw
  exact fails_throw h

/-- A fault is about the next character. -/
theorem fails_fault (hc : ∀ fault, cause ≠ .quoted fault) :
    Fails text back (fault cause : Scanner α) rest (Text.faultAt cause rest) := by
  refine ⟨fun hrest => isLocated_faultAt hrest hc, fun hrest trail => ?_⟩
  refine ⟨[], placeOf text rest, ?_, .ahead .stay⟩
  rw [List.append_nil]
  exact fault_before hrest cause trail

/-- The reader goes back to the start of a malformed reference. -/
theorem fails_malformed (h : IsBehind left rest) (hr : rest <:+ text.toList) :
    Fails text back (move .backToReference (placeOf text rest) >>= fun _ =>
      (fault .expectedReference : Scanner α)) left (Text.faultAt .expectedReference rest) := by
  refine ⟨fun _ => isLocated_faultAt hr (by simp), fun hleft trail => ?_⟩
  refine ⟨[.backToReference (placeOf text left) (placeOf text rest)], placeOf text rest, ?_, ?_⟩
  · exact fault_before hr .expectedReference
      (trail ++ [.backToReference (placeOf text left) (placeOf text rest)])
  · have hlt := h.byteLength_lt
    have hle := byteLength_le hr
    have hcourse : Course text back (placeOf text left) [] (placeOf text left) := .stay
    exact .malformed hcourse (isBoundary_placeOf hr) (by simp only [placeOf]; omega)

/-- A fault is about what has been read since a place. -/
theorem fails_faultSince (hc : ∀ fault, cause ≠ .quoted fault)
    (hr : rest <:+ text.toList) (h : left <:+ rest) :
    Fails text back (faultSince cause (placeOf text rest) : Scanner α) left
      (Text.faultBetween cause rest left) := by
  obtain ⟨taken, rfl⟩ := h
  have hwidth : byteLength (taken ++ left) - byteLength left = byteLength taken := by
    rw [Text.byteLength_append, Nat.add_sub_cancel]
  rw [Text.faultBetween, hwidth]
  exact leads_position.next.fails (fails_reading (.spans hr hc) rfl (placeOf_append hr))

/-- A character that comes next is passed. -/
theorem leads_eat_char (c : Char) :
    Leads text back (eat (String.singleton c)) (c :: left) (pure true) left := by
  have h : Leads text back (eat (String.singleton c)) ((String.singleton c).toList ++ left)
      (pure true) left := leads_eat (by simp)
  rwa [String.toList_singleton] at h

/-- A character that does not come next is not passed. -/
theorem leads_eat_char_of_ne (h : rest.head? ≠ some c) :
    Leads text back (eat (String.singleton c)) rest (pure false) rest := by
  refine leads_eat_of_not ?_
  rwa [String.toList_singleton, singleton_prefix_iff]

/-- A character that is taken off is passed. -/
theorem leads_eat? (h : Text.eat? c rest = some ⟨(), left, short⟩) :
    Leads text back (eat (String.singleton c)) rest (pure true) left := by
  obtain rfl : rest = c :: left := Text.eq_cons_of_eat? h
  exact leads_eat_char c

/-- A character that is not taken off is not passed. -/
theorem leads_eat?_of_none (h : Text.eat? c rest = none) :
    Leads text back (eat (String.singleton c)) rest (pure false) rest := by
  refine leads_eat_char_of_ne fun hhead => ?_
  obtain ⟨later, rfl⟩ := List.head?_eq_some_iff.mp hhead
  rw [Text.eat?, if_pos rfl] at h
  cases h

/-- A word comes next or does not. -/
theorem follows_eat {limit : Nat} {yes no : Scanner α}
    {result : Except ReadError (Parsed Char α limit)} (hw : word.toList ≠ [])
    (hy : ∀ left, rest = word.toList ++ left → Follows text back yes left result)
    (hn : ¬ word.toList <+: rest → Follows text back no rest result) :
    Follows text back (eat word >>= fun found => if found = true then yes else no) rest result := by
  by_cases hword : word.toList <+: rest
  · obtain ⟨left, rfl⟩ := hword
    exact (leads_eat hw).next.follows (hy left rfl)
  · exact (leads_eat_of_not hword).next.follows (hn hword)

/-- A word has to come next. -/
theorem follows_expectWord {limit : Nat} {next : Unit → Scanner α}
    {result : Except ReadError (Parsed Char α limit)} (hw : word.toList ≠ [])
    (hy : ∀ left, rest = word.toList ++ left → Follows text back (next ()) left result)
    (hn : ¬ word.toList <+: rest →
      Text.outcome result = .error (Text.faultAt (.expected word) rest)) :
    Follows text back (expect word >>= next) rest result := by
  by_cases hword : word.toList <+: rest
  · obtain ⟨left, rfl⟩ := hword
    have hexpect : Leads text back (expect word) (word.toList ++ left) (pure ()) left :=
      (leads_eat hw).next
    exact hexpect.next.follows (hy left rfl)
  · refine .of_error ?_ (hn hword)
    exact Fails.bind ((leads_eat_of_not hword).next.fails (fails_fault (by simp))) next

/-- A character has to come next. -/
theorem follows_expect (c : Char) :
    Follows text back (expect (String.singleton c)) rest (Text.readChar c rest) := by
  rw [Text.readChar]
  cases h : Text.eat? c rest with
  | none => exact (leads_eat?_of_none h).next.fails (fails_fault (by simp))
  | some parsed => exact (leads_eat? h).next

/-- All characters that pass the test are passed. -/
theorem leads_skipWhile (test : Char → Bool) (rest : List Char) :
    Leads text back (skipWhile test) rest (pure ()) (rest.dropWhile test) := by
  induction rest with
  | nil => exact (leads_loop ..).trans leads_peek.next.bind
  | cons c later ih =>
    refine .of_suffix fun hrest => ?_
    refine (leads_loop ..).trans (leads_peek.next.bind.trans ?_)
    by_cases hc : test c = true
    · have hany : (c :: later).head?.any test = true := hc
      rw [List.dropWhile_cons_of_pos hc, if_pos hany]
      refine (leads_bump c later).next.bind.trans ?_
      exact (leads_continueFrom hrest (byteLength_cons_lt c later) ()).trans ih
    · have hany : ¬ (c :: later).head?.any test = true := hc
      rw [List.dropWhile_cons_of_neg hc, if_neg hany]
      exact .refl

/-- A word is read with its characters from the text. -/
theorem leads_word (continues : Char → Bool) {word : List Char}
    (h : Text.word? continues rest = some ⟨word, left, short⟩) :
    Leads text back (word? continues) rest (pure (some word)) left := by
  cases rest with
  | nil => cases h
  | cons first later =>
    rw [Text.word?, Text.run?] at h
    split at h
    · rename_i hstarts
      cases h
      refine .of_suffix fun hrest => ?_
      have hany : (first :: later).head?.any Name.startsWord = true := hstarts
      refine leads_position.next.trans (leads_peek.next.trans ?_)
      rw [if_pos hany]
      refine (leads_bump first later).next.trans ?_
      refine (leads_skipWhile continues later).next.trans ?_
      have hsplit : (first :: later.takeWhile continues) ++ later.dropWhile continues =
          first :: later := by
        rw [List.cons_append, List.takeWhile_append_dropWhile]
      exact (leads_since hrest hsplit).next
    · cases h

/-- No word is read where none starts. -/
theorem leads_word_of_none {continues : Char → Bool} (h : Text.word? continues rest = none) :
    Leads text back (word? continues) rest (pure none) rest := by
  have hany : ¬ rest.head?.any Name.startsWord = true := by
    cases rest with
    | nil => exact Bool.false_ne_true
    | cons first later =>
      rw [Text.word?, Text.run?] at h
      split at h
      · cases h
      · assumption
  refine leads_position.next.trans (leads_peek.next.trans ?_)
  rw [if_neg hany]
  exact .refl

/-- An identifier is read. -/
theorem leads_identifier {name : String} (h : Text.identifier? rest = some ⟨name, left, short⟩) :
    Leads text back identifier? rest (pure (some name)) left := by
  rw [Text.identifier?, Option.map_eq_some_iff] at h
  obtain ⟨parsed, hparsed, hname⟩ := h
  cases hname
  exact (leads_word _ hparsed).next

/-- No identifier is read where none starts. -/
theorem leads_identifier_of_none (h : Text.identifier? rest = none) :
    Leads text back identifier? rest (pure none) rest := by
  rw [Text.identifier?, Option.map_eq_none_iff] at h
  exact (leads_word_of_none h).next

/-- An identifier has to come next. -/
theorem follows_identifier (hc : ∀ fault, cause ≠ .quoted fault) :
    Follows text back (identifier cause) rest (Text.readIdentifier cause rest) := by
  rw [Text.readIdentifier]
  cases hname : Text.identifier? rest with
  | none => exact (leads_identifier_of_none hname).next.fails (fails_fault hc)
  | some parsed => exact (leads_identifier hname).next

/-- A quoted text is read from the bytes as from the characters. -/
theorem follows_quoted (hq : rest.head?.any Text.isQuote = true) :
    Follows text back quoted rest (Text.readLiteral rest) := by
  refine Follows.of_suffix fun hrest => ?_
  have hquoted : Text.quotedAt (utf8 rest) = some (((Text.readQuoted rest).map fun parsed =>
      (parsed.value, byteLength rest - byteLength parsed.rest)).mapError fun error =>
        (error.fault, byteLength rest - byteLength error.rest)) := by
    rw [Text.quotedAt_eq, Text.readQuotedBytes_utf8]
  refine leads_position.next.follows (leads_rest.next.follows ?_)
  rw [hquoted, Text.readLiteral]
  cases hread : Text.readQuoted rest with
  | error error =>
    obtain ⟨⟨taken, rfl⟩, hwithin⟩ := Text.error_of_readQuoted hq hread
    have hplace : placeOf text (taken ++ error.rest) +
        (byteLength (taken ++ error.rest) - byteLength error.rest) = placeOf text error.rest := by
      rw [Text.byteLength_append, Nat.add_sub_cancel, placeOf_append hrest]
    exact fails_reading (.quoted ((List.suffix_append ..).trans hrest) hwithin) hplace.symm rfl
  | ok parsed =>
    obtain ⟨quote, taken, hsplit⟩ := Text.exists_of_readQuoted hread
    obtain ⟨value, after, short⟩ := parsed
    have hused : byteLength rest - byteLength after = byteLength (quote :: taken) := by
      rw [hsplit, ← List.cons_append, Text.byteLength_append, Nat.add_sub_cancel]
    have hadvance : Leads text back (advance (byteLength (quote :: taken)))
        ((quote :: taken) ++ after) (pure ()) after := leads_advance (List.cons_ne_nil quote taken)
    rw [List.cons_append, ← hsplit, ← hused] at hadvance
    exact (hadvance.next : Leads _ _ (_ >>= fun _ => pure value) _ _ _)

/-! ### Marks -/

/-- The marks are set in their order. -/
theorem leads_marks {φ : Type} {set? : φ → Char → Option φ} {isMark : Char → Bool}
    (h : ∀ flags c, (set? flags c).isSome = isMark c) (flags : φ) (rest : List Char) :
    Leads text back (marks set? flags) rest
      (pure ((rest.takeWhile isMark).foldl (fun flags c => (set? flags c).getD flags) flags))
      (rest.dropWhile isMark) := by
  induction rest generalizing flags with
  | nil => exact (leads_loop ..).trans leads_peek.next.bind
  | cons c later ih =>
    refine .of_suffix fun hrest => ?_
    refine (leads_loop ..).trans (leads_peek.next.bind.trans ?_)
    rw [List.head?_cons, Option.bind_some]
    cases hset : set? flags c with
    | some marked =>
      have hc : isMark c = true := by rw [← h flags c, hset]; rfl
      rw [List.takeWhile_cons_of_pos hc, List.dropWhile_cons_of_pos hc, List.foldl_cons, hset]
      refine (leads_bump c later).next.bind.trans ?_
      exact (leads_continueFrom hrest (byteLength_cons_lt c later) marked).trans (ih marked)
    | none =>
      have hc : ¬ isMark c = true := by rw [← h flags c, hset]; exact Bool.false_ne_true
      rw [List.takeWhile_cons_of_neg hc, List.dropWhile_cons_of_neg hc]
      exact .refl

end TagTree.Scanner
