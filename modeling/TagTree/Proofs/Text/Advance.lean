import TagTree.Proofs.Text.ScannedTag

/-!
# The reader always advances

Reading by position never goes wrong and gives the tags of the text (`Scan.run_advances`). All the
while the position lies between characters of the text, and each turn of a loop ends behind its
start. An error is about characters of the text, but for some faults of quoted texts
(`parse_error_span`).
-/

namespace TagTree

open Text (byteLength)

variable {text : String} {start stop : Nat}

/-- A key stands between places of the text. -/
theorem IsKey.isBoundary [Alphabet] (h : IsKey text start stop) :
    IsBoundary text start ∧ IsBoundary text stop := by
  obtain ⟨before, key, after, hsplit, -, rfl, rfl⟩ := h
  exact ⟨isBoundary_byteLength hsplit,
    isBoundary_byteLength (hsplit.trans (List.append_assoc ..).symm)⟩

/-! ### Single moves -/

namespace Move

/-- The reader moves on, or back over a key or to the start of a reference. A turn of a loop ends
behind its start. -/
def IsDirected [Alphabet] (text : String) : Move → Prop
  | .forward start stop => start < stop
  | .backToKey start stop => IsKey text stop start
  | .backToReference start stop => stop < start
  | .turn start stop => start < stop

/-- The move leads from a place between characters of the text to another one. -/
structure IsSound [Alphabet] (text : String) (move : Move) : Prop where
  isDirected : move.IsDirected text
  inside : ∀ place ∈ move.places, place ≤ text.utf8ByteSize ∧ IsBoundary text place

/-- A directed move between places of the text is sound. -/
theorem IsSound.of_places [Alphabet] {move : Move} (hp : move.places = [start, stop])
    (hs : IsBoundary text start) (he : IsBoundary text stop) (h : move.IsDirected text) :
    move.IsSound text := by
  refine ⟨h, fun place hplace => ?_⟩
  rw [hp] at hplace
  rcases List.mem_pair.mp hplace with rfl | rfl
  · exact ⟨hs.le, hs⟩
  · exact ⟨he.le, he⟩

end Move

/-! ### Whole courses -/

namespace Course

variable [Alphabet] {back : Bool} {moves : List Move}

/-- A course leads to a place of the text. -/
theorem isBoundary (h : Course text back start moves stop) (hs : IsBoundary text start) :
    IsBoundary text stop := by
  induction h with
  | stay => exact hs
  | forward _ boundary _ ih => exact ih boundary
  | turn _ _ _ ih => exact ih hs
  | reread _ _ _ _ ih => exact ih hs

/-- The moves of a course are sound. -/
theorem isSound_of_mem (h : Course text back start moves stop) (hs : IsBoundary text start) :
    ∀ move ∈ moves, move.IsSound text := by
  induction h with
  | stay => exact List.forall_mem_nil _
  | forward lt boundary _ ih =>
    exact List.forall_mem_cons.mpr ⟨.of_places rfl hs boundary lt, ih boundary⟩
  | turn lt boundary _ ih => exact List.forall_mem_cons.mpr ⟨.of_places rfl boundary hs lt, ih hs⟩
  | reread key _ _ ihagain ihlater =>
    refine List.forall_mem_cons.mpr ⟨.of_places rfl hs key.isBoundary.1 key, ?_⟩
    exact List.forall_mem_append.mpr ⟨ihagain key.isBoundary.1, ihlater hs⟩

end Course

/-- The moves up to an error are sound, and so is the last one if that goes back. -/
theorem Scanner.Ends.isSound_of_mem [Alphabet] {back : Bool} {moves : List Move}
    {error : Error} (h : Scanner.Ends text back start moves stop error)
    (hs : IsBoundary text start) : ∀ move ∈ moves, move.IsSound text := by
  cases h with
  | ahead course => exact course.isSound_of_mem hs
  | malformed course boundary lt =>
    refine List.forall_mem_append.mpr ⟨course.isSound_of_mem hs, ?_⟩
    exact List.forall_mem_singleton.mpr (.of_places rfl (course.isBoundary hs) boundary lt)

/-! ### Runs -/

/-- A fault in the text is not about its encoding. -/
theorem ReadError.IsLocated.toError_ne {error : ReadError} {total first last : Nat}
    (h : error.IsLocated text) :
    error.toError total ≠ .reading ⟨.quoted .invalidEncoding, first, last⟩ := by
  intro herror
  cases h with
  | invalid => cases herror
  | spans _ hc =>
    cases herror
    exact hc _ rfl
  | quoted _ hw => cases hw <;> cases herror

namespace Scan

open Scanner

variable [Alphabet]

/-- How reading a text ends: all tags have been read, or an error is reported. -/
inductive Outcome (text : String) (trail : List Move) (stop : Nat) :
    Except Error (List Tag) → Prop where
  | complete {tags : List Tag} (course : Course text true 0 trail stop) :
      Outcome text trail stop (.ok tags)
  | failed {error : Error} (ends : Ends text true 0 trail stop error)
      (encoded : ∀ first last, error ≠ .reading ⟨.quoted .invalidEncoding, first, last⟩) :
      Outcome text trail stop (.error error)

/-- Reading by position gives what is read from the characters. -/
theorem run_eq (text : String) : ∃ trail stop,
    run text = some (Tag.parse text, ⟨text, stop, trail⟩) ∧
    Outcome text trail stop (Tag.parse text) := by
  have hstart : Scan.before text [] text.toList = ⟨text, 0, []⟩ := by
    rw [Scan.before, placeOf_toList]
  have hdocument : Follows text true document text.toList _ := follows_document text.toList
  rw [run, ← hstart, Tag.parse]
  cases hread : Tag.readAll [0] text.toList with
  | ok tags =>
    rw [hread] at hdocument
    obtain ⟨moves, hmoves, hcourse⟩ := (Leads.run hdocument (List.suffix_refl _)).2 []
    rw [placeOf_toList] at hcourse
    exact ⟨moves, _, hmoves, .complete hcourse⟩
  | error error =>
    rw [hread] at hdocument
    have hfails : Fails text true document text.toList error := hdocument
    obtain ⟨moves, stop, hmoves, hends⟩ := hfails.run (List.suffix_refl _) []
    rw [placeOf_toList] at hends
    exact ⟨moves, stop, hmoves, .failed hends fun _ _ =>
      (hfails.located (List.suffix_refl _)).toError_ne⟩

/-- Reading by position does not go wrong, whatever the text is. All moves are sound, so that the
position lies between characters and each turn of a loop advances. The reader goes back over keys
only, which it reads again, and to the start of a malformed reference, which is then the error. No
error is about the encoding. -/
theorem run_advances (text : String) : ∃ trail stop,
    run text = some (Tag.parse text, ⟨text, stop, trail⟩) ∧ (∀ move ∈ trail, move.IsSound text) ∧
    (Course text true 0 trail stop ∨ ∃ earlier place last,
      trail = earlier ++ [.backToReference place stop] ∧ Course text true 0 earlier place ∧
      Tag.parse text = .error (.reading ⟨.expectedReference, stop, last⟩)) ∧
    ∀ first last, Tag.parse text ≠ .error (.reading ⟨.quoted .invalidEncoding, first, last⟩) := by
  obtain ⟨trail, stop, hrun, houtcome⟩ := run_eq text
  have hzero : IsBoundary text 0 := placeOf_toList text ▸ isBoundary_placeOf (List.suffix_refl _)
  refine ⟨trail, stop, hrun, ?_⟩
  generalize Tag.parse text = result at houtcome
  cases houtcome with
  | complete course => exact ⟨course.isSound_of_mem hzero, .inl course, by simp⟩
  | failed ends encoded =>
    refine ⟨ends.isSound_of_mem hzero, ?_, fun _ _ h => encoded _ _ (Except.error.inj h)⟩
    cases ends with
    | ahead course => exact .inl course
    | malformed course _ _ => exact .inr ⟨_, _, _, rfl, course, rfl⟩

end Scan

/-! ### Where errors are -/

/-- A place is not within a character. -/
theorem IsBoundary.outside {place : Nat} {before after : List Char} {c : Char}
    (h : IsBoundary text place) (ht : text.toList = before ++ c :: after) :
    place ≤ byteLength before ∨ byteLength before + c.utf8Size ≤ place := by
  obtain ⟨first, second, rfl, hplace⟩ := String.Pos.Raw.isValid_iff_exists_append.mp h
  obtain rfl : place = byteLength first.toList := by
    rw [byteLength_toList]
    exact congrArg String.Pos.Raw.byteIdx hplace
  rw [String.toList_append] at ht
  rcases List.append_eq_append_iff.mp ht with ⟨middle, hmiddle, -⟩ | ⟨middle, hmiddle, hafter⟩
  · refine .inl ?_
    rw [hmiddle, Text.byteLength_append]
    exact Nat.le_add_right ..
  · rw [hmiddle, Text.byteLength_append]
    cases middle with
    | nil => exact .inl (Nat.le_refl _)
    | cons first middle =>
      obtain ⟨rfl, -⟩ := List.cons.inj hafter
      exact .inr (Nat.add_le_add_left (Nat.le_add_right ..) _)

/-- The error is about one byte where there is no character of one byte: a quoted text ends without
its quote or within an escape, or an escape has an unknown letter of several bytes. -/
def SyntaxError.Overhangs (error : SyntaxError) (text : String) : Prop :=
  (error.fault = .quoted .unterminated ∨ error.fault = .quoted .unterminatedEscape) ∧
  error.first = text.utf8ByteSize ∨
  error.fault = .quoted .unknownEscape ∧ ∃ before c after, text.toList = before ++ c :: after ∧
    error.first = byteLength before ∧ 1 < c.utf8Size

/-- An error that overhangs does not end between characters. -/
theorem SyntaxError.Overhangs.not_isBoundary {error : SyntaxError} (h : error.Overhangs text) :
    ¬ IsBoundary text (error.first + 1) := by
  intro hboundary
  rcases h with ⟨-, hend⟩ | ⟨-, before, c, after, htext, hfirst, hwide⟩
  · have hle := hboundary.le
    omega
  · have houtside := hboundary.outside htext
    omega

/-- The byte at the letter of an escape ends between characters, unless the letter is wider. -/
theorem isBoundary_succ {letter : Char} {after : List Char}
    (hr : letter :: after <:+ text.toList) (hl : letter.utf8Size = 1) :
    IsBoundary text (placeOf text (letter :: after) + 1) := by
  have hplace : placeOf text ([letter] ++ after) + letter.utf8Size = placeOf text after :=
    placeOf_append hr
  rw [← hl, ← List.singleton_append, hplace]
  exact isBoundary_placeOf ((List.suffix_cons letter after).trans hr)

/-- A fault of a quoted text that does not overhang ends between characters. -/
theorem isBoundary_of_within {error : Text.QuoteError Char} (hr : error.rest <:+ text.toList)
    (hw : error.Within) (h : ¬ SyntaxError.Overhangs ⟨.quoted error.fault, placeOf text error.rest,
      placeOf text error.rest + 1⟩ text) : IsBoundary text (placeOf text error.rest + 1) := by
  cases hw with
  | unterminated => exact absurd (.inl ⟨.inl rfl, rfl⟩) h
  | unterminatedEscape => exact absurd (.inl ⟨.inr rfl, rfl⟩) h
  | @invalidCodePoint letter after hletter =>
    obtain rfl : letter = 'u' := Char.toNat_inj.mp hletter
    exact isBoundary_succ hr rfl
  | @unknownEscape letter after =>
    obtain ⟨before, hbefore⟩ := id hr
    refine isBoundary_succ hr (Nat.le_antisymm (Nat.not_lt.mp fun hwide => h ?_)
      letter.utf8Size_pos)
    exact .inr ⟨rfl, before, letter, after, hbefore.symm, placeOf_eq hbefore.symm, hwide⟩

/-- The bytes of an error are those of characters of the text, but for the faults of quoted texts
that overhang: they have one byte all the same. -/
theorem parse_error_span [Alphabet] {text : String} {error : SyntaxError}
    (h : Tag.parse text = .error (.reading error)) :
    IsBoundary text error.first ∧ error.first ≤ error.last ∧
    (error.last ≤ text.utf8ByteSize ∧ IsBoundary text error.last ↔ ¬ error.Overhangs text) ∧
    (error.Overhangs text → error.last = error.first + 1) := by
  have hdocument : Scanner.Follows text true Scanner.document text.toList _ :=
    Scanner.follows_document text.toList
  rw [Tag.parse] at h
  cases hread : Tag.readAll [0] text.toList with
  | ok tags =>
    rw [hread] at h
    cases h
  | error found =>
    rw [hread] at h hdocument
    have hlocated := Scanner.Fails.located hdocument (List.suffix_refl _)
    cases hlocated with
    | invalid => cases h
    | @spans cause taken rest hr hc =>
      cases h
      have hlast := placeOf_append hr
      have hboundary := isBoundary_placeOf ((List.suffix_append taken rest).trans hr)
      rw [← hlast] at hboundary
      have hnot : ∀ start stop, ¬ SyntaxError.Overhangs ⟨cause, start, stop⟩ text := by
        rintro start stop (⟨hfault | hfault, -⟩ | ⟨hfault, -⟩) <;> exact hc _ hfault
      exact ⟨isBoundary_placeOf hr, Nat.le_add_right .., iff_of_true ⟨hboundary.le, hboundary⟩
        (hnot _ _), fun hoverhangs => absurd hoverhangs (hnot _ _)⟩
    | quoted hr hw =>
      cases h
      refine ⟨isBoundary_placeOf hr, Nat.le_succ _, ⟨fun hlast hoverhangs => ?_, fun hnot => ?_⟩,
        fun _ => rfl⟩
      · exact hoverhangs.not_isBoundary hlast.2
      · have hboundary := isBoundary_of_within hr hw hnot
        exact ⟨hboundary.le, hboundary⟩

/-- An unknown escape in one byte, after characters of several. -/
theorem parse_error_span_escape :
    Tag.parse "<A 'é\\x" = .error (.reading ⟨.quoted .unknownEscape, 7, 8⟩) ∧
    IsBoundary "<A 'é\\x" 7 ∧ 7 ≤ 8 ∧
    (8 ≤ "<A 'é\\x".utf8ByteSize ∧ IsBoundary "<A 'é\\x" 8 ↔
      ¬ SyntaxError.Overhangs ⟨.quoted .unknownEscape, 7, 8⟩ "<A 'é\\x") ∧
    (SyntaxError.Overhangs ⟨.quoted .unknownEscape, 7, 8⟩ "<A 'é\\x" → 8 = 7 + 1) := by
  have h : Tag.parse "<A 'é\\x" = .error (.reading ⟨.quoted .unknownEscape, 7, 8⟩) :=
    error_of_map (f := List.length) (by decide +kernel)
  exact ⟨h, parse_error_span h⟩

/-- The end of an open quoted text and an unknown letter of two bytes: the one error is about a byte
beyond the text, the other about half of a character. -/
theorem parse_error_overhangs :
    (Tag.parse "<A>'open" = .error (.reading ⟨.quoted .unterminated, 8, 9⟩) ∧
        "<A>'open".utf8ByteSize = 8) ∧
      Tag.parse "'\\é'" = .error (.reading ⟨.quoted .unknownEscape, 2, 3⟩) ∧
      ¬ IsBoundary "'\\é'" 3 := by
  refine ⟨⟨error_of_map (f := List.length) (by decide +kernel), by decide⟩,
    error_of_map (f := List.length) (by decide +kernel), ?_⟩
  have hoverhangs : SyntaxError.Overhangs ⟨.quoted .unknownEscape, 2, 3⟩ "'\\é'" :=
    .inr ⟨rfl, ['\'', '\\'], 'é', ['\''], by decide, rfl, by decide⟩
  exact hoverhangs.not_isBoundary

end TagTree
