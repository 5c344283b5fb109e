import TagTree.Proofs.Text.Tag

/-!
# Documents read back

A text writes tags if it is made of their pieces with blanks between them, where what follows `null`
cannot be taken for its continuation (`Tag.Writes`). Such a text is read as the tags
(`Tag.Writes.readAll`). The canonical text and the pretty text of valid tags write them, if the
shifts are numbered as the reader numbers them.
-/

namespace TagTree

open Text (Reads Stops stops_cons skipBlanks isBlank)

variable {layout : Layout} {tag : Tag}

/-! ### Pieces and margins -/

namespace Line

/-- The tags of a piece. -/
def tags : Line → List Tag
  | single tag => [tag]
  | token start content => .opening start :: content.toList.map .literal ++ [.closing]

/-- The pieces hold all the tags. -/
theorem flatMap_tags_ofTags (tags : List Tag) : (ofTags tags).flatMap Line.tags = tags := by
  fun_induction ofTags tags with
  | case1 => rfl
  | case2 _ _ _ ih | case3 _ _ _ ih | case4 _ _ _ _ ih | case5 _ _ _ _ ih | case6 _ _ _ _ ih =>
    simp [Line.tags, ih]

variable {margins : Margins}

/-- All margins are blank. -/
def AreBlank (margins : Margins) : Prop :=
  ∀ margin ∈ margins, ∀ c ∈ margin.toList, isBlank c = true

/-- The current one of blank margins is blank. -/
theorem isBlank_of_mem_current (h : AreBlank margins) :
    ∀ c ∈ margins.current.toList, isBlank c = true := by
  cases margins with
  | nil => nofun
  | cons margin outer => exact h margin List.mem_cons_self

/-- Margins stay blank before a piece. -/
theorem AreBlank.marginsAt (h : AreBlank margins) (line : Line) :
    AreBlank (line.marginsAt margins) := by
  unfold Line.marginsAt
  split
  · exact fun margin hmem => h margin (List.mem_of_mem_tail hmem)
  · exact h

/-- Margins stay blank after a piece, if what indents is blank. -/
theorem AreBlank.marginsAfter (h : AreBlank margins)
    (hl : ∀ c ∈ layout.indent.toList, isBlank c = true) (line : Line) :
    AreBlank (line.marginsAfter layout margins) := by
  unfold Line.marginsAfter
  split
  · refine List.forall_mem_cons.mpr ⟨?_, h⟩
    intro c hmem
    rw [String.toList_append] at hmem
    exact (List.mem_append.mp hmem).elim (isBlank_of_mem_current h c) (hl c)
  · exact h

/-- Only blanks stand between pieces. -/
theorem isBlank_of_mem_separator (h : AreBlank margins) (inline : Bool) :
    ∀ c ∈ (separator layout margins.current inline).flatMap String.toList, isBlank c = true := by
  unfold separator
  split
  · exact List.all_eq_true.mp (by decide)
  · have hbreak : ("\n".toList : List Char) = ['\n'] := rfl
    simp only [List.flatMap_cons, List.flatMap_nil, List.append_nil, hbreak, List.cons_append,
      List.nil_append, List.forall_mem_cons]
    exact ⟨by decide, isBlank_of_mem_current h⟩

end Line

namespace Tag

/-- The shifts among the tags have the numbers that the reader gives them. -/
def Numbered : ShiftCounts → List Tag → Prop
  | _, [] => True
  | counts, tag :: rest => tag.IsNumbered counts ∧ Numbered (counts.next tag) rest

/-- The later tags are numbered from the counts that the earlier ones lead to. -/
theorem numbered_append {counts : ShiftCounts} {first second : List Tag} :
    Numbered counts (first ++ second) ↔
      Numbered counts first ∧ Numbered (first.foldl ShiftCounts.next counts) second := by
  induction first generalizing counts with
  | nil => exact ⟨fun h => ⟨trivial, h⟩, And.right⟩
  | cons tag rest ih => rw [List.cons_append, Numbered, Numbered, ih, and_assoc, List.foldl_cons]

/-- The tags would run together: after `null`, another `null` or an array would be taken for the
continuation of a word or of a reference. -/
def runsTogether [Alphabet] : Tag → Tag → Bool
  | null, null => Name.continuesReference 'n'
  | null, arrayStart => true
  | _, _ => false

/-- No two neighbours run together. -/
def Spaced [Alphabet] : List Tag → Prop
  | first :: second :: rest => runsTogether first second = false ∧ Spaced (second :: rest)
  | _ => True

/-- The tag is `null`. -/
def isNull : Tag → Bool
  | null => true
  | _ => false

/-- Only a blank stands before a tag. -/
theorem isBlank_of_mem_space (afterNull : Bool) (tag : Tag) :
    ∀ c ∈ tag.space afterNull, isBlank c = true := by
  cases tag with
  | reference edge =>
    show ∀ c ∈ (if afterNull then [' '] else []), isBlank c = true
    cases afterNull <;> exact List.all_eq_true.mp (by decide)
  | _ => nofun

end Tag

/-! ### Pieces read back -/

variable [Alphabet]

/-- The piece can be written. -/
def Line.IsValid : Line → Prop
  | .single tag => tag.IsValid
  | .token start _ => start.IsValid ∧ Line.isToken start = true

/-- The pieces of valid tags are valid. -/
theorem Line.isValid_ofTags {tags : List Tag} (h : ∀ tag ∈ tags, tag.IsValid) :
    ∀ line ∈ Line.ofTags tags, line.IsValid := by
  fun_induction Line.ofTags tags with try simp only [List.forall_mem_cons] at h ⊢
  | case1 => exact List.forall_mem_nil _
  | case2 start rest htoken ih => exact ⟨⟨h.1, htoken⟩, ih h.2.2⟩
  | case3 start rest htoken ih => exact ⟨h.1, h.2.1, ih h.2.2⟩
  | case4 start text rest htoken ih => exact ⟨⟨h.1, htoken⟩, ih h.2.2.2⟩
  | case5 start text rest htoken ih => exact ⟨h.1, h.2.1, h.2.2.1, ih h.2.2.2⟩
  | case6 tag rest _ _ ih => exact ⟨h.1, ih h.2⟩

namespace Tag

variable {counts : ShiftCounts} {rest : List Char} {tags : List Tag}

/-- A token has marks, so that its content stands apart from its opening bracket. -/
theorem chars_token {start : OpenTag} (h : Line.isToken start = true) (content : Option String) :
    (Line.token start content).chars = '<' :: (start.bodyChars ++ ' ' :: ((match content with
      | some text => Text.literalText text.toList ++ [' ']
      | none => []) ++ ['/', '>'])) := by
  have htoken : start.flags.token = true := (Bool.and_eq_true_iff.mp h).1
  have hne : start.bodyChars.isEmpty = false := by
    simp [OpenTag.bodyChars_eq, NodeFlags.chars, htoken]
  cases content <;> simp [Line.chars, hne]

/-- A piece is read back as its tags. -/
theorem readTag_line {line : Line} (hv : line.IsValid) (hn : Numbered counts line.tags)
    (hr : line = .single .null → EndsNull rest) :
    Reads (readTag counts (line.chars ++ rest)) (line.tags, line.tags.foldl ShiftCounts.next counts)
      rest := by
  cases line with
  | single tag => exact readTag_chars hv hn.1 fun heq => hr (congrArg Line.single heq)
  | token start content =>
    obtain ⟨hstart, htoken⟩ := hv
    cases content with
    | none =>
      have htext : (Line.token start none).chars ++ rest =
          '<' :: (start.bodyChars ++ ' ' :: '/' :: '>' :: rest) := by
        simp [chars_token htoken]
      rw [htext]
      exact readTag_empty hstart
    | some text =>
      have htext : (Line.token start (some text)).chars ++ rest = '<' :: (start.bodyChars ++
          ' ' :: (Text.literalText text.toList ++ ' ' :: '/' :: '>' :: rest)) := by
        simp [chars_token htoken]
      rw [htext]
      exact readTag_filled hstart text

/-- No piece starts with a blank. -/
theorem stops_isBlank_line {line : Line} (hv : line.IsValid) (rest : List Char) :
    Stops isBlank (line.chars ++ rest) := by
  cases line with
  | single tag => exact stops_isBlank_chars hv rest
  | token start content => exact stops_cons (by decide) _

/-- The tags at the front of a text are read, and then the others. -/
theorem readAll_of_reads {input trimmed : List Char} {later : List Tag} {after : ShiftCounts}
    (hs : skipBlanks input = trimmed) (h : Reads (readTag counts trimmed) (tags, after) rest)
    (hl : readAll after rest = .ok later) : readAll counts input = .ok (tags ++ later) := by
  subst hs
  obtain ⟨short, hread⟩ := h
  have hne : ¬ (skipBlanks input).isEmpty = true := by
    intro hempty
    rw [List.isEmpty_iff] at hempty
    rw [hempty] at short
    exact Nat.not_lt_zero _ short
  rw [readAll, if_neg hne, hread]
  simp only [bind, Except.bind, hl]
  rfl

/-- The text is made of pieces, with blanks between them, that hold the tags. -/
inductive Writes : ShiftCounts → List Char → List Tag → Prop where
  | done {counts : ShiftCounts} {blanks : List Char} (hb : ∀ c ∈ blanks, isBlank c = true) :
    Writes counts blanks []
  | line {counts : ShiftCounts} {blanks text : List Char} {line : Line} {tags : List Tag}
    (hb : ∀ c ∈ blanks, isBlank c = true) (hv : line.IsValid) (hn : Numbered counts line.tags)
    (hr : line = .single .null → EndsNull text)
    (h : Writes (line.tags.foldl ShiftCounts.next counts) text tags) :
    Writes counts (blanks ++ (line.chars ++ text)) (line.tags ++ tags)

/-- What a text writes is read from it. -/
theorem Writes.readAll {text : List Char} (h : Writes counts text tags) :
    readAll counts text = .ok tags := by
  induction h with
  | @done counts blanks hb =>
    have hskip : skipBlanks blanks = [] := by
      have happend := Text.skipBlanks_append hb (Text.stops_nil isBlank)
      rwa [List.append_nil] at happend
    rw [Tag.readAll, if_pos (by rw [hskip]; rfl)]
  | @line counts blanks text line tags hb hv hn hr h ih =>
    exact readAll_of_reads (Text.skipBlanks_append hb (stops_isBlank_line hv text))
      (readTag_line hv hn hr) ih

/-! ### Canonical text -/

/-- The canonical text of a valid tag, with the space before it, stands before that of the others.
-/
theorem canonicalChars_cons (hv : tag.IsValid) (afterNull : Bool) (rest : List Tag) :
    canonicalChars afterNull (tag :: rest) =
      tag.space afterNull ++ (tag.chars ++ canonicalChars tag.isNull rest) := by
  cases tag with
  | embedded | effect => exact hv.elim
  | _ => exact List.append_assoc ..

/-- In the canonical text, what follows `null` cannot be taken for its continuation. -/
theorem endsNull_canonicalChars (hv : ∀ tag ∈ tags, tag.IsValid)
    (hs : Spaced (.null :: tags)) : EndsNull (canonicalChars true tags) := by
  cases tags with
  | nil => exact Text.stops_nil _
  | cons tag rest =>
    have hvalid := hv tag List.mem_cons_self
    rw [canonicalChars_cons hvalid]
    cases tag with
    | null =>
      have hword : Name.continuesReference 'n' = false := hs.1
      refine stops_cons ?_ _
      rw [hword, Bool.false_or]
      decide
    | arrayStart => cases hs.1
    | literal text =>
      rw [chars]
      obtain ⟨quote, later, hquote, hliteral⟩ := Text.exists_cons_literalText text.toList
      rw [hliteral]
      rcases Text.eq_of_isQuote hquote with rfl | rfl <;> exact endsNull_cons (by decide) _
    | doctype header =>
      rw [chars, Doctype.chars_eq]
      exact endsNull_cons (by decide) _
    | embedded | effect => exact hvalid.elim
    | _ => exact endsNull_cons (by decide) _

/-- The canonical text writes the tags. -/
theorem writes_canonicalChars (hv : ∀ tag ∈ tags, tag.IsValid)
    (hn : Numbered counts tags) (hs : Spaced tags) (afterNull : Bool) :
    Writes counts (canonicalChars afterNull tags) tags := by
  induction tags generalizing counts afterNull with
  | nil => exact .done nofun
  | cons tag rest ih =>
    obtain ⟨hvalid, hlater⟩ := List.forall_mem_cons.mp hv
    have hspaced : Spaced rest := by
      cases rest with
      | nil => trivial
      | cons second rest => exact hs.2
    have hnull : Line.single tag = .single .null → EndsNull (canonicalChars tag.isNull rest) := by
      rintro ⟨⟩
      exact endsNull_canonicalChars hlater hs
    have hline : (Line.single tag).IsValid := hvalid
    have hcounts : Numbered counts (Line.single tag).tags := ⟨hn.1, trivial⟩
    rw [canonicalChars_cons hvalid]
    exact .line (isBlank_of_mem_space afterNull tag) hline hcounts hnull
      (ih hlater hn.2 hspaced tag.isNull)

end Tag

namespace Line

/-! ### Pretty text -/

variable {margins : Margins}

/-- What comes before a piece is no continuation of `null`. -/
theorem endsNull_separator (layout : Layout) (margin : String) (inline : Bool) (rest : List Char) :
    Tag.EndsNull ((separator layout margin inline).flatMap String.toList ++ rest) := by
  unfold separator
  split <;> exact Tag.endsNull_cons (by decide) _

/-- The characters of the pieces after the first, each with what stands before it. -/
theorem flatMap_laterTexts_cons (layout : Layout) (margins : Margins) (inline : Bool) (line : Line)
    (rest : List Line) :
    (laterTexts layout margins inline (line :: rest)).flatMap String.toList =
      (separator layout (line.marginsAt margins).current inline).flatMap String.toList ++
        (line.chars ++ (laterTexts layout (line.marginsAfter layout (line.marginsAt margins))
          line.expectsValue rest).flatMap String.toList) := by
  simp [laterTexts, print]

/-- After a piece, what follows `null` is a space or a line break. -/
theorem endsNull_laterTexts (layout : Layout) (margins : Margins) (inline : Bool)
    (lines : List Line) :
    Tag.EndsNull ((laterTexts layout margins inline lines).flatMap String.toList) := by
  cases lines with
  | nil => exact Text.stops_nil _
  | cons line rest =>
    rw [flatMap_laterTexts_cons]
    exact endsNull_separator layout _ inline _

variable {counts : Tag.ShiftCounts} {lines : List Line}
  (hl : ∀ c ∈ layout.indent.toList, isBlank c = true) (hv : ∀ line ∈ lines, line.IsValid)
  (hn : Tag.Numbered counts (lines.flatMap tags))

include hl hv hn

/-- The pieces after the first write their tags. -/
theorem writes_laterTexts (hm : AreBlank margins) (inline : Bool) :
    Tag.Writes counts ((laterTexts layout margins inline lines).flatMap String.toList)
      (lines.flatMap tags) := by
  induction lines generalizing counts margins inline with
  | nil => exact .done nofun
  | cons line rest ih =>
    obtain ⟨hvalid, hlater⟩ := List.forall_mem_cons.mp hv
    rw [List.flatMap_cons, Tag.numbered_append] at hn
    rw [flatMap_laterTexts_cons, List.flatMap_cons]
    exact .line (isBlank_of_mem_separator (hm.marginsAt line) inline) hvalid hn.1
      (fun _ => endsNull_laterTexts layout _ _ rest)
      (ih hlater hn.2 ((hm.marginsAt line).marginsAfter hl line) _)

/-- The pieces write their tags. -/
theorem writes_texts :
    Tag.Writes counts ((texts layout lines).flatMap String.toList) (lines.flatMap tags) := by
  cases lines with
  | nil => exact .done nofun
  | cons line rest =>
    obtain ⟨hvalid, hlater⟩ := List.forall_mem_cons.mp hv
    have hmargins : AreBlank [] := nofun
    have htext : (texts layout (line :: rest)).flatMap String.toList =
        [] ++ (line.chars ++ (laterTexts layout (line.marginsAfter layout []) line.expectsValue
          rest).flatMap String.toList) := by
      simp [texts, print]
    rw [List.flatMap_cons, Tag.numbered_append] at hn
    rw [htext, List.flatMap_cons]
    exact .line nofun hvalid hn.1 (fun _ => endsNull_laterTexts layout _ _ rest)
      (writes_laterTexts hl hlater hn.2 (hmargins.marginsAfter hl line) _)

end Line

namespace Tag

/-- A valid tag is visible. -/
theorem isVisible_of_isValid (hv : tag.IsValid) : tag.isVisible = true := by
  cases tag with
  | embedded | effect => exact hv.elim
  | _ => rfl

variable {tags : List Tag}

/-- The canonical text of tags is read as the tags, if they are valid, numbered as the reader
numbers them, and do not run together. -/
theorem parse_canonicalText (hv : ∀ tag ∈ tags, tag.IsValid) (hn : Numbered [0] tags)
    (hs : Spaced tags) : parse (canonical tags) = .ok tags := by
  have hread := (writes_canonicalChars hv hn hs false).readAll
  rw [parse, canonical, String.toList_ofList, hread]
  rfl

/-- The pretty text of tags is read as the tags, if they are valid and numbered as the reader
numbers them. -/
theorem parse_prettyText (hv : ∀ tag ∈ tags, tag.IsValid) (hn : Numbered [0] tags)
    (hl : ∀ c ∈ layout.indent.toList, isBlank c = true) :
    parse (pretty layout tags) = .ok tags := by
  have hvisible : tags.filter isVisible = tags :=
    List.filter_eq_self.mpr fun tag hmem => isVisible_of_isValid (hv tag hmem)
  have hpieces := Line.flatMap_tags_ofTags tags
  rw [← hpieces] at hn
  have hread := (Line.writes_texts hl (Line.isValid_ofTags hv) hn).readAll
  rw [hpieces] at hread
  rw [parse, pretty, hvisible, String.toList_join, hread]
  rfl

end Tag

end TagTree
