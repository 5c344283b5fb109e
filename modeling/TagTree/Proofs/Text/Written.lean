import TagTree.Builder.Run
import TagTree.Proofs.Text.Validity

/-!
# Tags read back from their text

Tags that were read from a text are read again from their pretty text, whatever blanks it is
indented by (`Tag.parse_pretty`). From their canonical text they are read again exactly if no `null`
runs together with what follows it (`Tag.parse_canonical_iff`). The tags need not form a tree.
-/

namespace TagTree

open Text (Parsed Reads Stops)

/-- What is left after a run stops it. -/
theorem Text.stops_dropWhile {υ : Type} (test : υ → Bool) (text : List υ) :
    Stops test (text.dropWhile test) := by
  intro unit hunit
  have hhead := List.head?_dropWhile_not test text
  rw [Option.mem_def.mp hunit] at hhead
  exact hhead

namespace Tag

variable {counts : ShiftCounts} {rest : List Char} {tags : List Tag}

/-! ### What follows `null` -/

section Reading

variable [Alphabet]

/-- The name at the front of a text that starts with `null` is as long as it can be. -/
theorem readName_null (hn : Name.isReferenceName "null" = true) (rest : List Char) :
    Reads (readName (null.chars ++ rest))
      (String.ofList (null.chars ++ rest.takeWhile Name.continuesReference))
      (rest.dropWhile Name.continuesReference) := by
  have hcontinues : (rest.takeWhile Name.continuesReference).all Name.continuesReference = true :=
    List.all_takeWhile ..
  have hword : Name.isWord Name.continuesReference
      (null.chars ++ rest.takeWhile Name.continuesReference) = true := by
    have hnull : Name.isWord Name.continuesReference ['n', 'u', 'l', 'l'] = true :=
      ((Name.isReferenceName_iff.mp hn).resolve_left (by decide)).resolve_left (by decide)
    rw [Name.isWord, Bool.and_eq_true] at hnull
    rw [chars, List.cons_append, Name.isWord, List.all_append, hnull.1, hnull.2, hcontinues]
    rfl
  have hread := readName_of_word
    (Text.head?_ne_of_isWord hword (Name.startsWord_eq_false (by decide)) _)
    (Text.head?_ne_of_isWord hword (Name.startsWord_eq_false (by decide)) _)
    (Text.word?_append hword (Text.stops_dropWhile Name.continuesReference rest))
  rwa [List.append_assoc, List.takeWhile_append_dropWhile] at hread

/-- The word `null` is read only if what follows makes it neither a longer word nor a reference. -/
theorem endsNull_of_readWord (hn : Name.isReferenceName "null" = true)
    {parsed : Parsed Char Tag (null.chars ++ rest).length}
    (h : readWord (null.chars ++ rest) = .ok parsed) (hnull : parsed.value = null) :
    EndsNull rest := by
  obtain ⟨short, hname⟩ := readName_null hn rest
  obtain ⟨named, hnamed, h⟩ := bind_eq_ok.mp h
  obtain rfl := Except.ok.inj (hname.symm.trans hnamed)
  dsimp only at h
  split at h
  · rename_i hword
    obtain ⟨hword, hlast⟩ := hword
    have hnone : rest.takeWhile Name.continuesReference = [] := by
      have hlist := congrArg String.toList hword
      rw [String.toList_ofList] at hlist
      exact List.append_right_eq_self.mp hlist
    have hdrop : rest.dropWhile Name.continuesReference = rest := by
      have hsplit := List.takeWhile_append_dropWhile (p := Name.continuesReference) (l := rest)
      rwa [hnone] at hsplit
    have hcontinues := Text.stops_dropWhile Name.continuesReference rest
    rw [hdrop] at hcontinues hlast
    intro c hc
    rw [Option.mem_def.mp hc] at hlast
    exact Bool.or_eq_false_iff.mpr ⟨hcontinues c hc, Bool.eq_false_iff.mpr hlast⟩
  · obtain ⟨⟨⟨isArray, index⟩, indexed, _⟩, -, h⟩ := bind_eq_ok.mp h
    dsimp only at h
    split at h
    · cases h
    · obtain ⟨edge, -, h⟩ := bind_eq_ok.mp h
      obtain rfl := Except.ok.inj h
      cases hnull

/-- The tag `null` is read only if what follows ends it. -/
theorem endsNull_of_readTag (hn : Name.isReferenceName "null" = true) {later : List Tag}
    {parsed : Parsed Char (List Tag × ShiftCounts) (null.chars ++ rest).length}
    (h : readTag counts (null.chars ++ rest) = .ok parsed)
    (hnull : null :: tags = parsed.value.1 ++ later) : EndsNull rest := by
  have hquote : Text.isQuote 'n' = false := by decide
  have hany : ¬ ('n' :: 'u' :: 'l' :: 'l' :: rest).head?.any Text.isQuote = true :=
    Bool.eq_false_iff.mp hquote
  have hread : readTag counts ('n' :: 'u' :: 'l' :: 'l' :: rest) = .ok parsed := h
  rw [readTag] at hread
  · rw [if_neg hany] at hread
    obtain ⟨word, hword, hread⟩ := bind_eq_ok.mp hread
    obtain rfl := Except.ok.inj hread
    exact endsNull_of_readWord hn hword (List.cons.inj hnull).1.symm
  all_goals simp

/-- In the canonical text, what can be taken for the continuation of `null` runs together with it.
-/
theorem runsTogether_of_endsNull {second : Tag} (hv : second.IsValid)
    (h : EndsNull (canonicalChars true (second :: tags))) : runsTogether null second = false := by
  rw [canonicalChars_cons hv] at h
  cases second with
  | null => exact (Bool.or_eq_false_iff.mp (h _ rfl)).1
  | arrayStart => exact absurd (Bool.or_eq_false_iff.mp (h _ rfl)).2 (by decide)
  | _ => rfl

/-! ### Reading in steps -/

/-- A text with tags is read one piece after the other. -/
theorem readAll_eq_ok {input trimmed : List Char}
    (hs : Text.skipBlanks input = trimmed) (h : readAll counts input = .ok tags) (hne : tags ≠ []) :
    ∃ parsed : Parsed Char (List Tag × ShiftCounts) trimmed.length,
      readTag counts trimmed = .ok parsed ∧ ∃ later,
        readAll parsed.value.2 parsed.rest = .ok later ∧ tags = parsed.value.1 ++ later := by
  subst hs
  rw [readAll] at h
  split at h
  · exact absurd (Except.ok.inj h).symm hne
  · obtain ⟨parsed, hparsed, h⟩ := bind_eq_ok.mp h
    obtain ⟨later, hlater, h⟩ := bind_eq_ok.mp h
    exact ⟨parsed, hparsed, later, hlater, (Except.ok.inj h).symm⟩

/-- Tags that are read from their canonical text do not run together. -/
theorem spaced_of_readAll (hv : ∀ tag ∈ tags, tag.IsValid)
    (hn : Numbered counts tags) {afterNull : Bool}
    (h : readAll counts (canonicalChars afterNull tags) = .ok tags) : Spaced tags := by
  induction tags generalizing counts afterNull with
  | nil => trivial
  | cons tag tags ih =>
    obtain ⟨hvalid, hlater⟩ := List.forall_mem_cons.mp hv
    rw [canonicalChars_cons hvalid] at h
    have htrimmed := Text.skipBlanks_append (isBlank_of_mem_space afterNull tag)
      (stops_isBlank_chars hvalid (canonicalChars tag.isNull tags))
    obtain ⟨parsed, hparsed, later, hrest, hsplit⟩ :=
      readAll_eq_ok htrimmed h (List.cons_ne_nil tag tags)
    have hends : tag = null → EndsNull (canonicalChars tag.isNull tags) := by
      rintro rfl
      exact endsNull_of_readTag hvalid hparsed hsplit
    -- The first piece is the tag, and so the others are read from what follows it.
    obtain ⟨short, hread⟩ := readTag_chars hvalid hn.1 hends
    obtain rfl := Except.ok.inj (hread.symm.trans hparsed)
    obtain rfl := (List.cons.inj hsplit).2
    have hspaced := ih hlater hn.2 hrest
    cases tags with
    | nil => trivial
    | cons second tags =>
      refine ⟨?_, hspaced⟩
      cases tag with
      | null => exact runsTogether_of_endsNull (hlater second List.mem_cons_self) (hends rfl)
      | _ => rfl

end Reading

instance decidableSpaced [Alphabet] : (tags : List Tag) → Decidable (Spaced tags)
  | [] | [_] => isTrue trivial
  | _ :: second :: rest => @instDecidableAnd _ _ _ (decidableSpaced (second :: rest))

/-! ### Texts -/

/-- A text whose tags form no tree: values stand outside of nodes, and nodes are closed that were
not opened. It has a header, quotes, shifts, marks, an index, a language and attributes. -/
def looseText : String :=
  "null ^^^ ^^^ 'it\\'s' <*Digit '1'/> <+$'x-y':Sum deep=\x7ba: [1, null]\x7d> rest[2]+: null\n" ++
    "  x: [] ^^^ <//> </> null <*# strict/> </> \"\\n\" <!0:cstml language='calc'> <k='v'> null x: null"

/-- Tags that were read from a text are read again from their canonical text, exactly if no `null`
is directly followed by another `null` or by the start of an array. -/
theorem parse_canonical_iff [Alphabet] {text : String} {tags : List Tag}
    (h : parse text = .ok tags) :
    parse (canonical tags) = .ok tags ↔ Spaced tags := by
  obtain ⟨hvalid, hnumbered⟩ := parse_eq_ok h
  refine ⟨fun hread => ?_, parse_canonicalText hvalid hnumbered⟩
  have hall := readAll_of_parse hread
  rw [canonical, String.toList_ofList] at hall
  exact spaced_of_readAll hvalid hnumbered hall

/-- Of two texts, one has tags that stand apart, and the other tags that run together. -/
theorem parse_canonical_iff_of_loose :
    (∃ tags, parse looseText = .ok tags ∧ Spaced tags ∧ parse (canonical tags) = .ok tags) ∧
    ∃ tags, parse "null []" = .ok tags ∧ ¬ Spaced tags ∧ ¬ parse (canonical tags) = .ok tags := by
  obtain ⟨tags, hread, hspaced⟩ : ∃ tags, parse looseText = .ok tags ∧ Spaced tags := by
    decide +kernel
  obtain ⟨others, hothers, hunspaced⟩ : ∃ tags, parse "null []" = .ok tags ∧ ¬ Spaced tags := by
    decide +kernel
  exact ⟨⟨tags, hread, hspaced, (parse_canonical_iff hread).mpr hspaced⟩,
    others, hothers, hunspaced, fun h => hunspaced ((parse_canonical_iff hothers).mp h)⟩

/-- Tags that were read from a text are read again from their pretty text, with any blanks for the
indentation and with values on lines of their own or not. -/
theorem parse_pretty [Alphabet] {text : String} {tags : List Tag} (h : parse text = .ok tags)
    (layout : Layout) (hindent : ∀ c ∈ layout.indent.toList, Text.isBlank c = true) :
    parse (pretty layout tags) = .ok tags := by
  obtain ⟨hvalid, hnumbered⟩ := parse_eq_ok h
  exact parse_prettyText hvalid hnumbered hindent

/-- The tags of that text are read again from it in lines, with two layouts. -/
theorem parse_pretty_of_loose :
    ∃ tags, parse looseText = .ok tags ∧ (∀ tree, Tree.ofTags tags ≠ .ok tree) ∧
      parse (pretty ⟨" \t", true⟩ tags) = .ok tags ∧
        parse (pretty ⟨"", false⟩ tags) = .ok tags := by
  obtain ⟨tags, hread, hnone⟩ : ∃ tags, parse looseText = .ok tags ∧
      (Tree.ofTags tags).toOption.isNone = true := by decide +kernel
  have hblank : ∀ c ∈ " \t".toList, Text.isBlank c = true := List.all_eq_true.mp (by decide)
  refine ⟨tags, hread, fun tree htree => ?_, parse_pretty hread ⟨" \t", true⟩ hblank,
    parse_pretty hread ⟨"", false⟩ nofun⟩
  rw [htree] at hnone
  cases hnone

end Tag

end TagTree
