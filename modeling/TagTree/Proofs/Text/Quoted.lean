import TagTree.Proofs.Text.Pieces

/-!
# Quoted text reads back

Whatever the units in which a quoted text is written, the grammar admits them for the pieces that
its characters were written as (`exists_spells_quoted`). So the text itself is read
(`readLiteral_literalText`).
-/

namespace TagTree.Text

variable {υ : Type} [CodeUnit υ]

/-- Characters are written in units so that the ASCII characters keep their codes, and no other
character has a unit with one of these. -/
structure Encodes (encode : Char → List υ) : Prop where
  ascii : ∀ c : Char, c.toNat < 128 → ∃ unit, encode c = [unit] ∧ CodeUnit.code unit = c.toNat
  other : ∀ c : Char, 128 ≤ c.toNat → ∀ unit ∈ encode c, 128 ≤ CodeUnit.code unit

/-- A character is its own unit. -/
theorem encodes_chars : Encodes fun c : Char => [c] where
  ascii c _ := ⟨c, rfl, rfl⟩
  other c h unit hmem := by
    obtain rfl := List.mem_singleton.mp hmem
    exact h

/-- The pieces as which a character is read. -/
def piecesOf (encode : Char → List υ) (quote c : Char) : List (Piece υ) :=
  if quoteChar quote c = [c] then (encode c).map .plain else [.escaped c]

variable {encode : Char → List υ} {plus : Bool} {quote c : Char} {rest written : List υ}
  {pieces : List (Piece υ)}

/-- Written ASCII characters have the codes of the characters. -/
theorem Encodes.map_code (he : Encodes encode) {text : List Char} (h : ∀ c ∈ text, c.toNat < 128) :
    (text.flatMap encode).map CodeUnit.code = text.map Char.toNat := by
  induction text with
  | nil => rfl
  | cons c text ih =>
    obtain ⟨unit, hunit, hcode⟩ := he.ascii c (h c List.mem_cons_self)
    rw [List.flatMap_cons, hunit, List.map_append, List.map_cons, List.map_nil, hcode,
      ih (List.forall_mem_cons.mp h).2]
    rfl

/-- A character that is written by its code point is spelled. -/
theorem spells_hexadecimal (he : Encodes encode) (c : Char)
    (h : Spells plus quote.toNat written pieces) :
    Spells plus quote.toNat
      (([backslash, 'u', '{'] ++ Nat.toDigits 16 c.toNat ++ ['}']).flatMap encode ++ written)
      (.escaped c :: pieces) := by
  obtain ⟨slash, hslash, hslashcode⟩ := he.ascii backslash (by decide)
  obtain ⟨letter, hletter, hlettercode⟩ := he.ascii 'u' (by decide)
  obtain ⟨brace, hbrace, hbracecode⟩ := he.ascii '{' (by decide)
  obtain ⟨closing, hclosing, hclosingcode⟩ := he.ascii '}' (by decide)
  have hnumeral := numeral_toDigits (by decide : 1 < 16) c.toNat
  have hcodes := he.map_code fun digit hmem =>
    Nat.lt_trans (hnumeral.code_lt (Nat.le_refl 16) (List.mem_map_of_mem hmem)).2.1 (by decide)
  rw [← hcodes] at hnumeral
  have htext :
      ([backslash, 'u', '{'] ++ Nat.toDigits 16 c.toNat ++ ['}']).flatMap encode ++ written =
      slash :: (letter :: brace :: ((Nat.toDigits 16 c.toNat).flatMap encode ++ [closing]) ++
        written) := by
    simp [hslash, hletter, hbrace, hclosing]
  rw [htext]
  exact .escape hslashcode (.point hlettercode hbracecode (.inl hnumeral) hclosingcode) h

/-- A character that is written by a letter is spelled. -/
theorem spells_letter (he : Encodes encode) {letter : Char} (hm : (letter, c) ∈ letters)
    (h : Spells plus quote.toNat written pieces) :
    Spells plus quote.toNat ([backslash, letter].flatMap encode ++ written)
      (.escaped c :: pieces) := by
  obtain ⟨slash, hslash, hslashcode⟩ := he.ascii backslash (by decide)
  obtain ⟨unit, hunit, hcode⟩ := he.ascii letter (toNat_of_mem_letters hm).1
  have htext : [backslash, letter].flatMap encode ++ written = slash :: ([unit] ++ written) := by
    simp [hslash, hunit]
  rw [htext]
  exact .escape hslashcode (.letter hcode hm) h

/-- The units of a character that is written plainly are spelled. -/
theorem spells_units {units : List υ} (hq : ∀ unit ∈ units, CodeUnit.code unit ≠ quote.toNat)
    (hb : ∀ unit ∈ units, CodeUnit.code unit ≠ backslash.toNat)
    (h : Spells plus quote.toNat written pieces) :
    Spells plus quote.toNat (units ++ written) (units.map .plain ++ pieces) := by
  induction units with
  | nil => exact h
  | cons unit units ih =>
    refine .plain (hq unit List.mem_cons_self) (hb unit List.mem_cons_self) ?_
    exact ih (List.forall_mem_cons.mp hq).2 (List.forall_mem_cons.mp hb).2

/-- No unit of a character has the code of another, ASCII character. -/
theorem Encodes.code_ne (he : Encodes encode) {other : Char} (ho : other.toNat < 128)
    (hne : c ≠ other) : ∀ unit ∈ encode c, CodeUnit.code unit ≠ other.toNat := by
  intro unit hmem hcode
  rcases Nat.lt_or_ge c.toNat 128 with hlt | hge
  · obtain ⟨found, hfound, hown⟩ := he.ascii c hlt
    rw [hfound] at hmem
    obtain rfl := List.mem_singleton.mp hmem
    exact hne (Char.toNat_inj.mp (hown.symm.trans hcode))
  · have := he.other c hge unit hmem
    omega

/-- The letter after a backslash stands for the character. -/
theorem mem_letters_of_escapeLetter? {letter : Char} (h : escapeLetter? c = some letter) :
    (letter, c) ∈ letters := by
  unfold escapeLetter? at h
  repeat' split at h
  all_goals cases h <;> subst_vars <;> decide

/-- A character is spelled as its pieces. -/
theorem spells_quoteChar (he : Encodes encode) (hq : isQuote quote = true) (c : Char)
    (h : Spells plus quote.toNat written pieces) :
    Spells plus quote.toNat ((quoteChar quote c).flatMap encode ++ written)
      (piecesOf encode quote c ++ pieces) := by
  obtain ⟨hascii, hquote, -⟩ := mem_letters_of_isQuote hq
  by_cases hc : c = quote
  · have hwritten : quoteChar quote c = [backslash, c] := by rw [quoteChar, if_pos hc]
    rw [piecesOf, hwritten, if_neg (by simp)]
    subst hc
    exact spells_letter he hquote h
  · cases hletter : escapeLetter? c with
    | some letter =>
      have hwritten : quoteChar quote c = [backslash, letter] := by
        rw [quoteChar, if_neg hc, hletter]
      rw [piecesOf, hwritten, if_neg (by simp)]
      exact spells_letter he (mem_letters_of_escapeLetter? hletter) h
    | none =>
      by_cases hcontrol : isControl c = true
      · have hwritten : quoteChar quote c =
            [backslash, 'u', '{'] ++ Nat.toDigits 16 c.toNat ++ ['}'] := by
          rw [quoteChar, if_neg hc, hletter]
          exact if_pos hcontrol
        rw [piecesOf, hwritten, if_neg (by simp)]
        exact spells_hexadecimal he c h
      · have hwritten : quoteChar quote c = [c] := by
          rw [quoteChar, if_neg hc, hletter]
          exact if_neg hcontrol
        have hbackslash : c ≠ backslash := by
          rintro rfl
          cases hletter
        rw [piecesOf, hwritten, if_pos rfl, List.flatMap_singleton]
        exact spells_units (he.code_ne hascii hc) (he.code_ne (by decide) hbackslash) h

/-- A quoted text is its quote and what is spelled for the pieces of its characters. -/
theorem exists_spells_quoted (he : Encodes encode) (hq : isQuote quote = true) (text : List Char) :
    ∃ mark written, CodeUnit.code mark = quote.toNat ∧
      (quoted quote text).flatMap encode = mark :: written ∧
      Spells plus quote.toNat written (text.flatMap (piecesOf encode quote)) := by
  obtain ⟨mark, hmark, hcode⟩ := he.ascii quote (mem_letters_of_isQuote hq).1
  refine ⟨mark, (text.flatMap (quoteChar quote)).flatMap encode ++ [mark], hcode, ?_, ?_⟩
  · simp [quoted, hmark]
  · induction text with
    | nil => exact .close hcode
    | cons c text ih =>
      have hstep := spells_quoteChar he hq c ih
      rwa [← List.append_assoc, ← List.flatMap_append, ← List.flatMap_cons,
        ← List.flatMap_cons] at hstep

/-- The pieces of characters stand for the text. -/
theorem map_toChar_piecesOf (quote : Char) (text : List Char) :
    (text.flatMap (piecesOf (fun c => [c]) quote)).map Piece.toChar = text := by
  induction text with
  | nil => rfl
  | cons c text ih =>
    rw [List.flatMap_cons, List.map_append, ih, piecesOf]
    split <;> rfl

theorem readQuoted_quoted (hq : isQuote quote = true) (text rest : List Char) :
    Reads (readQuoted (quoted quote text ++ rest)) (String.ofList text) rest := by
  obtain ⟨mark, written, hcode, htext, hspells⟩ := exists_spells_quoted encodes_chars hq text
  rw [List.flatMap_singleton'] at htext
  have hpieces : outcome (readPieces (mark :: (written ++ rest))) = _ :=
    outcome_readPieces_eq_ok.mpr ⟨quote, mark, written, hq, hcode, rfl, hspells⟩
  rw [htext]
  refine (reads_of_outcome hpieces).bind fun short => ⟨short, ?_⟩
  rw [Parsed.map, map_toChar_piecesOf]
  rfl

theorem exists_literalText (text : List Char) :
    ∃ quote, isQuote quote = true ∧ literalText text = quoted quote text := by
  unfold literalText
  split
  · exact ⟨'"', rfl, rfl⟩
  · exact ⟨'\'', rfl, rfl⟩

/-- A literal is read back. -/
theorem readLiteral_literalText (text : String) (rest : List Char) :
    Reads (readLiteral (literalText text.toList ++ rest)) text rest := by
  obtain ⟨quote, hquote, hliteral⟩ := exists_literalText text.toList
  obtain ⟨short, hread⟩ := readQuoted_quoted hquote text.toList rest
  rw [String.ofList_toList] at hread
  rw [hliteral]
  refine ⟨short, ?_⟩
  rw [readLiteral, hread]

/-- A literal starts with a quote. -/
theorem exists_cons_literalText (text : List Char) :
    ∃ quote later, isQuote quote = true ∧ literalText text = quote :: later := by
  obtain ⟨quote, hquote, hliteral⟩ := exists_literalText text
  exact ⟨quote, _, hquote, hliteral⟩

theorem any_isQuote_literalText (text rest : List Char) :
    (literalText text ++ rest).head?.any isQuote = true := by
  obtain ⟨quote, later, hquote, hliteral⟩ := exists_cons_literalText text
  rw [hliteral]
  exact hquote

theorem stops_literalText {test : Char → Bool} (hsingle : test '\'' = false)
    (hdouble : test '"' = false) (text rest : List Char) :
    Stops test (literalText text ++ rest) := by
  obtain ⟨quote, later, hquote, hliteral⟩ := exists_cons_literalText text
  rw [hliteral]
  rcases eq_of_isQuote hquote with rfl | rfl
  · exact stops_cons hsingle _
  · exact stops_cons hdouble _

end TagTree.Text
