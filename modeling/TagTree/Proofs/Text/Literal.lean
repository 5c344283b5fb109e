import TagTree.Proofs.Text.Utf8

/-!
# Literals in bytes

Bytes are read as a quoted text exactly if the grammar admits them and the bytes that they stand for
are UTF-8 (`readQuotedBytes_iff`). What was written as a quoted text is read back, whatever follows
it (`readQuotedBytes_quoted`).
-/

namespace TagTree.Text

/-- So many first bytes of an input are a literal for the text: a quote, and what is written for
pieces up to the next such quote, whose bytes are the UTF-8 form of the text. -/
def IsLiteral (plus : Bool) (input : List UInt8) (text : String) (used : Nat) : Prop :=
  ∃ quote mark written pieces rest, isQuote quote = true ∧ CodeUnit.code mark = quote.toNat ∧
    input = mark :: (written ++ rest) ∧ used = (mark :: written).length ∧
    Spells plus quote.toNat written pieces ∧ pieces.flatMap Piece.toBytes = utf8 text.toList

section Bytes

variable {input : List UInt8} {text : String} {used : Nat}

/-- Bytes are valid exactly if they are those of a text. -/
theorem fromUTF8?_eq_some_iff {bytes : List UInt8} :
    String.fromUTF8? ⟨bytes.toArray⟩ = some text ↔ bytes = utf8 text.toList := by
  constructor
  · intro h
    rw [String.fromUTF8?] at h
    split at h
    · rename_i hvalid
      have hbytes : text.toByteArray = ⟨bytes.toArray⟩ := congrArg _ (Option.some.inj h).symm
      rw [← String.utf8Encode_toList, utf8Encode_eq] at hbytes
      exact (List.toArray_inj (ByteArray.mk.inj hbytes)).symm
    · cases h
  · intro h
    rw [h, fromUTF8?_utf8, String.ofList_toList]

theorem ofPieces_eq_ok {result : Except (QuoteError UInt8) (List (Piece UInt8) × List UInt8)} :
    ofPieces input result = .ok (text, used) ↔ ∃ pieces rest, result = .ok (pieces, rest) ∧
      pieces.flatMap Piece.toBytes = utf8 text.toList ∧ used = input.length - rest.length := by
  constructor
  · intro h
    rw [ofPieces.eq_def] at h
    split at h
    · cases h
    · rename_i pieces rest
      split at h
      · rename_i hbytes
        cases h
        exact ⟨pieces, rest, rfl, fromUTF8?_eq_some_iff.mp hbytes, rfl⟩
      · cases h
  · rintro ⟨pieces, rest, rfl, hbytes, rfl⟩
    exact ofPieces_of_fromUTF8? (fromUTF8?_eq_some_iff.mpr hbytes)

theorem readQuotedBytes_eq_ok :
    readQuotedBytes input = .ok (text, used) ↔ IsLiteral true input text used := by
  have hused : ∀ (mark : UInt8) (written rest : List UInt8),
      (mark :: (written ++ rest)).length - rest.length = (mark :: written).length := by
    intro mark written rest
    simp only [List.length_cons, List.length_append]
    omega
  rw [readQuotedBytes_eq, ofPieces_eq_ok]
  constructor
  · rintro ⟨pieces, rest, hpieces, hbytes, rfl⟩
    obtain ⟨quote, mark, written, hq, hmark, rfl, hspells⟩ := outcome_readPieces_eq_ok.mp hpieces
    exact ⟨quote, mark, written, pieces, rest, hq, hmark, rfl, hused .., hspells, hbytes⟩
  · rintro ⟨quote, mark, written, pieces, rest, hq, hmark, rfl, rfl, hspells, hbytes⟩
    exact ⟨pieces, rest, outcome_readPieces_eq_ok.mpr
      ⟨quote, mark, written, hq, hmark, rfl, hspells⟩,
      hbytes, (hused ..).symm⟩

theorem readQuotedBytes_le {error : QuoteFault × Nat} (h : readQuotedBytes input = .error error) :
    error.2 ≤ input.length := by
  rw [readQuotedBytes_eq, ofPieces.eq_def] at h
  split at h
  · cases h
    exact Nat.sub_le ..
  · split at h <;> cases h
    exact Nat.sub_le ..

end Bytes

/-- Exactly the literals are read. On any other input there is an error, at a place that is not
beyond the input. A literal may have a plus sign before the digits of a code point. -/
theorem readQuotedBytes_iff (input : List UInt8) :
    (∀ text used, readQuotedBytes input = .ok (text, used) ↔ IsLiteral true input text used) ∧
      ((∃ text used, IsLiteral true input text used) ∨
        ∃ fault offset, readQuotedBytes input = .error (fault, offset) ∧
          offset ≤ input.length) := by
  refine ⟨fun text used => readQuotedBytes_eq_ok, ?_⟩
  cases h : readQuotedBytes input with
  | ok found => exact .inl ⟨found.1, found.2, readQuotedBytes_eq_ok.mp h⟩
  | error error => exact .inr ⟨error.1, error.2, rfl, readQuotedBytes_le h⟩

/-- The bytes of `'\u{+41}'`. -/
def plusLiteral : List UInt8 :=
  [39, 92, 117, 123, 43, 52, 49, 125, 39]

/-- A plus sign before the digits of a code point is read, although it is no digit. -/
theorem readQuotedBytes_plus : readQuotedBytes plusLiteral = .ok ("A", 9) ∧
    ¬ ∃ text used, IsLiteral false plusLiteral text used := by
  constructor
  · have hfour : IsDigit 16 52 4 := ⟨by decide, .inl rfl⟩
    have hone : IsDigit 16 49 1 := ⟨by decide, .inl rfl⟩
    have hpoint : IsCodePoint true [43, 52, 49] 'A'.toNat :=
      .inr ⟨rfl, [52, 49], rfl, .more (.digit hfour) hone⟩
    have hescape : Escape true (117 :: 123 :: ([43, 52, 49] ++ [125]) : List UInt8) 'A' :=
      .point rfl rfl hpoint rfl
    exact readQuotedBytes_eq_ok.mpr ⟨'\'', 39, [92, 117, 123, 43, 52, 49, 125, 39], [.escaped 'A'],
      [], rfl, rfl, rfl, rfl, .escape rfl hescape (.close rfl), rfl⟩
  · rintro ⟨text, used, quote, mark, written, pieces, rest, -, hmark, hinput, -, hspells, -⟩
    obtain ⟨rfl, hrest⟩ := List.cons.inj hinput
    cases hspells with
    | close h =>
      obtain ⟨rfl, -⟩ := List.cons.inj hrest
      cases h.trans hmark.symm
    | plain _ hb _ =>
      obtain ⟨rfl, -⟩ := List.cons.inj hrest
      exact hb rfl
    | escape _ he _ =>
      obtain ⟨-, hrest⟩ := List.cons.inj hrest
      cases he with
      | letter hl hm =>
        obtain ⟨rfl, -⟩ := List.cons.inj hrest
        exact (toNat_of_mem_letters hm).2 hl.symm
      | @point _ _ _ digits _ _ _ hd _ =>
        obtain ⟨-, hrest⟩ := List.cons.inj (List.cons.inj hrest).2
        have hnumeral := (number?_eq_some_iff (Nat.le_refl 16)).mpr (hd.resolve_right (by simp))
        cases digits with
        | nil => cases hnumeral
        | cons digit digits =>
          obtain ⟨rfl, -⟩ := List.cons.inj hrest
          cases hnumeral

/-! ### Reading back -/

/-- The pieces of the bytes of a text stand for its bytes. -/
theorem flatMap_toBytes_piecesOf (quote : Char) (text : List Char) :
    (text.flatMap (piecesOf String.utf8EncodeChar quote)).flatMap Piece.toBytes = utf8 text := by
  induction text with
  | nil => rfl
  | cons c text ih =>
    rw [List.flatMap_cons, List.flatMap_append, ih, piecesOf, utf8_cons]
    congr 1
    split
    · exact flatMap_toBytes_plain _
    · exact List.append_nil _

theorem isLiteral_quoted {quote : Char} (hq : isQuote quote = true) (text : String)
    (rest : List UInt8) :
    IsLiteral true (utf8 (quoted quote text.toList) ++ rest) text
      (utf8 (quoted quote text.toList)).length := by
  obtain ⟨mark, written, hmark, hwritten, hspells⟩ :=
    exists_spells_quoted encodes_utf8 hq text.toList
  have hbytes : utf8 (quoted quote text.toList) = mark :: written := hwritten
  rw [hbytes]
  exact ⟨quote, mark, written, _, rest, hq, hmark, rfl, rfl, hspells, flatMap_toBytes_piecesOf ..⟩

/-- A text is read back from its literal, in quotes of either kind or in those that fit it best,
and exactly the bytes of the literal are used. -/
theorem readQuotedBytes_quoted (text : String) (quote : Char) (hq : quote = '\'' ∨ quote = '"')
    (rest : List UInt8) :
    readQuotedBytes (utf8 (quoted quote text.toList) ++ rest) =
        .ok (text, (utf8 (quoted quote text.toList)).length) ∧
      readQuotedBytes (utf8 (literalText text.toList) ++ rest) =
        .ok (text, (utf8 (literalText text.toList)).length) := by
  have hquote : isQuote quote = true := by
    rcases hq with rfl | rfl <;> rfl
  obtain ⟨best, hbest, hliteral⟩ := exists_literalText text.toList
  rw [hliteral]
  exact ⟨readQuotedBytes_eq_ok.mpr (isLiteral_quoted hquote text rest),
    readQuotedBytes_eq_ok.mpr (isLiteral_quoted hbest text rest)⟩

/-- Both quotes, a backslash, a line feed, a control character and characters of several bytes, with
a quote and a byte of no text after the literal. -/
theorem readQuotedBytes_quoted_mixed :
    ('\'' = '\'' ∨ '\'' = '"') ∧
    readQuotedBytes (utf8 (quoted '\'' "it's \"\\u\"\n\x01é😀".toList) ++ [39, 255]) =
      .ok ("it's \"\\u\"\n\x01é😀", 26) ∧
    readQuotedBytes (utf8 (literalText "'".toList) ++ [39, 255]) = .ok ("'", 3) := by
  have hlength : (utf8 (quoted '\'' "it's \"\\u\"\n\x01é😀".toList)).length = 26 := by decide
  have hmixed := (readQuotedBytes_quoted "it's \"\\u\"\n\x01é😀" '\'' (.inl rfl) [39, 255]).1
  rw [hlength] at hmixed
  exact ⟨.inl rfl, hmixed, (readQuotedBytes_quoted "'" '\'' (.inl rfl) [39, 255]).2⟩

end TagTree.Text
