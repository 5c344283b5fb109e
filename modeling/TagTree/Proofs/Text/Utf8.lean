import TagTree.Proofs.Text.Quoted

/-!
# Quoted text in UTF-8

A quoted text is read from the bytes of a text as from its characters, and what is read is always
the UTF-8 form of a text (`readQuotedBytes_utf8`).
-/

namespace TagTree.Text

/-! ### The UTF-8 form -/

/-- The bytes of a text in UTF-8. -/
def utf8 (text : List Char) : List UInt8 :=
  text.flatMap String.utf8EncodeChar

@[simp] theorem utf8_nil : utf8 [] = [] := rfl

@[simp] theorem utf8_cons (c : Char) (text : List Char) :
    utf8 (c :: text) = String.utf8EncodeChar c ++ utf8 text := rfl

theorem le_code_ofNat {value : Nat} (hl : 128 ≤ value) (hu : value < 256) :
    128 ≤ CodeUnit.code (UInt8.ofNat value) := by
  show 128 ≤ (UInt8.ofNat value).toNat
  rwa [UInt8.toNat_ofNat_of_lt' hu]

/-- UTF-8 keeps the ASCII characters, and the bytes of all others are above them. -/
theorem encodes_utf8 : Encodes String.utf8EncodeChar where
  ascii c h := by
    refine ⟨UInt8.ofNat c.val.toNat, if_pos (Nat.le_of_lt_succ h), ?_⟩
    exact UInt8.toNat_ofNat_of_lt' (Nat.lt_trans h (by decide))
  other c h unit hmem := by
    rw [String.utf8EncodeChar] at hmem
    simp only [if_neg (Nat.not_le_of_lt h : ¬ c.val.toNat ≤ 0x7f)] at hmem
    split_ifs at hmem <;> simp only [List.mem_cons, List.not_mem_nil, or_false] at hmem
    · rcases hmem with rfl | rfl <;> exact le_code_ofNat (by omega) (by omega)
    · rcases hmem with rfl | rfl | rfl <;> exact le_code_ofNat (by omega) (by omega)
    · rcases hmem with rfl | rfl | rfl | rfl <;> exact le_code_ofNat (by omega) (by omega)

/-- A byte is one byte wide. -/
@[simp] theorem byteLength_bytes (bytes : List UInt8) : byteLength bytes = bytes.length := by
  induction bytes with
  | nil => rfl
  | cons byte bytes ih =>
    rw [byteLength_cons, ih, List.length_cons, Nat.add_comm]
    rfl

/-- A text takes the bytes of its UTF-8 form. -/
@[simp] theorem length_utf8 (text : List Char) : (utf8 text).length = byteLength text := by
  induction text with
  | nil => rfl
  | cons c text ih =>
    rw [utf8_cons, List.length_append, String.length_utf8EncodeChar, ih]
    rfl

theorem utf8Encode_eq (text : List Char) : text.utf8Encode = ⟨(utf8 text).toArray⟩ := by
  rw [← List.data_toByteArray]
  rfl

/-- The bytes of a text are those of no other. -/
theorem fromUTF8?_utf8 (text : List Char) :
    String.fromUTF8? ⟨(utf8 text).toArray⟩ = some (String.ofList text) := by
  rw [← utf8Encode_eq, String.fromUTF8?, dif_pos ByteArray.isValidUTF8_utf8Encode]
  rfl

/-! ### Reading bytes as characters -/

/-- A code beyond ASCII is no digit. -/
theorem hexNumber?_of_mem {codes : List Nat} {code : Nat} (hmem : code ∈ codes) (hc : 128 ≤ code) :
    hexNumber? codes = none := by
  refine Option.eq_none_iff_forall_ne_some.mpr fun point hpoint => ?_
  have hlt := (hexNumber?_eq_some_iff.mp hpoint).code_lt hmem
  omega

/-- Hexadecimal digits write the same number in bytes. -/
theorem hexNumber?_utf8 (digits : List Char) :
    hexNumber? ((utf8 digits).map CodeUnit.code) = hexNumber? (digits.map Char.toNat) := by
  by_cases hascii : ∀ c ∈ digits, c.toNat < 128
  · exact congrArg hexNumber? (encodes_utf8.map_code hascii)
  · obtain ⟨c, hmem, hc⟩ : ∃ c ∈ digits, 128 ≤ c.toNat := by
      simpa using hascii
    obtain ⟨unit, hunit⟩ := List.exists_mem_of_ne_nil _ (String.utf8EncodeChar_ne_nil (c := c))
    have hbyte : unit ∈ utf8 digits := List.mem_flatMap.mpr ⟨c, hmem, hunit⟩
    rw [hexNumber?_of_mem (List.mem_map_of_mem hbyte) (encodes_utf8.other c hc unit hunit),
      hexNumber?_of_mem (List.mem_map_of_mem hmem) hc]

theorem code_ne_of_ne {c mark : Char} (h : c ≠ mark) : CodeUnit.code c ≠ mark.toNat :=
  fun hcode => h (Char.toNat_inj.mp hcode)

/-- No byte of a text without an ASCII character is that of the character. -/
theorem code_ne_of_mem_utf8 {mark : Char} (hm : mark.toNat < 128) {text : List Char}
    (ht : ∀ c ∈ text, c ≠ mark) : ∀ byte ∈ utf8 text, CodeUnit.code byte ≠ mark.toNat := by
  intro byte hmem
  obtain ⟨c, hc, hbyte⟩ := List.mem_flatMap.mp hmem
  exact encodes_utf8.code_ne hm (ht c hc) byte hbyte

/-- A code point in braces is read from bytes as from characters. -/
theorem bracedPoint?_utf8 (text : List Char) :
    bracedPoint? (utf8 text) = (bracedPoint? text).map fun found => (found.1, utf8 found.2) := by
  cases text with
  | nil => rfl
  | cons c rest =>
    by_cases hc : c = '{'
    · obtain ⟨byte, hbyte, hcode⟩ := encodes_utf8.ascii c (by rw [hc]; decide)
      rw [hc] at hcode
      rw [utf8_cons, hbyte, List.singleton_append]
      cases hfind : rest.findIdx? (· == '}') with
      | none =>
        have hrest : ∀ c ∈ rest, c ≠ '}' := by simpa using hfind
        rw [bracedPoint?_of_unclosed hcode (code_ne_of_mem_utf8 (by decide) hrest),
          bracedPoint?_of_unclosed (congrArg _ hc) fun c hmem => code_ne_of_ne (hrest c hmem)]
        rfl
      | some place =>
        obtain ⟨digits, closing, after, rfl, -, hdigits, hclosing⟩ := exists_of_findIdx? hfind
        have hdigits : ∀ c ∈ digits, c ≠ '}' := by simpa using hdigits
        obtain ⟨mark, hmark, hmarkcode⟩ := encodes_utf8.ascii '}' (by decide)
        obtain rfl : closing = '}' := eq_of_beq hclosing
        have hbytes : utf8 (digits ++ '}' :: after) = utf8 digits ++ mark :: utf8 after := by
          simp [utf8, hmark]
        rw [hbytes, bracedPoint?_of_closed hcode hmarkcode
          (code_ne_of_mem_utf8 (by decide) hdigits),
          hexNumber?_utf8, bracedPoint?_of_closed (congrArg _ hc) rfl fun c hmem =>
            code_ne_of_ne (hdigits c hmem), Option.map_bind]
        simp only [Function.comp_def, Option.map_map]
        rfl
    · obtain ⟨byte, bytes, hbytes⟩ :=
        List.exists_cons_of_ne_nil (String.utf8EncodeChar_ne_nil (c := c))
      have hne : CodeUnit.code byte ≠ '{'.toNat :=
        encodes_utf8.code_ne (by decide) hc byte (by rw [hbytes]; exact List.mem_cons_self)
      rw [utf8_cons, hbytes, List.cons_append, bracedPoint?_of_ne hne,
        bracedPoint?_of_ne (code_ne_of_ne hc)]
      rfl

/-- No letter of an escape is beyond ASCII. -/
theorem unescape?_of_le {code : Nat} (h : 128 ≤ code) : unescape? code = none := by
  refine Option.eq_none_iff_forall_ne_some.mpr fun c hc => ?_
  obtain ⟨letter, hmem, rfl⟩ := unescape?_eq_some_iff.mp hc
  exact absurd (toNat_of_mem_letters hmem).1 (Nat.not_lt.mpr h)

/-- The error of reading characters as that of reading their bytes. -/
def QuoteError.utf8 (error : QuoteError Char) : QuoteError UInt8 :=
  ⟨error.fault, Text.utf8 error.rest⟩

/-- An escape is read from bytes as from characters. -/
theorem escape?_utf8 (text : List Char) :
    escape? (utf8 text) =
      ((escape? text).map fun found => (found.1, utf8 found.2)).mapError QuoteError.utf8 := by
  cases text with
  | nil => rfl
  | cons letter after =>
    obtain ⟨byte, bytes, hbytes⟩ :=
      List.exists_cons_of_ne_nil (String.utf8EncodeChar_ne_nil (c := letter))
    have herror : ∀ fault : QuoteFault, (⟨fault, byte :: (bytes ++ utf8 after)⟩ :
        QuoteError UInt8) =
        QuoteError.utf8 ⟨fault, letter :: after⟩ := by
      intro fault
      rw [QuoteError.utf8, utf8_cons, hbytes, List.cons_append]
    have hown : CodeUnit.code letter = letter.toNat := rfl
    rw [utf8_cons, hbytes, List.cons_append, escape?, escape?, hown]
    rcases Nat.lt_or_ge letter.toNat 128 with hascii | hother
    · obtain ⟨found, hfound, hcode⟩ := encodes_utf8.ascii letter hascii
      obtain ⟨rfl, rfl⟩ := List.cons.inj (hbytes.symm.trans hfound)
      rw [hcode]
      by_cases hu : letter.toNat = 'u'.toNat
      · rw [if_pos hu, if_pos hu, List.nil_append, bracedPoint?_utf8]
        cases bracedPoint? after with
        | none => exact congrArg Except.error (herror _)
        | some point => rfl
      · rw [if_neg hu, if_neg hu]
        cases unescape? letter.toNat with
        | none => exact congrArg Except.error (herror _)
        | some c => rfl
    · have hbyte : 128 ≤ CodeUnit.code byte :=
        encodes_utf8.other letter hother byte (hbytes ▸ List.mem_cons_self)
      have hu : 'u'.toNat < 128 := by decide
      rw [if_neg (by omega), if_neg (by omega), unescape?_of_le hbyte, unescape?_of_le hother]
      exact congrArg Except.error (herror _)

/-- A piece of characters as pieces of bytes. -/
def Piece.utf8 : Piece Char → List (Piece UInt8)
  | .plain c => (String.utf8EncodeChar c).map .plain
  | .escaped c => [.escaped c]

/-- Pieces of bytes stand for the bytes of what the pieces of characters stand for. -/
theorem flatMap_toBytes_utf8 (pieces : List (Piece Char)) :
    (pieces.flatMap Piece.utf8).flatMap Piece.toBytes = utf8 (pieces.map Piece.toChar) := by
  induction pieces with
  | nil => rfl
  | cons piece pieces ih =>
    rw [List.flatMap_cons, List.flatMap_append, ih, List.map_cons, utf8_cons]
    congr 1
    cases piece with
    | plain c =>
      rw [Piece.utf8, List.flatMap_map]
      exact List.flatMap_singleton' _
    | escaped c => exact List.flatMap_singleton ..

/-- The pieces of characters and what follows them, or the error, as those of bytes. -/
def encoded (result : Except (QuoteError Char) (List (Piece Char) × List Char)) :
    Except (QuoteError UInt8) (List (Piece UInt8) × List UInt8) :=
  (result.map fun found => (found.1.flatMap Piece.utf8, utf8 found.2)).mapError QuoteError.utf8

/-- The pieces up to a closing quote are found in bytes as in characters. -/
theorem scanned_utf8 {quote : Char} (hq : isQuote quote = true) (text : List Char) :
    scanned quote.toNat (utf8 text) = encoded (scanned quote.toNat text) := by
  obtain ⟨hascii, -, hslash⟩ := mem_letters_of_isQuote hq
  -- By length, since an escape takes more than one character.
  induction hlength : text.length using Nat.strongRecOn generalizing text with
  | ind length ih =>
    cases text with
    | nil =>
      rw [utf8_nil, scanned_nil, scanned_nil]
      rfl
    | cons c rest =>
      subst hlength
      have hown : CodeUnit.code c = c.toNat := rfl
      by_cases hc : c = quote
      · obtain ⟨byte, hbyte, hcode⟩ := encodes_utf8.ascii c (hc ▸ hascii)
        rw [utf8_cons, hbyte, List.singleton_append, ← hc, scanned_close hcode, scanned_close hown]
        rfl
      · by_cases hb : c = backslash
        · obtain ⟨byte, hbyte, hcode⟩ := encodes_utf8.ascii c (by rw [hb]; decide)
          rw [utf8_cons, hbyte, List.singleton_append,
            scanned_escape (hcode.trans (congrArg _ hb)) hslash, escape?_utf8,
            scanned_escape (hown.trans (congrArg _ hb)) hslash]
          cases hescape : escape? rest with
          | error error => rfl
          | ok found =>
            obtain ⟨letter, taken, rfl, -⟩ := exists_of_escape? hescape
            have hshort : found.2.length < (c :: letter :: (taken ++ found.2)).length := by
              simp only [List.length_cons, List.length_append]
              omega
            have hfound := ih _ hshort found.2 rfl
            simp only [Except.map, mapError_ok, Except.bind, hfound]
            cases scanned quote.toNat found.2 <;> rfl
        · have hrest := ih _ (Nat.lt_succ_self _) rest rfl
          rw [utf8_cons, scanned_units (encodes_utf8.code_ne hascii hc)
            (encodes_utf8.code_ne (by decide) hb), hrest,
            scanned_plain (code_ne_of_ne hc) (code_ne_of_ne hb)]
          cases scanned quote.toNat rest <;> rfl

/-- The pieces of a quoted text are found in bytes as in characters. -/
theorem outcome_readPieces_utf8 (text : List Char) :
    outcome (readPieces (utf8 text)) = encoded (outcome (readPieces text)) := by
  cases text with
  | nil => rfl
  | cons c rest =>
    have hown : CodeUnit.code c = c.toNat := rfl
    by_cases hq : isQuote c = true
    · obtain ⟨byte, hbyte, hcode⟩ := encodes_utf8.ascii c (mem_letters_of_isQuote hq).1
      rw [utf8_cons, hbyte, List.singleton_append, outcome_readPieces_of_quote hq hcode,
        outcome_readPieces_of_quote hq hown]
      exact scanned_utf8 hq rest
    · obtain ⟨hs, hd⟩ : c ≠ '\'' ∧ c ≠ '"' := by simpa [isQuote] using hq
      obtain ⟨byte, bytes, hbytes⟩ :=
        List.exists_cons_of_ne_nil (String.utf8EncodeChar_ne_nil (c := c))
      have hmem : byte ∈ String.utf8EncodeChar c := hbytes ▸ List.mem_cons_self
      rw [utf8_cons, hbytes, List.cons_append,
        outcome_readPieces_of_ne (encodes_utf8.code_ne (by decide) hs byte hmem)
          (encodes_utf8.code_ne (by decide) hd byte hmem),
        outcome_readPieces_of_ne (code_ne_of_ne hs) (code_ne_of_ne hd),
        ← List.cons_append, ← hbytes]
      rfl

/-- What is read from bytes, in terms of their pieces. -/
def ofPieces (input : List UInt8) :
    Except (QuoteError UInt8) (List (Piece UInt8) × List UInt8) →
      Except (QuoteFault × Nat) (String × Nat)
  | .error error => .error (error.fault, input.length - error.rest.length)
  | .ok (pieces, rest) =>
    match String.fromUTF8? ⟨(pieces.flatMap Piece.toBytes).toArray⟩ with
    | some text => .ok (text, input.length - rest.length)
    | none => .error (.invalidEncoding, input.length - rest.length)

theorem flatMap_toBytes_plain (bytes : List UInt8) :
    (bytes.map Piece.plain).flatMap Piece.toBytes = bytes := by
  rw [List.flatMap_map]
  exact List.flatMap_singleton' bytes

theorem ofPieces_of_fromUTF8? {input rest : List UInt8} {pieces : List (Piece UInt8)}
    {text : String}
    (h : String.fromUTF8? ⟨(pieces.flatMap Piece.toBytes).toArray⟩ = some text) :
    ofPieces input (.ok (pieces, rest)) = .ok (text, input.length - rest.length) := by
  rw [ofPieces, h]

theorem ofPieces_congr {input rest : List UInt8} {pieces others : List (Piece UInt8)}
    (h : pieces.flatMap Piece.toBytes = others.flatMap Piece.toBytes) :
    ofPieces input (.ok (pieces, rest)) = ofPieces input (.ok (others, rest)) := by
  rw [ofPieces, ofPieces, h]

theorem readQuotedBytes_eq (input : List UInt8) :
    readQuotedBytes input = ofPieces input (outcome (readPieces input)) := by
  simp only [readQuotedBytes, byteLength_bytes]
  cases readPieces input <;> rfl

/-- A quoted text is read from bytes as from characters. In particular it is valid UTF-8. -/
theorem readQuotedBytes_utf8 (text : List Char) :
    readQuotedBytes (utf8 text) =
      ((readQuoted text).map fun parsed =>
        (parsed.value, byteLength text - byteLength parsed.rest)).mapError fun error =>
        (error.fault, byteLength text - byteLength error.rest) := by
  rw [readQuotedBytes_eq, outcome_readPieces_utf8, readQuoted]
  cases readPieces text with
  | error error =>
    show Except.error (error.fault, (utf8 text).length - (utf8 error.rest).length) = _
    rw [length_utf8, length_utf8]
    rfl
  | ok parsed =>
    have hvalid := fromUTF8?_utf8 (parsed.value.map Piece.toChar)
    rw [← flatMap_toBytes_utf8] at hvalid
    refine (ofPieces_of_fromUTF8? hvalid).trans ?_
    rw [length_utf8, length_utf8]
    rfl

end TagTree.Text
