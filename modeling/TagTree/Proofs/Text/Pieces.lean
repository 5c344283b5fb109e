import TagTree.Proofs.Text.Reading

/-!
# Pieces of quoted text

What is read of a quoted text, piece by piece, without the bounds on what is left (`scanned`). The
units that are read are those that the grammar admits for the pieces (`Spells`), with one exception:
a plus sign before the digits of a code point, which `plus` stands for. What is left is an end of
the input (`endsIn_scanned`).
-/

namespace TagTree.Text

open CodeUnit (code)

/-! ### The grammar of quoted texts -/

/-- The letters of escapes and the characters for which they stand. -/
def letters : List (Char × Char) :=
  [(backslash, backslash), ('\'', '\''), ('"', '"'), ('r', '\r'), ('n', '\n'), ('t', '\t'),
    ('0', Char.ofNat 0)]

/-- The codes write a code point: hexadecimal digits, with a plus sign before them if that is
allowed. -/
def IsCodePoint (plus : Bool) (codes : List Nat) (point : Nat) : Prop :=
  Numeral 16 codes point ∨
  plus = true ∧ ∃ digits, codes = '+'.toNat :: digits ∧ Numeral 16 digits point

section Grammar

variable {υ : Type} [CodeUnit υ]

/-- The units after a backslash stand for a character. -/
inductive Escape (plus : Bool) : List υ → Char → Prop where
  | letter {unit : υ} {letter c : Char} (hl : code unit = letter.toNat)
      (hm : (letter, c) ∈ letters) : Escape plus [unit] c
  | point {letter brace closing : υ} {digits : List υ} {c : Char}
      (hl : code letter = 'u'.toNat) (hb : code brace = '{'.toNat)
      (hd : IsCodePoint plus (digits.map code) c.toNat)
      (hc : code closing = '}'.toNat) :
      Escape plus (letter :: brace :: (digits ++ [closing])) c

/-- The units up to a closing quote, which is the last of them, are written for the pieces. -/
inductive Spells (plus : Bool) (quote : Nat) : List υ → List (Piece υ) → Prop where
  | close {unit : υ} (h : code unit = quote) : Spells plus quote [unit] []
  | plain {unit : υ} {written : List υ} {pieces : List (Piece υ)} (hq : code unit ≠ quote)
      (hb : code unit ≠ backslash.toNat) (later : Spells plus quote written pieces) :
      Spells plus quote (unit :: written) (.plain unit :: pieces)
  | escape {slash : υ} {taken written : List υ} {c : Char} {pieces : List (Piece υ)}
      (hs : code slash = backslash.toNat) (he : Escape plus taken c)
      (later : Spells plus quote written pieces) :
      Spells plus quote (slash :: (taken ++ written)) (.escaped c :: pieces)

end Grammar

variable {number point : Nat} {codes : List Nat} {c quote : Char} {υ : Type}

theorem eq_of_isQuote (h : isQuote quote = true) : quote = '\'' ∨ quote = '"' := by
  simpa [isQuote] using h

theorem mem_letters_of_isQuote (h : isQuote quote = true) :
    quote.toNat < 128 ∧ (quote, quote) ∈ letters ∧ quote.toNat ≠ backslash.toNat := by
  rcases eq_of_isQuote h with rfl | rfl <;> decide

theorem unescape?_eq_some_iff :
    unescape? number = some c ↔ ∃ letter, (letter, c) ∈ letters ∧ number = letter.toNat := by
  constructor
  · intro h
    unfold unescape? at h
    repeat' split at h
    all_goals cases h
    all_goals refine ⟨_, ?_, by assumption⟩
    all_goals decide
  · rintro ⟨letter, hmem, rfl⟩
    have hall : letters.all fun pair => unescape? pair.1.toNat == some pair.2 := by decide
    exact eq_of_beq (List.all_eq_true.mp hall _ hmem)

/-- The letters of escapes are ASCII characters, and `u` is none of them. -/
theorem toNat_of_mem_letters {letter : Char} (h : (letter, c) ∈ letters) :
    letter.toNat < 128 ∧ letter.toNat ≠ 'u'.toNat := by
  have hall : letters.all fun pair => pair.1.toNat < 128 && pair.1.toNat != 'u'.toNat := by decide
  simpa using List.all_eq_true.mp hall _ h

/-- The numbers that are read are code points. -/
theorem hexNumber?_eq_some_iff : hexNumber? codes = some point ↔ IsCodePoint true codes point := by
  have hnumber : ∀ {codes : List Nat}, number? 16 codes = some point ↔ Numeral 16 codes point :=
    number?_eq_some_iff (Nat.le_refl 16)
  rw [hexNumber?, IsCodePoint]
  split
  · rename_i hplus
    obtain ⟨digits, rfl⟩ := List.head?_eq_some_iff.mp hplus
    have hnone : ¬ Numeral 16 ('+'.toNat :: digits) point := fun h =>
      absurd (h.code_lt (Nat.le_refl 16) List.mem_cons_self).1 (by decide)
    rw [List.tail_cons, hnumber, or_iff_right hnone]
    refine ⟨fun h => ⟨rfl, digits, rfl, h⟩, ?_⟩
    rintro ⟨-, later, hlater, h⟩
    cases hlater
    exact h
  · rename_i hplus
    refine hnumber.trans (or_iff_left ?_).symm
    rintro ⟨-, digits, rfl, -⟩
    exact hplus rfl

theorem IsCodePoint.code_lt (h : IsCodePoint true codes point) (hm : number ∈ codes) :
    number < 125 := by
  rcases h with hdigits | ⟨-, digits, rfl, hdigits⟩
  · exact (hdigits.code_lt (Nat.le_refl 16) hm).2.1
  · rcases List.mem_cons.mp hm with rfl | hlater
    · decide
    · exact (hdigits.code_lt (Nat.le_refl 16) hlater).2.1

theorem character?_toNat (c : Char) : character? c.toNat = some c := by
  have hvalid : c.toNat.isValidChar := c.valid
  rw [character?, if_pos hvalid, Char.ofNat_toNat]

theorem character?_eq_some_iff : character? point = some c ↔ c.toNat = point := by
  constructor
  · intro h
    rw [character?] at h
    split at h
    · rename_i hvalid
      cases h
      rw [Char.ofNat, dif_pos hvalid]
      rfl
    · cases h
  · rintro rfl
    exact character?_toNat c

/-! ### Results without bounds -/

/-- The place that is found is that of the first unit that passes the test. -/
theorem exists_of_findIdx? {test : υ → Bool} {input : List υ} {place : Nat}
    (h : input.findIdx? test = some place) :
    ∃ front found rest, input = front ++ found :: rest ∧ front.length = place ∧
      (∀ unit ∈ front, test unit = false) ∧ test found = true := by
  induction input generalizing place with
  | nil => cases h
  | cons first input ih =>
    rw [List.findIdx?_cons] at h
    by_cases hfirst : test first = true
    · rw [if_pos hfirst] at h
      cases h
      exact ⟨[], first, input, rfl, rfl, fun unit hmem => absurd hmem List.not_mem_nil, hfirst⟩
    · rw [if_neg hfirst] at h
      obtain ⟨later, hlater, rfl⟩ := Option.map_eq_some_iff.mp h
      obtain ⟨front, found, rest, rfl, rfl, hfront, hfound⟩ := ih hlater
      refine ⟨first :: front, found, rest, rfl, rfl, ?_, hfound⟩
      exact List.forall_mem_cons.mpr ⟨Bool.eq_false_iff.mpr hfirst, hfront⟩

theorem mapError_ok {ε δ α : Type} (f : ε → δ) (value : α) :
    (Except.ok value).mapError f = .ok value := rfl

section Outcome

variable {α β ε : Type} {limit wider : Nat}

/-- The result of a reader as a pair, without the bound on what is left. -/
def outcome (result : Except ε (Parsed υ α limit)) : Except ε (α × List υ) :=
  result.map Parsed.toPair

theorem reads_of_outcome {result : Except ε (Parsed υ α limit)} {value : α} {rest : List υ}
    (h : outcome result = .ok (value, rest)) : Reads result value rest := by
  cases result with
  | error error => cases h
  | ok parsed =>
    obtain ⟨found, left, shorter⟩ := parsed
    cases h
    exact ⟨shorter, rfl⟩

theorem outcome_map (result : Except ε (Parsed υ α limit)) (f : α → β) (le : limit ≤ wider) :
    outcome (do return ((← result).map f).widen le) =
      (outcome result).map fun found => (f found.1, found.2) := by
  cases result <;> rfl

variable [CodeUnit υ] {quote : Nat} {unit : υ} {rest : List υ}

/-- The code point in braces at the front of the input, and what follows. -/
def bracedPoint? (input : List υ) : Option (Char × List υ) :=
  (codePoint? input).map Parsed.toPair

theorem bracedPoint?_of_ne (h : code unit ≠ '{'.toNat) : bracedPoint? (unit :: rest) = none := by
  rw [bracedPoint?, codePoint?, if_neg h]
  rfl

theorem bracedPoint?_of_unclosed (hu : code unit = '{'.toNat)
    (hr : ∀ later ∈ rest, code later ≠ '}'.toNat) : bracedPoint? (unit :: rest) = none := by
  have hdrop : (rest ++ []).dropWhile (code · != '}'.toNat) = [] :=
    (takeWhile_of_stops (fun later hmem => bne_iff_ne.mpr (hr later hmem)) (stops_nil _)).2
  rw [List.append_nil] at hdrop
  rw [bracedPoint?, codePoint?, if_pos hu]
  split
  · rfl
  · rename_i hcons
    cases hdrop.symm.trans hcons

theorem bracedPoint?_of_closed {closing : υ} {digits : List υ} (hu : code unit = '{'.toNat)
    (hc : code closing = '}'.toNat) (hd : ∀ digit ∈ digits, code digit ≠ '}'.toNat) :
    bracedPoint? (unit :: (digits ++ closing :: rest)) =
      (hexNumber? (digits.map code)).bind fun number =>
        (character? number).map fun c => (c, rest) := by
  have hstops : Stops (code · != '}'.toNat) (closing :: rest) := by
    rintro found ⟨⟩
    simp [hc]
  obtain ⟨htake, hdrop⟩ : (digits ++ closing :: rest).takeWhile (code · != '}'.toNat) =
        digits ∧
      (digits ++ closing :: rest).dropWhile (code · != '}'.toNat) = closing :: rest :=
    takeWhile_of_stops (fun digit hmem => bne_iff_ne.mpr (hd digit hmem)) hstops
  rw [bracedPoint?, codePoint?, if_pos hu]
  split
  · rename_i hnil
    cases hdrop.symm.trans hnil
  · rename_i hcons
    cases hdrop.symm.trans hcons
    rw [htake]
    simp [Parsed.toPair, Option.map_eq_bind, Option.bind_assoc, Function.comp_def]

/-! ### Escapes and pieces -/

/-- The character of an escape after its backslash, and what follows. -/
def escape? (input : List υ) : Except (QuoteError υ) (Char × List υ) :=
  match input with
  | [] => .error ⟨.unterminatedEscape, []⟩
  | letter :: after =>
    if code letter = 'u'.toNat then
      match bracedPoint? after with
      | none => .error ⟨.invalidCodePoint, letter :: after⟩
      | some found => .ok found
    else
      match unescape? (code letter) with
      | none => .error ⟨.unknownEscape, letter :: after⟩
      | some c => .ok (c, after)

/-- The pieces up to the closing quote and what follows it. -/
def scanned (quote : Nat) (input : List υ) : Except (QuoteError υ) (List (Piece υ) × List υ) :=
  outcome (scanQuoted quote input)

theorem scanned_nil : scanned quote ([] : List υ) = .error ⟨.unterminated, []⟩ := by
  rw [scanned, scanQuoted]
  rfl

theorem scanned_close (h : code unit = quote) : scanned quote (unit :: rest) = .ok ([], rest) := by
  rw [scanned, scanQuoted.eq_def]
  simp only [if_pos h]
  rfl

theorem scanned_plain (hq : code unit ≠ quote) (hb : code unit ≠ backslash.toNat) :
    scanned quote (unit :: rest) =
      (scanned quote rest).map fun found => (.plain unit :: found.1, found.2) := by
  rw [scanned, scanQuoted.eq_def]
  simp only [if_neg hq, if_neg hb]
  exact outcome_map ..

theorem scanned_escape (hb : code unit = backslash.toNat) (hq : quote ≠ backslash.toNat) :
    scanned quote (unit :: rest) = (escape? rest).bind fun escaped =>
      (scanned quote escaped.2).map fun found => (.escaped escaped.1 :: found.1, found.2) := by
  have hunit : code unit ≠ quote := by
    rw [hb]
    exact hq.symm
  rw [scanned, scanQuoted.eq_def]
  simp only [if_neg hunit, if_pos hb]
  cases rest with
  | nil => rfl
  | cons letter after =>
    rw [escape?]
    by_cases hu : code letter = 'u'.toNat
    · simp only [if_pos hu, bracedPoint?]
      cases codePoint? after with
      | none => rfl
      | some parsed => exact outcome_map ..
    · simp only [if_neg hu]
      cases unescape? (code letter) with
      | none => rfl
      | some c => exact outcome_map ..

variable {input taken after written : List υ} {pieces : List (Piece υ)}

/-- A code point in braces is an escape. -/
theorem exists_of_bracedPoint? (h : bracedPoint? input = some (c, after)) :
    ∃ taken, input = taken ++ after ∧
      ∀ letter, code letter = 'u'.toNat → Escape true (letter :: taken) c := by
  cases input with
  | nil => cases h
  | cons brace rest =>
    by_cases hbrace : code brace = '{'.toNat
    · cases hfind : rest.findIdx? (code · == '}'.toNat) with
      | none =>
        rw [bracedPoint?_of_unclosed hbrace (by simpa using hfind)] at h
        cases h
      | some place =>
        obtain ⟨digits, closing, later, rfl, -, hdigits, hclosing⟩ := exists_of_findIdx? hfind
        have hclosing : code closing = '}'.toNat := by simpa using hclosing
        rw [bracedPoint?_of_closed hbrace hclosing (by simpa using hdigits)] at h
        obtain ⟨point, hpoint, hfound⟩ := Option.bind_eq_some_iff.mp h
        obtain ⟨found, hc, hpair⟩ := Option.map_eq_some_iff.mp hfound
        cases hpair
        obtain rfl := character?_eq_some_iff.mp hc
        refine ⟨brace :: (digits ++ [closing]), by simp, fun letter hl => ?_⟩
        exact .point hl hbrace (hexNumber?_eq_some_iff.mp hpoint) hclosing
    · rw [bracedPoint?_of_ne hbrace] at h
      cases h

/-- What is read as an escape is one. -/
theorem exists_of_escape? (h : escape? input = .ok (c, after)) :
    ∃ letter taken, input = letter :: (taken ++ after) ∧ Escape true (letter :: taken) c := by
  cases input with
  | nil => cases h
  | cons letter rest =>
    rw [escape?] at h
    split at h
    · rename_i hu
      split at h
      · cases h
      · rename_i hpoint
        cases h
        obtain ⟨taken, rfl, hescape⟩ := exists_of_bracedPoint? hpoint
        exact ⟨letter, taken, rfl, hescape letter hu⟩
    · split at h
      · cases h
      · rename_i hletter
        cases h
        obtain ⟨name, hmem, hcode⟩ := unescape?_eq_some_iff.mp hletter
        exact ⟨letter, [], rfl, .letter hcode hmem⟩

/-- An escape is read as its character. -/
theorem Escape.read (h : Escape true taken c) (after : List υ) :
    escape? (taken ++ after) = .ok (c, after) := by
  cases h with
  | letter hl hm =>
    rw [List.singleton_append, escape?, hl, if_neg (toNat_of_mem_letters hm).2,
      unescape?_eq_some_iff.mpr ⟨_, hm, rfl⟩]
  | @point letter brace closing digits _ hl hb hd hc =>
    have hdigits : ∀ digit ∈ digits, code digit ≠ '}'.toNat := fun digit hmem =>
      Nat.ne_of_lt (hd.code_lt (List.mem_map_of_mem hmem))
    have hpoint : bracedPoint? (brace :: (digits ++ closing :: after)) = some (c, after) := by
      rw [bracedPoint?_of_closed hb hc hdigits, hexNumber?_eq_some_iff.mpr hd, Option.bind_some,
        character?_toNat]
      rfl
    rw [List.cons_append, escape?, if_pos hl, List.cons_append, List.append_assoc,
      List.singleton_append, hpoint]

/-- What is written by the grammar is read up to its closing quote. -/
theorem Spells.scanned (h : Spells true quote written pieces) (hq : quote ≠ backslash.toNat)
    (rest : List υ) : scanned quote (written ++ rest) = .ok (pieces, rest) := by
  induction h with
  | close h => exact scanned_close h
  | plain hplain hback _ ih =>
    rw [List.cons_append, scanned_plain hplain hback, ih]
    rfl
  | escape hs he _ ih =>
    rw [List.cons_append, scanned_escape hs hq, List.append_assoc, he.read]
    show (Text.scanned quote (_ ++ rest)).map _ = _
    rw [ih]
    rfl

/-- Units that are neither the quote nor the backslash are pieces as they stand. -/
theorem scanned_units {units : List υ} (hq : ∀ unit ∈ units, code unit ≠ quote)
    (hb : ∀ unit ∈ units, code unit ≠ backslash.toNat) :
    scanned quote (units ++ rest) =
      (scanned quote rest).map fun found => (units.map .plain ++ found.1, found.2) := by
  induction units with
  | nil =>
    rw [List.nil_append]
    cases scanned quote rest <;> rfl
  | cons unit units ih =>
    rw [List.cons_append, scanned_plain (hq unit List.mem_cons_self) (hb unit List.mem_cons_self),
      ih (List.forall_mem_cons.mp hq).2 (List.forall_mem_cons.mp hb).2]
    cases scanned quote rest <;> rfl

/-- Where the faults within a quoted text are reported: at the end of the input, or at the letter of
an escape. -/
inductive QuoteError.Within : QuoteError υ → Prop where
  | unterminated : Within ⟨.unterminated, []⟩
  | unterminatedEscape : Within ⟨.unterminatedEscape, []⟩
  | invalidCodePoint {letter : υ} {after : List υ} (h : code letter = 'u'.toNat) :
    Within ⟨.invalidCodePoint, letter :: after⟩
  | unknownEscape {letter : υ} {after : List υ} : Within ⟨.unknownEscape, letter :: after⟩

/-- What is left is an end of the input after what is written for the pieces. So is that from where
an error is reported. -/
def EndsIn (quote : Nat) (input : List υ) :
    Except (QuoteError υ) (List (Piece υ) × List υ) → Prop
  | .ok found => ∃ written, input = written ++ found.2 ∧ Spells true quote written found.1
  | .error error => error.rest <:+ input ∧ error.Within

/-- Units in front that are written for a piece change nothing about the end. -/
theorem EndsIn.cons {piece : Piece υ} {result : Except (QuoteError υ) (List (Piece υ) × List υ)}
    (h : EndsIn quote rest result) (front : List υ)
    (hpiece : ∀ written pieces, Spells true quote written pieces →
      Spells true quote (front ++ written) (piece :: pieces)) :
    EndsIn quote (front ++ rest) (result.map fun found => (piece :: found.1, found.2)) := by
  cases result with
  | error error => exact ⟨h.1.trans (List.suffix_append ..), h.2⟩
  | ok found =>
    obtain ⟨written, hrest, hspells⟩ := h
    exact ⟨front ++ written, by rw [hrest, List.append_assoc], hpiece _ _ hspells⟩

theorem error_of_escape? {error : QuoteError υ} (h : escape? input = .error error) :
    error.rest <:+ input ∧ error.Within := by
  cases input with
  | nil =>
    cases h
    exact ⟨List.suffix_refl _, .unterminatedEscape⟩
  | cons letter after =>
    rw [escape?] at h
    split at h <;> split at h <;> cases h
    · exact ⟨List.suffix_refl _, .invalidCodePoint ‹_›⟩
    · exact ⟨List.suffix_refl _, .unknownEscape⟩

/-- What is left is an end of the input. -/
theorem endsIn_scanned (hq : quote ≠ backslash.toNat) (input : List υ) :
    EndsIn quote input (scanned quote input) := by
  induction hlength : input.length using Nat.strongRecOn generalizing input with
  | ind length ih =>
    subst hlength
    cases input with
    | nil =>
      rw [scanned_nil]
      exact ⟨List.suffix_refl _, .unterminated⟩
    | cons unit rest =>
      by_cases hclose : code unit = quote
      · rw [scanned_close hclose]
        exact ⟨[unit], rfl, .close hclose⟩
      · by_cases hback : code unit = backslash.toNat
        · rw [scanned_escape hback hq]
          cases hescape : escape? rest with
          | error error =>
            obtain ⟨hsuffix, hwithin⟩ := error_of_escape? hescape
            exact ⟨hsuffix.trans (List.suffix_cons unit rest), hwithin⟩
          | ok escaped =>
            obtain ⟨letter, taken, rfl, htaken⟩ := exists_of_escape? hescape
            have hshort : escaped.2.length < (unit :: letter :: (taken ++ escaped.2)).length := by
              simp only [List.length_cons, List.length_append]
              omega
            exact (ih _ hshort escaped.2 rfl).cons (unit :: letter :: taken) fun _ _ =>
              .escape hback htaken
        · rw [scanned_plain hclose hback]
          exact (ih _ (Nat.lt_succ_self _) rest rfl).cons [unit] fun _ _ => .plain hclose hback

end Outcome

/-! ### Quoted texts -/

theorem outcome_readPieces_of_quote [CodeUnit υ] {quote : Char} {unit : υ}
    (hq : isQuote quote = true) (hu : code unit = quote.toNat) (rest : List υ) :
    outcome (readPieces (unit :: rest)) = scanned quote.toNat rest := by
  have hquote : code unit = '\''.toNat ∨ code unit = '"'.toNat := by
    rw [hu]
    exact (eq_of_isQuote hq).imp (congrArg _) (congrArg _)
  rw [readPieces, if_pos hquote, hu, scanned]
  cases scanQuoted quote.toNat rest <;> rfl

theorem outcome_readPieces_of_ne [CodeUnit υ] {unit : υ}
    (hs : code unit ≠ '\''.toNat) (hd : code unit ≠ '"'.toNat) (rest : List υ) :
    outcome (readPieces (unit :: rest)) = .error ⟨.notQuoted, unit :: rest⟩ := by
  rw [readPieces, if_neg (not_or.mpr ⟨hs, hd⟩)]
  rfl

/-- A quoted text is a quote and what is written up to the next one. -/
theorem outcome_readPieces_eq_ok [CodeUnit υ] {input rest : List υ} {pieces : List (Piece υ)} :
    outcome (readPieces input) = .ok (pieces, rest) ↔ ∃ quote mark written, isQuote quote = true ∧
      code mark = quote.toNat ∧ input = mark :: (written ++ rest) ∧
      Spells true quote.toNat written pieces := by
  constructor
  · intro h
    cases input with
    | nil => cases h
    | cons mark later =>
      by_cases hmark : code mark = '\''.toNat ∨ code mark = '"'.toNat
      · obtain ⟨quote, hq, hcode⟩ : ∃ quote, isQuote quote = true ∧ code mark = quote.toNat :=
          hmark.elim (fun h => ⟨'\'', rfl, h⟩) fun h => ⟨'"', rfl, h⟩
        have hends := endsIn_scanned (mem_letters_of_isQuote hq).2.2 later
        rw [outcome_readPieces_of_quote hq hcode] at h
        rw [h] at hends
        obtain ⟨written, hlater, hspells⟩ := hends
        exact ⟨quote, mark, written, hq, hcode, congrArg (mark :: ·) hlater, hspells⟩
      · rw [outcome_readPieces_of_ne (not_or.mp hmark).1 (not_or.mp hmark).2] at h
        cases h
  · rintro ⟨quote, mark, written, hq, hcode, rfl, hspells⟩
    rw [outcome_readPieces_of_quote hq hcode]
    exact hspells.scanned (mem_letters_of_isQuote hq).2.2 rest

/-- A quoted text takes at least its opening quote. -/
theorem exists_of_readQuoted {input : List Char} {parsed : Parsed Char String input.length}
    (h : readQuoted input = .ok parsed) :
      ∃ quote taken, input = quote :: (taken ++ parsed.rest) := by
  obtain ⟨pieces, hpieces, hvalue⟩ := bind_eq_ok.mp h
  cases hvalue
  obtain ⟨-, mark, written, -, -, hinput, -⟩ :=
    outcome_readPieces_eq_ok.mp (congrArg outcome hpieces)
  exact ⟨mark, written, hinput⟩

/-- After a quote all faults are within the quoted text. -/
theorem error_of_readQuoted {input : List Char} {error : QuoteError Char}
    (hq : input.head?.any isQuote = true) (h : readQuoted input = .error error) :
    error.rest <:+ input ∧ error.Within := by
  cases input with
  | nil => cases hq
  | cons quote rest =>
    have hquote : isQuote quote = true := hq
    have hout := outcome_readPieces_of_quote hquote rfl rest
    rw [readQuoted] at h
    cases hpieces : readPieces (quote :: rest) with
    | ok pieces =>
      rw [hpieces] at h
      cases h
    | error found =>
      rw [hpieces] at h hout
      cases h
      have hends := endsIn_scanned (mem_letters_of_isQuote hquote).2.2 rest
      rw [← hout] at hends
      exact ⟨hends.1.trans (List.suffix_cons quote rest), hends.2⟩

end TagTree.Text
