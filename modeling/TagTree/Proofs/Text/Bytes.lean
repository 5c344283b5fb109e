import TagTree.Proofs.Text.Utf8

/-!
# Quoted text by position

The bytes of a quoted text can be read by position, with parts of them taken between two places. No
such part reaches beyond the bytes, and the result is the same (`quotedAt_eq`).
-/

namespace TagTree.Text

open CodeUnit (code)

/-- The bytes between two places, if these are in order and the second is not behind the end. -/
def bytesBetween? (input : List UInt8) (start stop : Nat) : Option (List UInt8) :=
  if start ≤ stop ∧ stop ≤ input.length then some ((input.take stop).drop start) else none

/-- The code point in braces at the front of the bytes, and the number of bytes that it takes. There
is no result if a part of the bytes is taken that is none. -/
def codePointAt (input : List UInt8) : Option (Option (Char × Nat)) :=
  if input.head?.map code = some '{'.toNat then
    match input.findIdx? (code · == '}'.toNat) with
    | none => some none
    | some closing => do
      let digits ← bytesBetween? input 1 closing
      return (hexNumber? (digits.map code)).bind fun number =>
        (character? number).map fun c => (c, closing + 1)
  else some none

/-- The character of an escape whose letter is at the position, and the position after it. -/
def escapeAt (input : List UInt8) (position : Nat) :
    Option (Except (QuoteFault × Nat) (Char × Nat)) :=
  match input[position]? with
  | none => some (.error (.unterminatedEscape, position))
  | some letter =>
    if code letter = 'u'.toNat then do
      let after ← bytesBetween? input (position + 1) input.length
      match ← codePointAt after with
      | none => return .error (.invalidCodePoint, position)
      | some (c, used) => return .ok (c, position + 1 + used)
    else
      match unescape? (code letter) with
      | none => some (.error (.unknownEscape, position))
      | some c => some (.ok (c, position + 1))

/-- The text up to the closing quote and the position after it, given the bytes of what stands
before the position. A turn of the loop must start behind the one before. -/
def quotedFrom (input : List UInt8) (quote : Nat) (read : List UInt8) (position : Nat) :
    Option (Except (QuoteFault × Nat) (String × Nat)) := do
  let rest ← bytesBetween? input position input.length
  match rest.findIdx? fun byte =>
      code byte == quote || code byte == backslash.toNat with
  | none => return .error (.unterminated, input.length)
  | some offset =>
    let read := read ++ (← bytesBetween? rest 0 offset)
    let found ← input[position + offset]?
    if code found = quote then
      match String.fromUTF8? ⟨read.toArray⟩ with
      | some text => return .ok (text, position + offset + 1)
      | none => return .error (.invalidEncoding, position + offset + 1)
    else
      match ← escapeAt input (position + offset + 1) with
      | .error error => return .error error
      | .ok (c, next) =>
        if _ : position < next ∧ next ≤ input.length then
          quotedFrom input quote (read ++ String.utf8EncodeChar c) next
        else none
termination_by input.length - position
decreasing_by omega

/-- The quoted text at the front of the bytes, and the number of bytes that it takes. -/
def quotedAt (input : List UInt8) : Option (Except (QuoteFault × Nat) (String × Nat)) :=
  match input with
  | [] => some (.error (.notQuoted, 0))
  | quote :: _ =>
    if code quote = '\''.toNat ∨ code quote = '"'.toNat then
      quotedFrom input (code quote) [] 1
    else some (.error (.notQuoted, 0))

/-! ### Places within the bytes -/

theorem bytesBetween?_append (front middle rest : List UInt8) :
    bytesBetween? (front ++ middle ++ rest) front.length (front.length + middle.length) =
      some middle := by
  have hbounds : front.length ≤ front.length + middle.length ∧
      front.length + middle.length ≤ (front ++ middle ++ rest).length := by
    simp only [List.length_append]
    omega
  rw [bytesBetween?, if_pos hbounds, ← List.length_append, List.take_left, List.drop_left]

theorem bytesBetween?_length (front rest : List UInt8) :
    bytesBetween? (front ++ rest) front.length (front ++ rest).length = some rest := by
  have h := bytesBetween?_append front rest []
  rwa [List.append_nil, ← List.length_append] at h

/-- A code point by position is the code point at the front. -/
theorem codePointAt_eq (input : List UInt8) :
    codePointAt input =
      some ((bracedPoint? input).map fun found => (found.1, input.length - found.2.length)) := by
  cases input with
  | nil => rfl
  | cons brace rest =>
    by_cases hbrace : code brace = '{'.toNat
    · have hhead : (brace :: rest).head?.map code = some '{'.toNat := congrArg some hbrace
      have hopen : ¬ (code brace == '}'.toNat) = true := by
        rw [hbrace]
        decide
      rw [codePointAt, if_pos hhead, List.findIdx?_cons, if_neg hopen]
      cases hfind : rest.findIdx? (code · == '}'.toNat) with
      | none =>
        rw [bracedPoint?_of_unclosed hbrace (by simpa using hfind)]
        rfl
      | some place =>
        obtain ⟨digits, closing, after, rfl, rfl, hdigits, hclosing⟩ := exists_of_findIdx? hfind
        have hbytes : bytesBetween? (brace :: (digits ++ closing :: after)) 1 (digits.length + 1) =
            some digits := by
          have h := bytesBetween?_append [brace] digits (closing :: after)
          rwa [List.length_singleton, Nat.add_comm] at h
        have hused : (brace :: (digits ++ closing :: after)).length - after.length =
            digits.length + 1 + 1 := by
          simp only [List.length_cons, List.length_append]
          omega
        rw [bracedPoint?_of_closed hbrace (by simpa using hclosing) (by simpa using hdigits)]
        simp only [Option.map_some, hbytes, Option.bind_eq_bind, Option.bind_some, Option.pure_def,
          Option.map_bind, Function.comp_def, Option.map_map, hused]
    · have hhead : ¬ (brace :: rest).head?.map code = some '{'.toNat := by
        simpa using hbrace
      rw [codePointAt, if_neg hhead, bracedPoint?_of_ne hbrace]
      rfl

/-- An escape by position is the escape at the front of what follows the position. -/
theorem escapeAt_eq (front rest : List UInt8) :
    escapeAt (front ++ rest) front.length =
      some (((escape? rest).map fun found =>
        (found.1, (front ++ rest).length - found.2.length)).mapError fun error =>
          (error.fault, (front ++ rest).length - error.rest.length)) := by
  have hplace : ∀ after : List UInt8, (front ++ after).length - after.length = front.length := by
    intro after
    rw [List.length_append, Nat.add_sub_cancel]
  cases rest with
  | nil =>
    rw [escapeAt, List.append_nil, List.getElem?_eq_none (Nat.le_refl _)]
    rfl
  | cons letter after =>
    have hletter : (front ++ letter :: after)[front.length]? = some letter := by simp
    have hbytes : bytesBetween? (front ++ letter :: after) (front.length + 1)
        (front ++ letter :: after).length = some after := by
      have h := bytesBetween?_length (front ++ [letter]) after
      simpa using h
    rw [escapeAt, hletter, escape?]
    by_cases hu : code letter = 'u'.toNat
    · simp only [if_pos hu, hbytes, codePointAt_eq, Option.bind_eq_bind, Option.bind_some,
        Option.pure_def]
      cases hpoint : bracedPoint? after with
      | none =>
        exact congrArg (fun place => some (Except.error (QuoteFault.invalidCodePoint, place)))
          (hplace _).symm
      | some found =>
        obtain ⟨taken, rfl, -⟩ := exists_of_bracedPoint? hpoint
        have hused : front.length + 1 + ((taken ++ found.2).length - found.2.length) =
            (front ++ letter :: (taken ++ found.2)).length - found.2.length := by
          simp only [List.length_append, List.length_cons]
          omega
        exact congrArg (fun place => some (Except.ok (found.1, place))) hused
    · simp only [if_neg hu]
      cases unescape? (code letter) with
      | none =>
        exact congrArg (fun place => some (Except.error (QuoteFault.unknownEscape, place)))
          (hplace _).symm
      | some c =>
        have hused : front.length + 1 = (front ++ letter :: after).length - after.length := by
          simp only [List.length_append, List.length_cons]
          omega
        exact congrArg (fun place => some (Except.ok (c, place))) hused

/-! ### Pieces by position -/

section Steps

variable {quote : Nat} {read front units later : List UInt8} {found : UInt8}

/-- The byte is neither the quote nor the backslash. -/
def IsPlain (quote : Nat) (byte : UInt8) : Prop :=
  code byte ≠ quote ∧ code byte ≠ backslash.toNat

theorem escapeAt_after (front units later : List UInt8) (found : UInt8) :
    escapeAt (front ++ (units ++ found :: later)) (front.length + units.length + 1) =
      some (((escape? later).map fun escaped =>
        (escaped.1, (front ++ (units ++ found :: later)).length - escaped.2.length)).mapError
          fun error =>
            (error.fault, (front ++ (units ++ found :: later)).length - error.rest.length)) := by
  have hinput : front ++ units ++ [found] ++ later = front ++ (units ++ found :: later) := by simp
  have hplace : (front ++ units ++ [found]).length = front.length + units.length + 1 := by
    rw [List.length_append, List.length_append, List.length_singleton]
  have h := escapeAt_eq (front ++ units ++ [found]) later
  rwa [hinput, hplace] at h

variable (h : ∀ byte ∈ units, IsPlain quote byte)
include h

theorem scanned_append :
    scanned quote (units ++ later) =
      (scanned quote later).map fun found => (units.map .plain ++ found.1, found.2) :=
  scanned_units (fun byte hmem => (h byte hmem).1) fun byte hmem => (h byte hmem).2

theorem quotedFrom_of_open :
    quotedFrom (front ++ units) quote read front.length =
      some (.error (.unterminated, (front ++ units).length)) := by
  have hfind : (units.findIdx? fun byte =>
      code byte == quote || code byte == backslash.toNat) = none := by
    simpa [IsPlain] using h
  rw [quotedFrom, bytesBetween?_length, Option.bind_eq_bind, Option.bind_some, hfind]
  rfl

/-- The first byte that is not plain is found, and what stands before it is taken. -/
theorem exists_found (hf : ¬ IsPlain quote found) (front later : List UInt8) :
    ((units ++ found :: later).findIdx? fun byte =>
      code byte == quote || code byte == backslash.toNat) = some units.length ∧
    bytesBetween? (units ++ found :: later) 0 units.length = some units ∧
    (front ++ (units ++ found :: later))[front.length + units.length]? = some found := by
  refine ⟨?_, ?_, by simp⟩
  · have hunits : (units.findIdx? fun byte =>
        code byte == quote || code byte == backslash.toNat) = none := by
      simpa [IsPlain] using h
    have hfirst : (code found == quote || code found == backslash.toNat) = true := by
      simpa [IsPlain, Decidable.or_iff_not_not_and_not] using hf
    rw [List.findIdx?_append, hunits, List.findIdx?_cons, if_pos hfirst]
    simp
  · have hbytes := bytesBetween?_append [] units (found :: later)
    rwa [List.nil_append, List.length_nil, Nat.zero_add] at hbytes

theorem quotedFrom_of_close (hf : code found = quote) :
    quotedFrom (front ++ (units ++ found :: later)) quote read front.length =
      some (ofPieces (front ++ (units ++ found :: later))
        (.ok (read.map .plain ++ units.map .plain, later))) := by
  obtain ⟨hfind, hbytes, hplace⟩ := exists_found h (fun hplain => hplain.1 hf) front later
  have hpieces : (read.map Piece.plain ++ units.map Piece.plain).flatMap Piece.toBytes =
      read ++ units := by
    rw [← List.map_append, flatMap_toBytes_plain]
  have hused : (front ++ (units ++ found :: later)).length - later.length =
      front.length + units.length + 1 := by
    simp only [List.length_append, List.length_cons]
    omega
  rw [quotedFrom, bytesBetween?_length]
  simp only [Option.bind_eq_bind, Option.bind_some, hfind, hbytes, hplace, if_pos hf, ofPieces,
    hpieces, hused]
  cases String.fromUTF8? ⟨(read ++ units).toArray⟩ <;> rfl

variable (hf : code found = backslash.toNat) (hq : quote ≠ backslash.toNat)
include hf hq

theorem quotedFrom_of_error {error : QuoteError UInt8} (he : escape? later = .error error) :
    quotedFrom (front ++ (units ++ found :: later)) quote read front.length =
      some (.error (error.fault,
        (front ++ (units ++ found :: later)).length - error.rest.length)) := by
  obtain ⟨hfind, hbytes, hplace⟩ := exists_found h (fun hplain => hplain.2 hf) front later
  have hclose : ¬ code found = quote := by
    rw [hf]
    exact hq.symm
  rw [quotedFrom, bytesBetween?_length]
  simp only [Option.bind_eq_bind, Option.bind_some, hfind, hbytes, hplace, if_neg hclose,
    escapeAt_after, he]
  rfl

theorem quotedFrom_of_escape {c : Char} {after : List UInt8} (he : escape? later = .ok (c, after)) :
    quotedFrom (front ++ (units ++ found :: later)) quote read front.length =
      quotedFrom (front ++ (units ++ found :: later)) quote
        (read ++ units ++ String.utf8EncodeChar c)
        ((front ++ (units ++ found :: later)).length - after.length) := by
  obtain ⟨hfind, hbytes, hplace⟩ := exists_found h (fun hplain => hplain.2 hf) front later
  obtain ⟨letter, taken, rfl, -⟩ := exists_of_escape? he
  have hclose : ¬ code found = quote := by
    rw [hf]
    exact hq.symm
  have hnext : front.length <
        (front ++ (units ++ found :: letter :: (taken ++ after))).length - after.length ∧
      (front ++ (units ++ found :: letter :: (taken ++ after))).length - after.length ≤
        (front ++ (units ++ found :: letter :: (taken ++ after))).length := by
    simp only [List.length_append, List.length_cons]
    omega
  rw [quotedFrom, bytesBetween?_length]
  simp only [Option.bind_eq_bind, Option.bind_some, hfind, hbytes, hplace, if_neg hclose,
    escapeAt_after, he, Except.map, mapError_ok]
  exact dif_pos hnext

end Steps

/-- A quoted text by position, from a place within it on, is what has been read and the pieces that
follow. -/
theorem quotedFrom_eq {quote : Char} (hq : isQuote quote = true) (front read rest : List UInt8) :
    quotedFrom (front ++ rest) quote.toNat read front.length =
      some (ofPieces (front ++ rest) ((scanned quote.toNat rest).map fun found =>
        (read.map .plain ++ found.1, found.2))) := by
  obtain ⟨-, -, hslash⟩ := mem_letters_of_isQuote hq
  induction hlength : rest.length using Nat.strongRecOn generalizing front read rest with
  | ind length ih =>
    subst hlength
    cases hfind : rest.findIdx? fun byte =>
      code byte == quote.toNat || code byte == backslash.toNat with
    | none =>
      have hplain : ∀ byte ∈ rest, IsPlain quote.toNat byte := by
        simpa [IsPlain] using hfind
      have hscan : scanned quote.toNat (rest ++ []) = _ := scanned_append hplain
      rw [List.append_nil, scanned_nil] at hscan
      rw [quotedFrom_of_open hplain, hscan]
      rfl
    | some offset =>
      obtain ⟨units, found, later, rfl, rfl, hunits, hfound⟩ := exists_of_findIdx? hfind
      have hplain : ∀ byte ∈ units, IsPlain quote.toNat byte := by
        simpa [IsPlain] using hunits
      rw [scanned_append hplain]
      by_cases hclose : code found = quote.toNat
      · rw [quotedFrom_of_close hplain hclose, scanned_close hclose]
        simp only [Except.map, List.append_nil]
      · have hback : code found = backslash.toNat := by
          simpa [hclose] using hfound
        rw [scanned_escape hback hslash]
        cases hescape : escape? later with
        | error error =>
          rw [quotedFrom_of_error hplain hback hslash hescape]
          rfl
        | ok escaped =>
          -- The bytes that were read and the character of the escape stand before the next place.
          obtain ⟨letter, taken, rfl, -⟩ := exists_of_escape? hescape
          obtain ⟨c, after⟩ := escaped
          have hinput : front ++ (units ++ found :: letter :: (taken ++ after)) =
              (front ++ units ++ found :: letter :: taken) ++ after := by simp
          have hnext := ih after.length (by simp only [List.length_append, List.length_cons]; omega)
            (front ++ units ++ found :: letter :: taken)
            (read ++ units ++ String.utf8EncodeChar c) after rfl
          rw [quotedFrom_of_escape hplain hback hslash hescape, hinput, List.length_append,
            Nat.add_sub_cancel, hnext]
          simp only [Except.bind]
          cases scanned quote.toNat after with
          | error error => rfl
          | ok found =>
            refine congrArg some (ofPieces_congr ?_)
            simp [flatMap_toBytes_plain, Piece.toBytes]

/-- A quoted text is read by position as it is from the front: no part is taken that is none. -/
theorem quotedAt_eq (input : List UInt8) : quotedAt input = some (readQuotedBytes input) := by
  rw [readQuotedBytes_eq]
  cases input with
  | nil => rfl
  | cons byte rest =>
    rw [quotedAt]
    by_cases hquote : code byte = '\''.toNat ∨ code byte = '"'.toNat
    · obtain ⟨quote, hq, hcode⟩ : ∃ quote, isQuote quote = true ∧ code byte = quote.toNat :=
        hquote.elim (fun h => ⟨'\'', rfl, h⟩) fun h => ⟨'"', rfl, h⟩
      have hfrom := quotedFrom_eq hq [byte] [] rest
      rw [if_pos hquote, outcome_readPieces_of_quote hq hcode, hcode]
      refine hfrom.trans ?_
      cases scanned quote.toNat rest <;> rfl
    · obtain ⟨hs, hd⟩ := not_or.mp hquote
      rw [if_neg hquote, outcome_readPieces_of_ne hs hd, ofPieces, Nat.sub_self]

end TagTree.Text
