import Mathlib.Algebra.Group.Int.Defs
import TagTree.Proofs.Text.Quoted
import TagTree.Value.Printer
import TagTree.Value.Reader

/-!
# Attribute values read back

A value whose objects have distinct identifiers as keys is read back from its text, wherever the
text cannot go on as a bare token (`Value.readTrimmed_write`), and so are attributes
(`Attributes.readPairs_chars`). A bare token is an integer exactly if it is a numeral in range
(`Value.ofBare?_integer_iff`).
-/

namespace TagTree

open Text (Reads Stops stops_cons skipBlanks isBlank)

variable {c closing : Char} {word : Int64} {token body input after rest : List Char} {key : String}

namespace Value

/-! ### Bare tokens -/

theorem isBare_of_isDigit (h : c.isDigit = true) : isBare c = true := by
  have hascii : c.toNat < 128 := by
    simp only [Char.isDigit, Bool.and_eq_true, decide_eq_true_eq, UInt32.le_iff_toNat_le] at h
    exact Nat.lt_of_le_of_lt h.2 (by decide)
  simp [isBare, Text.isAlphanumeric, hascii, Char.isAlphanum, h]

/-- Decimal digits name no other radix. -/
theorem radixAndDigits_of_digits {digits : List Char} (h : ∀ c ∈ digits, c.isDigit = true) :
    radixAndDigits digits = (10, digits) := by
  unfold radixAndDigits
  split
  all_goals first
    | rfl
    | exact absurd (h _ (List.mem_cons_of_mem _ List.mem_cons_self)) (by decide)

/-- The marks of a radix, each with the radix that it names. Decimal digits have none. -/
def radixMarks : List (List Char × Nat) :=
  [([], 10), (['0', 'x'], 16), (['0', 'X'], 16), (['0', 'o'], 8), (['0', 'O'], 8), (['0', 'b'], 2),
    (['0', 'B'], 2)]

/-- A mark of a radix and one or more digits of that radix write the number. -/
def IsMagnitude (unsigned : List Char) (number : Nat) : Prop :=
  ∃ mark radix digits, (mark, radix) ∈ radixMarks ∧ unsigned = mark ++ digits ∧
    Text.Numeral radix (digits.map Char.toNat) number

/-- The token writes the integer, with a minus sign or without. -/
inductive IsInteger : List Char → Int → Prop where
  | positive {unsigned : List Char} {number : Nat} (h : IsMagnitude unsigned number) :
    IsInteger unsigned number
  | negative {unsigned : List Char} {number : Nat} (h : IsMagnitude unsigned number) :
    IsInteger ('-' :: unsigned) (-number)

theorem exists_mem_radixMarks (unsigned : List Char) :
    ∃ mark, (mark, (radixAndDigits unsigned).1) ∈ radixMarks ∧
      unsigned = mark ++ (radixAndDigits unsigned).2 := by
  unfold radixAndDigits
  split <;> simp [radixMarks]

theorem magnitude?_eq_some_iff {unsigned : List Char} {number : Nat} :
    magnitude? unsigned = some number ↔ IsMagnitude unsigned number := by
  have hradix : ∀ entry ∈ radixMarks, entry.2 ≤ 16 := by decide
  constructor
  · intro h
    obtain ⟨mark, hmark, hsplit⟩ := exists_mem_radixMarks unsigned
    exact ⟨mark, _, _, hmark, hsplit, (Text.number?_eq_some_iff (hradix _ hmark)).mp h⟩
  · rintro ⟨mark, radix, digits, hmark, rfl, hdigits⟩
    have hnumber := (Text.number?_eq_some_iff (hradix _ hmark)).mpr hdigits
    have hsplit : radixAndDigits (mark ++ digits) = (radix, digits) := by
      simp only [radixMarks, List.mem_cons, Prod.mk.injEq, List.not_mem_nil, or_false] at hmark
      rcases hmark with ⟨rfl, rfl⟩ | h | h | h | h | h | h
      · exact radixAndDigits_of_digits hdigits.isDigit.2
      all_goals rw [h.1, h.2]; rfl
    rw [magnitude?, hsplit]
    exact hnumber

theorem word?_eq_some_iff {value : Int} : word? value = some word ↔ value = word.toInt := by
  constructor
  · intro h
    obtain ⟨_, hsigned, rfl⟩ := Option.map_eq_some_iff.mp h
    rw [Text.signedWord?] at hsigned
    split at hsigned
    · rename_i hrange
      cases hsigned
      exact (Int64.toInt_ofInt_of_le hrange.1 hrange.2).symm
    · cases hsigned
  · rintro rfl
    rw [word?, Text.signedWord?, if_pos ⟨word.le_toInt, word.toInt_lt⟩, Option.map_some,
      Int64.ofInt_toInt]

theorem bareInteger?_eq_some_iff : bareInteger? token = some word ↔ IsInteger token word.toInt := by
  constructor
  · intro h
    unfold bareInteger? at h
    split at h <;> obtain ⟨number, hnumber, hword⟩ := Option.bind_eq_some_iff.mp h <;>
      rw [← word?_eq_some_iff.mp hword]
    · exact .negative (magnitude?_eq_some_iff.mp hnumber)
    · exact .positive (magnitude?_eq_some_iff.mp hnumber)
  · intro h
    generalize hvalue : word.toInt = value at h
    have hword := word?_eq_some_iff.mpr hvalue.symm
    cases h with
    | positive h =>
      have hnumber := magnitude?_eq_some_iff.mpr h
      unfold bareInteger?
      split
      -- A minus sign is no digit.
      · cases hnumber
      · exact Option.bind_eq_some_iff.mpr ⟨_, hnumber, hword⟩
    | negative h => exact Option.bind_eq_some_iff.mpr ⟨_, magnitude?_eq_some_iff.mpr h, hword⟩

/-- No word is an integer. -/
theorem ofBare?_eq_integer_iff :
    ofBare? token = some (integer word) ↔ IsInteger token word.toInt := by
  have hnone : ∀ token ∈ ["null".toList, "true".toList, "false".toList],
      bareInteger? token = none := by decide
  rw [← bareInteger?_eq_some_iff, ofBare?]
  split
  · simp_all
  split
  · simp_all
  split
  · simp_all
  · simp

theorem isInteger_integerText (value : Int) : IsInteger (integerText value) value := by
  have hnumber : IsMagnitude (Nat.toDigits 10 value.natAbs) value.natAbs :=
    ⟨[], 10, _, List.mem_cons_self, rfl, Text.numeral_toDigits (by decide) _⟩
  unfold integerText
  split
  · have habs : -(value.natAbs : Int) = value := by omega
    rw [← congrArg (IsInteger _) habs]
    exact .negative hnumber
  · have habs : (value.natAbs : Int) = value := by omega
    rw [← congrArg (IsInteger _) habs]
    exact .positive hnumber

/-- A bare token is read as an integer exactly if it is an optional minus sign, an optional mark of
a radix and digits of that radix, and the integer is in the range of 64 bits. The text of every such
integer is read back. -/
theorem ofBare?_integer_iff :
    (∀ token value, (∃ word, ofBare? token = some (integer word) ∧ word.toInt = value) ↔
      IsInteger token value ∧ -2 ^ 63 ≤ value ∧ value < 2 ^ 63) ∧
    (∀ token, (∀ value, IsInteger token value → ¬ (-2 ^ 63 ≤ value ∧ value < 2 ^ 63)) →
      ∀ word, ofBare? token ≠ some (integer word)) ∧
    ∀ word : Int64, ofBare? (integer word).chars = some (integer word) := by
  refine ⟨fun token value => ⟨?_, ?_⟩, fun token h word hread => ?_, fun word => ?_⟩
  · rintro ⟨word, hread, rfl⟩
    exact ⟨ofBare?_eq_integer_iff.mp hread, word.le_toInt, word.toInt_lt⟩
  · rintro ⟨hinteger, hlow, hhigh⟩
    have hvalue := Int64.toInt_ofInt_of_le hlow hhigh
    exact ⟨Int64.ofInt value, ofBare?_eq_integer_iff.mpr (by rwa [hvalue]), hvalue⟩
  · exact h _ (ofBare?_eq_integer_iff.mp hread) ⟨word.le_toInt, word.toInt_lt⟩
  · rw [chars, write, List.append_nil, ofBare?_eq_integer_iff]
    exact isInteger_integerText _

/-- The characters of an integer are digits, after a minus sign if there is one. -/
theorem exists_integerText (value : Int) :
    ∃ first later, integerText value = first :: later ∧
      (first = '-' ∨ first.isDigit = true) ∧ ∀ c ∈ later, c.isDigit = true := by
  have hdigits : ∀ c ∈ Nat.toDigits 10 value.natAbs, c.isDigit = true := fun c hmem =>
    Nat.isDigit_of_mem_toDigits (by decide) (by decide) hmem
  unfold integerText
  split
  · exact ⟨'-', _, rfl, .inl rfl, hdigits⟩
  · cases hcons : Nat.toDigits 10 value.natAbs with
    | nil => exact absurd hcons Nat.toDigits_ne_nil
    | cons first later =>
      rw [hcons] at hdigits
      exact ⟨first, later, rfl, .inr (hdigits first List.mem_cons_self),
        (List.forall_mem_cons.mp hdigits).2⟩

/-! ### Texts of values -/

/-- What is written before an item: nothing before the first, a comma and a space before others. -/
def separator (first : Bool) : List Char :=
  if first then [] else [',', ' ']

/-- The texts of the items, and what follows them. Others came before these, or none did. -/
def itemsText (first : Bool) (rest : List Char) (items : List Value) : List Char :=
  if first then writeItems rest items else writeLaterItems rest items

/-- The texts of the entries, and what follows them. Others came before these, or none did. -/
def entriesText (first : Bool) (rest : List Char) (entries : List (String × Value)) : List Char :=
  if first then writeEntries rest entries else writeLaterEntries rest entries

section Texts

variable (first : Bool) (rest : List Char) (key : String) (value : Value)

theorem itemsText_nil : itemsText first rest [] = rest := by
  cases first <;> rfl

theorem itemsText_cons (later : List Value) : itemsText first rest (value :: later) =
    separator first ++ value.write (itemsText false rest later) := by
  cases first <;> rfl

theorem entriesText_nil : entriesText first rest [] = rest := by
  cases first <;> rfl

theorem entriesText_cons (later : List (String × Value)) :
    entriesText first rest ((key, value) :: later) = separator first ++
      (key.toList ++ ':' :: ' ' :: value.write (entriesText false rest later)) := by
  cases first <;> rfl

end Texts

mutual

theorem write_append (rest more : List Char) :
    (value : Value) → value.write (rest ++ more) = value.write rest ++ more
  | null | bool true | bool false | integer _ | text _ => (List.append_assoc ..).symm
  | array items => congrArg (List.cons '[') (itemsText_append true (']' :: rest) more items)
  | object entries => congrArg (List.cons '{') (entriesText_append true ('}' :: rest) more entries)

theorem itemsText_append (first : Bool) (rest more : List Char) :
    (items : List Value) → itemsText first (rest ++ more) items = itemsText first rest items ++ more
  | [] => by rw [itemsText_nil, itemsText_nil]
  | item :: later => by
    rw [itemsText_cons, itemsText_cons, itemsText_append, write_append, List.append_assoc]

theorem entriesText_append (first : Bool) (rest more : List Char) :
    (entries : List (String × Value)) →
      entriesText first (rest ++ more) entries = entriesText first rest entries ++ more
  | [] => by rw [entriesText_nil, entriesText_nil]
  | (key, value) :: later => by
    rw [entriesText_cons, entriesText_cons, entriesText_append, write_append]
    simp

end

/-- What follows a value in its text. -/
theorem write_eq (value : Value) (rest : List Char) : value.write rest = value.chars ++ rest :=
  value.write_append [] rest

/-- A value does not start with a blank, nor as an array ends. -/
theorem exists_cons_write (value : Value) (rest : List Char) :
    ∃ first later, value.write rest = first :: later ∧ isBlank first = false ∧ first ≠ ']' := by
  cases value with
  | null => exact ⟨'n', _, rfl, by decide, by decide⟩
  | bool value =>
    cases value with
    | true => exact ⟨'t', _, rfl, by decide, by decide⟩
    | false => exact ⟨'f', _, rfl, by decide, by decide⟩
  | integer value =>
    obtain ⟨first, later, htext, hfirst, -⟩ := exists_integerText value.toInt
    refine ⟨first, later ++ rest, by rw [write, htext]; rfl, ?_⟩
    rcases hfirst with rfl | hdigit
    · exact ⟨by decide, by decide⟩
    · refine ⟨Text.inRanges_eq_false (by decide) (Text.inRanges_of_isDigit hdigit), ?_⟩
      rintro rfl
      exact absurd hdigit (by decide)
  | text value =>
    obtain ⟨quote, later, hquote, hliteral⟩ := Text.exists_cons_literalText value.toList
    refine ⟨quote, later ++ rest, by rw [write, hliteral]; rfl, ?_⟩
    rcases Text.eq_of_isQuote hquote with rfl | rfl <;> exact ⟨by decide, by decide⟩
  | array items => exact ⟨'[', _, by rw [write], by decide, by decide⟩
  | object entries => exact ⟨'{', _, by rw [write], by decide, by decide⟩

theorem stops_isBlank_write (value : Value) (rest : List Char) :
    Stops isBlank (value.write rest) := by
  obtain ⟨first, later, htext, hblank, -⟩ := value.exists_cons_write rest
  rw [htext]
  exact stops_cons hblank later

section Ends

variable {test : Char → Bool} (hcomma : test ',' = false) (hclosing : test closing = false)
  (rest : List Char)

include hcomma hclosing

/-- After an item or an entry comes a comma or the end. -/
theorem stops_itemsText (items : List Value) :
    Stops test (itemsText false (closing :: rest) items) := by
  cases items with
  | nil => exact stops_cons hclosing rest
  | cons item items => exact stops_cons hcomma _

theorem stops_entriesText (entries : List (String × Value)) :
    Stops test (entriesText false (closing :: rest) entries) := by
  cases entries with
  | nil => exact stops_cons hclosing rest
  | cons entry entries => exact stops_cons hcomma _

end Ends

theorem readSeparator_separator (first : Bool) (body : List Char) :
    ∃ blanks, (∀ c ∈ blanks, isBlank c = true) ∧
      Reads (readSeparator first (separator first ++ body)) () (blanks ++ body) := by
  cases first with
  | true => exact ⟨[], nofun, .ok ..⟩
  | false =>
    have hcomma := Text.readChar_cons ',' (' ' :: body)
    exact ⟨[' '], Text.isBlank_space, hcomma.bind fun _ => .ok ..⟩

theorem head?_separator (hc : closing ≠ ',') (first : Bool) (h : body.head? ≠ some closing) :
    (separator first ++ body).head? ≠ some closing := by
  cases first with
  | true => exact h
  | false => exact fun heq => hc (Option.some.inj heq).symm

theorem ofBare?_words : ofBare? "null".toList = some null ∧
    ofBare? "true".toList = some (bool true) ∧ ofBare? "false".toList = some (bool false) := by
  refine ⟨if_pos rfl, ?_, ?_⟩
  · rw [ofBare?, if_neg (by decide), if_pos rfl]
  · rw [ofBare?, if_neg (by decide), if_neg (by decide), if_pos rfl]

/-! ### Values read back -/

variable [Alphabet]

mutual

/-- The keys of all objects within the value are distinct identifiers. -/
def IsKeyed : Value → Prop
  | array items => AreKeyed items
  | object entries => (Entries.keys entries).Nodup ∧ HaveKeys entries
  | _ => True

/-- The keys of all objects within the values are distinct identifiers. -/
def AreKeyed : List Value → Prop
  | [] => True
  | item :: later => item.IsKeyed ∧ AreKeyed later

/-- The keys of the entries, and those of all objects within, are identifiers. -/
def HaveKeys : List (String × Value) → Prop
  | [] => True
  | (key, value) :: later => Name.isIdentifier key = true ∧ value.IsKeyed ∧ HaveKeys later

end

theorem haveKeys_iff {entries : List (String × Value)} :
    HaveKeys entries ↔ ∀ entry ∈ entries, Name.isIdentifier entry.1 = true ∧ entry.2.IsKeyed := by
  induction entries with
  | nil => exact ⟨fun _ _ hmem => absurd hmem List.not_mem_nil, fun _ => trivial⟩
  | cons entry later ih => rw [HaveKeys, ih, List.forall_mem_cons, and_assoc]

section Steps

variable {first : Bool}

theorem readTrimmed_of_array {items : List Value}
    (h : Reads (readItems true (skipBlanks input)) items rest) :
    Reads (readTrimmed ('[' :: input)) (array items) rest := by
  rw [readTrimmed]
  exact h.bind fun short => .ok ..

theorem readTrimmed_of_object {pairs : List (String × Value)}
    (h : Reads (readEntries true (skipBlanks input)) pairs rest) :
    Reads (readTrimmed ('{' :: input)) (object (Entries.ofPairs pairs)) rest := by
  rw [readTrimmed]
  exact h.bind fun short => .ok ..

/-- A token is read whole. No other value starts as one. -/
theorem readTrimmed_of_token {later : List Char} {value : Value}
    (ht : ∀ d ∈ c :: later, isBare d = true) (hv : ofBare? (c :: later) = some value)
    (hr : Stops isBare rest) : Reads (readTrimmed (c :: later ++ rest)) value rest := by
  obtain ⟨hc, hlater⟩ := List.forall_mem_cons.mp ht
  obtain ⟨short, hrun⟩ : ∃ short, Text.run? isBare isBare (c :: (later ++ rest)) =
      some ⟨c :: later, rest, short⟩ := Text.run?_append hc hlater hr
  have hquote : ¬ (c :: later ++ rest).head?.any Text.isQuote = true := by
    intro hquote
    rcases Text.eq_of_isQuote hquote with rfl | rfl <;> exact absurd hc (by decide)
  rw [List.cons_append, readTrimmed]
  · refine (if_neg hquote).symm ▸ ⟨short, ?_⟩
    rw [readBare, hrun]
    simp only [hv]
  all_goals
    rintro _ ⟨⟩
    exact absurd hc (by decide)

/-- One more item of an array. -/
theorem readItems_cons {item : Value} {items : List Value} (hne : input.head? ≠ some ']')
    (hs : Reads (readSeparator first input) () body)
    (hitem : Reads (readTrimmed (skipBlanks body)) item after)
    (hitems : Reads (readItems false (skipBlanks after)) items rest) :
    Reads (readItems first input) (item :: items) rest := by
  rw [readItems]
  · exact hs.bind fun _ => hitem.bind fun _ => hitems.bind fun _ => .ok ..
  · rintro rest rfl
    exact hne rfl

/-- One more entry of an object. -/
theorem readEntries_cons {value : Value} {pairs : List (String × Value)}
    {named assigned : List Char} (hne : input.head? ≠ some '}')
    (hs : Reads (readSeparator first input) () body)
    (hkey : Reads (Text.readIdentifier .expectedObjectKey (skipBlanks body)) key named)
    (hcolon : Reads (Text.readChar ':' (skipBlanks named)) () assigned)
    (hvalue : Reads (readTrimmed (skipBlanks assigned)) value after)
    (hpairs : Reads (readEntries false (skipBlanks after)) pairs rest) :
    Reads (readEntries first input) ((key, value) :: pairs) rest := by
  rw [readEntries]
  · exact hs.bind fun _ => hkey.bind fun _ => hcolon.bind fun _ => hvalue.bind fun _ =>
      hpairs.bind fun _ => .ok ..
  · rintro rest rfl
    exact hne rfl

end Steps

section Parts

variable (first : Bool)

/-- The first item is read, and then the others. -/
theorem readItems_item {item : Value} {items : List Value}
    (hitem : ∀ rest, Stops isBare rest → Reads (readTrimmed (item.write rest)) item rest)
    (hitems : Reads (readItems false (itemsText false (']' :: rest) items)) items rest) :
    Reads (readItems first (separator first ++ item.write (itemsText false (']' :: rest) items)))
      (item :: items) rest := by
  have hbare : Stops isBare (itemsText false (']' :: rest) items) :=
    stops_itemsText (by decide) (by decide) rest items
  have hblank : Stops isBlank (itemsText false (']' :: rest) items) :=
    stops_itemsText (by decide) (by decide) rest items
  obtain ⟨c, later, htext, -, hclosing⟩ :=
    item.exists_cons_write (itemsText false (']' :: rest) items)
  have hhead : (item.write (itemsText false (']' :: rest) items)).head? ≠ some ']' := by
    rw [htext]
    exact fun heq => hclosing (Option.some.inj heq)
  obtain ⟨blanks, hblanks, hbody⟩ := readSeparator_separator first
    (item.write (itemsText false (']' :: rest) items))
  have hread := hitem _ hbare
  rw [← Text.skipBlanks_append hblanks (item.stops_isBlank_write _)] at hread
  rw [← Text.skipBlanks_of_stops hblank] at hitems
  exact readItems_cons (head?_separator (by decide) first hhead) hbody hread hitems

/-- The first entry is read, and then the others. -/
theorem readEntries_entry {value : Value} {entries : List (String × Value)}
    (hk : Name.isIdentifier key = true)
    (hvalue : ∀ rest, Stops isBare rest → Reads (readTrimmed (value.write rest)) value rest)
    (hentries : Reads (readEntries false (entriesText false ('}' :: rest) entries)) entries rest) :
    Reads (readEntries first (separator first ++ (key.toList ++ ':' :: ' ' ::
      value.write (entriesText false ('}' :: rest) entries)))) ((key, value) :: entries) rest := by
  have hbare : Stops isBare (entriesText false ('}' :: rest) entries) :=
    stops_entriesText (by decide) (by decide) rest entries
  have hblank : Stops isBlank (entriesText false ('}' :: rest) entries) :=
    stops_entriesText (by decide) (by decide) rest entries
  let assigned := ' ' :: value.write (entriesText false ('}' :: rest) entries)
  have hhead : (key.toList ++ ':' :: assigned).head? ≠ some '}' :=
    Text.head?_ne_of_isWord hk (Name.startsWord_eq_false (by decide)) _
  obtain ⟨blanks, hblanks, hbody⟩ := readSeparator_separator first (key.toList ++ ':' :: assigned)
  have hkey := Text.readIdentifier_append .expectedObjectKey hk
    (stops_cons (Name.continuesIdentifier_eq_false (c := ':') (by decide)) assigned)
  rw [← Text.skipBlanks_append hblanks (Text.stops_isBlank_of_isWord hk _)] at hkey
  have hcolon := Text.readChar_cons ':' assigned
  have hnamed : Stops isBlank (':' :: assigned) := stops_cons (by decide) assigned
  rw [← Text.skipBlanks_of_stops hnamed] at hcolon
  have hread := hvalue _ hbare
  have hassigned : skipBlanks assigned = value.write (entriesText false ('}' :: rest) entries) :=
    Text.skipBlanks_append Text.isBlank_space (value.stops_isBlank_write _)
  rw [← hassigned] at hread
  rw [← Text.skipBlanks_of_stops hblank] at hentries
  exact readEntries_cons (head?_separator (by decide) first hhead) hbody hkey hcolon hread hentries

end Parts

theorem readTrimmed_integer (value : Int64) (hr : Stops isBare rest) :
    Reads (readTrimmed (integerText value.toInt ++ rest)) (integer value) rest := by
  obtain ⟨first, later, htext, hfirst, hlater⟩ := exists_integerText value.toInt
  have hbare := ofBare?_eq_integer_iff.mpr (isInteger_integerText value.toInt)
  rw [htext] at hbare ⊢
  refine readTrimmed_of_token (List.forall_mem_cons.mpr ⟨?_, fun c hmem =>
    isBare_of_isDigit (hlater c hmem)⟩) hbare hr
  rcases hfirst with rfl | hdigit
  · decide
  · exact isBare_of_isDigit hdigit

theorem readTrimmed_text (text : String) (rest : List Char) :
    Reads (readTrimmed (Text.literalText text.toList ++ rest)) (.text text) rest := by
  have hread := Text.readLiteral_literalText text rest
  have hany := Text.any_isQuote_literalText text.toList rest
  obtain ⟨quote, later, hquote, hliteral⟩ := Text.exists_cons_literalText text.toList
  rw [hliteral] at hread hany ⊢
  rcases Text.eq_of_isQuote hquote with rfl | rfl <;>
  · rw [readTrimmed]
    · rw [if_pos hany]
      exact hread.bind fun _ => .ok ..
    all_goals simp

mutual

/-- A value is read back from its text. -/
theorem readTrimmed_write (rest : List Char) (hr : Stops isBare rest) :
    (value : Value) → value.IsKeyed → Reads (readTrimmed (value.write rest)) value rest
  | null, _ => readTrimmed_of_token (List.all_eq_true.mp (by decide)) ofBare?_words.1 hr
  | bool true, _ => readTrimmed_of_token (List.all_eq_true.mp (by decide)) ofBare?_words.2.1 hr
  | bool false, _ => readTrimmed_of_token (List.all_eq_true.mp (by decide)) ofBare?_words.2.2 hr
  | integer value, _ => by
    rw [write]
    exact readTrimmed_integer value hr
  | text value, _ => by
    rw [write]
    exact readTrimmed_text value rest
  | array items, hk => by
    have hstops : Stops isBlank (itemsText true (']' :: rest) items) := by
      cases items with
      | nil => exact stops_cons (by decide) rest
      | cons item later => exact item.stops_isBlank_write _
    have hread := readItems_itemsText true rest items hk
    rw [← Text.skipBlanks_of_stops hstops] at hread
    exact readTrimmed_of_array hread
  | object entries, hk => by
    obtain ⟨hdistinct, hkeys⟩ := hk
    have hstops : Stops isBlank (entriesText true ('}' :: rest) entries) := by
      cases entries with
      | nil => exact stops_cons (by decide) rest
      | cons entry later => exact Text.stops_isBlank_of_isWord hkeys.1 _
    have hpairs := readEntries_entriesText true rest entries hkeys
    rw [← Text.skipBlanks_of_stops hstops] at hpairs
    have hread := readTrimmed_of_object hpairs
    rwa [Entries.ofPairs_of_nodup hdistinct] at hread

/-- The items of an array are read back. -/
theorem readItems_itemsText (first : Bool) (rest : List Char) :
    (items : List Value) → AreKeyed items →
      Reads (readItems first (itemsText first (']' :: rest) items)) items rest
  | [], _ => by
    rw [itemsText_nil, readItems]
    exact .ok ..
  | item :: later, ⟨hitem, hlater⟩ => by
    rw [itemsText_cons]
    exact readItems_item first (fun rest hr => readTrimmed_write rest hr item hitem)
      (readItems_itemsText false rest later hlater)

/-- The entries of an object are read back. -/
theorem readEntries_entriesText (first : Bool) (rest : List Char) :
    (entries : List (String × Value)) → HaveKeys entries →
      Reads (readEntries first (entriesText first ('}' :: rest) entries)) entries rest
  | [], _ => by
    rw [entriesText_nil, readEntries]
    exact .ok ..
  | (key, value) :: later, ⟨hkey, hvalue, hlater⟩ => by
    rw [entriesText_cons]
    exact readEntries_entry first hkey (fun rest hr => readTrimmed_write rest hr value hvalue)
      (readEntries_entriesText false rest later hlater)

end

theorem read_write (hr : Stops isBare rest) (value : Value) (hv : value.IsKeyed) :
    Reads (read (value.write rest)) value rest := by
  have hread := value.readTrimmed_write rest hr hv
  rw [← Text.skipBlanks_of_stops (value.stops_isBlank_write rest)] at hread
  exact hread.bind fun _ => .ok ..

end Value

namespace Attributes

variable [Alphabet]

/-- The keys are distinct identifiers, and so are those of all objects within. -/
def IsKeyed (attributes : Attributes) : Prop :=
  (Entries.keys attributes).Nodup ∧ Value.HaveKeys attributes

theorem readPairs_nil (h : Stops Name.startsWord (skipBlanks input)) :
    Reads (readPairs input) [] (skipBlanks input) := by
  rw [readPairs]
  simp only [Text.identifier?_of_stops h]
  exact .ok ..

theorem readPairs_cons {value : Value} {pairs : List (String × Value)} {following : List Char}
    (hkey : ∃ short, Text.identifier? (skipBlanks input) = some ⟨key, following, short⟩)
    (hvalue : Reads (readAssigned following) value after)
    (hpairs : Reads (readPairs after) pairs rest) :
    Reads (readPairs input) ((key, value) :: pairs) rest := by
  obtain ⟨short, hkey⟩ := hkey
  rw [readPairs]
  simp only [hkey]
  exact hvalue.bind fun _ => hpairs.bind fun _ => .ok ..

variable {attributes : Attributes} {blanks : List Char} (hr : Stops Value.isBare rest)
  (he : Stops Name.startsWord (skipBlanks rest)) (hb : ∀ c ∈ blanks, isBlank c = true)

include hr he hb

/-- Attributes are read back from their text. -/
theorem readPairs_chars (hk : Value.HaveKeys attributes) :
    Reads (readPairs (blanks ++ (chars attributes ++ rest))) attributes (skipBlanks rest) := by
  induction attributes generalizing blanks with
  | nil =>
    have hskip : skipBlanks (blanks ++ rest) = skipBlanks rest := List.dropWhile_append_of_pos hb
    rw [← hskip] at he ⊢
    exact readPairs_nil he
  | cons entry later ih =>
    obtain ⟨key, value⟩ := entry
    obtain ⟨hkey, hvalue, hlater⟩ := hk
    -- what follows the value is the rest, or a space and the other attributes
    obtain ⟨after, htext, hafter, hpairs⟩ : ∃ after, chars ((key, value) :: later) ++ rest =
        key.toList ++ '=' :: value.write after ∧ Stops Value.isBare after ∧
        Reads (readPairs after) later (skipBlanks rest) := by
      cases later with
      | nil =>
        have hnone : ∀ c ∈ ([] : List Char), isBlank c = true := nofun
        refine ⟨rest, ?_, hr, ih hnone hlater⟩
        rw [chars, value.write_eq]
        simp
      | cons next others =>
        refine ⟨' ' :: (chars (next :: others) ++ rest), ?_, stops_cons (by decide) _,
          ih Text.isBlank_space hlater⟩
        rw [chars, value.write_eq]
        simp
    have hstops : Stops Name.continuesIdentifier ('=' :: value.write after) :=
      stops_cons (Name.continuesIdentifier_eq_false (by decide)) _
    have hfound := Text.identifier?_append hkey hstops
    rw [← Text.skipBlanks_append hb (Text.stops_isBlank_of_isWord hkey _), ← htext] at hfound
    exact readPairs_cons hfound ((Value.read_write hafter value hvalue).bind fun _ => .ok ..) hpairs

theorem read_chars (hk : attributes.IsKeyed) :
    Reads (read (blanks ++ (chars attributes ++ rest))) attributes (skipBlanks rest) := by
  refine (readPairs_chars hr he hb hk.2).bind fun short => ⟨short, ?_⟩
  rw [Text.Parsed.map, Entries.ofPairs_of_nodup hk.1]
  rfl

end Attributes

/-- A value is read back from its text, up to the end of that text, if what follows cannot go on as
a bare token. Attributes are read back from their text up to the end of the tag. -/
theorem Value.read_print [Alphabet] :
    (∀ (value : Value) (rest : List Char), value.IsKeyed → Stops isBare rest →
      Reads (read (value.print.toList ++ rest)) value rest) ∧
    ∀ (attributes : Attributes) (rest : List Char), attributes.IsKeyed →
      Reads (Attributes.read (attributes.print.toList ++ '>' :: rest)) attributes
        ('>' :: rest) := by
  constructor
  · intro value rest hv hr
    rw [print, String.toList_ofList, ← write_eq]
    exact read_write hr value hv
  · intro attributes rest hk
    have hend : skipBlanks ('>' :: rest) = '>' :: rest :=
      Text.skipBlanks_of_stops (stops_cons (by decide) rest)
    have hnone : ∀ c ∈ ([] : List Char), isBlank c = true := List.forall_mem_nil _
    have hread := Attributes.read_chars (stops_cons (by decide) rest)
      (hend.symm ▸ stops_cons (Name.startsWord_eq_false (by decide)) rest) hnone hk
    rwa [hend, List.nil_append, ← String.toList_ofList (l := attributes.chars)] at hread

/-- An object with nested and empty parts, a quote and the least integer. -/
def Value.nested : Value :=
  .object [("min", .integer Int64.minValue),
    ("parts", .array [.array [], .object [], .text "it's", .object [("a-1", .null)]])]

/-- Attributes with that object. -/
def Attributes.nested : Attributes :=
  [("deep", Value.nested), ("_", .bool true)]

theorem Value.read_print_nested :
    Reads (read (nested.print.toList ++ [','])) nested [','] ∧
    Reads (Attributes.read (Attributes.nested.print.toList ++ '>' :: []))
      Attributes.nested ['>'] := by
  have hkeyed : nested.IsKeyed := by
    refine ⟨by decide, by decide, trivial, by decide, ?_, trivial⟩
    exact ⟨trivial, ⟨by decide, trivial⟩, trivial,
      ⟨by decide, by decide, trivial, trivial⟩, trivial⟩
  exact ⟨read_print.1 _ _ hkeyed (stops_cons (by decide) []),
    read_print.2 _ _ ⟨by decide, by decide, hkeyed, by decide, trivial, trivial⟩⟩

end TagTree
