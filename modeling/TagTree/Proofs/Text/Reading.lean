import Mathlib.Data.List.Induction
import TagTree.Text.Reading

/-!
# What readers take

A reader takes the front of a text and leaves the rest (`Text.Reads`). A word, a run of digits or a
run of blanks is taken as a whole where what follows cannot continue it.
-/

namespace TagTree.Text

open Name (startsWord isWord)

variable {test : Char → Bool} {blanks digits : List Char} {name : String}

section Reads

variable {υ ω α β ε : Type} {limit wider : Nat}

/-- The reader gives the value and leaves the rest. -/
def Reads (result : Except ε (Parsed υ α limit)) (value : α) (rest : List υ) : Prop :=
  ∃ short, result = .ok ⟨value, rest, short⟩

/-- A reader that goes on from where another one stopped. -/
theorem Reads.bind {result : Except ε (Parsed υ α limit)} {value : α} {rest : List υ}
    {next : Parsed υ α limit → Except ε (Parsed ω β wider)} {final : β} {after : List ω}
    (h : Reads result value rest) (hn : ∀ short, Reads (next ⟨value, rest, short⟩) final after) :
    Reads (result >>= next) final after := by
  obtain ⟨short, rfl⟩ := h
  exact hn short

theorem Reads.ok (value : α) (rest : List υ) (short : rest.length < limit) :
    Reads (.ok ⟨value, rest, short⟩ : Except ε (Parsed υ α limit)) value rest :=
  ⟨short, rfl⟩

end Reads

/-! ### Characters -/

variable {c : Char} {text rest word input : List Char} {continues : Char → Bool} {bound value : Nat}
  {υ : Type}

/-- No word starts with a blank. -/
theorem isBlank_of_startsWord [Alphabet] (h : startsWord c = true) : isBlank c = false := by
  refine Bool.eq_false_iff.mpr fun hblank => ?_
  exact Bool.eq_false_iff.mp (Name.isSeparator_of_startsWord h) (isSeparator_of_isBlank hblank)

/-! ### Runs of characters -/

/-- The text is empty or starts with a unit that fails the test. -/
def Stops {υ : Type} (test : υ → Bool) (text : List υ) : Prop :=
  ∀ unit ∈ text.head?, test unit = false

theorem stops_nil (test : υ → Bool) : Stops test [] :=
  nofun

theorem stops_cons {test : υ → Bool} {unit : υ} (h : test unit = false)
    (rest : List υ) : Stops test (unit :: rest) := by
  rintro found ⟨⟩
  exact h

/-- A run is taken as a whole. -/
theorem takeWhile_of_stops {test : υ → Bool} {front rest : List υ}
    (hf : ∀ c ∈ front, test c = true) (hr : Stops test rest) :
    (front ++ rest).takeWhile test = front ∧ (front ++ rest).dropWhile test = rest := by
  rw [List.takeWhile_append_of_pos hf, List.dropWhile_append_of_pos hf]
  cases rest with
  | nil => exact ⟨List.append_nil _, rfl⟩
  | cons c rest =>
    have hc : ¬ test c = true := Bool.eq_false_iff.mp (hr c rfl)
    rw [List.takeWhile_cons_of_neg hc, List.dropWhile_cons_of_neg hc]
    exact ⟨List.append_nil _, rfl⟩

theorem span_append {front : List Char} (hf : ∀ c ∈ front, test c = true) (hr : Stops test rest) :
    ∃ short, span test (front ++ rest) = ⟨front, rest, short⟩ := by
  obtain ⟨htake, hdrop⟩ := takeWhile_of_stops hf hr
  have hshort : rest.length < (front ++ rest).length + 1 := by
    rw [List.length_append]
    omega
  exact ⟨hshort, Parsed.eq_of_toPair_eq (Prod.ext htake hdrop)⟩

theorem isBlank_space : ∀ c ∈ [' '], isBlank c = true :=
  List.all_eq_true.mp (by decide)

/-- Blanks are skipped up to what is none. -/
theorem skipBlanks_append (hb : ∀ c ∈ blanks, isBlank c = true) (hr : Stops isBlank rest) :
    skipBlanks (blanks ++ rest) = rest :=
  (takeWhile_of_stops hb hr).2

theorem skipBlanks_of_stops (h : Stops isBlank text) : skipBlanks text = text :=
  skipBlanks_append (List.forall_mem_nil _) h

/-- A run is read whole after a first character that starts it. -/
theorem run?_append {starts : Char → Bool} {first : Char} {later : List Char}
    (hs : starts first = true) (hl : ∀ c ∈ later, continues c = true) (hr : Stops continues rest) :
    ∃ short, run? starts continues (first :: later ++ rest) =
      some ⟨first :: later, rest, short⟩ := by
  obtain ⟨htake, hdrop⟩ := takeWhile_of_stops hl hr
  have hshort : rest.length < (first :: later ++ rest).length := by
    simp only [List.length_append, List.length_cons]
    omega
  refine ⟨hshort, ?_⟩
  simp only [List.cons_append, run?, hs, if_true, htake, hdrop]

section Words

variable [Alphabet]

theorem word?_append (hw : isWord continues word = true) (hr : Stops continues rest) :
    ∃ short, word? continues (word ++ rest) = some ⟨word, rest, short⟩ := by
  cases word with
  | nil => cases hw
  | cons first later =>
    rw [isWord, Bool.and_eq_true, List.all_eq_true] at hw
    exact run?_append hw.1 hw.2 hr

/-- Characters that can stand nowhere in a word are not in it. -/
theorem not_mem_of_isWord (h : isWord continues word = true) (hs : startsWord c = false)
    (hc : continues c = false) : c ∉ word := by
  cases word with
  | nil => exact List.not_mem_nil
  | cons first later =>
    rw [isWord, Bool.and_eq_true, List.all_eq_true] at h
    intro hmem
    rcases List.mem_cons.mp hmem with rfl | hlater
    · exact absurd h.1 (Bool.eq_false_iff.mp hs)
    · exact absurd (h.2 c hlater) (Bool.eq_false_iff.mp hc)

theorem word?_of_stops (h : Stops startsWord text) : word? continues text = none := by
  cases text with
  | nil => rfl
  | cons first later => exact if_neg (Bool.eq_false_iff.mp (h first rfl))

theorem exists_cons_of_isWord (h : isWord continues word = true) :
    ∃ first later, word = first :: later ∧ startsWord first = true := by
  cases word with
  | nil => cases h
  | cons first later =>
    rw [isWord, Bool.and_eq_true] at h
    exact ⟨first, later, rfl, h.1⟩

/-- A word does not start with a character that starts none. -/
theorem head?_ne_of_isWord
    (h : isWord continues word = true) (hc : startsWord c = false) (rest : List Char) :
    (word ++ rest).head? ≠ some c := by
  obtain ⟨first, later, rfl, hfirst⟩ := exists_cons_of_isWord h
  rintro ⟨⟩
  exact absurd hfirst (Bool.eq_false_iff.mp hc)

/-- A word stops what no first character of a word continues. -/
theorem stops_of_isWord (ht : ∀ c, startsWord c = true → test c = false)
    (h : isWord continues word = true) (rest : List Char) : Stops test (word ++ rest) := by
  obtain ⟨first, later, rfl, hfirst⟩ := exists_cons_of_isWord h
  exact stops_cons (ht first hfirst) _

theorem stops_isBlank_of_isWord
    (h : isWord continues word = true) (rest : List Char) : Stops isBlank (word ++ rest) :=
  stops_of_isWord (fun _ => isBlank_of_startsWord) h rest

theorem identifier?_append (hn : Name.isIdentifier name = true)
    (hr : Stops Name.continuesIdentifier rest) :
    ∃ short, identifier? (name.toList ++ rest) = some ⟨name, rest, short⟩ := by
  obtain ⟨short, hword⟩ := word?_append hn hr
  refine ⟨short, ?_⟩
  rw [identifier?, hword]
  simp [Parsed.map]

theorem identifier?_of_stops (h : Stops startsWord text) : identifier? text = none := by
  rw [identifier?, word?_of_stops h]
  rfl

theorem readIdentifier_append (fault : SyntaxFault) (hn : Name.isIdentifier name = true)
    (hr : Stops Name.continuesIdentifier rest) :
    Reads (readIdentifier fault (name.toList ++ rest)) name rest := by
  obtain ⟨short, hidentifier⟩ := identifier?_append hn hr
  refine ⟨short, ?_⟩
  rw [readIdentifier, hidentifier]

end Words

theorem eat?_cons (c : Char) (rest : List Char) : eat? c (c :: rest) = some (.ofRest () rest) := by
  rw [eat?, if_pos rfl]

theorem eat?_of_stops (h : input.head? ≠ some c) : eat? c input = none := by
  cases input with
  | nil => rfl
  | cons first rest => exact if_neg fun heq => h (congrArg some heq)

theorem readChar_cons (c : Char) (rest : List Char) : Reads (readChar c (c :: rest)) () rest := by
  refine ⟨Nat.lt_succ_self _, ?_⟩
  rw [readChar, eat?_cons]
  rfl

theorem eq_cons_of_eat? {parsed : Parsed Char Unit input.length}
    (h : eat? c input = some parsed) : input = c :: parsed.rest := by
  cases input with
  | nil => cases h
  | cons first rest =>
    rw [eat?] at h
    split at h
    · rename_i hfirst
      cases h
      rw [hfirst]
      rfl
    · cases h

theorem eq_cons_of_readChar {parsed : Parsed Char Unit input.length}
    (h : readChar c input = .ok parsed) : input = c :: parsed.rest := by
  rw [readChar] at h
  split at h
  · rename_i found hfound
    cases h
    exact eq_cons_of_eat? hfound
  · cases h

/-! ### Digits -/

/-- The code is that of a digit of the radix, a letter in either case, with the given value. -/
def IsDigit (radix code value : Nat) : Prop :=
  value < radix ∧ (code = value.digitChar.toNat ∨ code = value.digitChar.toUpper.toNat)

/-- One or more digits of the radix write a number. -/
inductive Numeral (radix : Nat) : List Nat → Nat → Prop where
  | digit {code value : Nat} (h : IsDigit radix code value) : Numeral radix [code] value
  | more {codes : List Nat} {code number value : Nat} (front : Numeral radix codes number)
      (h : IsDigit radix code value) : Numeral radix (codes ++ [code]) (radix * number + value)

theorem toNat_digitChar : ∀ value, value < 16 →
    value.digitChar.toNat = (if value < 10 then value + 48 else value + 87) ∧
    value.digitChar.toUpper.toNat = if value < 10 then value + 48 else value + 55 := by
  decide

theorem digitsValue?_concat (radix : Nat) (codes : List Nat) (code start : Nat) :
    digitsValue? radix (codes ++ [code]) start =
      (digitsValue? radix codes start).bind fun value =>
        (digitValue? radix code).map (radix * value + ·) := by
  induction codes generalizing start with
  | nil =>
    rw [List.nil_append, digitsValue?, digitsValue?]
    cases digitValue? radix code <;> rfl
  | cons first codes ih =>
    rw [List.cons_append, digitsValue?, digitsValue?]
    cases digitValue? radix first with
    | none => rfl
    | some digit => exact ih _

section Numerals

variable {radix code number : Nat} {codes : List Nat} (hr : radix ≤ 16)

include hr

theorem IsDigit.code_lt (h : IsDigit radix code value) :
    48 ≤ code ∧ code < 125 ∧ (radix ≤ 10 → code < 58) := by
  obtain ⟨hvalue, hcode⟩ := h
  obtain ⟨hlower, hupper⟩ := toNat_digitChar value (by omega)
  split at hlower <;> split at hupper <;> omega

theorem digitValue?_eq_some_iff : digitValue? radix code = some value ↔
    IsDigit radix code value := by
  rw [digitValue?, Option.filter_eq_some_iff, and_comm, IsDigit, decide_eq_true_iff]
  refine and_congr_right fun hvalue => ?_
  obtain ⟨hlower, hupper⟩ := toNat_digitChar value (by omega)
  rw [hlower, hupper]
  repeat' split
  all_goals simp only [Option.some.injEq, reduceCtorEq, false_iff, not_or]
  all_goals omega

theorem numeral_of_digitsValue? (hc : codes ≠ []) (h : digitsValue? radix codes 0 = some number) :
    Numeral radix codes number := by
  induction codes using List.reverseRecOn generalizing number with
  | nil => exact absurd rfl hc
  | append_singleton codes code ih =>
    rw [digitsValue?_concat] at h
    obtain ⟨front, hfront, hlast⟩ := Option.bind_eq_some_iff.mp h
    obtain ⟨digit, hdigit, rfl⟩ := Option.map_eq_some_iff.mp hlast
    have hdigit := (digitValue?_eq_some_iff hr).mp hdigit
    cases codes with
    | nil =>
      cases hfront
      rw [Nat.mul_zero, Nat.zero_add]
      exact .digit hdigit
    | cons first codes => exact .more (ih (List.cons_ne_nil first codes) hfront) hdigit

theorem Numeral.digitsValue? (h : Numeral radix codes number) :
    codes ≠ [] ∧ digitsValue? radix codes 0 = some number := by
  induction h with
  | digit h =>
    refine ⟨by simp, ?_⟩
    rw [Text.digitsValue?, (digitValue?_eq_some_iff hr).mpr h, Nat.mul_zero]
    exact congrArg some (Nat.zero_add _)
  | more front h ih =>
    refine ⟨by simp, ?_⟩
    rw [digitsValue?_concat, ih.2, (digitValue?_eq_some_iff hr).mpr h]
    rfl

/-- A number is read exactly from its digits. -/
theorem number?_eq_some_iff : number? radix codes = some number ↔ Numeral radix codes number := by
  constructor
  · intro h
    rw [number?] at h
    split at h
    · cases h
    · rename_i hempty
      exact numeral_of_digitsValue? hr (fun hnil => hempty (List.isEmpty_iff.mpr hnil)) h
  · intro h
    obtain ⟨hne, hvalue⟩ := h.digitsValue? hr
    rw [number?, if_neg (mt List.isEmpty_iff.mp hne), hvalue]

theorem Numeral.code_lt (h : Numeral radix codes number) (hm : code ∈ codes) :
    48 ≤ code ∧ code < 125 ∧ (radix ≤ 10 → code < 58) := by
  induction h with
  | digit h => exact List.mem_singleton.mp hm ▸ h.code_lt hr
  | more front h ih =>
    rcases List.mem_append.mp hm with hfront | hlast
    · exact ih hfront
    · exact List.mem_singleton.mp hlast ▸ h.code_lt hr

end Numerals

/-- A number is written by its digits. -/
theorem numeral_toDigits {radix : Nat} (hr : 1 < radix) (value : Nat) :
    Numeral radix ((Nat.toDigits radix value).map Char.toNat) value := by
  induction value using Nat.strongRecOn with
  | ind value ih =>
    rcases Nat.lt_or_ge value radix with hlt | hge
    · rw [Nat.toDigits_of_lt_base hlt]
      exact .digit ⟨hlt, .inl rfl⟩
    · have hfront := ih _ (Nat.div_lt_self (by omega) hr)
      rw [Nat.toDigits_of_base_le hr hge, List.map_append]
      have hlast := hfront.more ⟨Nat.mod_lt value (by omega), .inl rfl⟩
      rwa [Nat.div_add_mod] at hlast

theorem decimalBelow?_eq_some_iff :
    decimalBelow? bound digits = some value ↔
      Numeral 10 (digits.map Char.toNat) value ∧ value < bound := by
  rw [decimalBelow?, Option.filter_eq_some_iff, number?_eq_some_iff (by decide), decide_eq_true_iff]

/-- A decimal number is written in decimal digits. -/
theorem Numeral.isDigit {digits : List Char} (h : Numeral 10 (digits.map Char.toNat) value) :
    digits ≠ [] ∧ ∀ digit ∈ digits, digit.isDigit = true := by
  refine ⟨fun hnil => (h.digitsValue? (by decide)).1 (by rw [hnil]; rfl), fun digit hmem => ?_⟩
  obtain ⟨hlow, -, hhigh⟩ := h.code_lt (by decide) (List.mem_map_of_mem hmem)
  rw [Char.isDigit, Bool.and_eq_true, decide_eq_true_iff, decide_eq_true_iff]
  exact ⟨hlow, Nat.le_of_lt_succ (hhigh (Nat.le_refl 10))⟩

theorem isDigit_of_decimalBelow? (h : decimalBelow? bound digits = some value) :
    digits ≠ [] ∧ ∀ digit ∈ digits, digit.isDigit = true :=
  (decimalBelow?_eq_some_iff.mp h).1.isDigit

theorem decimalBelow?_toDigits (h : value < bound) :
    decimalBelow? bound (Nat.toDigits 10 value) = some value :=
  decimalBelow?_eq_some_iff.mpr ⟨numeral_toDigits (by decide) value, h⟩

end TagTree.Text
