import Mathlib.Data.List.DropRight
import TagTree.Proofs.Text.ScannedWord

/-!
# Values by position

Values and attributes are read by position as from what is left (`Scanner.follows_value`,
`Scanner.follows_attributes`). Each turn of the loops over items, entries and attributes advances.
-/

namespace TagTree.Scanner

open Text (Parsed byteLength skipBlanks isBlank outcome)
open Value (readBare ofBare? isBare readSeparator readTrimmed readItems readEntries)
open Attributes (readAssigned readPairs)

variable {text : String} {back : Bool} {rest left : List Char} {α β : Type} {limit wider : Nat}

/-- What is left after blanks is the end of what was left. -/
theorem skipBlanks_suffix (rest : List Char) : skipBlanks rest <:+ rest :=
  List.dropWhile_suffix isBlank

/-- What is left later than after blanks is left later. -/
theorem suffix_of_skipBlanks (h : left <:+ skipBlanks rest) : left <:+ rest :=
  h.trans (skipBlanks_suffix rest)

/-- After blanks there are no more. -/
theorem skipBlanks_skipBlanks (rest : List Char) : skipBlanks (skipBlanks rest) = skipBlanks rest :=
  List.dropWhile_idempotent isBlank rest

/-- A bare value is that of the longest bare token. -/
theorem outcome_readBare (rest : List Char) :
    outcome (readBare rest) = ((ofBare? (rest.takeWhile isBare)).elim
      (.error (Text.faultBetween (.invalidValue (String.ofList (rest.takeWhile isBare))) rest
        (rest.dropWhile isBare)))
      fun value => .ok (value, rest.dropWhile isBare)) := by
  cases rest with
  | nil => rfl
  | cons first later =>
    rw [readBare, Text.run?]
    by_cases hfirst : isBare first = true
    · rw [List.takeWhile_cons_of_pos hfirst, List.dropWhile_cons_of_pos hfirst]
      simp only [if_pos hfirst]
      cases ofBare? (first :: later.takeWhile isBare) <;> rfl
    · rw [List.takeWhile_cons_of_neg hfirst, List.dropWhile_cons_of_neg hfirst]
      simp only [if_neg hfirst]
      rfl

/-- What is left keeps to the bound. -/
theorem length_lt_of_outcome {result : Except ReadError (Parsed Char α limit)}
    {found : α × List Char} (h : outcome result = .ok found) : found.2.length < limit := by
  cases result with
  | error error => cases h
  | ok parsed =>
    cases h
    exact parsed.shorter

/-- What is made of a value leaves as much. -/
theorem outcome_map_value (result : Except ReadError (Parsed Char α limit))
    (f : α → β) : outcome (result.map fun parsed => parsed.map f) =
      (outcome result).map fun found => (f found.1, found.2) := by
  cases result <;> rfl

/-- Readers that go on equally after one have equal outcomes. -/
theorem outcome_bind {γ : Type} {widest : Nat} {first : Except ReadError (Parsed Char α limit)}
    {second : Parsed Char α limit → Except ReadError (Parsed Char γ wider)}
    {third : Parsed Char α limit → Except ReadError (Parsed Char β widest)}
    {next : β × List Char → Except ReadError (γ × List Char)} (h : ∀ value left short,
      outcome (second ⟨value, left, short⟩) = outcome (third ⟨value, left, short⟩) >>= next) :
    outcome (first >>= second) = outcome (first >>= third) >>= next := by
  cases first with
  | error error => rfl
  | ok parsed => exact h parsed.value parsed.rest parsed.shorter

/-- What is made of a value in the end leaves as much. -/
theorem outcome_bind_pure {first : Except ReadError (Parsed Char α limit)} (f : α → β)
    (short : ∀ parsed : Parsed Char α limit, parsed.rest.length < wider) :
    outcome (first >>= fun parsed => pure ⟨f parsed.value, parsed.rest, short parsed⟩) =
      (outcome first).map fun found => (f found.1, found.2) := by
  cases first <;> rfl

/-- What is made of a result is made of it in the end. -/
theorem map_bind {ε γ : Type} (first : Except ε α) (second : α → Except ε β) (f : β → γ) :
    (first >>= second).map f = first >>= fun value => (second value).map f := by
  cases first <;> rfl

/-! ### Bare values and separators -/

variable [Alphabet]

/-- Blanks are passed. -/
theorem leads_skipBlanks : Leads text back (skipWhile isBlank) rest (pure ()) (skipBlanks rest) :=
  leads_skipWhile isBlank rest

/-- A bare value is read by position. -/
theorem follows_bare : Follows text back bare rest (readBare rest) := by
  refine Follows.of_suffix fun hrest => ?_
  have hsince : Leads text back (since (placeOf text rest)) (rest.dropWhile isBare)
      (pure (rest.takeWhile isBare)) (rest.dropWhile isBare) :=
    leads_since hrest List.takeWhile_append_dropWhile
  have hout := outcome_readBare rest
  refine leads_position.next.follows ((leads_skipWhile _ rest).next.follows
    (hsince.next.follows ?_))
  cases hbare : ofBare? (rest.takeWhile isBare) with
  | none =>
    rw [hbare] at hout
    exact .of_error (fails_faultSince (by simp) hrest (List.dropWhile_suffix _)) hout
  | some value =>
    rw [hbare] at hout
    exact .of_ok .refl hout

/-- A separator is read by position. -/
theorem follows_separator (first : Bool) (rest : List Char) :
    Follows text back (separator first) rest (readSeparator first rest) := by
  cases first with
  | true => exact .refl
  | false =>
    refine (follows_expect ',').of_outcome ?_
    rw [readSeparator]
    cases Text.readChar ',' rest <;> rfl

/-- After the separator of an entry, blanks have been skipped. -/
theorem follows_keySeparator {first : Bool} {next : Unit → Scanner β}
    {second : Parsed Char Unit ((skipBlanks rest).length + 1) →
      Except ReadError (Parsed Char β wider)}
    (h : ∀ body short, body <:+ skipBlanks rest →
      Follows text back (next ()) (skipBlanks body) (second ⟨(), body, short⟩)) :
    Follows text back (keySeparator first >>= next) (skipBlanks rest)
      (readSeparator first (skipBlanks rest) >>= second) := by
  cases first with
  | true =>
    have hnext := h (skipBlanks rest) (Nat.lt_succ_self _) (List.suffix_refl _)
    rwa [skipBlanks_skipBlanks] at hnext
  | false =>
    show Follows text back ((expect "," >>= fun _ => skipWhile isBlank) >>= next) _ _
    rw [bind_assoc]
    refine (follows_separator false (skipBlanks rest)).bind fun _ body short _ hbody => ?_
    exact leads_skipBlanks.next.follows (h body short hbody)

/-! ### Items and entries -/

section Elements

variable {ε : Type} {close : Char} {whole : List ε → Value} {element : Bool → Scanner ε}
  {readElement : Bool → (input : List Char) → Except ReadError (Parsed Char ε input.length)}
  {readAll : Bool → (input : List Char) → Except ReadError (Parsed Char (List ε) input.length)}

/-- Elements are read one by one up to the closing character. -/
structure Elements (close : Char)
    (readElement : Bool → (input : List Char) → Except ReadError (Parsed Char ε input.length))
    (readAll : Bool → (input : List Char) → Except ReadError (Parsed Char (List ε) input.length)) :
    Prop where
  closed : ∀ first after, outcome (readAll first (close :: after)) = .ok ([], after)
  more : ∀ first input, input.head? ≠ some close → outcome (readAll first input) =
    outcome (readElement first input) >>= fun found =>
      (outcome (readAll false (skipBlanks found.2))).map fun later => (found.1 :: later.1, later.2)

/-- The elements after those that have been read. -/
theorem follows_elements {input : List Char} (hs : Elements close readElement readAll)
    (he : ∀ first rest, IsBehind rest input →
      Follows text back (element first) (skipBlanks rest) (readElement first (skipBlanks rest)))
    (before : List ε) (hr : IsBehind rest input) :
    Follows text back (loop (elementTurn close element whole) before) rest
      ((readAll before.isEmpty (skipBlanks rest)).map fun parsed =>
        parsed.map fun later => whole (before ++ later)) := by
  -- By length, since an element takes at least one character.
  induction hlength : rest.length using Nat.strongRecOn generalizing rest before with
  | ind length ih =>
    subst hlength
    refine Follows.of_suffix fun hrest => ?_
    refine (leads_loop ..).follows (leads_skipBlanks.next.bind.follows ?_)
    by_cases hclose : (skipBlanks rest).head? = some close
    · obtain ⟨after, hafter⟩ := List.head?_eq_some_iff.mp hclose
      rw [hafter]
      refine (leads_eat_char close).next.bind.follows ?_
      refine .of_ok .refl ?_
      rw [outcome_map_value, hs.closed]
      exact congrArg (fun elements => Except.ok (whole elements, after)) (List.append_nil before)
    · refine (leads_eat_char_of_ne hclose).next.bind.follows ?_
      refine follows_turn hrest (skipBlanks_suffix rest) (Text.length_skipBlanks_le rest)
        (he before.isEmpty rest hr)
        (fun found after hafter => ih _ hafter.shorter (before ++ [found])
          (.of_suffix hafter.suffix hr) rfl) ?_
      rw [outcome_map_value, hs.more before.isEmpty (skipBlanks rest) hclose, map_bind]
      refine congrArg _ (funext fun found => ?_)
      have hlater : (before ++ [found.1]).isEmpty = false := by simp
      rw [outcome_map_value, hlater]
      cases outcome (readAll false (skipBlanks found.2)) with
      | error error => rfl
      | ok later =>
        exact congrArg (fun elements => Except.ok (whole elements, later.2))
          (List.append_assoc before [found.1] later.1).symm

end Elements

/-- One item of an array, with what stands before it. -/
def readItem (first : Bool) (input : List Char) :
    Except ReadError (Parsed Char Value input.length) := do
  let body ← readSeparator first input
  let item ← readTrimmed (skipBlanks body.rest)
  have hshort : item.rest.length < input.length := by
    have := Text.length_skipBlanks_le body.rest
    have := body.shorter
    have := item.shorter
    omega
  return ⟨item.value, item.rest, hshort⟩

/-- One entry of an object, with what stands before it. -/
def readEntry (first : Bool) (input : List Char) :
    Except ReadError (Parsed Char (String × Value) input.length) := do
  let body ← readSeparator first input
  let key ← Text.readIdentifier .expectedObjectKey (skipBlanks body.rest)
  let colon ← Text.readChar ':' (skipBlanks key.rest)
  let value ← readTrimmed (skipBlanks colon.rest)
  have hshort : value.rest.length < input.length := by
    have := Text.length_skipBlanks_le body.rest
    have := Text.length_skipBlanks_le key.rest
    have := Text.length_skipBlanks_le colon.rest
    have := body.shorter
    have := key.shorter
    have := colon.shorter
    have := value.shorter
    omega
  return ⟨(key.value, value.value), value.rest, hshort⟩

/-- Items are read one by one up to the bracket. -/
theorem elements_readItems : Elements ']' readItem readItems where
  closed first after := by
    rw [readItems]
    rfl
  more first input h := by
    rw [readItems, readItem]
    · refine outcome_bind fun _ body _ => outcome_bind fun item after _ => ?_
      exact outcome_bind_pure (item :: ·) _
    · rintro after hafter
      exact h (by rw [hafter]; rfl)

/-- Entries are read one by one up to the brace. -/
theorem elements_readEntries : Elements '}' readEntry readEntries where
  closed first after := by
    rw [readEntries]
    rfl
  more first input h := by
    rw [readEntries, readEntry]
    · refine outcome_bind fun _ body _ => outcome_bind fun key named _ =>
        outcome_bind fun _ assigned _ => outcome_bind fun value after _ => ?_
      exact outcome_bind_pure ((key, value) :: ·) _
    · rintro after hafter
      exact h (by rw [hafter]; rfl)

section Values

variable {inner : Scanner Value} {input : List Char}

/-- The values within an input are read as from what is left. -/
def ReadsWithin (text : String) (back : Bool) (inner : Scanner Value) (input : List Char) : Prop :=
  ∀ left, IsBehind left input → Follows text back inner left (readTrimmed (skipBlanks left))

section Within

variable (hi : ReadsWithin text back inner input)
include hi

/-- An item is read by position. -/
theorem follows_item (first : Bool) (rest : List Char) (hr : IsBehind rest input) :
    Follows text back (separator first >>= fun _ => inner) (skipBlanks rest)
      (readItem first (skipBlanks rest)) := by
  refine (follows_separator first _).bind fun _ body _ _ hbody => ?_
  exact (hi body (.of_suffix (suffix_of_skipBlanks hbody) hr)).widen _

/-- An entry is read by position. -/
theorem follows_entry (first : Bool) (rest : List Char) (hr : IsBehind rest input) :
    Follows text back (keySeparator first >>= fun _ => entry inner) (skipBlanks rest)
      (readEntry first (skipBlanks rest)) := by
  refine follows_keySeparator fun body _ hbody => ?_
  refine (follows_identifier (by simp)).bind fun key named _ _ hnamed => ?_
  refine leads_skipBlanks.next.follows ?_
  refine (follows_expect ':').bind fun _ assigned _ _ hassigned => ?_
  have hsuffix : assigned <:+ rest := (suffix_of_skipBlanks hassigned).trans
    ((suffix_of_skipBlanks hnamed).trans (suffix_of_skipBlanks hbody))
  refine (hi assigned (.of_suffix hsuffix hr)).bind fun value after _ _ _ => ?_
  exact .refl

/-- An array is read by position. -/
theorem follows_items (hr : IsBehind rest input)
    (short : ∀ parsed : Parsed Char (List Value) (skipBlanks rest).length,
      parsed.rest.length < wider) :
    Follows text back (items inner) rest (readItems true (skipBlanks rest) >>= fun parsed =>
      pure ⟨.array parsed.value, parsed.rest, short parsed⟩) := by
  refine (follows_elements elements_readItems (follows_item hi) [] hr).of_outcome ?_
  exact (outcome_bind_pure Value.array short).trans (outcome_map_value ..).symm

/-- An object is read by position. -/
theorem follows_entries (hr : IsBehind rest input)
    (short : ∀ parsed : Parsed Char (List (String × Value)) (skipBlanks rest).length,
      parsed.rest.length < wider) :
    Follows text back (entries inner) rest (readEntries true (skipBlanks rest) >>= fun parsed =>
      pure ⟨.object (Entries.ofPairs parsed.value), parsed.rest, short parsed⟩) := by
  refine (follows_elements elements_readEntries (follows_entry hi) [] hr).of_outcome ?_
  have hmap := outcome_map_value (readEntries true (skipBlanks rest))
    fun pairs => Value.object (Entries.ofPairs pairs)
  exact (outcome_bind_pure (fun pairs => Value.object (Entries.ofPairs pairs)) short).trans
    hmap.symm

end Within

/-- A value is read as from what is left, if the values within it are. -/
theorem follows_valueOf (hi : ReadsWithin text back inner rest) :
    Follows text back (valueOf inner) rest (readTrimmed (skipBlanks rest)) := by
  refine leads_skipBlanks.next.follows (leads_peek.next.follows ?_)
  have hbehind : ∀ c after, skipBlanks rest = c :: after → IsBehind after rest := by
    intro c after hafter
    have hsuffix := skipBlanks_suffix rest
    rw [hafter] at hsuffix
    exact ⟨(List.suffix_cons c after).trans hsuffix, hsuffix.length_le⟩
  generalize skipBlanks rest = trimmed at hbehind ⊢
  by_cases harray : trimmed.head? = some '['
  · obtain ⟨after, rfl⟩ := List.head?_eq_some_iff.mp harray
    rw [readTrimmed]
    exact (leads_bump '[' after).next.follows (follows_items hi (hbehind '[' after rfl) _)
  by_cases hobject : trimmed.head? = some '{'
  · obtain ⟨after, rfl⟩ := List.head?_eq_some_iff.mp hobject
    rw [readTrimmed]
    exact (leads_bump '{' after).next.follows (follows_entries hi (hbehind '{' after rfl) _)
  rw [readTrimmed]
  · by_cases hquote : trimmed.head?.any Text.isQuote = true
    · rw [if_pos hquote, if_pos hquote]
      exact (follows_quoted hquote).bind fun _ _ _ _ _ => .refl
    · rw [if_neg hquote, if_neg hquote, if_neg harray, if_neg hobject]
      exact follows_bare
  · rintro after rfl
    exact harray rfl
  · rintro after rfl
    exact hobject rfl

end Values

/-- A value is read as from what is left. -/
theorem follows_value (rest : List Char) :
    Follows text back value rest (readTrimmed (skipBlanks rest)) := by
  induction hlength : rest.length using Nat.strongRecOn generalizing rest with
  | ind length ih =>
    subst hlength
    -- A value within this one is read by a call that checks that less is left for it.
    refine (leads_descend _ () rest).follows (follows_valueOf fun left hleft => ?_)
    exact (leads_guarded hleft.byteLength_lt value).follows (ih _ hleft.shorter left rfl)

/-! ### Attributes -/

/-- The value of a key is read by position. -/
theorem follows_assigned : Follows text back assigned rest (readAssigned rest) := by
  refine follows_eat (by decide) (fun body h => ?_) fun hassign => ?_
  · subst h
    refine (follows_value body).of_outcome ?_
    show outcome (Value.read body >>= fun parsed => pure ⟨parsed.value, parsed.rest, _⟩) = _
    rw [Value.read]
    cases readTrimmed (skipBlanks body) <;> rfl
  · rw [readAssigned]
    · exact .refl
    · exact fun body h => hassign ⟨body, h.symm⟩

section Pairs

variable {before : List (String × Value)} {key : String}

/-- Where no key comes, there are no attributes. -/
theorem outcome_readPairs_of_none (h : Text.identifier? (skipBlanks rest) = none) :
    outcome (readPairs rest) = .ok ([], skipBlanks rest) := by
  rw [readPairs]
  split
  · rfl
  · rename_i hsome
    rw [h] at hsome
    cases hsome

/-- After a key come its value and the other attributes. -/
theorem outcome_readPairs_of_key {short : left.length < (skipBlanks rest).length}
    (h : Text.identifier? (skipBlanks rest) = some ⟨key, left, short⟩) :
    outcome (readPairs rest) = outcome (readAssigned left) >>= fun found =>
      (outcome (readPairs found.2)).map fun later =>
        ((key, found.1) :: later.1, later.2) := by
  rw [readPairs]
  split
  · rename_i hnone
    rw [h] at hnone
    cases hnone
  · rename_i hsome
    rw [h] at hsome
    cases hsome
    cases readAssigned left with
    | error error => rfl
    | ok parsed => exact outcome_bind_pure ((key, parsed.value) :: ·) _

/-- What follows the key of an attribute in a turn that started before the given rest. -/
def attributeAfter (text : String) (rest : List Char) (before : List (String × Value))
    (key : String) : Scanner Attributes :=
  (do return .inl (before ++ [(key, ← assigned)])) >>= continueFrom text attributeTurn rest

/-- A turn starts with a key. -/
theorem leads_attributeAfter {short : left.length < (skipBlanks rest).length}
    (h : Text.identifier? (skipBlanks rest) = some ⟨key, left, short⟩) :
    Leads text back (loop attributeTurn before) rest
      (attributeAfter text rest before key) left := by
  refine (leads_loop ..).trans (leads_skipBlanks.next.bind.trans ?_)
  exact (leads_identifier h).next.bind

/-- The attributes as pairs after those that have been read, as a map. -/
def attributesAfter (before : List (String × Value)) (rest : List Char) :
    Except ReadError (Parsed Char Attributes (rest.length + 1)) :=
  (readPairs rest).map fun parsed =>
    parsed.map fun later => Entries.ofPairs (before ++ later)

/-- A turn reads one attribute, of which the key has been read. -/
theorem follows_attributeAfter {short : left.length < (skipBlanks rest).length}
    (h : Text.identifier? (skipBlanks rest) = some ⟨key, left, short⟩)
    (hr : rest <:+ text.toList) (hl : left <:+ rest)
    (hn : ∀ value after, IsBehind after rest → Follows text back
      (loop attributeTurn (before ++ [(key, value)])) after
        (attributesAfter (before ++ [(key, value)]) after)) :
    Follows text back (attributeAfter text rest before key) left (attributesAfter before rest) := by
  have hlimit : left.length + 1 ≤ rest.length :=
    Nat.lt_of_lt_of_le short (Text.length_skipBlanks_le rest)
  refine follows_turn hr hl hlimit follows_assigned hn ?_
  rw [attributesAfter, outcome_map_value, outcome_readPairs_of_key h, map_bind]
  refine congrArg _ (funext fun found => ?_)
  rw [attributesAfter, outcome_map_value]
  cases outcome (readPairs found.2) with
  | error error => rfl
  | ok later =>
    exact congrArg (fun pairs => Except.ok (Entries.ofPairs pairs, later.2))
      (List.append_assoc before [(key, found.1)] later.1).symm

/-- Attributes are read by position after others. -/
theorem follows_pairs (before : List (String × Value)) (rest : List Char) :
    Follows text back (loop attributeTurn before) rest (attributesAfter before rest) := by
  obtain ⟨length, hlength⟩ : ∃ length, rest.length = length := ⟨_, rfl⟩
  induction length using Nat.strongRecOn generalizing rest before with
  | ind length ih =>
    subst hlength
    refine Follows.of_suffix fun hrest => ?_
    cases h : Text.identifier? (skipBlanks rest) with
    | none =>
      refine (leads_loop ..).follows (leads_skipBlanks.next.bind.follows ?_)
      refine (leads_identifier_of_none h).next.bind.follows ?_
      refine .of_ok .refl ?_
      rw [attributesAfter, outcome_map_value, outcome_readPairs_of_none h]
      exact congrArg (fun pairs => Except.ok (Entries.ofPairs pairs, skipBlanks rest))
        (List.append_nil before)
    | some parsed =>
      obtain ⟨key, left, short⟩ := parsed
      have hkey : Leads text back (loop attributeTurn before) rest
        (attributeAfter text rest before key) left := leads_attributeAfter h
      exact hkey.follows (follows_attributeAfter h hrest (hkey.run hrest).1
        fun value after hafter => ih _ hafter.shorter (before ++ [(key, value)]) after rfl)

end Pairs

/-- Attributes are read as pairs. -/
theorem outcome_read (rest : List Char) :
    outcome (Attributes.read rest) = outcome (attributesAfter [] rest) := by
  rw [Attributes.read, attributesAfter]
  cases readPairs rest <;> rfl

/-- Attributes are read by position. -/
theorem follows_attributes : Follows text back attributes rest (Attributes.read rest) :=
  (follows_pairs [] rest).of_outcome (outcome_read rest)

/-- No blanks are left after attributes. -/
theorem skipBlanks_of_readPairs {pairs : List (String × Value)}
    (h : outcome (readPairs rest) = .ok (pairs, left)) : skipBlanks left = left := by
  induction hlength : rest.length using Nat.strongRecOn generalizing rest pairs with
  | ind length ih =>
    subst hlength
    cases hkey : Text.identifier? (skipBlanks rest) with
    | none =>
      rw [outcome_readPairs_of_none hkey] at h
      cases h
      exact skipBlanks_skipBlanks rest
    | some parsed =>
      obtain ⟨key, named, hnamed⟩ := parsed
      rw [outcome_readPairs_of_key hkey] at h
      obtain ⟨found, hfound, hmap⟩ := bind_eq_ok.mp h
      have hlt : found.2.length < rest.length := by
        have hshort := length_lt_of_outcome hfound
        have hblanks := Text.length_skipBlanks_le rest
        omega
      cases hlater : outcome (readPairs found.2) with
      | error error =>
        rw [hlater] at hmap
        cases hmap
      | ok later =>
        rw [hlater] at hmap
        cases hmap
        exact ih _ hlt hlater rfl

/-- No blanks are left after attributes that are read. -/
theorem skipBlanks_of_read {parsed : Parsed Char Attributes (rest.length + 1)}
    (h : Attributes.read rest = .ok parsed) : skipBlanks parsed.rest = parsed.rest := by
  obtain ⟨pairs, hpairs, hvalue⟩ := bind_eq_ok.mp h
  cases hvalue
  exact skipBlanks_of_readPairs (congrArg outcome hpairs)

end TagTree.Scanner
