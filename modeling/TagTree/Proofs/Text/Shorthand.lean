import Mathlib.Data.List.TakeWhile
import TagTree.Proofs.Text.Written
import TagTree.Tag.Shorthand

/-!
# References by themselves

The notation of a reference is taken apart from its end when it stands alone, and read from its
front among tags. Both admit what is written for a reference (`Reference.IsWritten`), and the first
of them also a sign before the index (`Reference.ofShorthand_iff_parse`).
-/

namespace TagTree

open Text (Stops stops_cons isBlank decimalBelow?)

/-- The text with a colon at its end. -/
def withColon (text : String) : String :=
  if text.toList.getLast? = some ':' then text else text ++ ":"

/-! ### Among tags -/

namespace Tag

variable [Alphabet]

/-- A text without tags is blank. -/
theorem skipBlanks_of_readAll {counts : ShiftCounts} {input : List Char}
    (h : readAll counts input = .ok []) : Text.skipBlanks input = [] := by
  rw [readAll] at h
  split at h
  · exact List.isEmpty_iff.mp ‹_›
  · obtain ⟨parsed, hparsed, h⟩ := bind_eq_ok.mp h
    obtain ⟨later, -, h⟩ := bind_eq_ok.mp h
    exact absurd (List.append_eq_nil_iff.mp (Except.ok.inj h)).1 (readTag_eq_ok hparsed).2.1

/-- A text without blanks is read as one reference exactly if it is what is written for it. -/
theorem parse_eq_reference {text : String} {body : List Char} {edge : Reference}
    (ht : text.toList = body ++ [':']) (hb : ∀ c ∈ body, isBlank c = false) :
    parse text = .ok [.reference edge] ↔ edge.IsWritten body := by
  have hblank : ∀ c ∈ body ++ [':'], isBlank c = false := by
    refine List.forall_mem_append.mpr ⟨hb, List.forall_mem_singleton.mpr ?_⟩
    decide
  have htrimmed : Text.skipBlanks text.toList = body ++ [':'] := by
    rw [ht]
    exact Text.skipBlanks_of_stops fun c hc => hblank c (List.mem_of_mem_head? hc)
  constructor
  · intro h
    obtain ⟨parsed, hparsed, later, hlater, htags⟩ :=
      readAll_eq_ok htrimmed (readAll_of_parse h) (List.cons_ne_nil _ _)
    obtain ⟨-, hne, hword⟩ := readTag_eq_ok hparsed
    obtain ⟨hfirst, rfl⟩ : parsed.value.1 = [.reference edge] ∧ later = [] := by
      rcases List.append_eq_singleton_iff.mp htags.symm with ⟨hnil, -⟩ | hone
      · exact absurd hnil hne
      · exact hone
    obtain ⟨short, hread⟩ := hword edge hfirst
    rcases readWord_eq_ok hread with ⟨hnull, -⟩ | ⟨found, written, hwritten, hedge, hsplit⟩
    · cases hnull
    · cases hedge
      have hrest : parsed.rest = [] := by
        refine List.eq_nil_iff_forall_not_mem.mpr fun c hmem => ?_
        have hc := List.dropWhile_eq_nil_iff.mp (skipBlanks_of_readAll hlater) c hmem
        have hnot : isBlank c = false :=
          hblank c (hsplit ▸ List.mem_append_right _ (List.mem_cons_of_mem _ hmem))
        exact absurd hc (Bool.eq_false_iff.mp hnot)
      have hbody : body ++ [':'] = written ++ [':'] := hsplit.trans (by rw [hrest])
      rwa [List.append_cancel_right hbody]
  · intro h
    have hdone : readAll (ShiftCounts.restart [0]) [] = .ok [] :=
      Writes.readAll (.done (List.forall_mem_nil _))
    rw [parse, readAll_of_reads htrimmed (readTag_of_isWritten h []) hdone]
    rfl

end Tag

/-! ### By themselves -/

section Signs

variable {digits magnitude : List Char} {index : Nat}

/-- A number that is not negative is in range below the bound of an index. -/
theorem signedWord?_eq_some_iff {value : Int} :
    Text.signedWord? value = some (index : Int) ↔ value = index ∧ index < 0x8000000000000000 := by
  rw [Text.signedWord?]
  split
  · rw [Option.some.injEq]
    omega
  · refine iff_of_false (by simp) ?_
    omega

/-- Digits without a sign are read as an index. -/
theorem bind_signedWord?_eq_some_iff :
    ((Text.number? 10 (digits.map Char.toNat)).bind fun number => Text.signedWord? number) =
      some (index : Int) ↔ decimalBelow? 0x8000000000000000 digits = some index := by
  rw [decimalBelow?, Option.filter_eq_some_iff, Option.bind_eq_some_iff]
  simp only [signedWord?_eq_some_iff, Int.natCast_inj, decide_eq_true_iff]
  constructor
  · rintro ⟨number, hnumber, rfl, hlt⟩
    exact ⟨hnumber, hlt⟩
  · intro h
    exact ⟨index, h.1, rfl, h.2⟩

/-- A number that is not negative may have a sign, which is a minus only for zero. -/
theorem signedDecimal?_eq_some_iff :
    signedDecimal? digits = some (index : Int) ↔
      decimalBelow? 0x8000000000000000 digits = some index ∨
      ∃ sign magnitude, digits = sign :: magnitude ∧
        decimalBelow? 0x8000000000000000 magnitude = some index ∧
        (sign = '+' ∨ sign = '-' ∧ index = 0) := by
  have hsign : ∀ sign magnitude, sign.isDigit = false →
      decimalBelow? 0x8000000000000000 (sign :: magnitude) ≠ some index :=
    fun sign magnitude hd h =>
    absurd ((Text.isDigit_of_decimalBelow? h).2 sign List.mem_cons_self) (Bool.eq_false_iff.mp hd)
  unfold signedDecimal?
  split
  · rename_i magnitude
    rw [or_iff_right (hsign '-' magnitude rfl)]
    constructor
    · intro h
      obtain ⟨number, hnumber, hword⟩ := Option.bind_eq_some_iff.mp h
      obtain ⟨hvalue, -⟩ := signedWord?_eq_some_iff.mp hword
      obtain ⟨rfl, rfl⟩ : number = 0 ∧ index = 0 := by omega
      refine ⟨'-', magnitude, rfl, ?_, .inr ⟨rfl, rfl⟩⟩
      rw [decimalBelow?, hnumber]
      rfl
    · rintro ⟨sign, later, hcons, hlater, rfl | ⟨rfl, rfl⟩⟩ <;> cases hcons
      exact Option.bind_eq_some_iff.mpr ⟨0, (Option.filter_eq_some_iff.mp hlater).1, rfl⟩
  · rename_i magnitude
    rw [or_iff_right (hsign '+' magnitude rfl)]
    constructor
    · intro h
      exact ⟨'+', magnitude, rfl, bind_signedWord?_eq_some_iff.mp h, .inl rfl⟩
    · rintro ⟨sign, later, hcons, hlater, -⟩
      cases hcons
      exact bind_signedWord?_eq_some_iff.mpr hlater
  · rename_i hminus hplus
    refine bind_signedWord?_eq_some_iff.trans (or_iff_left ?_).symm
    rintro ⟨sign, later, rfl, -, rfl | ⟨rfl, -⟩⟩
    · exact hplus later rfl
    · exact hminus later rfl

end Signs

namespace Reference

/-- A name in brackets: the first bracket opens them, and the last closes them. -/
theorem bracketed?_eq_some_iff {written name digits : List Char} :
    bracketed? written = some (name, digits) ↔
      '[' ∉ name ∧ written = name ++ '[' :: (digits ++ [']']) := by
  have hstops : ∀ digits : List Char, Stops (· != '[') ('[' :: digits) := fun digits =>
    stops_cons (by decide) digits
  have hname : ∀ {name : List Char}, '[' ∉ name ↔ ∀ c ∈ name, (c != '[') = true := by
    simp [List.forall_mem_ne']
  rw [bracketed?]
  constructor
  · intro h
    split at h
    · rename_i hlast
      obtain ⟨body, rfl⟩ := List.getLast?_eq_some_iff.mp hlast
      rw [List.dropLast_concat] at h
      dsimp only at h
      split at h
      · cases h
      · rename_i first later hdrop
        cases h
        have hfirst : first = '[' := by
          have hhead := List.head?_dropWhile_not (· != '[') body
          simpa [hdrop] using hhead
        have hbody : body.takeWhile (· != '[') ++ body.dropWhile (· != '[') = body :=
          List.takeWhile_append_dropWhile
        rw [hdrop, hfirst] at hbody
        refine ⟨hname.mpr (List.all_eq_true.mp (List.all_takeWhile ..)), ?_⟩
        rw [← List.cons_append, ← List.append_assoc, hbody]
    · cases h
  · rintro ⟨hmem, rfl⟩
    obtain ⟨htake, hdrop⟩ := Text.takeWhile_of_stops (hname.mp hmem) (hstops digits)
    rw [← List.cons_append, ← List.append_assoc, if_pos List.getLast?_concat, List.dropLast_concat]
    dsimp only
    rw [hdrop, htake]

/-- What stands before the colon, if there is one. -/
def IsBare (text : String) (body : List Char) : Prop :=
  text.toList = body ++ [':'] ∨ text.toList = body ∧ body.getLast? ≠ some ':'

variable {text name : String} {front marks body brackets : List Char} {edge : Reference}
  {isArray : Bool} {index : Option Nat}

/-- Every text has a part before its colon. -/
theorem exists_isBare (text : String) :
    ∃ body, IsBare text body ∧ (withColon text).toList = body ++ [':'] := by
  rw [withColon]
  split
  · rename_i hlast
    obtain ⟨body, hbody⟩ := List.getLast?_eq_some_iff.mp hlast
    exact ⟨body, .inl hbody, hbody⟩
  · rename_i hlast
    exact ⟨text.toList, .inr ⟨rfl, hlast⟩, String.toList_append ..⟩

/-- All marks at the end are taken off. -/
theorem exists_marks (body : List Char) : ∃ front marks, body = front ++ marks ∧
    (∀ mark ∈ marks, Tag.isReferenceMark mark = true) ∧
    Stops Tag.isReferenceMark front.reverse := by
  refine ⟨(body.reverse.dropWhile Tag.isReferenceMark).reverse,
    (body.reverse.takeWhile Tag.isReferenceMark).reverse, ?_, fun mark hmem => ?_, ?_⟩
  · rw [← List.reverse_append, List.takeWhile_append_dropWhile, List.reverse_reverse]
  · exact List.all_eq_true.mp (List.all_takeWhile ..) mark (List.mem_reverse.mp hmem)
  · rw [List.reverse_reverse]
    exact Text.stops_dropWhile _ _

section Shorthand

variable [Alphabet]

/-- The marks are taken off, and the rest is read as a name and brackets. -/
theorem ofShorthand_eq (h : IsBare text (front ++ marks))
    (hm : ∀ mark ∈ marks, Tag.isReferenceMark mark = true)
    (hf : Stops Tag.isReferenceMark front.reverse) :
    ofShorthand text = ofFront front ⟨marks.contains '+', marks.contains '$'⟩ := by
  have hreversed : (if text.toList.reverse.head? = some ':' then text.toList.reverse.tail
      else text.toList.reverse) = marks.reverse ++ front.reverse := by
    rw [← List.reverse_append]
    rcases h with h | ⟨h, hlast⟩
    · rw [h, List.reverse_concat]
      rfl
    · rw [h, List.head?_reverse, if_neg hlast]
  have hmarks : ∀ mark ∈ marks.reverse, Tag.isReferenceMark mark = true := fun mark hmem =>
    hm mark (List.mem_reverse.mp hmem)
  obtain ⟨htake, hdrop⟩ := Text.takeWhile_of_stops hmarks hf
  rw [ofShorthand, hreversed, htake, hdrop, List.reverse_reverse, List.contains_reverse,
    List.contains_reverse]

/-- Brackets whose index may have a sign. -/
inductive Bracketed : List Char → Bool → Option Nat → Prop where
  | none : Bracketed [] false none
  | empty : Bracketed ['[', ']'] true none
  | index {digits : List Char} {index : Nat} (h : signedDecimal? digits = some (index : Int)) :
      Bracketed ('[' :: (digits ++ [']'])) true (some index)

/-- The name of a reference holds no separators but a dot and the two that are reserved names. -/
theorem not_mem_of_isReferenceName {c : Char} (hn : Name.isReferenceName name = true)
    (hc : (Text.isSeparator c && c != '.' && c != '#' && c != '@') = true) : c ∉ name.toList := by
  rw [Bool.and_eq_true, Bool.and_eq_true, bne_iff_ne, bne_iff_ne] at hc
  obtain ⟨⟨hcontinues, htrivia⟩, hescape⟩ := hc
  rcases Name.isReferenceName_iff.mp hn with rfl | rfl | hword
  · simpa [Name.trivia] using htrivia
  · simpa [Name.escape] using hescape
  · exact Text.not_mem_of_isWord hword
      (Name.startsWord_eq_false (Bool.and_eq_true_iff.mp hcontinues).1)
      (Name.continuesReference_eq_false hcontinues)

/-- What stands before the marks is a valid name and brackets. -/
theorem ofFront_eq_ok {flags : ReferenceFlags} :
    ofFront front flags = .ok edge ↔ ∃ (name : String) (brackets : List Char) (isArray : Bool)
      (index : Option Nat), Name.isReferenceName name = true ∧ front = name.toList ++ brackets ∧
      Bracketed brackets isArray index ∧ edge = ⟨name, isArray, index, flags⟩ := by
  constructor
  · intro h
    unfold ofFront at h
    dsimp only at h
    split at h
    · obtain ⟨hname, index, hindex, rfl⟩ := checked_eq_ok (ok_of_mapError h)
      cases index with
      | none => exact ⟨_, [], _, _, hname, by simp, .none, rfl⟩
      | some index => cases hindex
    · rename_i name hbracketed
      obtain ⟨-, rfl⟩ := bracketed?_eq_some_iff.mp hbracketed
      obtain ⟨hname, index, hindex, rfl⟩ := checked_eq_ok (ok_of_mapError h)
      cases index with
      | none => exact ⟨_, _, _, _, hname, by simp, .empty, rfl⟩
      | some index => cases hindex
    · rename_i name digits _ hbracketed
      obtain ⟨-, rfl⟩ := bracketed?_eq_some_iff.mp hbracketed
      split at h
      · rename_i value hvalue
        obtain ⟨hname, index, hindex, rfl⟩ := checked_eq_ok (ok_of_mapError h)
        cases index with
        | none => cases hindex
        | some index =>
          obtain rfl := Option.some.inj hindex
          exact ⟨_, _, _, _, hname, by simp, .index hvalue, rfl⟩
      · cases h
  · rintro ⟨name, brackets, isArray, index, hname, rfl, hb, rfl⟩
    -- No name has a bracket, so the first one ends the name.
    have hopen : '[' ∉ name.toList := not_mem_of_isReferenceName hname (by decide)
    have hchecked : (Reference.checked (String.ofList name.toList) isArray (index.map Int.ofNat)
        flags).mapError Error.validation = .ok ⟨name, isArray, index, flags⟩ := by
      rw [String.ofList_toList, Tag.checked_reference hname]
      rfl
    unfold ofFront
    cases hb with
    | none =>
      have hnone : bracketed? (name.toList ++ []) = none := by
        refine Option.eq_none_iff_forall_ne_some.mpr fun found hfound => ?_
        rw [List.append_nil] at hfound
        have hsplit := (bracketed?_eq_some_iff.mp hfound).2
        exact hopen (hsplit ▸ by simp)
      rw [hnone, List.append_nil]
      exact hchecked
    | empty =>
      have hsome : bracketed? (name.toList ++ ['[', ']']) = some (name.toList, []) :=
        bracketed?_eq_some_iff.mpr ⟨hopen, rfl⟩
      rw [hsome]
      exact hchecked
    | @index digits index h =>
      have hsome : bracketed? (name.toList ++ '[' :: (digits ++ [']'])) =
          some (name.toList, digits) :=
        bracketed?_eq_some_iff.mpr ⟨hopen, rfl⟩
      rw [hsome]
      cases digits with
      | nil => cases h
      | cons first later =>
        simp only [h]
        exact hchecked

/-- What stands before the marks does not end in one. -/
theorem stops_front (hn : Name.isReferenceName name = true)
    (hb : Bracketed brackets isArray index) :
    Stops Tag.isReferenceMark (name.toList ++ brackets).reverse := by
  cases hb with
  | none =>
    intro c hc
    rw [List.append_nil] at hc
    have hmem : c ∈ name.toList := List.mem_reverse.mp (List.mem_of_mem_head? hc)
    refine Bool.eq_false_iff.mpr fun hmark => ?_
    rw [Tag.isReferenceMark, Bool.or_eq_true, beq_iff_eq, beq_iff_eq] at hmark
    rcases hmark with rfl | rfl <;>
      exact not_mem_of_isReferenceName hn (by decide) hmem
  | empty =>
    rw [List.reverse_append]
    exact stops_cons (by decide) _
  | index h =>
    rw [← List.cons_append, ← List.append_assoc, List.reverse_concat]
    exact stops_cons (by decide) _

/-- A name, brackets and marks are read as the reference with these parts. -/
theorem ofShorthand_of_bracketed (h : IsBare text (name.toList ++ brackets ++ marks))
    (hn : Name.isReferenceName name = true) (hb : Bracketed brackets isArray index)
    (hm : ∀ mark ∈ marks, Tag.isReferenceMark mark = true) :
    ofShorthand text = .ok ⟨name, isArray, index, ⟨marks.contains '+', marks.contains '$'⟩⟩ := by
  rw [ofShorthand_eq h hm (stops_front hn hb)]
  exact ofFront_eq_ok.mpr ⟨name, brackets, isArray, index, hn, rfl, hb, rfl⟩

/-- The sign that an index may have. -/
def IsSign (sign : Char) (index : Option Nat) : Prop :=
  sign = '+' ∧ index.isSome = true ∨ sign = '-' ∧ index = some 0

/-- A reference by itself is what is written for it, or has a sign after its first bracket, without
which it is that. -/
theorem ofShorthand_eq_ok (h : IsBare text body) :
    ofShorthand text = .ok edge ↔ edge.IsWritten body ∨
      ∃ name sign later, '[' ∉ name ∧ body = name ++ '[' :: sign :: later ∧
        edge.IsWritten (name ++ '[' :: later) ∧ IsSign sign edge.index := by
  constructor
  · intro hread
    obtain ⟨front, marks, rfl, hmarks, hfront⟩ := exists_marks body
    rw [ofShorthand_eq h hmarks hfront, ofFront_eq_ok] at hread
    obtain ⟨name, brackets, isArray, index, hn, rfl, hb, rfl⟩ := hread
    rw [List.append_assoc]
    cases hb with
    | none => exact .inl (.mk hn .none hmarks)
    | empty => exact .inl (.mk hn .empty hmarks)
    | index hindex =>
      rcases signedDecimal?_eq_some_iff.mp hindex with hplain | ⟨sign, digits, rfl, hdigits, hsign⟩
      · exact .inl (.mk hn (.index hplain) hmarks)
      · refine .inr ⟨name.toList, sign, digits ++ [']'] ++ marks, ?_, by simp,
          .mk hn (.index hdigits) hmarks, ?_⟩
        · exact not_mem_of_isReferenceName hn (by decide)
        · exact hsign.imp (fun hs => ⟨hs, rfl⟩) fun hs => ⟨hs.1, congrArg some hs.2⟩
  · rintro (hwritten | ⟨name, sign, later, hopen, rfl, hwritten, hsign⟩)
    · obtain ⟨hn, hb, hm⟩ := hwritten
      rw [← List.append_assoc] at h
      refine ofShorthand_of_bracketed h hn ?_ hm
      cases hb with
      | none => exact .none
      | empty => exact .empty
      | index hindex => exact .index (signedDecimal?_eq_some_iff.mpr (.inl hindex))
    · generalize hlist : name ++ '[' :: later = written at hwritten
      obtain @⟨found, brackets, marks, isArray, index, hn, hb, hm⟩ := hwritten
      obtain ⟨value, rfl⟩ : ∃ value, index = some value :=
        hsign.elim (fun hs => Option.isSome_iff_exists.mp hs.2) fun hs => ⟨0, hs.2⟩
      cases hb with
      | @index digits _ hdigits =>
        have hfound : '[' ∉ found.toList := not_mem_of_isReferenceName hn (by decide)
        -- The first bracket of the text is the one after the name.
        have hfirst : bracketed? (name ++ '[' :: (later ++ [']'])) = some (name, later) :=
          bracketed?_eq_some_iff.mpr ⟨hopen, rfl⟩
        have hsecond : bracketed? (name ++ '[' :: (later ++ [']'])) =
            some (found.toList, digits ++ [']'] ++ marks) :=
          bracketed?_eq_some_iff.mpr ⟨hfound, by simpa using congrArg (· ++ [']']) hlist⟩
        obtain ⟨rfl, rfl⟩ := Prod.mk.inj (Option.some.inj (hfirst.symm.trans hsecond))
        have hbody : found.toList ++ '[' :: sign :: (digits ++ [']'] ++ marks) =
            found.toList ++ '[' :: (sign :: digits ++ [']']) ++ marks := by simp
        rw [hbody] at h
        refine ofShorthand_of_bracketed h hn (.index (signedDecimal?_eq_some_iff.mpr ?_)) hm
        exact .inr ⟨sign, digits, rfl, hdigits,
          hsign.imp And.left fun hs => ⟨hs.1, Option.some.inj hs.2⟩⟩

end Shorthand

/-- A reference by itself is read like one among tags, after which a colon stands, but for a sign
before its index: a plus, or a minus before zero. -/
theorem ofShorthand_iff_parse [Alphabet] (text : String) (edge : Reference)
    (hb : ∀ c ∈ text.toList, isBlank c = false) :
    ofShorthand text = .ok edge ↔ Tag.parse (withColon text) = .ok [.reference edge] ∨
      ∃ name sign later, '[' ∉ name ∧ (withColon text).toList = name ++ '[' :: sign :: later ∧
        Tag.parse (String.ofList (name ++ '[' :: later)) = .ok [.reference edge] ∧
        IsSign sign edge.index := by
  obtain ⟨body, hbare, hcolon⟩ := exists_isBare text
  have hbody : ∀ c ∈ body, isBlank c = false := by
    intro c hmem
    refine hb c ?_
    rcases hbare with h | ⟨h, -⟩ <;> simp [h, hmem]
  have hsigned : ∀ {name : List Char} {sign : Char} {later : List Char},
      body = name ++ '[' :: sign :: later →
        (Tag.parse (String.ofList (name ++ '[' :: (later ++ [':']))) = .ok [.reference edge] ↔
          edge.IsWritten (name ++ '[' :: later)) := by
    rintro name sign later rfl
    refine Tag.parse_eq_reference (by simp) fun c hmem => hbody c ?_
    simp only [List.mem_append, List.mem_cons] at hmem ⊢
    tauto
  rw [ofShorthand_eq_ok hbare, Tag.parse_eq_reference hcolon hbody, hcolon]
  refine or_congr_right ⟨?_, ?_⟩
  · rintro ⟨name, sign, later, hopen, hsplit, hwritten, hsign⟩
    exact ⟨name, sign, later ++ [':'], hopen, by simp [hsplit],
      (hsigned hsplit).mpr hwritten, hsign⟩
  · rintro ⟨name, sign, later, hopen, hsplit, hread, hsign⟩
    rcases List.eq_nil_or_concat later with rfl | ⟨front, last, rfl⟩
    · have hlast : ':' = sign := by simpa using congrArg List.getLast? hsplit
      rcases hsign with ⟨hplus, -⟩ | ⟨hminus, -⟩
      · cases hlast.trans hplus
      · cases hlast.trans hminus
    · rw [List.concat_eq_append, ← List.cons_append, ← List.cons_append,
        ← List.append_assoc] at hsplit
      obtain ⟨hfront, hlast⟩ := List.append_inj' hsplit rfl
      cases hlast
      rw [List.concat_eq_append] at hread
      exact ⟨name, sign, front, hopen, hfront, (hsigned hfront).mp hread, hsign⟩

/-- An array with both marks. -/
theorem ofShorthand_iff_parse_marked :
    (∀ c ∈ "items[]+$".toList, isBlank c = false) ∧
    ofShorthand "items[]+$" = .ok ⟨"items", true, none, ⟨true, true⟩⟩ := by
  have hblank : ("items[]+$".toList.all fun c => !isBlank c) = true := by decide
  have hb : ∀ c ∈ "items[]+$".toList, isBlank c = false := by
    simpa using List.all_eq_true.mp hblank
  have hwritten : IsWritten ("items".toList ++ (['[', ']'] ++ ['+', '$'])) _ :=
    .mk (by decide) .empty (List.all_eq_true.mp (by decide))
  exact ⟨hb, (ofShorthand_iff_parse "items[]+$" _ hb).mpr
    (.inl ((Tag.parse_eq_reference (by decide) hb).mpr hwritten))⟩

/-- A sign before the index is read in a reference by itself, but not in one among tags. -/
theorem ofShorthand_signed :
    ofShorthand "items[+3]" = .ok ⟨"items", true, some 3, ⟨false, false⟩⟩ ∧
    ofShorthand "items[-0]" = .ok ⟨"items", true, some 0, ⟨false, false⟩⟩ ∧
    ∀ edge, Tag.parse (withColon "items[+3]") ≠ .ok [.reference edge] ∧
      Tag.parse (withColon "items[-0]") ≠ .ok [.reference edge] := by
  have hname : Name.isReferenceName "items" = true := by decide
  have hplus : Bracketed ('[' :: (['+', '3'] ++ [']'])) true (some 3) :=
    .index (signedDecimal?_eq_some_iff.mpr (.inr ⟨'+', ['3'], rfl, by decide, .inl rfl⟩))
  have hminus : Bracketed ('[' :: (['-', '0'] ++ [']'])) true (some 0) :=
    .index (signedDecimal?_eq_some_iff.mpr (.inr ⟨'-', ['0'], rfl, by decide, .inr ⟨rfl, rfl⟩⟩))
  refine ⟨ofShorthand_of_bracketed (.inr ⟨by decide, by decide⟩) hname hplus
    (List.forall_mem_nil _),
    ofShorthand_of_bracketed (.inr ⟨by decide, by decide⟩) hname hminus (List.forall_mem_nil _),
    fun edge => ?_⟩
  have hfault : ∀ text ∈ ["items[+3]", "items[-0]"], (Tag.parse (withColon text)).map List.length =
      .error (.reading ⟨.expected "]", 6, 7⟩) := by decide +kernel
  rw [error_of_map (hfault "items[+3]" (by simp)), error_of_map (hfault "items[-0]" (by simp))]
  simp

end Reference

end TagTree
