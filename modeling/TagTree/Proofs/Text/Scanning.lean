import TagTree.Proofs.Text.Scanner

/-!
# Positions and what is left

A reader that stands before what is left of a text does there what the readers of lists of
characters do on what is left (`Scanner.Follows`). On its way its position lies between characters
of the text and never decreases, apart from keys that are read twice (`Course`).
-/

namespace TagTree

open Text (Parsed byteLength utf8 skipBlanks)

variable {text : String} {place start stop limit wider : Nat} {middle rest left : List Char}

/-! ### Places -/

/-- The place lies between characters of the text, or at one of its ends. -/
def IsBoundary (text : String) (place : Nat) : Prop :=
  String.Pos.Raw.IsValid text ⟨place⟩

/-- A place of a text is not behind it. -/
theorem IsBoundary.le (h : IsBoundary text place) : place ≤ text.utf8ByteSize :=
  h.le_utf8ByteSize

/-- The encoding of characters has as many bytes as they take. -/
theorem size_utf8Encode (text : List Char) : text.utf8Encode.size = byteLength text := by
  rw [List.utf8Encode, List.size_toByteArray, ← Text.length_utf8, utf8]

/-- The characters of a text take as many bytes as the text. -/
theorem byteLength_toList (text : String) : byteLength text.toList = text.utf8ByteSize := by
  rw [← size_utf8Encode, String.utf8Encode_toList, String.size_toByteArray]

section Places

variable {before : List Char}

/-- A place behind the front of a text is between its characters. -/
theorem isBoundary_byteLength (h : text.toList = before ++ rest) :
    IsBoundary text (byteLength before) := by
  refine String.Pos.Raw.isValid_iff_exists_append.mpr ⟨.ofList before, .ofList rest, ?_, ?_⟩
  · rw [← String.ofList_append, ← h, String.ofList_toList]
  · apply String.Pos.Raw.ext
    rw [String.byteIdx_rawEndPos, ← byteLength_toList, String.toList_ofList]

/-- The bytes between two places are those of the characters between them. -/
theorem utf8Encode_extract (before middle rest : List Char) :
    (before ++ middle ++ rest).utf8Encode.extract (byteLength before)
      (byteLength (before ++ middle)) = middle.utf8Encode := by
  have hrest : byteLength (before ++ middle) - (before ++ middle).utf8Encode.size = 0 := by
    rw [size_utf8Encode, Nat.sub_self]
  have hempty : ∀ start, rest.utf8Encode.extract start 0 = ByteArray.empty := fun start =>
    ByteArray.extract_eq_empty_iff.mpr (by omega)
  rw [List.utf8Encode_append, ByteArray.extract_append, hrest, hempty, ByteArray.append_empty,
    List.utf8Encode_append]
  refine ByteArray.extract_append_eq_right (size_utf8Encode before).symm ?_
  rw [size_utf8Encode, size_utf8Encode, Text.byteLength_append]

/-- A part of a text is there between its places. -/
theorem slice?_byteLength (h : text.toList = before ++ middle ++ rest) :
    Text.slice? text (byteLength before) (byteLength (before ++ middle)) = some middle := by
  have hstart : IsBoundary text (byteLength before) :=
    isBoundary_byteLength (h.trans (List.append_assoc ..))
  have hstop : IsBoundary text (byteLength (before ++ middle)) := isBoundary_byteLength h
  have hle : byteLength before ≤ byteLength (before ++ middle) := by
    rw [Text.byteLength_append]
    exact Nat.le_add_right ..
  have hpart : text.extract ⟨⟨byteLength before⟩, hstart⟩ ⟨⟨byteLength (before ++ middle)⟩, hstop⟩ =
      String.ofList middle := by
    apply String.toByteArray_inj.mp
    rw [String.toByteArray_extract, String.toByteArray_ofList, ← String.utf8Encode_toList, h]
    exact utf8Encode_extract before middle rest
  rw [Text.slice?, dif_pos ⟨hstart, hstop, hle⟩, hpart, String.toList_ofList]

end Places

/-- The place in a text before what is left of it. -/
def placeOf (text : String) (rest : List Char) : Nat :=
  text.utf8ByteSize - byteLength rest

section PlaceOf

variable {before : List Char}

/-- The place before what is left is behind what is not. -/
theorem placeOf_eq (h : text.toList = before ++ rest) : placeOf text rest = byteLength before := by
  rw [placeOf, ← byteLength_toList, h, Text.byteLength_append, Nat.add_sub_cancel]

/-- Where nothing is left is the end of the text. -/
@[simp] theorem placeOf_nil (text : String) : placeOf text [] = text.utf8ByteSize := rfl

/-- Where all is left is the start of the text. -/
@[simp] theorem placeOf_toList (text : String) : placeOf text text.toList = 0 := by
  rw [placeOf, byteLength_toList, Nat.sub_self]

/-- The place before what is left is between characters. -/
theorem isBoundary_placeOf (h : rest <:+ text.toList) : IsBoundary text (placeOf text rest) := by
  obtain ⟨before, h⟩ := h
  rw [placeOf_eq h.symm]
  exact isBoundary_byteLength h.symm

/-- What stands between two places of a text is taken from it. -/
theorem slice?_placeOf (h : middle ++ rest <:+ text.toList) :
    Text.slice? text (placeOf text (middle ++ rest)) (placeOf text rest) = some middle := by
  obtain ⟨before, h⟩ := h
  have hsplit : text.toList = before ++ middle ++ rest := by rw [List.append_assoc, h]
  rw [placeOf_eq h.symm, placeOf_eq hsplit]
  exact slice?_byteLength hsplit

/-- Behind some characters the place is later by their bytes. -/
theorem placeOf_append (h : middle ++ rest <:+ text.toList) :
    placeOf text (middle ++ rest) + byteLength middle = placeOf text rest := by
  obtain ⟨before, h⟩ := h
  have hsplit : text.toList = before ++ middle ++ rest := by rw [List.append_assoc, h]
  rw [placeOf_eq h.symm, placeOf_eq hsplit, Text.byteLength_append]

/-- What is left takes no more bytes than the text. -/
theorem byteLength_le (h : rest <:+ text.toList) : byteLength rest ≤ text.utf8ByteSize := by
  obtain ⟨before, h⟩ := h
  rw [← byteLength_toList, ← h, Text.byteLength_append]
  exact Nat.le_add_left ..

end PlaceOf

/-- A fault is about characters of the text, or it is reported within a quoted text of it. -/
inductive ReadError.IsLocated (text : String) : ReadError → Prop where
  | invalid {error : ValidationError} : IsLocated text (.invalid error)
  | spans {cause : SyntaxFault} {taken rest : List Char} (hr : taken ++ rest <:+ text.toList)
      (hc : ∀ fault, cause ≠ .quoted fault) :
      IsLocated text (.fault cause (byteLength (taken ++ rest)) (byteLength taken))
  | quoted {error : Text.QuoteError Char} (hr : error.rest <:+ text.toList) (hw : error.Within) :
      IsLocated text (.fault (.quoted error.fault) (byteLength error.rest) 1)

/-- A fault about the next character is in the text. -/
theorem isLocated_faultAt {cause : SyntaxFault} (hr : rest <:+ text.toList)
    (hc : ∀ fault, cause ≠ .quoted fault) : (Text.faultAt cause rest).IsLocated text := by
  rw [← List.take_append_drop 1 rest] at hr
  have hspans := ReadError.IsLocated.spans hr hc
  rwa [List.take_append_drop] at hspans

/-- Characters take bytes. -/
theorem byteLength_pos {text : List Char} (h : text ≠ []) : 0 < byteLength text := by
  cases text with
  | nil => exact absurd rfl h
  | cons c later => exact Nat.add_pos_left c.utf8Size_pos _

/-- Something of the text has been read, and this is left. -/
structure IsBehind (left rest : List Char) : Prop where
  suffix : left <:+ rest
  shorter : left.length < rest.length

namespace IsBehind

variable {whole : List Char}

/-- Less is left of what is left. -/
theorem of_suffix (h : left <:+ rest) (hb : IsBehind rest whole) : IsBehind left whole :=
  ⟨h.trans hb.suffix, Nat.lt_of_le_of_lt h.length_le hb.shorter⟩

/-- What has been read took bytes. -/
theorem byteLength_lt (h : IsBehind left rest) : byteLength left < byteLength rest := by
  obtain ⟨⟨taken, rfl⟩, hshorter⟩ := h
  have hpos : taken ≠ [] := by
    rintro rfl
    exact absurd hshorter (Nat.lt_irrefl _)
  rw [Text.byteLength_append]
  exact Nat.lt_add_of_pos_left (byteLength_pos hpos)

end IsBehind

/-! ### Readers before what is left -/

/-- The reader before what is left of a text. -/
def Scan.before (text : String) (trail : List Move) (rest : List Char) : Scan :=
  ⟨text, placeOf text rest, trail⟩

namespace Scanner

variable {α β : Type}

/-- Readers with equal runs go on equally. -/
theorem bind_congr {x y : Scanner α} {scan after : Scan} (h : x scan = y after)
    (next : α → Scanner β) : (x >>= next) scan = (y >>= next) after :=
  congrArg (fun run => run.bind fun out => ExceptT.bindCont next out.1 out.2) h

/-- The text from the position on is what is left. -/
theorem rest_before (h : rest <:+ text.toList) (trail : List Move) :
    Scanner.rest (.before text trail rest) =
      (pure rest : Scanner (List Char)) (.before text trail rest) := by
  have hslice : Text.slice? text (placeOf text (rest ++ [])) (placeOf text []) = some rest :=
    slice?_placeOf (by rwa [List.append_nil])
  rw [List.append_nil] at hslice
  show ofOption (Text.slice? text (placeOf text rest) text.utf8ByteSize) _ = _
  rw [← placeOf_nil, hslice]
  rfl

/-- The bytes behind the position are those of what is left. -/
theorem left_before (h : rest <:+ text.toList) (trail : List Move) :
    (Scan.before text trail rest).left = byteLength rest := by
  have hle := byteLength_le h
  show text.utf8ByteSize - (text.utf8ByteSize - byteLength rest) = byteLength rest
  omega

end Scanner

/-! ### Courses -/

variable [Alphabet]

/-- The word between two places of a text is the key of an attribute: an identifier before `=`. -/
def IsKey (text : String) (start stop : Nat) : Prop :=
  ∃ before key after, text.toList = before ++ (key ++ '=' :: after) ∧
    Name.isIdentifier (String.ofList key) = true ∧
    byteLength before = start ∧ byteLength (before ++ key) = stop

/-- The moves lead from one position to another. All positions on the way lie between characters of
the text, and each turn of a loop ends behind its start. A reader that may go back does so over a
key only, which it reads again at once. -/
inductive Course (text : String) : (back : Bool) → Nat → List Move → Nat → Prop where
  | stay {back : Bool} {place : Nat} : Course text back place [] place
  | forward {back : Bool} {start stop last : Nat} {moves : List Move} (lt : start < stop)
      (boundary : IsBoundary text stop) (later : Course text back stop moves last) :
      Course text back start (.forward start stop :: moves) last
  | turn {back : Bool} {start place last : Nat} {moves : List Move} (lt : start < place)
      (boundary : IsBoundary text start) (later : Course text back place moves last) :
      Course text back place (.turn start place :: moves) last
  | reread {start stop last : Nat} {repeated moves : List Move} (key : IsKey text start stop)
      (again : Course text false start repeated stop) (later : Course text true stop moves last) :
      Course text true stop (.backToKey stop start :: (repeated ++ moves)) last

namespace Course

variable {back : Bool} {moves later : List Move}

/-- One course goes on after another. -/
theorem trans (h : Course text back start moves place) (hl : Course text back place later stop) :
    Course text back start (moves ++ later) stop := by
  induction h with
  | stay => exact hl
  | forward lt boundary _ ih => exact .forward lt boundary (ih hl)
  | turn lt boundary _ ih => exact .turn lt boundary (ih hl)
  | reread key again _ _ ih =>
    rw [List.cons_append, List.append_assoc]
    exact .reread key again (ih hl)

end Course

/-! ### Runs of a reader -/

namespace Scanner

variable {α β σ : Type} {back : Bool}

/-- Started before the rest of a text, the reader goes on as another one that stands before what is
left then. -/
structure Leads (text : String) (back : Bool) (x : Scanner α) (rest : List Char) (y : Scanner α)
    (left : List Char) : Prop where
  run : rest <:+ text.toList → left <:+ rest ∧ ∀ trail, ∃ moves,
    x (.before text trail rest) = y (.before text (trail ++ moves) left) ∧
    Course text back (placeOf text rest) moves (placeOf text left)

/-- The moves lead to where an error is reported. The reader has gone back before it reports that a
reference is malformed. -/
inductive Ends (text : String) (back : Bool) (start : Nat) : List Move → Nat → Error → Prop where
  | ahead {moves : List Move} {stop : Nat} {error : Error}
      (course : Course text back start moves stop) : Ends text back start moves stop error
  | malformed {moves : List Move} {place stop last : Nat}
      (course : Course text back start moves place) (boundary : IsBoundary text stop)
      (lt : stop < place) :
      Ends text back start (moves ++ [.backToReference place stop]) stop
        (.reading ⟨.expectedReference, stop, last⟩)

/-- A course may lead to where the moves up to an error start. -/
theorem Ends.prepend {moves later : List Move} {error : Error}
    (h : Ends text back place later stop error) (hc : Course text back start moves place) :
    Ends text back start (moves ++ later) stop error := by
  cases h with
  | ahead course => exact .ahead (hc.trans course)
  | malformed course boundary lt =>
    rw [← List.append_assoc]
    exact .malformed (hc.trans course) boundary lt

/-- Started before the rest of a text, the reader fails, and its fault is in the text. -/
structure Fails (text : String) (back : Bool) (x : Scanner α) (rest : List Char)
    (error : ReadError) : Prop where
  located : rest <:+ text.toList → error.IsLocated text
  run : rest <:+ text.toList → ∀ trail, ∃ moves stop,
    x (.before text trail rest) =
        some (.error (error.toError text.utf8ByteSize), ⟨text, stop, trail ++ moves⟩) ∧
      Ends text back (placeOf text rest) moves stop (error.toError text.utf8ByteSize)

/-- Started before the rest of a text, the reader has the given result. -/
def Follows {limit : Nat} (text : String) (back : Bool) (x : Scanner α) (rest : List Char) :
    Except ReadError (Parsed Char α limit) → Prop
  | .ok parsed => Leads text back x rest (pure parsed.value) parsed.rest
  | .error error => Fails text back x rest error

namespace Leads

variable {x y z : Scanner α}

/-- A reader without moves. -/
theorem of_eq (h : rest <:+ text.toList → ∀ trail, x (.before text trail rest) =
    y (.before text trail rest)) : Leads text back x rest y rest := by
  refine ⟨fun hrest => ?_⟩
  refine ⟨List.suffix_refl rest, fun trail => ⟨[], ?_, .stay⟩⟩
  rw [List.append_nil]
  exact h hrest trail

/-- A reader goes on as itself. -/
theorem refl : Leads text back x rest x rest :=
  .of_eq fun _ _ => rfl

/-- What is left may be taken to be a part of the text. -/
theorem of_suffix (h : rest <:+ text.toList → Leads text back x rest y left) :
    Leads text back x rest y left :=
  ⟨fun hrest => (h hrest).run hrest⟩

/-- A reader goes on as the one that the next one goes on as. -/
theorem trans (h : Leads text back x rest y middle) (hn : Leads text back y middle z left) :
    Leads text back x rest z left := by
  refine ⟨fun hrest => ?_⟩
  obtain ⟨hmiddle, hfirst⟩ := h.run hrest
  obtain ⟨hleft, hsecond⟩ := hn.run (hmiddle.trans hrest)
  refine ⟨hleft.trans hmiddle, fun trail => ?_⟩
  obtain ⟨moves, hrun, hcourse⟩ := hfirst trail
  obtain ⟨later, hlater, hnext⟩ := hsecond (trail ++ moves)
  refine ⟨moves ++ later, ?_, hcourse.trans hnext⟩
  rw [hrun, hlater, List.append_assoc]

/-- What follows a reader follows the one that it goes on as. -/
theorem bind {next : α → Scanner β} (h : Leads text back x rest y left) :
    Leads text back (x >>= next) rest (y >>= next) left := by
  refine ⟨fun hrest => ?_⟩
  obtain ⟨hleft, hrun⟩ := h.run hrest
  refine ⟨hleft, fun trail => ?_⟩
  obtain ⟨moves, hmoves, hcourse⟩ := hrun trail
  exact ⟨moves, bind_congr hmoves next, hcourse⟩

/-- A reader that has its result goes on with what follows. -/
theorem next {value : α} {next : α → Scanner β} (h : Leads text back x rest (pure value) left) :
    Leads text back (x >>= next) rest (next value) left :=
  h.bind

/-- A reader fails where the one that it goes on as does. -/
theorem fails {error : ReadError} (h : Leads text back x rest y left)
    (hf : Fails text back y left error) : Fails text back x rest error := by
  refine ⟨fun hrest => hf.located ((h.run hrest).1.trans hrest), fun hrest trail => ?_⟩
  obtain ⟨hleft, hrun⟩ := h.run hrest
  obtain ⟨moves, hmoves, hcourse⟩ := hrun trail
  obtain ⟨later, stop, hfail, hends⟩ := hf.run (hleft.trans hrest) (trail ++ moves)
  exact ⟨moves ++ later, stop, by rw [hmoves, hfail, List.append_assoc], hends.prepend hcourse⟩

/-- A reader has the result of the one that it goes on as. -/
theorem follows {result : Except ReadError (Parsed Char α limit)}
    (h : Leads text back x rest y left) (hf : Follows text back y left result) :
    Follows text back x rest result := by
  cases result with
  | ok parsed => exact h.trans hf
  | error error => exact h.fails hf

end Leads

variable {x : Scanner α} {error : ReadError} {result : Except ReadError (Parsed Char α limit)}

/-- Nothing follows a reader that fails. -/
theorem Fails.bind (h : Fails text back x rest error)
    (next : α → Scanner β) : Fails text back (x >>= next) rest error := by
  refine ⟨h.located, fun hrest trail => ?_⟩
  obtain ⟨moves, stop, hrun, hends⟩ := h.run hrest trail
  refine ⟨moves, stop, ?_, hends⟩
  have hthrow : x (.before text trail rest) = (throw (error.toError text.utf8ByteSize) : Scanner α)
      ⟨text, stop, trail ++ moves⟩ := hrun
  rw [bind_congr hthrow next]
  rfl

/-- What is left may be taken to be a part of the text. -/
theorem Follows.of_suffix (h : rest <:+ text.toList → Follows text back x rest result) :
    Follows text back x rest result := by
  cases result with
  | ok parsed => exact Leads.of_suffix h
  | error error =>
    exact ⟨fun hrest => Fails.located (h hrest) hrest, fun hrest => Fails.run (h hrest) hrest⟩

/-- A reader that goes on after another one follows what goes on after the result. -/
theorem Follows.bind {next : α → Scanner β} {first : Except ReadError (Parsed Char α limit)}
    {second : Parsed Char α limit → Except ReadError (Parsed Char β wider)}
    (h : Follows text back x rest first)
    (hn : ∀ value left short, first = .ok ⟨value, left, short⟩ → left <:+ rest →
      Follows text back (next value) left (second ⟨value, left, short⟩)) :
    Follows text back (x >>= next) rest (first >>= second) := by
  cases first with
  | error error => exact Fails.bind h next
  | ok parsed =>
    have hleads : Leads text back x rest (pure parsed.value) parsed.rest := h
    exact .of_suffix fun hrest =>
      hleads.next.follows (hn _ _ parsed.shorter rfl (hleads.run hrest).1)

/-- A reader that goes on with a value has it as its result. -/
theorem Follows.of_ok {value : α}
    (h : Leads text back x rest (pure value) left) (ho : Text.outcome result = .ok (value, left)) :
    Follows text back x rest result := by
  cases result with
  | error error => cases ho
  | ok parsed =>
    cases ho
    exact h

/-- A reader that fails has the error as its result. -/
theorem Follows.of_error (h : Fails text back x rest error)
    (ho : Text.outcome result = .error error) : Follows text back x rest result := by
  cases result with
  | error error =>
    cases ho
    exact h
  | ok parsed => cases ho

/-- The bound on what is left does not matter. -/
theorem Follows.of_outcome {other : Except ReadError (Parsed Char α wider)}
    (h : Follows text back x rest result) (ho : Text.outcome other = Text.outcome result) :
    Follows text back x rest other := by
  cases result with
  | error error => exact .of_error h ho
  | ok parsed => exact .of_ok h ho

/-- The bound on what is left may be widened. -/
theorem Follows.widen
    {first : Except ReadError (Parsed Char α limit)} (h : Follows text back x rest first)
    (short : ∀ parsed : Parsed Char α limit, parsed.rest.length < wider) :
    Follows text back x rest
      (first >>= fun parsed => pure ⟨parsed.value, parsed.rest, short parsed⟩) := by
  cases first with
  | error error => exact h
  | ok parsed => exact h

/-! ### Positions and recursion -/

/-- The position is the place before what is left. -/
theorem leads_position : Leads text back position rest (pure (placeOf text rest)) rest :=
  .of_eq fun _ _ => rfl

/-- What is left is taken from the text. -/
theorem leads_rest : Leads text back Scanner.rest rest (pure rest) rest :=
  .of_eq rest_before

/-- What has been read since a place is taken from the text. -/
theorem leads_since (hr : rest <:+ text.toList) (h : middle ++ left = rest) :
    Leads text back (since (placeOf text rest)) left (pure middle) left := by
  subst h
  refine .of_eq fun _ trail => ?_
  show ofOption (Text.slice? text (placeOf text (middle ++ left)) (placeOf text left)) _ = _
  rw [slice?_placeOf hr]
  rfl

/-- The reader moves on over characters. -/
theorem leads_advance (h : middle ≠ []) :
    Leads text back (advance (byteLength middle)) (middle ++ left) (pure ()) left := by
  refine ⟨fun hrest => ?_⟩
  have hplace := placeOf_append hrest
  have hleft : left <:+ middle ++ left := List.suffix_append ..
  refine ⟨hleft, fun trail => ?_⟩
  refine ⟨[.forward (placeOf text (middle ++ left)) (placeOf text left)], ?_, ?_⟩
  · have hrun : advance (byteLength middle) (.before text trail (middle ++ left)) =
        some (.ok (), ⟨text, placeOf text (middle ++ left) + byteLength middle, trail ++
          [.forward (placeOf text (middle ++ left))
            (placeOf text (middle ++ left) + byteLength middle)]⟩) := rfl
    rw [hrun, hplace]
    rfl
  · have hpos := byteLength_pos h
    exact .forward (by omega) (isBoundary_placeOf (hleft.trans hrest)) .stay

/-- A reader that must have fewer bytes before it than there were before the given rest. -/
def guarded (rest : List Char) (x : Scanner α) : Scanner α := fun scan =>
  if scan.left < byteLength rest then x scan else none

/-- A reader that has less before it passes the check. -/
theorem leads_guarded (h : byteLength left < byteLength rest) (x : Scanner α) :
    Leads text back (guarded rest x) left x left :=
  .of_eq fun hleft trail => if_pos ((left_before hleft trail).symm ▸ h)

/-- A recursion goes on with its body, in which calls are checked. -/
theorem leads_descend (body : (σ → Scanner α) → σ → Scanner α) (state : σ) (rest : List Char) :
    Leads text back (descend body state) rest
      (body (fun next => guarded rest (descend body next)) state) rest := by
  refine .of_eq fun hrest trail => ?_
  rw [descend, left_before hrest]
  rfl

/-- What follows a turn of a loop that started before the given rest. -/
def continueFrom (text : String) (turn : σ → Scanner (σ ⊕ α)) (rest : List Char) :
    σ ⊕ α → Scanner α :=
  continueWith (fun next => guarded rest (loop turn next)) (placeOf text rest)

/-- A loop takes a turn and goes on after it. -/
theorem leads_loop (turn : σ → Scanner (σ ⊕ α)) (state : σ) (rest : List Char) :
    Leads text back (loop turn state) rest (turn state >>= continueFrom text turn rest) rest :=
  (leads_descend _ state rest).trans leads_position.next

/-- A turn that has advanced is followed by another one. -/
theorem leads_continueFrom {turn : σ → Scanner (σ ⊕ α)} (hr : rest <:+ text.toList)
    (h : byteLength left < byteLength rest) (next : σ) :
    Leads text back (continueFrom text turn rest (.inl next)) left (loop turn next) left := by
  have hrecord : Leads text back (record (placeOf text rest)) left (pure ()) left := by
    refine ⟨fun hleft => ⟨List.suffix_refl left, fun trail =>
      ⟨[.turn (placeOf text rest) (placeOf text left)], rfl,
        .turn ?_ (isBoundary_placeOf hr) .stay⟩⟩⟩
    have hle := byteLength_le hr
    simp only [placeOf]
    omega
  exact hrecord.next.trans (leads_guarded h _)

/-- A loop whose turns each read one element. What is left after a turn is shorter than what was
left before it. -/
theorem follows_turn {ε : Type} {bound : List Char → Nat} {turn : σ → Scanner (σ ⊕ α)}
    {element : Scanner ε} {next : ε → σ} {first : Except ReadError (Parsed Char ε limit)}
    {later : ε → (after : List Char) → Except ReadError (Parsed Char α (bound after))}
    {result : Except ReadError (Parsed Char α wider)} (hr : rest <:+ text.toList)
    (hl : left <:+ rest) (hlimit : limit ≤ rest.length) (he : Follows text back element left first)
    (hn : ∀ found after, IsBehind after rest →
      Follows text back (loop turn (next found)) after (later found after))
    (ho : Text.outcome result =
      Text.outcome first >>= fun found => Text.outcome (later found.1 found.2)) :
    Follows text back ((element >>= fun found => pure (.inl (next found))) >>=
      continueFrom text turn rest) left result := by
  cases first with
  | error error => exact .of_error ((Fails.bind he _).bind _) ho
  | ok parsed =>
    obtain ⟨found, after, hshort⟩ := parsed
    have hleads : Leads text back element left (pure found) after := he
    have hafter : IsBehind after rest :=
      ⟨(hleads.run (hl.trans hr)).1.trans hl, Nat.lt_of_lt_of_le hshort hlimit⟩
    refine hleads.next.bind.follows ?_
    refine (leads_continueFrom hr hafter.byteLength_lt _).follows ?_
    exact (hn found after hafter).of_outcome ho

end Scanner

end TagTree
