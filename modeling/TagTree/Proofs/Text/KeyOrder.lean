import TagTree.Proofs.StreamEquality
import TagTree.Proofs.Text.RoundTrip

/-!
# The order of keys in texts

Trees are compared without regard to the order of attributes, but written with it. Two trees that
are the same have the same text exactly if their attributes, and the objects within them, have their
keys in the same order (`Tree.canonical_eq_iff`).
-/

namespace TagTree

/-! ### Values up to the order of keys -/

namespace Value

mutual

/-- The value without its leaves: what is left are the keys of all objects within it, in order. -/
def keysOnly : Value → Value
  | array items => array (keysOnlyItems items)
  | object entries => object (keysOnlyEntries entries)
  | _ => null

/-- The items with the keys of all objects within them, in order. -/
def keysOnlyItems : List Value → List Value
  | [] => []
  | item :: later => item.keysOnly :: keysOnlyItems later

/-- The entries with the keys of all objects within them, in order. -/
def keysOnlyEntries : List (String × Value) → List (String × Value)
  | [] => []
  | (key, value) :: later => (key, value.keysOnly) :: keysOnlyEntries later

end

/-- The keys of the entries stay. -/
theorem keys_keysOnlyEntries (entries : Entries Value) :
    Entries.keys (keysOnlyEntries entries) = Entries.keys entries := by
  induction entries with
  | nil => rfl
  | cons entry rest ih => exact congrArg (entry.1 :: ·) ih

/-- Where keys are distinct and in the same order, an index of the entries has them all. -/
theorem getElem?_index_of_keysOnly {first second : Entries Value} (h : (Entries.keys first).Nodup)
    (horder : keysOnlyEntries first = keysOnlyEntries second) :
    ∀ entry ∈ second, (Entries.index second)[entry.1]? = some entry.2 := by
  have hkeys : Entries.keys first = Entries.keys second := by
    rw [← keys_keysOnlyEntries, horder, keys_keysOnlyEntries]
  intro entry hmem
  rw [Entries.getElem?_index]
  exact Entries.get?_of_mem (hkeys ▸ h) hmem

variable [Alphabet]

mutual

/-- Values that are the same and have their keys in the same order are equal. -/
theorem eq_of_same : (first second : Value) → first.IsKeyed → first.same second = true →
    first.keysOnly = second.keysOnly → first = second
  | first, second => by
    intro hkeyed hsame horder
    cases first <;> cases second
    case null.null => rfl
    case bool.bool | integer.integer | text.text =>
      rw [same, beq_iff_eq] at hsame
      rw [hsame]
    case array.array items items' =>
      simp only [same, keysOnly, array.injEq, IsKeyed] at hsame horder hkeyed
      rw [eq_of_sameItems items items' hkeyed hsame horder]
    case object.object entries entries' =>
      simp only [same, keysOnly, object.injEq, IsKeyed, Bool.and_eq_true] at hsame horder hkeyed
      rw [eq_of_sameEntries _ entries entries' hkeyed.2 hsame.2
        (getElem?_index_of_keysOnly hkeyed.1 horder) horder]
    all_goals simp [same] at hsame

/-- Items that are the same and have their keys in the same order are equal. -/
theorem eq_of_sameItems : (first second : List Value) → AreKeyed first →
    sameItems first second = true → keysOnlyItems first = keysOnlyItems second → first = second
  | [], [] => fun _ _ _ => rfl
  | [], _ :: _ => by simp [sameItems]
  | _ :: _, [] => by simp [sameItems]
  | item :: later, item' :: later' => by
    intro ⟨hitem, hlater⟩ hsame horder
    rw [sameItems, Bool.and_eq_true] at hsame
    rw [keysOnlyItems, keysOnlyItems, List.cons.injEq] at horder
    rw [eq_of_same item item' hitem hsame.1 horder.1,
      eq_of_sameItems later later' hlater hsame.2 horder.2]

/-- Entries that an index has too, in the same order, are equal. -/
theorem eq_of_sameEntries (index : Std.TreeMap String Value) :
    (first second : List (String × Value)) → HaveKeys first → sameEntries index first = true →
      (∀ entry ∈ second, index[entry.1]? = some entry.2) →
        keysOnlyEntries first = keysOnlyEntries second → first = second
  | [], [] => fun _ _ _ _ => rfl
  | [], _ :: _ => by simp [keysOnlyEntries]
  | _ :: _, [] => by simp [keysOnlyEntries]
  | (key, value) :: later, (key', value') :: later' => by
    intro ⟨_, hvalue, hlater⟩ hsame hindex horder
    obtain ⟨hfirst, hrest⟩ := List.forall_mem_cons.mp hindex
    simp only [keysOnlyEntries, List.cons.injEq, Prod.mk.injEq] at horder
    obtain ⟨⟨rfl, hkeysOnly⟩, horder⟩ := horder
    rw [sameEntries, Bool.and_eq_true, hfirst] at hsame
    rw [eq_of_same value value' hvalue hsame.1 hkeysOnly,
      eq_of_sameEntries index later later' hlater hsame.2 hrest horder]

end

end Value

/-- Attributes that are the same and have their keys in the same order are equal. -/
theorem Attributes.eq_of_same [Alphabet] {first second : Attributes} (hkeyed : first.IsKeyed)
    (hsame : first.same second = true)
    (horder : Value.keysOnlyEntries first = Value.keysOnlyEntries second) : first = second := by
  rw [same, Bool.and_eq_true] at hsame
  exact Value.eq_of_sameEntries _ first second hkeyed.2 hsame.2
    (Value.getElem?_index_of_keysOnly hkeyed.1 horder) horder

/-! ### Tags -/

namespace Tag

variable [Alphabet]

/-- The keys of the attributes of a tag, and of all objects within them, in order. -/
def keyOrder : Tag → Attributes
  | doctype header => Value.keysOnlyEntries header.attributes
  | opening start => Value.keysOnlyEntries start.attributes
  | _ => []

/-- The parts of an opening tag or of a header can be written. -/
def IsWritable : Tag → Prop
  | doctype header => header.IsValid
  | opening start => start.IsValid
  | _ => True

/-- The tags are the same up to the order of attributes, and can be written. -/
abbrev Written : Tag → Tag → Prop :=
  Matches (.of fun start start' => start.Same start' ∧ start.IsValid ∧ start'.IsValid)
    fun header header' => header.Same header' ∧ header.IsValid ∧ header'.IsValid

variable {first second : Tag}

/-- Tags that are the same and have their keys in the same order are equal. -/
theorem Written.eq_of_keyOrder (h : first.Written second)
    (horder : first.keyOrder = second.keyOrder) : first = second := by
  cases h with
  | @opening start start' h =>
    obtain ⟨hsame, hvalid, -⟩ := h
    obtain ⟨hflags, hlanguage, htype, hattributes⟩ := OpenTag.same_iff.mp hsame
    obtain ⟨flags, language, typeName, attributes⟩ := start
    obtain ⟨flags', language', typeName', attributes'⟩ := start'
    cases hflags
    cases hlanguage
    cases htype
    exact congrArg (fun keyed => opening ⟨flags, language, typeName, keyed⟩)
      (Attributes.eq_of_same hvalid.attributes hattributes horder)
  | @doctype header header' h =>
    obtain ⟨hsame, hvalid, -⟩ := h
    obtain ⟨hversion, hname, hattributes⟩ := Doctype.same_iff.mp hsame
    obtain ⟨version, name, attributes⟩ := header
    obtain ⟨version', name', attributes'⟩ := header'
    cases hversion
    cases hname
    exact congrArg (fun keyed => doctype ⟨version, name, keyed⟩)
      (Attributes.eq_of_same hvalid.attributes hattributes horder)
  | _ => rfl

/-- Two tags that are read back and begin the same text are equal. -/
theorem eq_of_reads {counts after after' : ShiftCounts} {input rest rest' : List Char}
    (h : Text.Reads (readTag counts input) ([first], after) rest)
    (h' : Text.Reads (readTag counts input) ([second], after') rest') :
    first = second ∧ rest = rest' := by
  obtain ⟨short, hread⟩ := h
  obtain ⟨short', hread'⟩ := h'
  have hsame := hread.symm.trans hread'
  simp only [Except.ok.injEq, Text.Parsed.mk.injEq, Prod.mk.injEq, List.cons.injEq] at hsame
  exact ⟨hsame.1.1.1, hsame.2⟩

/-- What begins with the text of a tag begins with that of no other. -/
theorem Written.eq_of_chars (h : first.Written second) {rest rest' : List Char}
    (htext : first.chars ++ rest = second.chars ++ rest') : first = second ∧ rest = rest' := by
  cases h with
  | @opening start start' h =>
    have hread := @readTag_chars rest _ [0] (.opening start) h.2.1 trivial nofun
    have hread' := @readTag_chars rest' _ [0] (.opening start') h.2.2 trivial nofun
    rw [htext] at hread
    exact eq_of_reads hread hread'
  | @doctype header header' h =>
    have hread := @readTag_chars rest _ [0] (.doctype header) h.2.1 trivial nofun
    have hread' := @readTag_chars rest' _ [0] (.doctype header') h.2.2 trivial nofun
    rw [htext] at hread
    exact eq_of_reads hread hread'
  | _ => exact ⟨rfl, List.append_cancel_left htext⟩

variable {tags tags' : List Tag}

/-- Tags that are the same and can be written, tag by tag. -/
theorem forall₂_written (h : List.Forall₂ (Matches .same Doctype.Same) tags tags')
    (hw : ∀ tag ∈ tags, tag.IsWritable) (hw' : ∀ tag ∈ tags', tag.IsWritable) :
    List.Forall₂ Written tags tags' := by
  induction h with
  | nil => exact .nil
  | cons htag _ ih =>
    obtain ⟨hfirst, hrest⟩ := List.forall_mem_cons.mp hw
    obtain ⟨hfirst', hrest'⟩ := List.forall_mem_cons.mp hw'
    refine .cons (htag.mono ?_ ?_) (ih hrest hrest')
    · rintro start start' rfl rfl hsame
      exact ⟨hsame, hfirst, hfirst'⟩
    · rintro header header' rfl rfl hsame
      exact ⟨hsame, hfirst, hfirst'⟩

/-- Tags that are the same up to the order of attributes have the same text only if they are
equal. -/
theorem eq_of_canonicalChars (h : List.Forall₂ Written tags tags') {afterNull : Bool}
    (htext : canonicalChars afterNull tags = canonicalChars afterNull tags') : tags = tags' := by
  induction h generalizing afterNull with
  | nil => rfl
  | @cons tag tag' rest rest' htag _ ih =>
    have hspace : tag.space afterNull = tag'.space afterNull := by
      cases htag <;> rfl
    simp only [canonicalChars, hspace, List.append_assoc] at htext
    obtain ⟨rfl, hrest⟩ := htag.eq_of_chars (List.append_cancel_left htext)
    rw [ih hrest]

/-- Tags that are the same and have their keys in the same order are equal, tag by tag. -/
theorem eq_of_keyOrder (h : List.Forall₂ Written tags tags')
    (horder : tags.map keyOrder = tags'.map keyOrder) : tags = tags' := by
  induction h with
  | nil => rfl
  | cons htag _ ih =>
    rw [List.map_cons, List.map_cons, List.cons.injEq] at horder
    rw [htag.eq_of_keyOrder horder.1, ih horder.2]

end Tag

/-! ### Tags that can be written -/

section Valid

variable [Alphabet]

-- The property to be valid, as a relation on the diagonal: what the builder keeps of two lists of
-- tags that it cannot tell apart, it keeps of one. A label need not be valid: the root takes the
-- language of the header, also where it is a fragment.

/-- The opening tags are equal and valid. -/
abbrev Likeness.valid : Likeness where
  start first second := first = second ∧ first.IsValid
  label := Eq

/-- The headers are equal and valid. -/
def Doctype.EqValid (header header' : Doctype) : Prop :=
  header = header' ∧ header.IsValid

/-- The builder does not tell a valid tag from itself. -/
theorem indistinct_valid : Indistinct .valid Doctype.EqValid where
  flags h := congrArg _ h.1
  typeName h := congrArg _ h.1
  marked := by
    rintro start _ hasGap ⟨rfl, hstart⟩
    exact ⟨rfl, hstart.flags, hstart.typeName, hstart.language, hstart.fragment, hstart.attributes⟩
  label inherited h := congrArg (OpenTag.label · inherited) h.1
  labelFlags h := congrArg _ h
  labelMarked hasGap h := congrArg (OpenTag.marked · hasGap) h
  header h := congrArg _ h.1

/-- A valid tag matches itself. -/
theorem Tag.matches_self {tag : Tag} (h : tag.IsValid) :
    tag.Matches .valid Doctype.EqValid tag := by
  cases tag with
  | opening start => exact .opening ⟨rfl, h⟩
  | doctype header => exact .doctype ⟨rfl, h⟩
  | closing => exact .closing
  | reference edge => exact .reference edge
  | shift index => exact .shift index
  | gap => exact .gap
  | null => exact .null
  | arrayStart => exact .arrayStart
  | literal text => exact .literal text
  | embedded | effect => exact h.elim

end Valid

/-! ### Trees -/

namespace Tree

/-- The keys of the attributes of all tags of a tree, and of all objects within them, in order. -/
def keyOrder (tree : Tree) : Except Error (List Attributes) := do
  return (← tree.tags).map Tag.keyOrder

/-- What a tree that was read is flattened to can be written. -/
theorem isWritable_of_parse [Alphabet] {text : String} {tree : Tree} {out : List Tag}
    (h : parse text = .ok tree) (hout : tree.tags = .ok out) : ∀ tag ∈ out, tag.IsWritable := by
  obtain ⟨tags, hread, htree⟩ := parse_eq_ok_iff.mp h
  obtain ⟨hvalid, -⟩ := Tag.parse_eq_ok hread
  have htags : List.Forall₂ (Tag.Matches .valid Doctype.EqValid) tags tags :=
    List.forall₂_same.mpr fun tag hmem => Tag.matches_self (hvalid tag hmem)
  have hagree := agree_ofTags indistinct_valid htags
  rw [htree] at hagree
  cases hagree with
  | ok hmatches =>
    have hagree := hmatches.agree_tags
    rw [hout] at hagree
    cases hagree with
    | ok hout =>
      intro tag hmem
      cases List.forall₂_same.mp hout tag hmem with
      | opening hstart => exact hstart.2
      | doctype hheader => exact hheader.2
      | _ => trivial

/-- Two trees that were read and are the same are flattened to tags that are the same up to the
order of attributes, or fail in the same way. They have the same text exactly if the attributes of
their tags, and all objects within them, have their keys in the same order. -/
theorem canonical_eq_iff [Alphabet] {text text' : String} {tree tree' : Tree}
    (h : parse text = .ok tree) (h' : parse text' = .ok tree') (hsame : tree.same tree' = true) :
    Agree Eq (List.Forall₂ fun tag tag' => Tag.same tag tag' = true) tree.tags tree'.tags ∧
    (tree.canonical = tree'.canonical ↔ tree.keyOrder = tree'.keyOrder) := by
  have hagree := (same_iff_matches.mp hsame).agree_tags
  refine ⟨hagree.mono fun out out' hout => hout.imp fun _ _ => Tag.Matches.same, ?_⟩
  rw [canonical, canonical, keyOrder, keyOrder]
  cases htags : tree.tags <;> cases htags' : tree'.tags <;> rw [htags, htags'] at hagree <;>
    cases hagree
  case error herror =>
    subst herror
    exact iff_of_true rfl rfl
  case ok out out' hmatches =>
    have hwritten := Tag.forall₂_written hmatches (isWritable_of_parse h htags)
      (isWritable_of_parse h' htags')
    constructor
    · intro htext
      have hchars := congrArg String.toList (Except.ok.inj htext)
      rw [Tag.canonical, Tag.canonical, String.toList_ofList, String.toList_ofList] at hchars
      rw [Tag.eq_of_canonicalChars hwritten hchars]
    · intro horder
      rw [Tag.eq_of_keyOrder hwritten (Except.ok.inj horder)]

/-- Two texts have their keys in the same order, and a third one in another. -/
theorem canonical_eq_iff_of_orders :
    ∃ tree tree' other, parse "<A a=1 b=\x7bc: 2, d: 3\x7d></>" = .ok tree ∧
      parse "<A  a=0x1  b=\x7bc:2,d:3\x7d>\n</>" = .ok tree' ∧
      parse "<A a=1 b=\x7bd: 3, c: 2\x7d></>" = .ok other ∧
      (tree.same tree' = true ∧ tree.keyOrder = tree'.keyOrder) ∧
      tree.same other = true ∧ tree.keyOrder ≠ other.keyOrder := by
  obtain ⟨tree, htree, ⟨tree', htree', hlayout⟩, other, hother, horder⟩ :
      ∃ tree, parse "<A a=1 b=\x7bc: 2, d: 3\x7d></>" = .ok tree ∧
        (∃ tree', parse "<A  a=0x1  b=\x7bc:2,d:3\x7d>\n</>" = .ok tree' ∧
          tree.same tree' = true ∧ tree.canonical = tree'.canonical) ∧
        ∃ other, parse "<A a=1 b=\x7bd: 3, c: 2\x7d></>" = .ok other ∧
          tree.same other = true ∧ tree.canonical ≠ other.canonical := by
    decide +kernel
  refine ⟨tree, tree', other, htree, htree', hother, ⟨hlayout.1, ?_⟩, horder.1, ?_⟩
  · exact (canonical_eq_iff htree htree' hlayout.1).2.mp hlayout.2
  · exact fun hkeys => horder.2 ((canonical_eq_iff htree hother horder.1).2.mpr hkeys)

/-- Trees that are the same have different texts where their attributes are in different orders. -/
theorem canonicalDiffers_of_order :
    ∃ tree tree', parse "<A a=1 b=2></>" = .ok tree ∧ parse "<A b=2 a=1></>" = .ok tree' ∧
      tree.same tree' = true ∧ tree.canonical ≠ tree'.canonical := by
  simp only [exists_and_left]
  decide +kernel

end Tree

end TagTree
