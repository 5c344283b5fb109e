import TagTree.Proofs.Text.Validity

/-!
# Checked tags read back

The makers of tags check their parts apart from the text, and let through what the text can carry:
a tag that they make is written as a text from which it is read (`Tag.parse_print`). Only the index
of a reference to a single property is not written, since only arrays have indexes.
-/

namespace TagTree

variable {flags : NodeFlags} {start : OpenTag} {tag : Tag}

/-- The words that the format itself writes can be read: `null`, and the name in a header. -/
class Name.HasFixedWords [Alphabet] : Prop where
  null : isReferenceName "null" = true
  header : isIdentifier "cstml" = true

instance : Name.HasFixedWords :=
  ⟨by decide, by decide⟩

/-! ### What the makers let through -/

section Made

variable [Alphabet]

/-- Attributes that pass their check have identifiers as keys. -/
theorem isIdentifier_of_checkAttributes {attributes : Attributes}
    (h : checkAttributes attributes = .ok ()) :
    ∀ entry ∈ attributes, Name.isIdentifier entry.1 = true := by
  intro entry hmem
  unfold checkAttributes at h
  split at h
  · cases h
  · rename_i hnone
    simpa using List.find?_eq_none.mp hnone entry hmem

/-- The values of the attributes are those of maps: no key stands twice, and those of objects within
are identifiers. -/
structure Attributes.IsMap (attributes : Attributes) : Prop where
  nodup : (Entries.keys attributes).Nodup
  values : ∀ entry ∈ attributes, entry.2.IsKeyed

/-- The attributes of a map that pass their check can be written. -/
theorem Attributes.IsMap.isKeyed {attributes : Attributes} (h : attributes.IsMap)
    (hcheck : checkAttributes attributes = .ok ()) : attributes.IsKeyed :=
  ⟨h.nodup, Value.haveKeys_iff.mpr fun entry hmem =>
    ⟨isIdentifier_of_checkAttributes hcheck entry hmem, h.values entry hmem⟩⟩

/-- A header that is made can be written. -/
theorem Doctype.isValid_of_made [Name.HasFixedWords] {attributes : Attributes} {header : Doctype}
    (h : checked attributes = .ok header) (hmap : header.attributes.IsMap) : header.IsValid := by
  obtain ⟨_, hcheck, hheader⟩ := bind_eq_ok.mp h
  cases hheader
  exact ⟨Nat.zero_lt_succ _, Name.HasFixedWords.header, hmap.isKeyed hcheck⟩

/-- A start of a node that is made can be written. -/
theorem OpenTag.isValid_of_made {language : Option String} {typeName : String}
    {attributes : Attributes} (h : checked flags language typeName attributes = .ok start)
    (hmap : start.attributes.IsMap) : start.IsValid := by
  obtain ⟨_, -, hrest⟩ := bind_eq_ok.mp h
  obtain ⟨_, -, hrest⟩ := bind_eq_ok.mp hrest
  obtain ⟨_, hcheck, hrest⟩ := bind_eq_ok.mp hrest
  obtain ⟨_, -, hrest⟩ := bind_eq_ok.mp hrest
  cases hrest
  exact { isValid_of_checked h (hmap.isKeyed hcheck) with }

/-- A start of a fragment that is made can be written. -/
theorem OpenTag.isValid_of_madeFragment {attributes : Attributes}
    (h : checkedFragment flags attributes = .ok start) (hmap : start.attributes.IsMap) :
    start.IsValid := by
  obtain ⟨_, -, hrest⟩ := bind_eq_ok.mp h
  obtain ⟨_, hcheck, hrest⟩ := bind_eq_ok.mp hrest
  cases hrest
  exact { isValid_of_checkedFragment h (hmap.isKeyed hcheck) with }

/-- The reference as it is written: without an index, unless it refers to an array. -/
def Reference.written (edge : Reference) : Reference :=
  { edge with index := if edge.isArray then edge.index else none }

/-- A reference that is made can be written. -/
theorem Reference.isValid_of_made {name : String} {isArray : Bool} {index : Option Int64}
    {flags : ReferenceFlags} {edge : Reference}
    (h : checked name isArray (index.map Int64.toInt) flags = .ok edge) : edge.written.IsValid := by
  obtain ⟨hname, found, hindex, rfl⟩ := checked_eq_ok h
  refine ⟨hname, fun written hmem => ?_⟩
  obtain ⟨harray, rfl⟩ : isArray = true ∧ found = some written := by
    cases isArray with
    | true => exact ⟨rfl, hmem⟩
    | false => cases hmem
  refine ⟨harray, ?_⟩
  obtain ⟨given, -, hgiven⟩ := Option.map_eq_some_iff.mp hindex
  have hlt := given.toInt_lt
  rw [hgiven] at hlt
  exact Int.ofNat_lt.mp hlt

end Made

/-- The text of a reference does not depend on an index that is not written. -/
theorem Reference.chars_written (edge : Reference) : edge.written.chars = edge.chars := by
  obtain ⟨name, isArray, index, flags⟩ := edge
  cases isArray <;> rfl

namespace Tag

/-- The attributes of a tag. -/
def attributes : Tag → Attributes
  | doctype header => header.attributes
  | opening start => start.attributes
  | _ => []

/-- The tag as it is written. -/
def written : Tag → Tag
  | reference edge => reference edge.written
  | tag => tag

/-- The tags that can be made: by a maker that checks the parts, or without parts to check. -/
inductive Made [Alphabet] : Tag → Prop where
  | doctype {attributes : Attributes} {header : Doctype}
    (h : Doctype.checked attributes = .ok header) : Made (.doctype header)
  | opening {flags : NodeFlags} {language : Option String} {typeName : String}
    {attributes : Attributes} {start : OpenTag}
    (h : OpenTag.checked flags language typeName attributes = .ok start) : Made (.opening start)
  | fragment {flags : NodeFlags} {attributes : Attributes} {start : OpenTag}
    (h : OpenTag.checkedFragment flags attributes = .ok start) : Made (.opening start)
  | reference {name : String} {isArray : Bool} {index : Option Int64} {flags : ReferenceFlags}
    {edge : Reference} (h : Reference.checked name isArray (index.map Int64.toInt) flags =
      .ok edge) :
    Made (.reference edge)
  | literal (text : String) : Made (.literal text)
  | gap : Made .gap
  | null : Made .null
  | arrayStart : Made .arrayStart
  | closing : Made .closing

/-- A tag that is made can be written. -/
theorem Made.isValid [Alphabet] [Name.HasFixedWords] (h : tag.Made) (hmap : tag.attributes.IsMap) :
    tag.written.IsValid := by
  cases h with
  | doctype h => exact Doctype.isValid_of_made h hmap
  | opening h => exact OpenTag.isValid_of_made h hmap
  | fragment h => exact OpenTag.isValid_of_madeFragment h hmap
  | reference h => exact Reference.isValid_of_made h
  | null => exact Name.HasFixedWords.null
  | _ => trivial

/-- No shift is made alone. -/
theorem Made.numbered [Alphabet] (h : tag.Made) : Numbered [0] [tag.written] := by
  cases h <;> exact ⟨trivial, trivial⟩

/-- The text of a tag is the canonical text of the tag as it is written. -/
theorem print_eq_canonical [Alphabet] (tag : Tag) : tag.print = canonical [tag.written] := by
  cases tag <;> simp [print, canonical, canonicalChars, written, space, chars,
    Reference.chars_written]

/-- A tag that a maker returned is read back from its text, without the index of a reference to a
single property; and so is a literal, a gap, a `null`, the start of an array and a closing tag. The
attributes are those of maps: no key stands twice, and the keys of objects within them are
identifiers. -/
theorem parse_print [Alphabet] [Name.HasFixedWords] {tag : Tag} (h : tag.Made)
    (hmap : tag.attributes.IsMap) : parse tag.print = .ok [tag.written] := by
  rw [print_eq_canonical]
  exact parse_canonicalText (List.forall_mem_singleton.mpr (h.isValid hmap)) h.numbered trivial

/-- A start of a node with an object is read back, and so are two references. -/
theorem parse_print_of_makers :
    (∃ start, OpenTag.checked {} (some "c++") "Sum" [("deep", .object [("a", .null)])] = .ok start ∧
      parse (opening start).print = .ok [.opening start]) ∧
      ∃ edge edge', Reference.checked "rest" true (some 3) {} = .ok edge ∧
        Reference.checked "left" false (some 3) {} = .ok edge' ∧
        parse (reference edge).print = .ok [.reference edge] ∧
        parse (reference edge').print = .ok [.reference { edge' with index := none }] := by
  have hstart : OpenTag.checked {} (some "c++") "Sum" [("deep", .object [("a", .null)])] =
    .ok ⟨{}, some "c++", some "Sum", [("deep", .object [("a", .null)])]⟩ := rfl
  have hmap : Attributes.IsMap [("deep", .object [("a", .null)])] :=
    ⟨by decide, List.forall_mem_singleton.mpr ⟨by decide, by decide, trivial, trivial⟩⟩
  have harray : Reference.checked "rest" true ((some (3 : Int64)).map Int64.toInt) {} =
    .ok ⟨"rest", true, some 3, {}⟩ := rfl
  have hscalar : Reference.checked "left" false ((some (3 : Int64)).map Int64.toInt) {} =
    .ok ⟨"left", false, some 3, {}⟩ := rfl
  have hnone : Attributes.IsMap [] := ⟨List.nodup_nil, nofun⟩
  exact ⟨⟨_, hstart, parse_print (.opening hstart) hmap⟩, _, _, harray, hscalar,
    parse_print (.reference harray) hnone, parse_print (.reference hscalar) hnone⟩

/-- The index of a reference to a single property is let through, but not written. -/
theorem losesIndex_of_scalar :
    ∃ edge, Reference.checked "x" false (some 3) {} = .ok edge ∧
      ¬ parse (reference edge).print = .ok [.reference edge] := by
  have hedge : Reference.checked "x" false (some 3) {} = .ok ⟨"x", false, some 3, {}⟩ := rfl
  have hread : (parse (reference ⟨"x", false, some 3, {}⟩).print).toOption.any (fun tags =>
      tags.any fun tag => match tag with
        | .reference edge => edge.index.isNone
        | _ => false) = true := by decide +kernel
  refine ⟨_, hedge, fun h => ?_⟩
  rw [h] at hread
  cases hread

end Tag

end TagTree
