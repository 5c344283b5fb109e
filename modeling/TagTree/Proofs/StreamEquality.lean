import Mathlib.Data.List.Perm.Subperm
import TagTree.Proofs.Congruence
import TagTree.Proofs.RoundTrip

/-!
# Trees with the same tags

Equality compares two trees node by node, while their tags show neither the places where shifted
values were taken back nor the order of properties. The tags determine all of it: two trees are the
same if and only if they are flattened to the same tags, up to the order of attributes
(`Tree.same_iff_tags`).
-/

namespace TagTree

/-! ### Attributes up to order -/

namespace Value

theorem text?_eq_of_same {first second : Value} (h : first.same second = true) :
    first.text? = second.text? := by
  cases first <;> cases second
  case text.text =>
    rw [same, beq_iff_eq] at h
    rw [h]
  all_goals first | rfl | simp [same] at h

theorem sameEntries_iff {index : Std.TreeMap String Value} {entries : List (String × Value)} :
    sameEntries index entries = true ↔
      ∀ entry ∈ entries, ∃ value, index[entry.1]? = some value ∧ entry.2.same value = true := by
  induction entries with
  | nil => simp [sameEntries]
  | cons entry rest ih =>
    obtain ⟨key, value⟩ := entry
    rw [sameEntries, Bool.and_eq_true, ih, List.forall_mem_cons]
    refine and_congr_left' ?_
    cases index[key]? <;> simp

end Value

namespace Attributes

variable {first second : Attributes}

theorem same_iff : same first second = true ↔ first.length = second.length ∧
    ∀ entry ∈ first, ∃ value, Entries.get? entry.1 second = some value ∧
      entry.2.same value = true := by
  rw [same, Bool.and_eq_true, beq_iff_eq, Value.sameEntries_iff]
  simp only [Entries.getElem?_index]

/-- Attributes that are the same have the same keys, if no key stands twice. -/
theorem keys_perm_of_same (h : same first second = true) (hkeys : (Entries.keys first).Nodup) :
    (Entries.keys first).Perm (Entries.keys second) := by
  obtain ⟨hlength, hentries⟩ := same_iff.mp h
  have hsubset : Entries.keys first ⊆ Entries.keys second := by
    intro key hmem
    obtain ⟨entry, hentry, rfl⟩ := List.mem_map.mp hmem
    obtain ⟨value, hvalue, -⟩ := hentries entry hentry
    exact List.mem_map.mpr ⟨_, Entries.mem_of_get? hvalue, rfl⟩
  refine (hkeys.subperm hsubset).perm_of_length_le ?_
  simp [Entries.keys, hlength]

/-- Attributes that are the same have the same values, or none, for a key. -/
theorem rel_get?_of_same (h : same first second = true) (hkeys : (Entries.keys first).Nodup)
    (key : String) :
    Option.Rel (fun value value' : Value => value.same value' = true) (Entries.get? key first)
      (Entries.get? key second) := by
  cases hfirst : Entries.get? key first with
  | some value =>
    obtain ⟨value', hsecond, hsame⟩ := (same_iff.mp h).2 _ (Entries.mem_of_get? hfirst)
    rw [hsecond]
    exact .some hsame
  | none =>
    have hnot : key ∉ Entries.keys second := by
      rw [← (keys_perm_of_same h hkeys).mem_iff, Entries.mem_keys_iff, hfirst]
      nofun
    rw [Entries.get?_eq_none hnot]
    exact .none

end Attributes

/-! ### What a builder sees -/

/-- The headers are the same, and no key of the attributes stands twice. -/
def Doctype.SameMap (first second : Doctype) : Prop :=
  first.Same second ∧ (Entries.keys first.attributes).Nodup

theorem Doctype.same_iff {first second : Doctype} :
    first.Same second ↔ first.version = second.version ∧ first.name = second.name ∧
      Attributes.same first.attributes second.attributes = true := by
  simp only [Same, same, Bool.and_eq_true, beq_iff_eq, and_assoc]

theorem Doctype.language_eq_of_same {first second : Doctype} (h : first.SameMap second) :
    first.language = second.language := by
  obtain ⟨hsame, hkeys⟩ := h
  have hvalue := Attributes.rel_get?_of_same (same_iff.mp hsame).2.2 hkeys "language"
  rw [language, language]
  generalize Entries.get? "language" first.attributes = value,
    Entries.get? "language" second.attributes = value' at hvalue
  cases hvalue with
  | none => rfl
  | some hsame => exact Value.text?_eq_of_same hsame

theorem OpenTag.same_iff {first second : OpenTag} :
    first.Same second ↔ first.flags = second.flags ∧ first.language = second.language ∧
      first.typeName = second.typeName ∧
      Attributes.same first.attributes second.attributes = true := by
  simp only [Same, same, Bool.and_eq_true, beq_iff_eq, and_assoc]

/-- Tags that are the same are so with any mark for gaps. -/
theorem OpenTag.Same.marked {first second : OpenTag} (h : first.Same second) (hasGap : Bool) :
    (first.marked hasGap).Same (second.marked hasGap) := by
  obtain ⟨hflags, hrest⟩ := same_iff.mp h
  refine same_iff.mpr ⟨?_, hrest⟩
  rw [OpenTag.marked, OpenTag.marked, hflags]

/-- The order of attributes does not matter to a builder. -/
theorem indistinct_same : Indistinct .same Doctype.SameMap where
  flags h := (OpenTag.same_iff.mp h).1
  typeName h := (OpenTag.same_iff.mp h).2.2.1
  marked hasGap h := h.marked hasGap
  labelFlags h := (OpenTag.same_iff.mp h).1
  labelMarked hasGap h := h.marked hasGap
  label inherited h := by
    obtain ⟨hflags, hlanguage, hrest⟩ := OpenTag.same_iff.mp h
    exact OpenTag.same_iff.mpr ⟨hflags, congrArg (· <|> inherited) hlanguage, hrest⟩
  header := Doctype.language_eq_of_same

/-- Tags that are the same match. -/
theorem Tag.matches_of_same {first second : Tag} (h : first.same second = true)
    (heffect : first.isEffect = false) : first.Matches .same Doctype.Same second := by
  cases first <;> cases second
  case doctype.doctype => exact .doctype h
  case opening.opening => exact .opening h
  case closing.closing => exact .closing
  case reference.reference edge edge' => exact eq_of_beq (a := edge) h ▸ .reference edge
  case shift.shift index _ => exact eq_of_beq (a := index) h ▸ .shift index
  case gap.gap => exact .gap
  case null.null => exact .null
  case arrayStart.arrayStart => exact .arrayStart
  case literal.literal text _ => exact eq_of_beq (a := text) h ▸ .literal text
  case embedded.embedded => exact .embedded
  case effect.effect => cases heffect
  all_goals cases h

/-- What a tree is flattened to has no effects, and no header but that of the tags that it was built
from. -/
theorem Tag.mem_of_plain {tags out : List Tag} {tag : Tag}
    (h : out.map withoutGap = (withoutEffects tags).map plain) (hmem : tag ∈ out) :
    tag.isEffect = false ∧ ∀ header, tag = .doctype header → tag ∈ tags := by
  have hmapped : tag.withoutGap ∈ (withoutEffects tags).map plain := by
    rw [← h]
    exact List.mem_map_of_mem hmem
  obtain ⟨original, horiginal, hplain⟩ := List.mem_map.mp hmapped
  obtain ⟨hkept, heffect⟩ := List.mem_filter.mp horiginal
  constructor
  · cases tag with
    | effect event =>
      cases original <;> cases hplain
      cases heffect
    | _ => rfl
  · rintro header rfl
    cases original <;> cases hplain
    exact hkept

/-- Tags that are the same match, if none is an effect and no key of a header stands twice. -/
theorem Tag.forall₂_matches_of_same {tags tags' : List Tag}
    (h : List.Forall₂ (fun tag tag' : Tag => tag.same tag' = true) tags tags')
    (heffect : ∀ tag ∈ tags, tag.isEffect = false)
    (hkeys : ∀ header, .doctype header ∈ tags → (Entries.keys header.attributes).Nodup) :
    List.Forall₂ (Tag.Matches .same Doctype.SameMap) tags tags' := by
  induction h with
  | nil => exact .nil
  | cons htag _ ih =>
    obtain ⟨hfirst, hrest⟩ := List.forall_mem_cons.mp heffect
    refine .cons ?_ (ih hrest fun header hmem => hkeys header (List.mem_cons_of_mem _ hmem))
    refine (matches_of_same htag hfirst).mono (fun _ _ _ _ h => h) ?_
    rintro header header' rfl rfl hheader
    exact ⟨hheader, hkeys header List.mem_cons_self⟩

/-! ### Trees -/

namespace Tree

/-- Both trees can be flattened, and to the same tags up to the order of attributes. -/
def SameTags (first second : Tree) : Prop :=
  ∃ out out', first.tags = .ok out ∧ second.tags = .ok out' ∧
    List.Forall₂ (fun tag tag' : Tag => tag.same tag' = true) out out'

/-- Two trees that were built from tags are the same if and only if they are flattened to the same
tags, up to the order of attributes. This holds if no node uses the same name for an array and for a
single property, and no value is shifted right after it was taken back; the attributes of a header
are those of a map, in which no key stands twice. -/
theorem same_iff_tags {tags tags' : List Tag} {tree tree' : Tree} (h : ofTags tags = .ok tree)
    (h' : ofTags tags' = .ok tree') (hunmixed : tree.root.all Node.isUnmixed = true)
    (hkeeps : tree.root.all Node.keepsHeld = true)
    (hunmixed' : tree'.root.all Node.isUnmixed = true)
    (hkeeps' : tree'.root.all Node.keepsHeld = true)
    (hkeys : ∀ header, .doctype header ∈ tags → (Entries.keys header.attributes).Nodup) :
    tree.same tree' = true ↔ tree.SameTags tree' := by
  obtain ⟨out, hout, hflat⟩ := exists_tags h ⟨hunmixed, hkeeps⟩
  obtain ⟨out', hout', hflat'⟩ := exists_tags h' ⟨hunmixed', hkeeps'⟩
  rw [same_iff_matches]
  constructor
  · intro hmatches
    have hagree := hmatches.agree_tags
    rw [hout, hout'] at hagree
    cases hagree with
    | ok htags => exact ⟨out, out', hout, hout', htags.imp fun _ _ => Tag.Matches.same⟩
  · rintro ⟨found, found', hfound, hfound', hsame⟩
    obtain rfl := Except.ok.inj (hfound.symm.trans hout)
    obtain rfl := Except.ok.inj (hfound'.symm.trans hout')
    -- both trees are built again from what they are flattened to, and the builder cannot tell the
    -- two lists of tags apart
    have hagree := agree_ofTags indistinct_same (Tag.forall₂_matches_of_same hsame
      (fun tag hmem => (Tag.mem_of_plain hflat hmem).1)
      fun header hmem => hkeys header ((Tag.mem_of_plain hflat hmem).2 header rfl))
    rw [ofTags_of_flattened h hflat, ofTags_of_flattened h' hflat'] at hagree
    cases hagree with
    | ok hmatches => exact ⟨rel_mono hmatches.doctype fun _ _ => And.left, hmatches.root⟩

/-- Tags of a document in which a node is taken back after a shift. The header and the root have the
given attributes. -/
def attributedTags (attributes : Attributes) : List Tag :=
  let start (name : String) (attributes : Attributes) : Tag :=
    .opening ⟨{}, none, some name, attributes⟩
  [.doctype ⟨0, "cstml", attributes⟩, start "Sum" attributes, .reference ⟨"left", false, none, {}⟩,
    start "Digit" [], .closing, .shift 1, start "Sum" [],
    .reference ⟨"left", false, none, {}⟩, .gap,
    .closing, .closing]

/-- Attributes count, but not their order. -/
theorem same_iff_tags_of_attributes :
    ∃ tree tree' other,
      ofTags (attributedTags [("language", .text "js"), ("strict", .null)]) = .ok tree ∧
      ofTags (attributedTags [("strict", .null), ("language", .text "js")]) = .ok tree' ∧
      ofTags (attributedTags [("language", .text "c"), ("strict", .null)]) = .ok other ∧
      (tree.same tree' = true ∧ tree.SameTags tree') ∧
      tree.same other = false ∧ ¬ tree.SameTags other := by
  obtain ⟨tree, htree, hr, ⟨tree', htree', hr', hsame⟩, other, hother, hrOther, hdiffer⟩ : ∃ tree,
      ofTags (attributedTags [("language", .text "js"), ("strict", .null)]) = .ok tree ∧
      tree.root.Replayable ∧ (∃ tree',
      ofTags (attributedTags [("strict", .null), ("language", .text "js")]) = .ok tree' ∧
      tree'.root.Replayable ∧ tree.same tree' = true) ∧ ∃ other,
      ofTags (attributedTags [("language", .text "c"), ("strict", .null)]) = .ok other ∧
      other.root.Replayable ∧ tree.same other = false := by
    decide +kernel
  have hkeys : ∀ header,
      .doctype header ∈ attributedTags [("language", .text "js"), ("strict", .null)] →
        (Entries.keys header.attributes).Nodup := by
    intro header hmem
    simp only [attributedTags, List.mem_cons, Tag.doctype.injEq, reduceCtorEq, or_false,
      List.not_mem_nil] at hmem
    subst hmem
    decide
  refine ⟨tree, tree', other, htree, htree', hother, ⟨hsame, ?_⟩, hdiffer, fun htags => ?_⟩
  · exact (same_iff_tags htree htree' hr.unmixed hr.keeps hr'.unmixed hr'.keeps hkeys).mp hsame
  · have := (same_iff_tags htree hother hr.unmixed hr.keeps hrOther.unmixed hrOther.keeps hkeys).mpr
      htags
    rw [hdiffer] at this
    cases this

end Tree

end TagTree
