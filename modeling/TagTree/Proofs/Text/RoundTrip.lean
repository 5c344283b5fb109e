import TagTree.Proofs.RoundTrip
import TagTree.Proofs.Text.Validity
import TagTree.Tree.Printer

/-!
# Trees read back from their text

A tree that was read from a text is written, without spaces or in lines, as a text from which the
same tree is read (`Tree.parse_canonical_pretty`). The tags that the tree is flattened to are those
that were read, up to indexes and marks of gaps, and neither matters to whether a tag can be
written.
-/

namespace TagTree

variable {tags : List Tag} {tag : Tag}

/-! ### Marks of gaps and indexes -/

namespace Tag

variable {counts : ShiftCounts}

/-- A tag that differs from a valid one in marks and indexes is valid. -/
theorem IsValid.of_plain [Alphabet] {out : Tag} (hv : tag.IsValid)
    (h : out.withoutGap = tag.plain) :
    out.IsValid := by
  cases tag with
  | opening start =>
    obtain ⟨marked, rfl, hstart⟩ := withoutGap_eq_opening h
    have hplain : start.plain.IsValid := { hv with }
    rw [← hstart] at hplain
    exact { hplain with }
  | reference edge =>
    obtain ⟨hasGap, rfl⟩ := withoutGap_eq_reference h
    exact ⟨hv.name, nofun⟩
  | embedded | effect => exact hv.elim
  | _ =>
    cases out <;> cases h
    exact hv

/-- Marks and indexes do not matter to the numbers of shifts. -/
theorem isNumbered_of_plain {out : Tag} (h : out.withoutGap = tag.plain) :
    (tag.IsNumbered counts → out.IsNumbered counts) ∧ counts.next out = counts.next tag := by
  cases tag with
  | opening start =>
    obtain ⟨marked, rfl, -⟩ := withoutGap_eq_opening h
    exact ⟨id, rfl⟩
  | reference edge =>
    obtain ⟨hasGap, rfl⟩ := withoutGap_eq_reference h
    exact ⟨id, rfl⟩
  | _ =>
    cases out <;> cases h
    exact ⟨id, rfl⟩

/-- Tags that differ from numbered ones in marks and indexes are numbered. -/
theorem numbered_of_plain {out : List Tag} (h : out.map withoutGap = tags.map plain)
    (hn : Numbered counts tags) : Numbered counts out := by
  induction tags generalizing counts out with
  | nil =>
    obtain rfl := List.map_eq_nil_iff.mp h
    trivial
  | cons tag tags ih =>
    obtain ⟨first, rest, rfl, hfirst, hrest⟩ := List.map_eq_cons_iff.mp h
    obtain ⟨hnumbered, hnext⟩ := isNumbered_of_plain hfirst
    exact ⟨hnumbered hn.1, ih hrest (hnext ▸ hn.2)⟩

/-- Tags that differ from valid ones in marks and indexes are valid. -/
theorem isValid_of_plain [Alphabet] {out : List Tag} (h : out.map withoutGap = tags.map plain)
    (hv : ∀ tag ∈ tags, tag.IsValid) : ∀ tag ∈ out, tag.IsValid := by
  induction tags generalizing out with
  | nil =>
    obtain rfl := List.map_eq_nil_iff.mp h
    exact List.forall_mem_nil _
  | cons tag tags ih =>
    obtain ⟨first, rest, rfl, hfirst, hrest⟩ := List.map_eq_cons_iff.mp h
    obtain ⟨htag, htags⟩ := List.forall_mem_cons.mp hv
    exact List.forall_mem_cons.mpr ⟨htag.of_plain hfirst, ih hrest htags⟩

/-- No effect can be written. -/
theorem withoutEffects_of_isValid [Alphabet] (h : ∀ tag ∈ tags, tag.IsValid) :
    withoutEffects tags = tags := by
  refine List.filter_eq_self.mpr fun tag hmem => ?_
  have hvalid := h tag hmem
  cases tag with
  | effect => exact hvalid.elim
  | _ => rfl

end Tag

/-! ### Neighbours -/

/-- After `null` no reference waits, and what would run together with `null` needs one. -/
theorem Advance.runsTogether [Alphabet] {first middle last : Phase} {next : Tag}
    (h : Advance first tag middle) (hnext : Advance middle next last) :
    Tag.runsTogether tag next = false := by
  cases tag with
  | null =>
    cases h with
    | inside hstep =>
      cases hstep
      cases next with
      | null | arrayStart =>
        cases hnext with
        | inside hstep => cases hstep with | _ hwaiting => cases hwaiting
      | _ => rfl
  | _ => rfl

/-- No two neighbours of a walk run together. -/
theorem Advances.spaced [Alphabet] {first last : Phase} (h : Advances first tags last) :
    Tag.Spaced tags := by
  induction h with
  | nil => trivial
  | cons hfirst hrest ih =>
    cases hrest with
    | nil => trivial
    | cons hnext _ => exact ⟨hfirst.runsTogether hnext, ih⟩

namespace Tree

/-! ### Texts -/

/-- A text writes a tree if its tags form the tree. -/
theorem parse_eq_ok_iff [Alphabet] {text : String} {tree : Tree} :
    parse text = .ok tree ↔ ∃ tags, Tag.parse text = .ok tags ∧ ofTags tags = .ok tree := by
  refine bind_eq_ok.trans (exists_congr fun tags => and_congr_right fun _ => ?_)
  cases ofTags tags with
  | error error => exact ⟨nofun, nofun⟩
  | ok found => exact ⟨fun h => congrArg _ (Except.ok.inj h), fun h => congrArg _ (Except.ok.inj h)⟩

/-- A tree that is read from a text is read again from what it is written as: without spaces, or in
lines with any blanks for the indentation. This holds if no node uses the same name for an array and
for a single property, and no value is shifted right after it was taken back. -/
theorem parse_canonical_pretty [Alphabet] {text : String} {tree : Tree}
    (h : parse text = .ok tree) (hunmixed : tree.root.all Node.isUnmixed = true)
    (hkeeps : tree.root.all Node.keepsHeld = true) :
    (∃ written, tree.canonical = .ok written ∧ parse written = .ok tree) ∧
    ∀ layout : Layout, (∀ c ∈ layout.indent.toList, Text.isBlank c = true) →
      ∃ written, tree.pretty layout = .ok written ∧ parse written = .ok tree := by
  obtain ⟨tags, hread, htree⟩ := parse_eq_ok_iff.mp h
  obtain ⟨hvalid, hnumbered⟩ := Tag.parse_eq_ok hread
  obtain ⟨out, hout, hflat⟩ := exists_tags htree ⟨hunmixed, hkeeps⟩
  have hbuilt := ofTags_of_flattened htree hflat
  rw [Tag.withoutEffects_of_isValid hvalid] at hflat
  have hvalid := Tag.isValid_of_plain hflat hvalid
  have hnumbered := Tag.numbered_of_plain hflat hnumbered
  constructor
  · have hspaced := (ofTags_eq_ok_iff.mp ⟨tree.created, hbuilt⟩).spaced
    have hparse := Tag.parse_canonicalText hvalid hnumbered hspaced
    exact ⟨_, bind_eq_ok.mpr ⟨out, hout, rfl⟩, parse_eq_ok_iff.mpr ⟨out, hparse, hbuilt⟩⟩
  · intro layout hindent
    have hparse := Tag.parse_prettyText hvalid hnumbered hindent
    exact ⟨_, bind_eq_ok.mpr ⟨out, hout, rfl⟩, parse_eq_ok_iff.mpr ⟨out, hparse, hbuilt⟩⟩

/-- A text in which a node is taken back after a shift, with a header, attributes, a reference after
`null`, an array, trivia and an escaped quote. -/
def shiftedText : String :=
  "<!0:cstml language='calc'>\n<Sum strict deep=\x7ba: [1, null]\x7d>\n" ++
    "  left+: <*Digit 'it\\'s'/> ^^^ <Sum>left:<//></>\n" ++
    "  unit: null rest[]: [] rest[0]: <//> #: <#*Space ' '/>\n</>"

/-- The tree of that text is read again from both of its texts. -/
theorem parse_canonical_pretty_of_shift :
    ∃ tree, parse shiftedText = .ok tree ∧ tree.root.all Node.isUnmixed = true ∧
      tree.root.all Node.keepsHeld = true ∧
      (∃ written, tree.canonical = .ok written ∧ parse written = .ok tree) ∧
      ∃ written, tree.pretty ⟨"\t", false⟩ = .ok written ∧ parse written = .ok tree := by
  obtain ⟨tree, htree, hunmixed, hkeeps⟩ :
      ∃ tree, parse shiftedText = .ok tree ∧ tree.root.Replayable := by decide +kernel
  obtain ⟨hcanonical, hpretty⟩ := parse_canonical_pretty htree hunmixed hkeeps
  exact ⟨tree, htree, hunmixed, hkeeps, hcanonical,
    hpretty ⟨"\t", false⟩ (List.all_eq_true.mp (by decide))⟩

end Tree

end TagTree
