import TagTree.Proofs.Draft

/-!
# Forms

The grammar of flattened nodes. A form is the derivation of a value from its tags (`Form.tags`): a
single tag, or a node whose tags fall into phrases. A phrase is a text of the content, an embedded
node with the reserved reference before it, the start of an array, or a reference with its first
value and the nodes that took the value back, each after a shift.

`Form.Valid` says which derivations are admitted. `Form.toNode` is the node that they make.
-/

namespace TagTree

/-- Tags within a node that belong together, around parts of the given type. -/
inductive Phrase (φ : Type) where
  | content (text : String)
  | embedded (edge : Option Reference) (form : φ)
  | arrayStart (edge : Reference)
  | value (edge : Reference) (first : φ) (later : List φ)

/-- The derivation of a value. -/
inductive Form where
  | gap
  | null
  | literal (text : String)
  | node (start : OpenTag) (phrases : List (Phrase Form))

namespace Phrase

variable {φ : Type}

/-- The mention of a property that a phrase makes. -/
def mention? : Phrase φ → Option Mention
  | arrayStart edge => some (.arrayStart edge)
  | value edge _ _ => some (.value edge)
  | _ => none

/-- The mentions of all phrases. -/
def mentions (phrases : List (Phrase φ)) : List Mention :=
  phrases.filterMap mention?

/-- The parts of a phrase. -/
def forms : Phrase φ → List φ
  | embedded _ form => [form]
  | value _ first later => first :: later
  | _ => []

@[simp] theorem mentions_nil : mentions ([] : List (Phrase φ)) = [] := rfl

@[simp] theorem mentions_cons (phrase : Phrase φ) (rest : List (Phrase φ)) :
    mentions (phrase :: rest) = phrase.mention?.toList ++ mentions rest :=
  filterMap_cons_eq ..

@[simp] theorem mentions_append (first second : List (Phrase φ)) :
    mentions (first ++ second) = mentions first ++ mentions second :=
  List.filterMap_append

end Phrase

namespace Form

variable {start : OpenTag} {phrases : List (Phrase Form)}

/-- Induction over the parts of all phrases of a node. -/
@[elab_as_elim] theorem inductionOn {motive : Form → Prop} (form : Form) (gap : motive gap)
    (null : motive null) (literal : ∀ text, motive (literal text))
    (node : ∀ start phrases, (∀ phrase ∈ phrases, ∀ inner ∈ phrase.forms, motive inner) →
      motive (node start phrases)) : motive form := by
  refine @Form.rec motive (fun phrases => ∀ phrase ∈ phrases, ∀ inner ∈ phrase.forms, motive inner)
    (fun phrase => ∀ inner ∈ phrase.forms, motive inner)
    (fun forms => ∀ inner ∈ forms, motive inner)
    gap null literal node nofun ?_ nofun ?_ nofun ?_ nofun ?_ form
  · exact fun phrase rest hphrase hrest => List.forall_mem_cons.mpr ⟨hphrase, hrest⟩
  · exact fun edge inner hinner => List.forall_mem_singleton.mpr hinner
  · exact fun edge first later hfirst hlater => List.forall_mem_cons.mpr ⟨hfirst, hlater⟩
  · exact fun first rest hfirst hrest => List.forall_mem_cons.mpr ⟨hfirst, hrest⟩

mutual

/-- The tags of a form. -/
def tags : Form → List Tag
  | gap => [.gap]
  | null => [.null]
  | literal text => [.literal text]
  | node start phrases => .opening start :: (allTags phrases ++ [.closing])

/-- The tags of a phrase. -/
def phraseTags : Phrase Form → List Tag
  | .content text => [.literal text]
  | .embedded edge form => edge.toList.map .reference ++ tags form
  | .arrayStart edge => [.reference edge, .arrayStart]
  | .value edge first later => .reference edge :: (tags first ++ shiftTags 1 later)

/-- The tags of phrases. -/
def allTags : List (Phrase Form) → List Tag
  | [] => []
  | phrase :: rest => phraseTags phrase ++ allTags rest

/-- The tags of nodes that take the value before back, each after a shift, the first of which has
the given index. -/
def shiftTags (index : Nat) : List Form → List Tag
  | [] => []
  | form :: rest => .shift index :: (tags form ++ shiftTags (index + 1) rest)

end

@[simp] theorem allTags_append (first second : List (Phrase Form)) :
    allTags (first ++ second) = allTags first ++ allTags second := by
  induction first with
  | nil => rfl
  | cons phrase rest ih => simp [allTags, ih]

@[simp] theorem allTags_singleton (phrase : Phrase Form) :
    allTags [phrase] = phraseTags phrase := by
  simp [allTags]

theorem shiftTags_concat (index : Nat) (forms : List Form) (form : Form) :
    shiftTags index (forms ++ [form]) =
      shiftTags index forms ++ .shift (index + forms.length) :: form.tags := by
  induction forms generalizing index with
  | nil => simp [shiftTags]
  | cons first rest ih =>
    have hindex : index + 1 + rest.length = index + (rest.length + 1) := by omega
    rw [List.cons_append, shiftTags, ih, shiftTags, hindex]
    simp

/-- The form is that of a node with an opening and a closing tag. -/
def isNode : Form → Bool
  | node _ _ => true
  | _ => false

/-- The node is embedded, and not bound to a reference. -/
def isEmbedded : Form → Bool
  | node start _ => start.flags.isEmbedded
  | _ => false

/-- The node takes the value before it back: one of its own references has a gap, and there is no
gap before. -/
def TakesBack : Form → Prop
  | node _ phrases => ∃ before edge later after,
    phrases = before ++ .value edge gap later :: after ∧ .gap ∉ allTags before
  | _ => False

theorem TakesBack.isNode {form : Form} (h : form.TakesBack) : form.isNode = true := by
  cases form with
  | node start phrases => rfl
  | gap | null | literal => exact h.elim

/-- What follows does not matter. -/
theorem TakesBack.append (h : TakesBack (node start phrases)) (more : List (Phrase Form)) :
    TakesBack (node start (phrases ++ more)) := by
  obtain ⟨before, edge, later, after, rfl, hgap⟩ := h
  exact ⟨before, edge, later, after ++ more, by simp, hgap⟩

/-- How often the last value was taken back does not matter. -/
theorem TakesBack.replaceLater {edge : Reference} {first : Form} {later : List Form}
    (h : TakesBack (node start (phrases ++ [.value edge first later]))) (more : List Form) :
    TakesBack (node start (phrases ++ [.value edge first more])) := by
  obtain ⟨before, edge', later', after, heq, hgap⟩ := h
  rcases List.eq_nil_or_concat after with rfl | ⟨after, last, rfl⟩
  · obtain ⟨rfl, hlast⟩ := List.append_inj' heq rfl
    cases hlast
    exact ⟨phrases, edge, more, [], rfl, hgap⟩
  · rw [List.concat_eq_append, ← List.cons_append, ← List.append_assoc] at heq
    obtain ⟨rfl, -⟩ := List.append_inj' heq rfl
    exact ⟨before, edge', later', after ++ [.value edge first more], by simp, hgap⟩

/-- The phrase has the parts that it may have. An embedded node stands alone or after a reserved
reference. A value is none, and after `null` there is no shift. -/
def Fits : Phrase Form → Prop
  | .embedded edge form => (∀ reserved ∈ edge, reserved.isReserved = true) ∧ form.isEmbedded = true
  | .value _ first later =>
    first.isEmbedded = false ∧ (first = null → later = []) ∧
      ∀ form ∈ later, form.isEmbedded = false ∧ form.TakesBack
  | _ => True

/-- The form is admitted: its references come in order, its phrases have the parts that they may
have, and all parts are admitted. -/
inductive Valid : Form → Prop where
  | gap : Valid gap
  | null : Valid null
  | literal {text : String} : Valid (literal text)
  | node {start : OpenTag} {phrases : List (Phrase Form)}
    (hstart : ¬ (start.flags.escape = true ∧ start.flags.trivia = true))
    (horder : Mention.Orderly [] (Phrase.mentions phrases))
    (hfits : ∀ phrase ∈ phrases, Fits phrase)
    (hvalid : ∀ phrase ∈ phrases, ∀ form ∈ phrase.forms, Valid form) : Valid (node start phrases)

theorem Valid.of_node (h : (Form.node start phrases).Valid) :
    ¬ (start.flags.escape = true ∧ start.flags.trivia = true) ∧
      Mention.Orderly [] (Phrase.mentions phrases) ∧ (∀ phrase ∈ phrases, Fits phrase) ∧
      ∀ phrase ∈ phrases, ∀ form ∈ phrase.forms, Valid form := by
  cases h with
  | node hstart horder hfits hvalid => exact ⟨hstart, horder, hfits, hvalid⟩

/-! ### The node of a form -/

/-- The form is a gap. -/
def isGap : Form → Bool
  | gap => true
  | _ => false

/-- The phrase has a gap of the node itself. -/
def hasOwnGap : Phrase Form → Bool
  | .value _ first _ => first.isGap
  | _ => false

/-- What is left to take back after a phrase. -/
def owedAfter (owed : Option Node) (phrase : Phrase Form) : Option Node :=
  if hasOwnGap phrase then none else owed

/-- The number of items that a phrase makes. -/
def width : Phrase Form → Nat
  | .content _ => 1
  | .embedded edge _ => edge.toList.length + 1
  | .arrayStart _ => 2
  | .value _ _ later => 2 + 2 * later.length

/-- The position, after the given number of items, of the first gap of the node itself. -/
def gapPosition? (position : Nat) : List (Phrase Form) → Option Nat
  | [] => none
  | phrase :: rest =>
    if hasOwnGap phrase then some (position + 1) else gapPosition? (position + width phrase) rest

mutual

/-- The node of a form. The node has the inherited language if it has none of its own, and takes the
owed value back at its first gap. -/
def toNode (inherited : Option String) (owed : Option Node) : Form → Node
  | gap => owed.getD .gap
  | null => .null
  | literal text => .literal text
  | node start phrases => Outline.toNode {
      start := start.plain
      label := start.plain.label inherited
      segments := segments owed phrases
      held := owed.bind fun _ => gapPosition? 0 phrases }

/-- The segment of a phrase. -/
def segment (owed : Option Node) : Phrase Form → Segment Node
  | .content text => .content text
  | .embedded edge form => .embedded (edge.map fun edge => edge.marked false)
    (toNode none none form)
  | .arrayStart edge => .arrayStart (edge.marked false)
  | .value edge first later =>
    .bound edge (shifted (toNode none (if first.isGap then owed else none) first) later)
      later.length

/-- The segments of phrases. -/
def segments (owed : Option Node) : List (Phrase Form) → List (Segment Node)
  | [] => []
  | phrase :: rest => segment owed phrase :: segments (owedAfter owed phrase) rest

/-- The value that is left after it was taken back by one node after the other. -/
def shifted (value : Node) : List Form → Node
  | [] => value
  | form :: rest => shifted (toNode none (some value) form) rest

end

/-- The outline of the node of a form. -/
def outline (inherited : Option String) (owed : Option Node) (start : OpenTag)
    (phrases : List (Phrase Form)) : Outline where
  start := start.plain
  label := start.plain.label inherited
  segments := segments owed phrases
  held := owed.bind fun _ => gapPosition? 0 phrases

theorem toNode_node (inherited : Option String) (owed : Option Node) (start : OpenTag)
    (phrases : List (Phrase Form)) :
    (node start phrases).toNode inherited owed = (outline inherited owed start phrases).toNode := by
  rw [toNode]
  rfl

/-- The label of the node of a form is that of its opening tag. -/
theorem label_of_toNode {form : Form} {inherited : Option String} {body : Element Node}
    (h : form.toNode inherited none = .element body) : body.label = body.start.label inherited := by
  cases form with
  | node start phrases =>
    rw [toNode_node] at h
    cases h
    rfl
  | gap | null | literal => cases h

theorem mention?_segment (owed : Option Node) (phrase : Phrase Form) :
    (segment owed phrase).mention? = phrase.mention?.map Mention.plain := by
  cases phrase <;> rfl

theorem mentions_segments (owed : Option Node) (phrases : List (Phrase Form)) :
    Segment.mentions (segments owed phrases) = (Phrase.mentions phrases).map Mention.plain := by
  induction phrases generalizing owed with
  | nil => rw [segments]; rfl
  | cons phrase phrases ih =>
    rw [segments, Segment.mentions_cons, ih, mention?_segment, Phrase.mentions_cons,
      List.map_append]
    cases phrase.mention? <;> rfl

theorem length_items_segment (owed : Option Node) (phrase : Phrase Form) :
    (segment owed phrase).items.length = width phrase := by
  cases phrase with
  | content | arrayStart => rfl
  | embedded edge form => cases edge <;> rfl
  | value edge first later => simp [segment, Segment.bound, Segment.items, width]; omega

/-- The value that is owed matters only for a phrase that has a gap of the node itself. -/
theorem segment_eq_of_hasOwnGap {phrase : Phrase Form} (h : hasOwnGap phrase = false)
    (owed : Option Node) : segment owed phrase = segment none phrase := by
  cases phrase with
  | content | embedded | arrayStart => rfl
  | value edge first later =>
    have hgap : first.isGap = false := h
    simp [segment, hgap]

/-- Up to the first gap of the node itself nothing is taken back. -/
theorem segments_append {before : List (Phrase Form)}
    (h : ∀ phrase ∈ before, hasOwnGap phrase = false) (owed : Option Node)
    (after : List (Phrase Form)) :
    segments owed (before ++ after) = segments none before ++ segments owed after := by
  induction before with
  | nil => rw [segments, List.nil_append, List.nil_append]
  | cons phrase before ih =>
    have hown := h phrase List.mem_cons_self
    have hrest := ih (List.forall_mem_cons.mp h).2
    have howed : owedAfter owed phrase = owed := by simp [owedAfter, hown]
    have hnone : owedAfter none phrase = none := by simp [owedAfter]
    rw [List.cons_append, segments, segments, howed, hnone, hrest,
      segment_eq_of_hasOwnGap hown, List.cons_append]

theorem gapPosition?_append {before : List (Phrase Form)}
    (h : ∀ phrase ∈ before, hasOwnGap phrase = false) (position : Nat) (edge : Reference)
    (later : List Form) (after : List (Phrase Form)) :
    gapPosition? position (before ++ .value edge gap later :: after) =
      some (position + Segment.width (segments none before) + 1) := by
  induction before generalizing position with
  | nil =>
    rw [segments]
    rfl
  | cons phrase before ih =>
    have hown := h phrase List.mem_cons_self
    have hrest := ih (List.forall_mem_cons.mp h).2
    have hnone : owedAfter none phrase = none := by simp [owedAfter]
    rw [List.cons_append, gapPosition?, hown, segments, hnone, Segment.width_cons,
      length_items_segment, ← Nat.add_assoc]
    exact hrest (position + width phrase)

/-- Where there is no gap at all, none is one of the node itself. -/
theorem hasOwnGap_eq_false {phrases : List (Phrase Form)} (h : Tag.gap ∉ allTags phrases) :
    ∀ phrase ∈ phrases, hasOwnGap phrase = false := by
  induction phrases with
  | nil => nofun
  | cons first rest ih =>
    rw [allTags, List.mem_append, not_or] at h
    refine List.forall_mem_cons.mpr ⟨?_, ih h.2⟩
    cases first with
    | content | embedded | arrayStart => rfl
    | value edge first later =>
      cases first with
      | gap => simp [phraseTags, tags] at h
      | null | literal | node => rfl

end Form

end TagTree
