import TagTree.Proofs.Acceptance
import TagTree.Proofs.Flatten

/-!
# The round trip of tags

A tree that was built from tags is flattened to the same tags, up to effects, the indexes of
references and the marks of gaps. A builder does not look at those: from the tags that it is
flattened to the same tree is built again (`Tree.ofTags_of_flattened`).
-/

namespace TagTree

variable {edge : Reference} {tag : Tag}

namespace Tag

theorem withoutGap_eq_opening {start : OpenTag} (h : tag.withoutGap = plain (opening start)) :
    ∃ marked : OpenTag, tag = opening marked ∧ marked.plain = start.plain := by
  cases tag with
  | opening marked => exact ⟨marked, rfl, Tag.opening.inj h⟩
  | _ => cases h

theorem withoutGap_eq_reference (h : tag.withoutGap = plain (reference edge)) :
    ∃ hasGap, tag = reference (edge.marked hasGap) := by
  cases tag with
  | reference found =>
    obtain ⟨name, isArray, index, flags⟩ := found
    obtain ⟨expression, hasGap⟩ := flags
    have hedge := Tag.reference.inj h
    refine ⟨hasGap, ?_⟩
    cases hedge
    rfl
  | _ => cases h

end Tag

/-- A reference that is admitted is admitted without its index too. -/
theorem Scope.consume_marked {scope after : Scope} {index : Option Nat}
    (h : scope.consume edge = (after, .ok index)) (hasGap : Bool) :
    scope.consume (edge.marked hasGap) = (after, .ok index) := by
  by_cases hr : edge.isReserved = true
  · rw [consume_of_reserved hr] at h
    have hmarked : (edge.marked hasGap).isReserved = true := hr
    rw [consume_of_reserved hmarked]
    exact h
  · by_cases ha : edge.isArray = true
    · cases hi : edge.index with
      | none => simpa [consume, hr, ha, hi] using h
      | some found =>
        simp only [consume, hr, ha, hi, if_true, Bool.false_eq_true, if_false] at h
        split at h
        · simpa [consume, hr, ha] using h
        · cases h
    · simpa [consume, hr, ha] using h

/-- A reference that a node admits is admitted without its index, and with any mark. -/
theorem Frame.reference_marked {frame after : Frame}
    (h : frame.reference edge = .ok after) (hasGap : Bool) :
    frame.reference (edge.marked hasGap) = .ok after := by
  unfold reference at h ⊢
  split at h
  · cases h
  · split at h
    · cases h
    · rename_i scope index hconsume
      rw [Scope.consume_marked hconsume hasGap]
      exact h

namespace Builder

variable {builder : Builder}

/-- The mark of a gap on an opening tag does not matter. -/
theorem push_opening (builder : Builder) (start : OpenTag) :
    builder.push (.opening start.plain) = builder.push (.opening start) := rfl

theorem pushInside_reference_eq_ok {frame : Frame} {below : List Frame} {result : Feed × Builder} :
    builder.pushInside frame below (.reference edge) = .ok result ↔
      frame.shifted.isSome = false ∧ ∃ after, frame.reference edge = .ok after ∧
        result = (.accepted, builder.withTop below after) := by
  cases hs : frame.shifted.isSome with
  | true => simp [pushInside, hs, opensBound, refuse]
  | false =>
    simp only [pushInside, hs, Bool.false_and, Bool.false_eq_true, if_false, bind_eq_ok, lift_eq_ok,
      true_and]
    constructor
    · rintro ⟨after, hafter, hresult⟩
      exact ⟨after, hafter, (Except.ok.inj hresult).symm⟩
    · rintro ⟨after, hafter, hresult⟩
      exact ⟨after, hafter, congrArg Except.ok hresult.symm⟩

variable {result : Feed × Builder} {tags : List Tag} {expressions : List (Option Tree)}
  {after : Builder}

/-- The mark of a gap on a reference does not matter, nor does the index of one that is admitted. -/
theorem push_reference (h : builder.push (.reference edge) = .ok result) (hasGap : Bool) :
    builder.push (.reference (edge.marked hasGap)) = .ok result := by
  unfold push at h ⊢
  split at h
  · cases h
  · rename_i hwaits
    rw [if_neg hwaits]
    cases hframes : builder.frames with
    | nil =>
      simp only [hframes] at h
      obtain ⟨outside, hout, -⟩ := bind_eq_ok.mp h
      unfold pushOutside at hout
      split at hout <;> cases hout
    | cons frame below =>
      simp only [hframes] at h ⊢
      obtain ⟨hshifted, after, hafter, hresult⟩ := pushInside_reference_eq_ok.mp h
      exact pushInside_reference_eq_ok.mpr
        ⟨hshifted, after, Frame.reference_marked hafter hasGap, hresult⟩

/-- A builder takes a tag with other marks of gaps and without indexes in the same way. -/
theorem push_of_withoutGap {out : Tag}
    (h : builder.push tag = .ok result) (hout : out.withoutGap = tag.plain) :
    builder.push out = .ok result := by
  cases tag with
  | opening start =>
    obtain ⟨marked, rfl, hstart⟩ := Tag.withoutGap_eq_opening hout
    rw [← push_opening, hstart, push_opening]
    exact h
  | reference edge =>
    obtain ⟨hasGap, rfl⟩ := Tag.withoutGap_eq_reference hout
    exact push_reference h hasGap
  | _ =>
    cases out <;> cases hout
    exact h

/-- A builder that takes a tag as it takes another, and later tags likewise, takes them all. -/
theorem pushAll_cons {out : Tag} {rest : List Tag}
    (h : builder.pushAll (tag :: tags) expressions = .ok after)
    (hpush : ∀ result, builder.push tag = .ok result → builder.push out = .ok result)
    (hrest : ∀ (middle : Builder) (left : List (Option Tree)),
      middle.pushAll tags left = .ok after → middle.pushAll rest left = .ok after) :
    builder.pushAll (out :: rest) expressions = .ok after := by
  cases hresult : builder.push tag with
  | error refusal => simp [pushAll, hresult] at h
  | ok result =>
    obtain ⟨feed, middle⟩ := result
    rw [pushAll, hresult] at h
    rw [pushAll, hpush _ hresult]
    cases feed with
    | accepted => exact hrest _ _ h
    | needsExpression =>
      cases hsupply : middle.supply expressions.head?.join with
      | error refusal => simp [hsupply] at h
      | ok supplied =>
        simp only [hsupply] at h ⊢
        exact hrest _ _ h

/-- Effects do not matter to a builder. -/
theorem pushAll_withoutEffects (h : builder.pushAll tags expressions = .ok after) :
    builder.pushAll (Tag.withoutEffects tags) expressions = .ok after := by
  induction tags generalizing builder expressions with
  | nil => exact h
  | cons tag tags ih =>
    cases heffect : tag.isEffect with
    | true =>
      rw [Tag.withoutEffects, List.filter_cons, heffect]
      cases tag with
      | effect effect => exact ih (pushAll_effect h)
      | _ => cases heffect
    | false =>
      rw [Tag.withoutEffects, List.filter_cons, heffect]
      exact pushAll_cons h (fun _ hpush => hpush) fun middle left hmiddle => ih hmiddle

/-- The marks of gaps and the indexes of references do not matter to a builder. -/
theorem pushAll_of_plain {out : List Tag} (h : builder.pushAll tags expressions = .ok after)
    (hout : out.map Tag.withoutGap = tags.map Tag.plain) :
    builder.pushAll out expressions = .ok after := by
  induction tags generalizing builder expressions out with
  | nil =>
    obtain rfl := List.map_eq_nil_iff.mp hout
    exact h
  | cons tag tags ih =>
    obtain ⟨first, rest, rfl, hfirst, hrest⟩ := List.map_eq_cons_iff.mp hout
    exact pushAll_cons h (fun result hpush => push_of_withoutGap hpush hfirst)
      fun middle left hmiddle => ih hmiddle hrest

end Builder

namespace Tree

variable {tree : Tree} {tags out : List Tag}

/-- The tags of a tree are the header and what its root gives. -/
theorem tags_of_replay (h : tree.root.replay none .done = Run.prepend out .done) :
    tree.tags = .ok (Doctype.headerTags tree.doctype ++ out) := by
  obtain ⟨doctype, root, created⟩ := tree
  have hroot : root.replay none .done = Run.prepend out .done := h
  cases doctype with
  | none =>
    simp only [tags, replay, hroot]
    simp [Run.prepend, Run.toExcept, Run.done, Doctype.headerTags]
  | some header =>
    simp only [tags, replay, hroot]
    simp [Run.prepend, Run.toExcept, Run.cons, Run.done, Doctype.headerTags]

/-- A tree that can be flattened gives the tags that it was built from. -/
theorem exists_tags (h : ofTags tags = .ok tree) (hr : tree.root.Replayable) :
    ∃ out, tree.tags = .ok out ∧
      out.map Tag.withoutGap = (Tag.withoutEffects tags).map Tag.plain := by
  obtain ⟨form, -, hvalid, htags, hroot⟩ := exists_form h
  rw [hroot] at hr
  have hparts := hvalid.flattens _ none nofun hr
  rw [Form.heldSlot_toNode_none, ← hroot] at hparts
  obtain ⟨out, hout, hrun⟩ := hparts
  refine ⟨Doctype.headerTags tree.doctype ++ out, tags_of_replay ?_, ?_⟩
  · rw [Node.replay_eq, hrun]
  · rw [htags, List.map_append, List.map_append, hout]
    cases tree.doctype <;> rfl

/-- Tags that differ in indexes of references and marks of gaps build the same tree. -/
theorem ofTags_of_plain (h : ofTags tags = .ok tree)
    (hout : out.map Tag.withoutGap = tags.map Tag.plain) : ofTags out = .ok tree := by
  obtain ⟨builder, hbuilder, hfinish⟩ := bind_eq_ok.mp h
  exact bind_eq_ok.mpr ⟨builder, Builder.pushAll_of_plain hbuilder hout, hfinish⟩

/-- Tags that differ in effects, indexes of references and marks of gaps build the same tree. -/
theorem ofTags_of_flattened (h : ofTags tags = .ok tree)
    (hout : out.map Tag.withoutGap = (Tag.withoutEffects tags).map Tag.plain) :
    ofTags out = .ok tree := by
  obtain ⟨builder, hbuilder, hfinish⟩ := bind_eq_ok.mp h
  exact ofTags_of_plain
    (bind_eq_ok.mpr ⟨builder, Builder.pushAll_withoutEffects hbuilder, hfinish⟩) hout

/-- Tags in which a node is taken back after a shift, with an effect and an explicit index. -/
def shiftedTags : List Tag :=
  let start (name : String) : Tag := .opening ⟨{}, none, some name, []⟩
  [start "Sum", .effect .popStyle, .reference ⟨"left", false, none, {}⟩, start "Digit", .closing,
    .shift 1, start "Sum", .reference ⟨"left", false, none, {}⟩, .gap, .closing,
    .reference ⟨"rest", true, none, {}⟩, .arrayStart, .reference ⟨"rest", true, some 0, {}⟩, .gap,
    .closing]

end Tree

end TagTree
