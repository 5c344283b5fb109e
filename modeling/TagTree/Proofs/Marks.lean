import TagTree.Proofs.RoundTrip

/-!
# Marks that builders do not read

Effects and the marks of gaps on opening tags and references may come from anywhere: a builder
neither trusts nor checks them, so tags that differ in nothing else are built into the same tree or
refused with the same error. An explicit index of a reference is checked, and only then forgotten
(`Tree.ofTags_ignores_marks`).
-/

namespace TagTree

namespace Tag

/-- The tags without effects and without the marks of gaps. -/
def unmarked (tags : List Tag) : List Tag :=
  (withoutEffects tags).map withoutGap

/-- The tag without the index of a reference. -/
def withoutIndex : Tag → Tag
  | reference edge => reference { edge with index := none }
  | tag => tag

theorem unmarked_effect (effect : Effect) (tags : List Tag) :
    unmarked (.effect effect :: tags) = unmarked tags := rfl

theorem unmarked_cons {tag : Tag} (h : tag.isEffect = false) (tags : List Tag) :
    unmarked (tag :: tags) = tag.withoutGap :: unmarked tags := by
  simp [unmarked, withoutEffects, h]

end Tag

namespace Builder

variable {builder : Builder} {phase : Phase}

/-- A builder takes or refuses a tag whatever its mark of a gap is. -/
theorem push_withoutGap (builder : Builder) (tag : Tag) :
    builder.push tag.withoutGap = builder.push tag := by
  cases tag <;> rfl

theorem push_effect (h : builder.In phase) (effect : Effect) :
    builder.push (.effect effect) = .ok (.accepted, builder) := by
  simp [push, needsExpression, h.awaiting]

/-- A builder that asks for no expressions comes to the same end without effects and marks, be it a
builder or an error. -/
theorem pushAll_unmarked (h : builder.In phase) (he : builder.expressions = false) (tags : List Tag)
    (expressions : List (Option Tree)) :
    builder.pushAll (Tag.unmarked tags) expressions = builder.pushAll tags expressions := by
  induction tags generalizing builder phase with
  | nil => rfl
  | cons tag tags ih =>
    cases heffect : tag.isEffect with
    | true =>
      cases tag with
      | effect effect => rw [Tag.unmarked_effect, ih h he, pushAll, push_effect h]
      | _ => cases heffect
    | false =>
      rw [Tag.unmarked_cons heffect, pushAll, pushAll, push_withoutGap]
      cases hpush : builder.push tag with
      | error refusal => rfl
      | ok result =>
        obtain ⟨feed, next⟩ := result
        cases feed with
        | accepted =>
          obtain ⟨after, -, hafter, hsame⟩ := advance_of_push h hpush
          exact ih hafter (hsame.trans he)
        | needsExpression => exact absurd hpush (push_ne_needsExpression h he)

end Builder

namespace Tree

theorem ofTags_unmarked (tags : List Tag) : ofTags (Tag.unmarked tags) = ofTags tags := by
  unfold ofTags
  rw [Builder.pushAll_unmarked (Builder.in_before false) rfl]

/-- Tags that differ in effects and marks of gaps only give the same tree or the same error. From
tags that give a tree the same tree is built without their explicit indexes. -/
theorem ofTags_ignores_marks (tags : List Tag) :
    (∀ others, Tag.unmarked others = Tag.unmarked tags → ofTags others = ofTags tags) ∧
      ∀ tree, ofTags tags = .ok tree → ofTags (tags.map Tag.withoutIndex) = .ok tree := by
  constructor
  · intro others hothers
    rw [← ofTags_unmarked others, hothers, ofTags_unmarked]
  · intro tree htree
    refine ofTags_of_plain htree ?_
    rw [List.map_map]
    exact List.map_congr_left fun tag _ => by cases tag <;> rfl

/-- An array of one gap, with an effect and an explicit index. The marks of gaps are given. -/
def arrayTags (onStart onReference : Bool) : List Tag :=
  [.opening ⟨{ hasGap := onStart }, none, some "List", []⟩,
    .reference ⟨"items", true, none, { hasGap := onReference }⟩, .arrayStart, .effect .popStyle,
    .reference ⟨"items", true, some 0, { hasGap := onReference }⟩, .gap, .closing]

theorem ofTags_ignores_marks_of_array :
    Tag.unmarked (.effect .popStyle :: arrayTags true false) = Tag.unmarked (arrayTags false true) ∧
    ofTags (.effect .popStyle :: arrayTags true false) = ofTags (arrayTags false true) ∧
    ∃ tree, ofTags (arrayTags false true) = .ok tree ∧
      ofTags ((arrayTags false true).map Tag.withoutIndex) = .ok tree := by
  obtain ⟨tree, htree, -⟩ : ∃ tree, ofTags (arrayTags false true) = .ok tree ∧ True := by
    decide +kernel
  have h := ofTags_ignores_marks (arrayTags false true)
  exact ⟨rfl, h.1 _ rfl, tree, htree, h.2 tree htree⟩

end Tree

end TagTree
