import TagTree.Proofs.Answer

/-!
# Nodes made

A node is made for every opening tag, for every `null`, for every literal that a reference waits
for, and for every gap that takes back no shifted value. Each shift is followed by one gap that
takes the value back (`Tree.counts_ofTags`), so the number of nodes made can be told from the tags
alone (`Tree.created_eq`).
-/

namespace TagTree

namespace Tag

/-- A node is made for the tag, if no shifted value is taken back. A literal is one only where a
reference waits for it. -/
def makes (waits : Bool) : Tag → Bool
  | opening _ | null | gap => true
  | literal _ => waits
  | _ => false

/-- A reference waits for its value after the tag. -/
def waitsAfter (waits : Bool) : Tag → Bool
  | reference _ => true
  | effect _ => waits
  | _ => false

/-- The number of tags that a node is made for, if no shifted value is taken back. -/
def made (waits : Bool) : List Tag → Nat
  | [] => 0
  | tag :: rest => (tag.makes waits).toNat + made (tag.waitsAfter waits) rest

/-- The number of literals that are values: they follow a reference, effects apart. -/
def boundLiterals (waits : Bool) : List Tag → Nat
  | [] => 0
  | literal _ :: rest => waits.toNat + boundLiterals false rest
  | tag :: rest => boundLiterals (tag.waitsAfter waits) rest

/-- The tags that a node is made for, by their kinds. -/
theorem made_eq (waits : Bool) (tags : List Tag) :
    made waits tags = (tags.map kind).count .opening + (tags.map kind).count .null +
      boundLiterals waits tags + (tags.map kind).count .gap := by
  induction tags generalizing waits with
  | nil => rfl
  | cons tag rest ih =>
    rw [made, ih, List.map_cons]
    cases tag <;> simp [makes, boundLiterals, waitsAfter, kind] <;> omega

end Tag

/-! ### Steps -/

namespace Watch

/-- The number of shifted values that have yet to be taken back. -/
def debt (watch : Watch) : Nat :=
  watch.owing.count true + watch.afterShift.toNat

/-- The tag is a gap that takes a shifted value back. -/
def takesBack (watch : Watch) : Tag → Bool
  | .gap => watch.owing.head?.any id
  | _ => false

end Watch

namespace Advance

variable {phase after : Phase} {tag : Tag} {drafts rest : List Draft}

/-- A shift adds a value to be taken back, and a gap may take one. -/
theorem debt_of_step {doctype : Option Doctype} (h : Step drafts tag rest) :
    (Phase.within doctype rest).watch.debt +
        ((Phase.within doctype drafts).watch.takesBack tag).toNat =
      (Phase.within doctype drafts).watch.debt + if tag.kind = .shift then 1 else 0 := by
  rw [Phase.watch_of_step h]
  cases h with
  | content hi | reference hi =>
    simp [Phase.watch, Watch.debt, Watch.next, Watch.takesBack, Tag.kind, hi.isShifting]
  | arrayStart hs | null hs | literal hs | shift hs =>
    simp [Phase.watch, Watch.debt, Watch.next, Watch.takesBack, Tag.kind, hs, Stage.isShifting]
  | gap hs _ ho =>
    obtain ⟨howed, -⟩ := Draft.anyOwed_cons_eq_false.mp ho
    simp [Phase.watch, Watch.debt, Watch.next, Watch.takesBack, Tag.kind, hs, Stage.isShifting,
      howed]
  | hold hs _ ho =>
    simp [Phase.watch, Watch.debt, Watch.next, Watch.takesBack, Tag.kind, hs, Stage.isShifting, ho]
  | @opening draft =>
    cases hs : draft.stage.isShifting <;>
      simp [Phase.watch, Watch.debt, Watch.next, Watch.takesBack, Tag.kind, hs]
  | closing hi ho =>
    simp [Phase.watch, Watch.debt, Watch.next, Watch.takesBack, Tag.kind, hi.isShifting, ho]

theorem debt (h : Advance phase tag after) :
    after.watch.debt + (phase.watch.takesBack tag).toNat =
      phase.watch.debt + if tag.kind = .shift then 1 else 0 := by
  cases h with
  | effect | doctype | openRoot => rfl
  | inside h => exact debt_of_step h
  | closeRoot hi ho => simp [Phase.watch, Watch.debt, Watch.takesBack, Tag.kind, hi.isShifting, ho]

/-- A node is made for each tag that stands for one, unless a value is taken back. -/
theorem made (h : Advance phase tag after) :
    Draft.made phase.drafts tag + (phase.watch.takesBack tag).toNat =
      (tag.makes phase.watch.afterReference).toNat := by
  cases h with
  | effect | doctype | openRoot | closeRoot => rfl
  | inside h =>
    cases h with
    | @gap draft | @hold draft =>
      cases ho : draft.owed <;>
        simp [Phase.drafts, Phase.watch, Draft.made, Watch.takesBack, Tag.makes, ho]
    | _ => rfl

theorem waits (h : Advance phase tag after) :
    after.watch.afterReference = tag.waitsAfter phase.watch.afterReference := by
  rw [Phase.watch_of_advance h]
  cases tag <;> rfl

end Advance

namespace Builder

variable {builder next : Builder} {phase : Phase}

/-- The tag is a gap that takes a shifted value back. -/
def takesBack (builder : Builder) (tag : Tag) : Bool :=
  tag.kind == .gap && builder.frames.head?.any fun frame => frame.owed.isSome

theorem In.takesBack (h : builder.In phase) (tag : Tag) :
    builder.takesBack tag = phase.watch.takesBack tag := by
  have howed : (builder.frames.head?.any fun frame => frame.owed.isSome) =
      phase.watch.owing.head?.any id := by
    cases phase with
    | before | after =>
      rw [h.holds.2.2]
      rfl
    | within doctype drafts =>
      obtain ⟨frame, frames, hf, -⟩ := h.exists_frames
      obtain ⟨_, draft, rest, ⟨⟩, ⟨htells, -⟩, -⟩ := h.running hf
      simp [Phase.watch, hf, htells.owed]
  rw [Builder.takesBack, howed]
  cases tag <;> rfl

/-- The number of gaps among the tags at which the builder takes a shifted value back. -/
def heldGaps (builder : Builder) : List Tag → Nat
  | [] => 0
  | tag :: rest =>
    (builder.takesBack tag).toNat +
      match builder.push tag with
      | .ok (_, next) => next.heldGaps rest
      | .error _ => 0

/-- What tags do that the builder takes. -/
theorem counts_pushAll {tags : List Tag} (hb : builder.In phase) (he : builder.expressions = false)
    (h : builder.pushAll tags [] = .ok next) :
    ∃ last, next.In last ∧ next.created + builder.heldGaps tags =
        builder.created + Tag.made phase.watch.afterReference tags ∧
      last.watch.debt + builder.heldGaps tags =
        phase.watch.debt + (tags.map Tag.kind).count .shift := by
  induction tags generalizing builder phase with
  | nil =>
    cases h
    exact ⟨phase, hb, rfl, rfl⟩
  | cons tag rest ih =>
    obtain ⟨middle, after, hpush, hadv, htook, hexpr, h⟩ := cons_of_pushAll hb he h
    obtain ⟨last, hlast, hcreated, hdebt⟩ := ih htook.inPhase hexpr h
    have hheld : builder.heldGaps (tag :: rest) =
        (phase.watch.takesBack tag).toNat + middle.heldGaps rest := by
      rw [heldGaps, hpush, hb.takesBack]
    have hshifts : ((tag :: rest).map Tag.kind).count .shift =
        (rest.map Tag.kind).count .shift + if tag.kind = .shift then 1 else 0 := by
      simp [List.count_cons]
    have hmade := hadv.made
    have howed := hadv.debt
    rw [htook.created, hadv.waits] at hcreated
    rw [hheld, hshifts, Tag.made]
    exact ⟨last, hlast, by omega, by omega⟩

end Builder

namespace Tree

variable {tags : List Tag} {tree : Tree}

theorem counts_ofTags (h : ofTags tags = .ok tree) :
    tree.created + ({} : Builder).heldGaps tags = Tag.made false tags ∧
    ({} : Builder).heldGaps tags = (tags.map Tag.kind).count .shift := by
  obtain ⟨builder, hpush, hfinish⟩ := bind_eq_ok.mp h
  obtain ⟨last, hin, hcreated, hdebt⟩ := Builder.counts_pushAll (Builder.in_before false) rfl hpush
  -- In the end no node is open, so nothing is left to be taken back.
  obtain rfl := hin.of_finish hfinish
  rw [(Builder.of_finish hfinish).2.2.2]
  simpa [Phase.watch, Watch.debt] using And.intro hcreated hdebt

/-- A node was made for every opening tag, every `null`, every literal that is a value, and every
gap that took back no shifted value. -/
theorem created_eq (h : ofTags tags = .ok tree) :
    tree.created + ({} : Builder).heldGaps tags =
      (tags.map Tag.kind).count .opening + (tags.map Tag.kind).count .null +
        Tag.boundLiterals false tags + (tags.map Tag.kind).count .gap := by
  rw [← Tag.made_eq]
  exact (counts_ofTags h).1

end Tree

end TagTree
