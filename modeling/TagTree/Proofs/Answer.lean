import TagTree.Proofs.Expression

/-!
# Gaps that ask

Which gaps of a template are given an answer can be read off its tags alone. A gap asks if it
follows a reference and no open node has a value to take back. A node has one if it was opened right
after a shift and has had no gap yet. `Watch` keeps track of that, and `Watch.answered` gives each
tag the answer that it takes. A builder asks at no other gap (`Builder.asks_of_push`).
-/

namespace TagTree

/-- What tells whether a gap asks for an answer. -/
structure Watch where
  /-- For each open node, innermost first: it has yet to take back a value. -/
  owing : List Bool := []
  /-- The last tag, effects apart, is a reference. -/
  afterReference : Bool := false
  /-- The last tag, effects apart, is a shift. -/
  afterShift : Bool := false

namespace Watch

/-- The watch after a tag. -/
def next (watch : Watch) : Tag → Watch
  | .effect _ => watch
  | .opening _ => { owing := watch.afterShift :: watch.owing }
  | .closing => { owing := watch.owing.tail }
  | .gap => { owing := watch.owing.modifyHead fun _ => false }
  | .reference _ => { owing := watch.owing, afterReference := true }
  | .shift _ => { owing := watch.owing, afterShift := true }
  | _ => { owing := watch.owing }

/-- The tag is a gap that asks for an answer: it follows a reference, and no open node has a value
to take back. -/
def asks (watch : Watch) : Tag → Bool
  | .gap => watch.afterReference && watch.owing.all not
  | _ => false

/-- Each tag with the answer that it takes, if it asks for one and is given one. -/
def answered (watch : Watch) : List Tag → List (Option Tree) → List (Tag × Option Tree)
  | [], _ => []
  | tag :: rest, answers =>
    if watch.asks tag then
      (tag, answers.head?.join) :: (watch.next tag).answered rest answers.tail
    else (tag, none) :: (watch.next tag).answered rest answers

theorem answered_of_asks {watch : Watch} {tag : Tag} (h : watch.asks tag = true) (rest : List Tag)
    (answers : List (Option Tree)) :
    watch.answered (tag :: rest) answers =
      (tag, answers.head?.join) :: (watch.next tag).answered rest answers.tail :=
  if_pos h

theorem answered_of_not_asks {watch : Watch} {tag : Tag} (h : watch.asks tag = false)
    (rest : List Tag) (answers : List (Option Tree)) :
    watch.answered (tag :: rest) answers = (tag, none) :: (watch.next tag).answered rest answers :=
  if_neg (Bool.eq_false_iff.mp h)

end Watch

/-- What a watch has seen when the building of a tree has come that far. -/
def Phase.watch : Phase → Watch
  | .within _ drafts => {
      owing := drafts.map fun draft => draft.owed.isSome
      afterReference := drafts.head?.any fun draft => draft.stage.isWaiting
      afterShift := drafts.head?.any fun draft => draft.stage.isShifting }
  | _ => {}

namespace Draft

variable {draft parent : Draft} {embedded : Bool} {owed : Option Node}

theorem Idle.isShifting (h : draft.Idle) : draft.stage.isShifting = false := by
  rcases h with h | ⟨edge, node, shifts, h⟩ <;> rw [h] <;> rfl

theorem Opens.owed_eq (h : draft.Opens embedded parent owed) :
    parent.owed = draft.owed ∧ owed.isSome = draft.stage.isShifting := by
  cases h with
  | beside hi => exact ⟨rfl, hi.isShifting.symm⟩
  | reserved hs hr =>
    rw [hs]
    exact ⟨rfl, rfl⟩
  | value hs hb =>
    rw [hs]
    exact ⟨rfl, rfl⟩
  | shifted hs =>
    rw [hs]
    exact ⟨rfl, rfl⟩

/-- A node that has received another one waits for nothing and shifts nothing. -/
theorem receive_stage (draft : Draft) (node : Node) :
    (draft.receive node).owed = draft.owed ∧ (draft.receive node).stage.isWaiting = false ∧
    (draft.receive node).stage.isShifting = false := by
  rw [receive]
  split
  · split <;> exact ⟨rfl, rfl, rfl⟩
  · exact ⟨rfl, rfl, rfl⟩
  · exact ⟨rfl, rfl, rfl⟩

theorem fill_stage (draft : Draft) (edge : Reference) (nodes : List Node) :
    (draft.fill edge nodes).owed = draft.owed ∧ (draft.fill edge nodes).stage.isWaiting = false ∧
    (draft.fill edge nodes).stage.isShifting = false := by
  have hgive : ∀ (nodes : List Node) (draft : Draft),
      draft.stage.isWaiting = false → draft.stage.isShifting = false →
        (nodes.foldl (fun draft node => draft.give edge node) draft).owed = draft.owed ∧
        (nodes.foldl (fun draft node => draft.give edge node) draft).stage.isWaiting = false ∧
        (nodes.foldl (fun draft node => draft.give edge node) draft).stage.isShifting = false := by
    intro nodes
    induction nodes with
    | nil => exact fun draft hw hs => ⟨rfl, hw, hs⟩
    | cons node nodes ih => exact fun draft _ _ => ih (draft.give edge node) rfl rfl
  exact hgive nodes (draft.inStage .resting) rfl rfl

end Draft

namespace Phase

variable {phase after : Phase} {tag : Tag}

theorem watch_of_step {doctype : Option Doctype} {drafts rest : List Draft}
    (h : Step drafts tag rest) :
    (within doctype rest).watch = (within doctype drafts).watch.next tag := by
  cases h with
  | content | reference | arrayStart | null | literal | shift => rfl
  | @gap draft rest edge hs hb ho =>
    obtain ⟨howed, -⟩ := Draft.anyOwed_cons_eq_false.mp ho
    simp [watch, Watch.next, Draft.inStage, Stage.isWaiting, Stage.isShifting, howed]
  | hold => rfl
  | opening hc ho =>
    obtain ⟨hparent, howed⟩ := ho.owed_eq
    simp [watch, Watch.next, Draft.fresh, Stage.isWaiting, Stage.isShifting, hparent, howed]
  | @closing draft parent rest hi ho =>
    obtain ⟨howed, hw, hs⟩ := parent.receive_stage draft.toNode
    simp [watch, Watch.next, howed, hw, hs]

/-- A watch that has seen all tags so far sees what the next one does. -/
theorem watch_of_advance (h : Advance phase tag after) : after.watch = phase.watch.next tag := by
  cases h with
  | effect | doctype | openRoot | closeRoot => rfl
  | inside h => exact watch_of_step h

theorem watch_of_fills {expression : Option Tree} (h : Fills phase expression after) :
    after.watch = phase.watch.next .gap := by
  cases h with
  | gap hs hb ho => simp [watch, Watch.next, Draft.inStage, Stage.isWaiting, Stage.isShifting, ho]
  | @tree doctype draft rest edge tree hs hb ho =>
    obtain ⟨howed, hw, hs⟩ := draft.fill_stage edge.asExpression tree.fillers
    simp [watch, Watch.next, howed, hw, hs, ho]

/-- Where a gap asks, a reference waits in the innermost node and no open node has a value to take
back. -/
theorem asks_iff : phase.watch.asks tag = true ↔
    tag = .gap ∧ ∃ doctype draft rest edge, phase = .within doctype (draft :: rest) ∧
      draft.stage = .waiting edge ∧ Draft.anyOwed (draft :: rest) = false := by
  constructor
  · intro h
    cases tag with
    | gap =>
      refine ⟨rfl, ?_⟩
      obtain ⟨hwaiting, howing⟩ := Bool.and_eq_true_iff.mp h
      match phase with
      | .before doctype | .after doctype root => cases hwaiting
      | .within doctype [] => cases hwaiting
      | .within doctype (draft :: rest) =>
        have howed : Draft.anyOwed (draft :: rest) = false := by
          simpa [watch, Draft.anyOwed] using howing
        have hstage : draft.stage.isWaiting = true := hwaiting
        cases hs : draft.stage with
        | waiting edge => exact ⟨doctype, draft, rest, edge, rfl, hs, howed⟩
        | _ =>
          rw [hs] at hstage
          cases hstage
    | _ => cases h
  · rintro ⟨rfl, doctype, draft, rest, edge, rfl, hs, howed⟩
    refine Bool.and_eq_true_iff.mpr ⟨?_, ?_⟩
    · simp [watch, hs, Stage.isWaiting]
    · simpa [watch, Draft.anyOwed] using howed

end Phase

namespace Builder

variable {builder next : Builder} {phase : Phase} {tag : Tag}

/-- A builder asks for an expression where the watch says so. -/
theorem asks_of_push (hb : builder.In phase)
    (hp : builder.push tag = .ok (.needsExpression, next)) : phase.watch.asks tag = true := by
  obtain ⟨doctype, draft, rest, _, _, edge, rfl, rfl, hasks⟩ := gap_of_push hb hp
  exact Phase.asks_iff.mpr ⟨rfl, doctype, draft, rest, edge, rfl, hasks.stage,
    Draft.anyOwed_cons_eq_false.mpr ⟨hasks.owed, hasks.anyOwed⟩⟩

/-- A builder with expressions takes no gap that asks without asking. -/
theorem not_asks_of_push (hb : builder.In phase) (he : builder.expressions = true)
    (hp : builder.push tag = .ok (.accepted, next)) : phase.watch.asks tag = false := by
  rw [← Bool.not_eq_true]
  intro hasks
  obtain ⟨rfl, doctype, draft, rest, edge, rfl, -, howed⟩ := Phase.asks_iff.mp hasks
  rw [anyOwed_of_push hb he hp] at howed
  cases howed

end Builder

end TagTree
