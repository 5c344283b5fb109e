import TagTree.Builder.Run
import TagTree.Proofs.Frame

/-!
# Steps of building

The rules of building as a relation on the drafts of all open nodes, innermost first: `Step` says
what one tag does to them. The builder follows the rules (`pushInside_of_step`) and admits nothing
else (`step_of_pushInside`).
-/

namespace TagTree

open Segment (mentions)

variable {edge : Reference} {frame parent : Frame} {owed : Option Node} {α : Type}
  {rest : List Draft} {start : OpenTag}

/-- Some of the nodes has a value to take back. -/
def Draft.anyOwed (drafts : List Draft) : Bool :=
  drafts.any fun draft => draft.owed.isSome

theorem Draft.anyOwed_cons {draft : Draft} :
    Draft.anyOwed (draft :: rest) = true ↔
      draft.owed.isSome = true ∨ Draft.anyOwed rest = true := by
  rw [anyOwed, List.any_cons, Bool.or_eq_true]
  rfl

theorem Draft.anyOwed_cons_eq_false {draft : Draft} :
    Draft.anyOwed (draft :: rest) = false ↔ draft.owed = none ∧ Draft.anyOwed rest = false := by
  simp [Draft.anyOwed]

/-- What a tag within a node does to the open nodes. -/
inductive Step : List Draft → Tag → List Draft → Prop where
  | content {draft : Draft} {rest : List Draft} {text : String} (hi : draft.Idle) :
    Step (draft :: rest) (.literal text) (draft.settled.add (.content text) :: rest)
  | reference {draft : Draft} {rest : List Draft} {edge : Reference} (hi : draft.Idle)
    (hr : Mention.Referable (mentions draft.allSegments) edge) :
    Step (draft :: rest) (.reference edge) (draft.settled.inStage (.waiting edge) :: rest)
  | arrayStart {draft : Draft} {rest : List Draft} {edge : Reference}
    (hs : draft.stage = .waiting edge)
    (hm : Mention.Startable (mentions draft.segments) edge) :
    Step (draft :: rest) .arrayStart (draft.add (.arrayStart (edge.marked false)) :: rest)
  | null {draft : Draft} {rest : List Draft} {edge : Reference}
    (hs : draft.stage = .waiting edge)
    (hb : Mention.Bindable (mentions draft.segments) edge) :
    Step (draft :: rest) .null (draft.add (.bound edge .null 0) :: rest)
  | literal {draft : Draft} {rest : List Draft} {edge : Reference} {text : String}
    (hs : draft.stage = .waiting edge)
    (hb : Mention.Bindable (mentions draft.segments) edge) :
    Step (draft :: rest) (.literal text) (draft.inStage (.bound edge (.literal text) 0) :: rest)
  | gap {draft : Draft} {rest : List Draft} {edge : Reference}
    (hs : draft.stage = .waiting edge)
    (hb : Mention.Bindable (mentions draft.segments) edge)
    (ho : Draft.anyOwed (draft :: rest) = false) :
    Step (draft :: rest) .gap (draft.inStage (.bound edge .gap 0) :: rest)
  | hold {draft : Draft} {rest : List Draft} {edge : Reference} {node : Node}
    (hs : draft.stage = .waiting edge)
    (hb : Mention.Bindable (mentions draft.segments) edge)
    (ho : draft.owed = some node) (hrest : Draft.anyOwed rest = false) :
    Step (draft :: rest) .gap (draft.hold.inStage (.bound edge node 0) :: rest)
  | shift {draft : Draft} {rest : List Draft} {edge : Reference} {node : Node} {shifts : Nat}
    (hs : draft.stage = .bound edge node shifts) :
    Step (draft :: rest) (.shift (shifts + 1)) (draft.inStage (.shifting edge node shifts) :: rest)
  | opening {draft parent : Draft} {rest : List Draft} {start : OpenTag} {owed : Option Node}
    (hc : Builder.isContradictory start = false)
    (ho : draft.Opens start.flags.isEmbedded parent owed) :
    Step (draft :: rest) (.opening start) (.fresh start.plain none owed :: parent :: rest)
  | closing {draft parent : Draft} {rest : List Draft} (hi : draft.Idle) (ho : draft.owed = none) :
    Step (draft :: parent :: rest) .closing (parent.receive draft.toNode :: rest)

namespace Draft

/-- The number of nodes that are made for a tag. -/
def made (drafts : List Draft) : Tag → Nat
  | .opening _ | .null => 1
  | .literal _ => (drafts.head?.any fun draft => draft.stage.isWaiting).toNat
  | .gap => (!drafts.head?.any fun draft => draft.owed.isSome).toNat
  | _ => 0

variable {draft : Draft}

theorem Idle.isWaiting (h : draft.Idle) : draft.stage.isWaiting = false := by
  rcases h with h | ⟨edge, node, shifts, h⟩ <;> rw [h] <;> rfl

theorem Idle.made_literal (h : draft.Idle) (text : String) :
    made (draft :: rest) (.literal text) = 0 := by
  simp [made, h.isWaiting]

theorem made_literal (hs : draft.stage = .waiting edge) (text : String) :
    made (draft :: rest) (.literal text) = 1 := by
  simp [made, hs, Stage.isWaiting]

theorem made_gap (ho : draft.owed = none) : made (draft :: rest) .gap = 1 := by
  simp [made, ho]

theorem made_hold {node : Node} (ho : draft.owed = some node) : made (draft :: rest) .gap = 0 := by
  simp [made, ho]

end Draft

namespace Frame

variable {next base : Frame} {draft : Draft} {below : List Draft} {frames : List Frame}

/-- The frame is that of a node within the nodes with the given drafts. -/
structure Above (frame : Frame) (below : List Draft) : Prop where
  destination : frame.destination = below.head?.bind Draft.destination
  withinOwed : frame.withinOwed = Draft.anyOwed below

theorem Above.after (h : base.Above below) (ha : frame.After base draft) : frame.Above below :=
  ⟨ha.destination.trans h.destination, ha.withinOwed.trans h.withinOwed⟩

/-- The frames tell the drafts of nodes in which another one is open. -/
def Suspended : List Frame → List Draft → Prop
  | [], [] => True
  | frame :: frames, draft :: drafts =>
    (frame.Tells draft ∧ frame.Passive draft ∧ frame.Above drafts) ∧ Suspended frames drafts
  | _, _ => False

/-- The frames tell the drafts of all open nodes. -/
def Running : List Frame → List Draft → Prop
  | frame :: frames, draft :: drafts =>
    (frame.Tells draft ∧ frame.Active draft ∧ frame.Above drafts) ∧ Suspended frames drafts
  | _, _ => False

theorem Running.orderly {drafts : List Draft} (h : Running frames drafts)
    (hmem : draft ∈ drafts.head?) : Mention.Orderly [] (mentions draft.allSegments) := by
  cases drafts with
  | nil => cases hmem
  | cons =>
    cases frames with
    | nil => exact h.elim
    | cons =>
      cases hmem
      exact h.1.1.orderly

theorem After.running (h : frame.After base draft)
    (ha : base.Above below) (hs : Suspended frames below) :
    Running (frame :: frames) (draft :: below) :=
  ⟨⟨h.tells, h.active, ha.after h⟩, hs⟩

/-- The frame of a node that opens, within the given one. -/
def child (parent : Frame) (start : OpenTag) (destination : Option Target)
    (owed : Option Node) : Frame where
  depth := parent.depth + 1
  start := start.plain
  label := start.plain.label none
  destination := destination
  owed := owed
  withinOwed := parent.withinOwed || parent.owed.isSome

theorem running_child (start : OpenTag) (owed : Option Node) (ht : parent.Tells draft)
    (hp : parent.Passive draft) (ha : parent.Above below) (hs : Suspended frames below) :
    Running (parent.child start draft.destination owed :: parent :: frames)
      (.fresh start.plain none owed :: draft :: below) := by
  refine ⟨⟨⟨rfl, rfl, rfl, rfl, rfl, rfl, Scope.counts_empty, trivial, nofun⟩, ⟨rfl, rfl, nofun⟩,
    rfl, ?_⟩, ⟨ht, hp, ha⟩, hs⟩
  show (parent.withinOwed || parent.owed.isSome) = _
  rw [ha.withinOwed, ht.owed, Bool.or_comm]
  rfl

theorem Active.of_waiting (h : frame.Active draft) (hs : draft.stage = .waiting edge) :
    frame.pending.isSome = true ∧ frame.shifted = none := by
  simp only [Active, hs] at h
  exact ⟨by rw [h.1]; rfl, h.2.1⟩

/-- After a shift, only a node to be bound may open. -/
theorem opensBound_of_opens {parent : Draft} (ho : draft.Opens start.flags.isEmbedded parent owed)
    (ha : frame.Active draft) :
    (frame.shifted.isSome && !Builder.opensBound (.opening start)) = false := by
  generalize he : start.flags.isEmbedded = embedded at ho
  cases ho with
  | beside hi => simp [(ha.of_idle hi).2]
  | reserved hs | value hs => simp [(ha.of_waiting hs).2]
  | shifted hs => simp [Builder.opensBound, he]

/-- What cannot be shifted is settled at once. -/
theorem After.settle (h : frame.After base draft) (hi : draft.Idle) :
    Frame.After { frame with lastBound := none } base draft.settled where
  tells :=
    let ht := h.tells.settled hi
    { ht with }
  active := ⟨(h.active.of_idle hi).1, (h.active.of_idle hi).2, nofun⟩
  destination := h.destination
  withinOwed := h.withinOwed

end Frame

namespace Builder

/-- The builder differs from another one only in its open nodes and in the number of nodes made. -/
structure Continues (builder base : Builder) : Prop where
  expressions : builder.expressions = base.expressions
  doctype : builder.doctype = base.doctype
  root : builder.root = base.root
  awaiting : builder.awaiting = base.awaiting

variable {builder next : Builder} {bound : Frame} {frames : List Frame} {draft : Draft}
  {drafts after : List Draft} {tag : Tag}

theorem continues_withTop (builder : Builder) (frames : List Frame) (frame : Frame) :
    (builder.withTop frames frame).Continues builder :=
  ⟨rfl, rfl, rfl, rfl⟩

theorem continues_make (builder : Builder) (frames : List Frame) (frame : Frame) :
    (builder.make.withTop frames frame).Continues builder :=
  ⟨rfl, rfl, rfl, rfl⟩

@[simp] theorem lift_ok (builder : Builder) (frames : List Frame) (value : α) :
    builder.lift frames (.ok value) = .ok value := rfl

theorem lift_eq_ok {attempt : Attempt Frame α} {value : α} :
    builder.lift frames attempt = .ok value ↔ attempt = .ok value := by
  cases attempt with
  | ok found => rw [lift_ok, Except.ok.injEq, Except.ok.injEq]
  | error refusal => exact ⟨nofun, nofun⟩

/-- No tag is refused for a shift where none is under way. -/
theorem not_refused (h : frame.shifted = none) :
    ¬(frame.shifted.isSome && !opensBound tag) = true := by
  simp [h]

section Waiting

variable (h : frame.Tells draft) (ha : frame.Active draft) (hs : draft.stage = .waiting edge)
  (hb : Mention.Bindable (mentions draft.segments) edge) (node : Node)
include h ha hs hb

/-- A value is bound to the reference that waits for it. -/
theorem bind_taken :
    ∃ next, frame.taken.bind (draft.target edge) node = .ok next ∧
      next.After frame (draft.inStage (.bound edge node 0)) := by
  obtain ⟨next, hbind, hafter⟩ :=
    Frame.bind_of_waiting h.taken (ha.taken hs fun _ => hb) hs hb.1 node
  exact ⟨next, hbind, { hafter with }⟩

/-- The value that a node has to take back is bound to the reference that waits. -/
theorem bind_hold :
    ∃ next, frame.taken.hold.bind (draft.target edge) node = .ok next ∧
      next.After frame (draft.hold.inStage (.bound edge node 0)) := by
  have hp : frame.taken.hold.Passive draft.hold := ha.taken hs fun _ => hb
  obtain ⟨next, hbind, hafter⟩ := Frame.bind_of_waiting h.taken.hold hp hs hb.1 node
  exact ⟨next, hbind, { hafter with }⟩

end Waiting

section Equations

variable {taken : Frame} {target : Target} {node : Node}

theorem gap_eq_hold (ht : frame.takePending .gap = .ok (target, taken))
    (hw : taken.withinOwed = false) (ho : taken.owed = some node)
    (hb : taken.hold.bind target node = .ok bound) :
    builder.gap frame frames = .ok (.accepted, builder.withTop frames bound) := by
  simp only [Frame.hold] at hb
  simp only [gap, ht, lift_ok, bind, Except.bind, ho]
  rw [if_neg (by simp [hw]), hb]
  rfl

theorem gap_eq_gap (ht : frame.takePending .gap = .ok (target, taken))
    (hw : taken.withinOwed = false) (ho : taken.owed = none) (he : builder.expressions = false)
    (hb : taken.bind target .gap = .ok bound) :
    builder.gap frame frames = .ok (.accepted, builder.make.withTop frames bound) := by
  simp only [gap, ht, lift_ok, bind, Except.bind, hw, ho, hb, he, Bool.false_eq_true, if_false]
  rfl

theorem null_eq (ht : frame.takePending .null = .ok (target, taken))
    (hb : taken.bind target .null = .ok bound) :
    builder.null frame frames =
      .ok (builder.make.withTop frames { bound with lastBound := none }) := by
  simp only [null, ht, lift_ok, bind, Except.bind, hb]
  rfl

theorem literal_eq {text : String} (hp : frame.pending.isSome = true)
    (ht : frame.takePending .literal = .ok (target, taken))
    (hb : taken.bind target (.literal text) = .ok bound) :
    builder.literal frame frames text = .ok (builder.make.withTop frames bound) := by
  have hnone : frame.pending.isNone = false := by
    rw [Option.isNone_eq_false_iff, hp]
  simp only [literal, hnone, ht, lift_ok, bind, Except.bind, hb, Bool.false_eq_true, if_false]
  rfl

theorem openChild_eq {destination : Option Target} (hc : isContradictory start = false)
    (ho : frame.opening start.plain = .ok (parent, destination, owed)) :
    builder.openChild frame frames start =
      .ok (builder.make.withTop (parent :: frames) (parent.child start destination owed)) := by
  simp only [openChild, hc, Bool.false_eq_true, if_false, ho, lift_ok, bind, Except.bind]
  rfl

end Equations

/-- The gap rule is that of a builder without expressions. -/
theorem pushInside_of_step (builder : Builder) (hr : Frame.Running (frame :: frames) drafts)
    (hs : Step drafts tag after)
    (he : builder.expressions = true → tag = .gap → Draft.anyOwed drafts = true) :
    ∃ next, builder.pushInside frame frames tag = .ok (.accepted, next) ∧
      next.Continues builder ∧ Frame.Running next.frames after ∧
      next.created = builder.created + Draft.made drafts tag := by
  obtain _ | ⟨draft, rest⟩ := drafts
  · exact hr.elim
  obtain ⟨⟨h, ha, habove⟩, hbelow⟩ := hr
  -- In each case a lemma on the frame says what the tag does, and the frames below stay.
  cases hs with
  | content hi =>
    rw [hi.made_literal]
    obtain ⟨hpending, hshifted⟩ := ha.of_idle hi
    refine ⟨builder.withTop frames (frame.push (.literal _)), ?_, continues_withTop ..,
      (Frame.literal_after h ha hi _).running habove hbelow, rfl⟩
    rw [pushInside, if_neg (not_refused hshifted)]
    simp only [literal, hpending, Option.isNone_none, if_true]
    rfl
  | reference hi hm =>
    obtain ⟨next, hok, hafter⟩ := Frame.reference_of_referable h ha hi hm
    refine ⟨builder.withTop frames next, ?_, continues_withTop ..,
      hafter.running habove hbelow, rfl⟩
    rw [pushInside, if_neg (not_refused (ha.of_idle hi).2)]
    simp only [hok]
    rfl
  | arrayStart hs hm =>
    obtain ⟨next, hok, hafter⟩ := Frame.startArray_of_startable h ha hs hm
    refine ⟨builder.withTop frames next, ?_, continues_withTop ..,
      hafter.running habove hbelow, rfl⟩
    rw [pushInside, if_neg (not_refused (ha.of_waiting hs).2)]
    simp only [hok]
    rfl
  | null hs hb =>
    have htake := (Frame.takePending_iff h ha .null).mpr ⟨_, hs, hb, rfl, rfl⟩
    obtain ⟨next, hbind, hafter⟩ := bind_taken h ha hs hb .null
    refine ⟨_, ?_, continues_make .., (hafter.settle (.inr ⟨_, _, _, rfl⟩)).running habove hbelow,
      rfl⟩
    rw [pushInside, if_neg (not_refused (ha.of_waiting hs).2)]
    simp only [null_eq htake hbind]
    rfl
  | literal hs hb =>
    rw [Draft.made_literal hs]
    have htake := (Frame.takePending_iff h ha .literal).mpr ⟨_, hs, hb, rfl, rfl⟩
    obtain ⟨next, hbind, hafter⟩ := bind_taken h ha hs hb (.literal _)
    refine ⟨_, ?_, continues_make .., hafter.running habove hbelow, rfl⟩
    rw [pushInside, if_neg (not_refused (ha.of_waiting hs).2)]
    simp only [literal_eq (ha.of_waiting hs).1 htake hbind]
    rfl
  | gap hs hb ho =>
    obtain ⟨howed, hrest⟩ := Draft.anyOwed_cons_eq_false.mp ho
    rw [Draft.made_gap howed]
    have htake := (Frame.takePending_iff h ha .gap).mpr ⟨_, hs, hb, rfl, rfl⟩
    obtain ⟨next, hbind, hafter⟩ := bind_taken h ha hs hb .gap
    refine ⟨_, ?_, continues_make .., hafter.running habove hbelow, rfl⟩
    have hw : frame.withinOwed = false := habove.withinOwed.trans hrest
    -- With expressions the gap would ask for one, since no value waits to be taken back.
    have hexpr : builder.expressions = false :=
      Bool.eq_false_iff.mpr fun hx => Bool.eq_false_iff.mp ho (he hx rfl)
    rw [pushInside, if_neg (not_refused (ha.of_waiting hs).2)]
    exact gap_eq_gap htake hw (h.owed.trans howed) hexpr hbind
  | hold hs hb ho hrest =>
    rw [Draft.made_hold ho]
    have htake := (Frame.takePending_iff h ha .gap).mpr ⟨_, hs, hb, rfl, rfl⟩
    obtain ⟨next, hbind, hafter⟩ := bind_hold h ha hs hb _
    refine ⟨_, ?_, continues_withTop .., hafter.running habove hbelow, rfl⟩
    have hw : frame.withinOwed = false := habove.withinOwed.trans hrest
    rw [pushInside, if_neg (not_refused (ha.of_waiting hs).2)]
    exact gap_eq_hold htake hw (h.owed.trans ho) hbind
  | shift hs =>
    obtain ⟨next, hok, hafter⟩ := Frame.shift_of_bound h ha hs
    refine ⟨builder.withTop frames next, ?_, continues_withTop ..,
      hafter.running habove hbelow, rfl⟩
    rw [pushInside, if_neg (not_refused (ha.of_idle (.inr ⟨_, _, _, hs⟩)).2)]
    simp only [hok]
    rfl
  | @opening _ _ _ start _ hc ho =>
    obtain ⟨parent, hok, ht, hp, hdest, hwithin⟩ := Frame.opening_of_opens start.plain h ha ho
    refine ⟨builder.make.withTop (parent :: frames) (parent.child start _ _), ?_,
      continues_make .., Frame.running_child start _ ht hp
        ⟨hdest.trans habove.destination, hwithin.trans habove.withinOwed⟩ hbelow, rfl⟩
    rw [pushInside, if_neg (Bool.eq_false_iff.mp (Frame.opensBound_of_opens ho ha))]
    simp only [openChild_eq hc hok]
    rfl
  | closing hi ho =>
    cases frames with
    | nil => exact hbelow.elim
    | cons parent frames =>
      obtain ⟨⟨hp, hpassive, hbelow⟩, hrest⟩ := hbelow
      obtain ⟨next, hok, hafter⟩ := Frame.receive_after hp hpassive frame.toNode
      rw [Frame.toNode_of_tells h hi] at hok hafter
      refine ⟨builder.withTop frames next, ?_, continues_withTop ..,
        hafter.running hbelow hrest, rfl⟩
      have hclose := (Frame.checkClose_iff h ha).mpr ⟨hi, ho⟩
      have hdest : frame.destination = Draft.destination _ := habove.destination
      rw [pushInside, if_neg (not_refused (ha.of_idle hi).2)]
      simp only [close, hclose, Frame.toNode_of_tells h hi, hdest, hok, lift_ok]
      rfl

/-- A gap is admitted after a reference that waits, unless an outer node has a value to take back.
If the node itself has none, the gap may ask for an expression. -/
theorem gap_cases {below : List Draft} {feed : Feed} (h : frame.Tells draft)
    (ha : frame.Active draft) (habove : frame.Above below)
    (hg : builder.gap frame frames = .ok (feed, next)) :
    ∃ edge, draft.stage = .waiting edge ∧
      Mention.Bindable (mentions draft.segments) edge ∧ Draft.anyOwed below = false ∧
      (feed = .accepted ∧ (builder.expressions = true → draft.owed.isSome = true) ∨
        feed = .needsExpression ∧ builder.expressions = true ∧ draft.owed = none ∧
        next = { builder.withTop frames frame.taken with
          awaiting := some (draft.target edge) }) := by
  obtain ⟨⟨target, taken⟩, htake, hg⟩ := bind_eq_ok.mp hg
  obtain ⟨edge, hs, hb, rfl, rfl⟩ := (Frame.takePending_iff h ha .gap).mp (lift_eq_ok.mp htake)
  simp only at hg
  split at hg
  · cases hg
  · rename_i hw
    refine ⟨edge, hs, hb, ?_, ?_⟩
    · rw [← habove.withinOwed, ← Bool.not_eq_true]
      exact hw
    · split at hg
      · rename_i howed
        obtain ⟨bound, -, hg⟩ := bind_eq_ok.mp hg
        cases hg
        have hsome : draft.owed = some _ := h.owed.symm.trans howed
        exact .inl ⟨rfl, fun _ => by rw [hsome]; rfl⟩
      · rename_i howed
        split at hg
        · rename_i hexpr
          cases hg
          exact .inr ⟨rfl, hexpr, h.owed.symm.trans howed, rfl⟩
        · rename_i hexpr
          obtain ⟨bound, -, hg⟩ := bind_eq_ok.mp hg
          cases hg
          exact .inl ⟨rfl, fun htrue => absurd htrue hexpr⟩

/-- Only a gap asks for an expression. -/
theorem gap_of_needsExpression
    (hp : builder.pushInside frame frames tag = .ok (.needsExpression, next)) :
    tag = .gap ∧ builder.gap frame frames = .ok (.needsExpression, next) := by
  unfold pushInside at hp
  split at hp
  · cases hp
  · cases tag with
    | gap => exact ⟨rfl, hp⟩
    | embedded | doctype | effect => cases hp
    | _ =>
      obtain ⟨_, -, hp⟩ := bind_eq_ok.mp hp
      cases hp

/-- A node that opens may open there. -/
theorem step_of_openChild (h : frame.Tells draft)
    (ha : frame.Active draft) (he : frame.shifted.isSome = true → start.flags.isEmbedded = false)
    (ho : builder.openChild frame frames start = .ok next) :
    ∃ after, Step (draft :: rest) (.opening start) after := by
  unfold openChild at ho
  split at ho
  · cases ho
  · rename_i hc
    obtain ⟨⟨parent, destination, owed⟩, hopen, -⟩ := bind_eq_ok.mp ho
    obtain ⟨parent, hopens⟩ := Frame.opens_of_opening start.plain h ha he (lift_eq_ok.mp hopen)
    exact ⟨_, .opening (by simpa using hc) hopens⟩

/-- A builder admits a tag within a node only by the rules, or to close the root. -/
theorem step_of_pushInside (hr : Frame.Running (frame :: frames) drafts)
    (hd : ∀ header, tag ≠ .doctype header) (he : ∀ effect, tag ≠ .effect effect)
    (hp : builder.pushInside frame frames tag = .ok (.accepted, next)) :
    (∃ after, Step drafts tag after) ∨ ∃ draft, drafts = [draft] ∧ tag = .closing ∧ draft.Idle ∧
      draft.owed = none ∧ next = { builder with frames := [], root := some draft.toNode } := by
  obtain _ | ⟨draft, rest⟩ := drafts
  · exact hr.elim
  obtain ⟨⟨h, ha, habove⟩, hbelow⟩ := hr
  unfold pushInside at hp
  split at hp
  · cases hp
  rename_i hshifted
  -- What the frame admits decides the rule, so each case reads back the guards it has passed.
  cases tag with
  | doctype header => exact absurd rfl (hd header)
  | effect effect => exact absurd rfl (he effect)
  | embedded => cases hp
  | opening start =>
    obtain ⟨next, hopen, -⟩ := bind_eq_ok.mp hp
    refine .inl (step_of_openChild h ha (fun hsome => ?_) hopen)
    simpa [hsome, opensBound] using hshifted
  | closing =>
    obtain ⟨next, hclose, hnext⟩ := bind_eq_ok.mp hp
    unfold close at hclose
    split at hclose
    · cases hclose
    · rename_i hcheck
      obtain ⟨hi, ho⟩ := (Frame.checkClose_iff h ha).mp hcheck
      -- A draft around this one takes the node; without one, the root closes.
      cases rest with
      | cons parent rest => exact .inl ⟨_, .closing hi ho⟩
      | nil =>
        cases frames with
        | cons => exact hbelow.elim
        | nil =>
          cases hclose
          cases hnext
          exact .inr ⟨draft, rfl, rfl, hi, ho, by rw [Frame.toNode_of_tells h hi]⟩
  | reference edge =>
    obtain ⟨next, href, -⟩ := bind_eq_ok.mp hp
    obtain ⟨hi, hm⟩ := Frame.referable_of_reference h ha (by simpa [opensBound] using hshifted)
      (lift_eq_ok.mp href)
    exact .inl ⟨_, .reference hi hm⟩
  | shift index =>
    obtain ⟨next, hshift, -⟩ := bind_eq_ok.mp hp
    obtain ⟨edge, node, shifts, hs, rfl⟩ := Frame.bound_of_shift ha (lift_eq_ok.mp hshift)
    exact .inl ⟨_, .shift hs⟩
  | gap =>
    obtain ⟨edge, hs, hb, hw, -⟩ := gap_cases h ha habove hp
    cases ho : draft.owed with
    | none => exact .inl ⟨_, .gap hs hb (Draft.anyOwed_cons_eq_false.mpr ⟨ho, hw⟩)⟩
    | some node => exact .inl ⟨_, .hold hs hb ho hw⟩
  | null =>
    obtain ⟨next, hnull, -⟩ := bind_eq_ok.mp hp
    obtain ⟨⟨target, taken⟩, htake, -⟩ := bind_eq_ok.mp hnull
    obtain ⟨edge, hs, hb, -⟩ := (Frame.takePending_iff h ha .null).mp (lift_eq_ok.mp htake)
    exact .inl ⟨_, .null hs hb⟩
  | arrayStart =>
    obtain ⟨next, hstart, -⟩ := bind_eq_ok.mp hp
    obtain ⟨edge, hs, hm⟩ := Frame.startable_of_startArray h ha (lift_eq_ok.mp hstart)
    exact .inl ⟨_, .arrayStart hs hm⟩
  | literal text =>
    obtain ⟨next, hliteral, -⟩ := bind_eq_ok.mp hp
    unfold literal at hliteral
    split at hliteral
    · rename_i hpending
      exact .inl ⟨_, .content (ha.idle hpending (by simpa [opensBound] using hshifted))⟩
    · obtain ⟨⟨target, taken⟩, htake, -⟩ := bind_eq_ok.mp hliteral
      obtain ⟨edge, hs, hb, -⟩ := (Frame.takePending_iff h ha .literal).mp (lift_eq_ok.mp htake)
      exact .inl ⟨_, .literal hs hb⟩

end Builder

end TagTree
