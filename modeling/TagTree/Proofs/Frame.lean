import TagTree.Proofs.Draft

/-!
# Steps of frames

What a step of a frame does to the draft that it tells, and when the step is admitted: one lemma
says what an admitted step comes to (`reference_of_referable`, `shift_of_bound`), another that no
other is admitted (`referable_of_reference`, `bound_of_shift`).
-/

namespace TagTree

open Segment (allItems bound properties_concat mentions_append width bindTo mention?)
open Mention (Referable indexOf started Bindable orderly_append named Startable)

variable {edge : Reference} {properties : Register (Property Node)} {binding : Binding Node}
  {owed : Option Node}

attribute [simp] Stage.segments Stage.items Stage.mentions

namespace Draft

variable {draft : Draft} (stage : Stage)

@[simp] theorem allSegments_settled : draft.settled.allSegments = draft.allSegments :=
  List.append_nil _

@[simp] theorem segments_inStage : (draft.inStage stage).segments = draft.segments := rfl

@[simp] theorem allSegments_inStage :
    (draft.inStage stage).allSegments = draft.segments ++ stage.segments := rfl

section Stages

variable {node : Node} {shifts : Nat}

theorem allSegments_of_waiting (hs : draft.stage = .waiting edge) :
    draft.allSegments = draft.segments := by
  simp [allSegments, hs]

theorem allSegments_of_bound (hs : draft.stage = .bound edge node shifts) :
    draft.allSegments = draft.segments ++ [.bound edge node shifts] := by
  simp [allSegments, hs]

theorem allSegments_of_shifting (hs : draft.stage = .shifting edge node shifts) :
    draft.allSegments = draft.segments ++ [.bound edge node shifts] := by
  simp [allSegments, hs]

end Stages

@[simp] theorem items_inStage :
    (draft.inStage stage).items = allItems (draft.segments ++ stage.segments) ++ stage.items := rfl

@[simp] theorem mentions_inStage :
    (draft.inStage stage).mentions =
      Segment.mentions (draft.segments ++ stage.segments) ++ stage.mentions := rfl

@[simp] theorem segments_settled : draft.settled.segments = draft.allSegments := rfl

theorem Idle.items (h : draft.Idle) : draft.items = allItems draft.allSegments := by
  rcases h with h | ⟨edge, node, shifts, h⟩ <;> simp [Draft.items, h]

theorem Idle.mentions (h : draft.Idle) : draft.mentions = Segment.mentions draft.allSegments := by
  rcases h with h | ⟨edge, node, shifts, h⟩ <;> simp [Draft.mentions, h]

theorem idle_settled : draft.settled.Idle := .inl rfl

@[simp] theorem allSegments_add (segment : Segment Node) :
    (draft.add segment).allSegments = draft.segments ++ [segment] :=
  List.append_nil _

@[simp] theorem items_add (segment : Segment Node) :
    (draft.add segment).items = allItems draft.segments ++ segment.items := by
  simp [items, add, allSegments]

@[simp] theorem mentions_add (segment : Segment Node) :
    (draft.add segment).mentions = Segment.mentions draft.segments ++ segment.mention?.toList := by
  simp [mentions, add, allSegments]

end Draft

/-- A reference that may come next is admitted, and waits for its value. -/
theorem Scope.consume_of_waiting {scope : Scope} {mentions : List Mention}
    (h : scope.Counts mentions) (hr : Referable mentions edge) :
    ∃ after, scope.consume edge = (after, .ok (indexOf mentions edge)) ∧
      after.Counts (mentions ++ Stage.mentions (.waiting edge)) ∧
      after.lastReference = some edge.name := by
  cases hres : edge.isReserved with
  | true =>
    refine ⟨{ scope with lastReference := some edge.name }, ?_, ?_, rfl⟩
    · rw [consume_of_reserved hres, indexOf, hres]
      rfl
    · simpa [hres] using h.withLast _
  | false => simpa [hres] using consume_of_referable h hres hr

namespace Frame

variable {frame next : Frame} {draft : Draft} {node : Node} {target : Target} {shifts : Nat}

/-- The frame comes after another one, tells the draft, and is the innermost one. -/
structure After (frame base : Frame) (draft : Draft) : Prop where
  tells : frame.Tells draft
  active : frame.Active draft
  destination : frame.destination = base.destination
  withinOwed : frame.withinOwed = base.withinOwed

theorem Active.of_idle (h : frame.Active draft) (hi : draft.Idle) :
    frame.pending = none ∧ frame.shifted = none := by
  rcases hi with hi | ⟨edge, node, shifts, hi⟩ <;> simp only [Active, hi] at h
  · exact ⟨h.1, h.2.1⟩
  · exact ⟨h.1, h.2.1⟩

/-- A frame in which nothing waits is that of an idle draft. -/
theorem Active.idle (h : frame.Active draft) (hp : frame.pending.isNone = true)
    (hs : frame.shifted.isSome = false) : draft.Idle := by
  cases hstage : draft.stage with
  | resting => exact .inl hstage
  | bound edge node shifts => exact .inr ⟨edge, node, shifts, hstage⟩
  | waiting edge =>
    simp only [Active, hstage] at h
    simp [h.1] at hp
  | shifting edge node shifts =>
    simp only [Active, hstage] at h
    simp [h.2.1] at hs

/-- To settle a draft changes nothing in what the frame holds. -/
theorem Tells.settled (h : frame.Tells draft) (hi : draft.Idle) :
    frame.Tells draft.settled := { h with
  items := by rw [h.items, hi.items, Draft.idle_settled.items, Draft.allSegments_settled]
  properties := by rw [h.properties, Draft.allSegments_settled]
  scope := by
    have := h.scope
    rwa [hi.mentions, ← Draft.allSegments_settled, ← Draft.idle_settled.mentions] at this
  orderly := by
    rw [Draft.allSegments_settled]
    exact h.orderly
  referable := nofun }

/-- Where a shift could follow, it could not once there is another item. -/
theorem Active.settled (h : frame.Active draft) (ht : frame.Tells draft) (hi : draft.Idle) :
    frame.Passive draft.settled := by
  obtain ⟨hp, hs⟩ := h.of_idle hi
  refine ⟨hp, hs, ?_⟩
  intro target hmem
  rcases hi with hi | ⟨edge, node, shifts, hi⟩
  · simp only [Active, hi] at h
    exact Nat.le_of_lt (h.2.2 target hmem)
  · simp only [Active, hi] at h
    obtain ⟨-, -, hlast, hshifts⟩ := h
    obtain rfl : draft.target edge = target := by simpa [hlast] using hmem
    have hsize : frame.items.size = draft.items.length := by
      rw [← ht.items, Array.length_toList]
    rw [hsize, hshifts]
    simp [Draft.items, Draft.allSegments, Draft.target, hi, bound, Segment.items]
    omega

/-- An item that mentions no property is a segment of its own. -/
theorem Tells.push (h : frame.Tells draft) (hs : draft.stage = .resting) {item : Item Node}
    {segment : Segment Node} (hitem : segment.items = [item]) (hm : segment.mention? = none) :
    (frame.push item).Tells (draft.add segment) := by
  have hall : draft.allSegments = draft.segments := by
    simp [Draft.allSegments, hs]
  have hi : draft.Idle := .inl hs
  refine ⟨h.start, h.label, h.owed, h.held, ?_, ?_, ?_, ?_, nofun⟩
  · rw [Draft.items_add, hitem, ← hall, ← hi.items, ← h.items]
    exact Array.toList_push
  · rw [Draft.allSegments_add, properties_concat, ← hall, ← h.properties]
    cases segment with
    | content | embedded => rfl
    | arrayStart | value => cases hm
  · rw [Draft.mentions_add, hm, ← hall, ← hi.mentions]
    rw [Option.toList_none, List.append_nil]
    exact h.scope
  · rw [Draft.allSegments_add, mentions_append, ← hall]
    simpa [hm] using h.orderly

/-- After one more item, what could follow can follow no longer. -/
theorem Passive.push (h : frame.Passive draft) (hs : draft.stage = .resting) (item : Item Node)
    (segment : Segment Node) : (frame.push item).Active (draft.add segment) := by
  obtain ⟨hp, hshift, hlast⟩ := h
  simp only [hs] at hlast
  refine ⟨hp, hshift, fun target hmem => ?_⟩
  have := hlast target hmem
  simp only [Frame.push, Array.size_push]
  omega

section Waiting

variable (h : frame.Tells draft)

include h

/-- A text is added to the content. -/
theorem literal_after (ha : frame.Active draft) (hi : draft.Idle) (text : String) :
    (frame.push (.literal text)).After frame (draft.settled.add (.content text)) where
  tells := (h.settled hi).push rfl rfl rfl
  active := (ha.settled h hi).push rfl _ _
  destination := rfl
  withinOwed := rfl

/-- A frame with a further reference that may come next tells that the reference waits. -/
theorem Tells.pushReference (hi : draft.Idle)
    (hr : Referable (Segment.mentions draft.allSegments) edge) :
    ∃ scope, frame.scope.consume edge =
        (scope, .ok (indexOf (Segment.mentions draft.allSegments) edge)) ∧
      Frame.Tells { frame.push (.reference (edge.marked false)) with scope := scope }
        (draft.settled.inStage (.waiting edge)) := by
  have hcounts : frame.scope.Counts (Segment.mentions draft.allSegments) := by
    rw [← hi.mentions]
    exact h.scope
  obtain ⟨scope, hconsume, hscope, -⟩ := Scope.consume_of_waiting hcounts hr
  refine ⟨scope, hconsume, ⟨h.start, h.label, h.owed, h.held, ?_, ?_, ?_, ?_, ?_⟩⟩
  · show (frame.items.push _).toList = _
    rw [Array.toList_push, h.items, hi.items]
    simp
  · show frame.properties.toList = _
    simpa using h.properties
  · simpa using hscope
  · simpa using h.orderly
  · rintro _ ⟨⟩
    exact hr

theorem Tells.size_of_idle (hi : draft.Idle) : frame.items.size = width draft.allSegments := by
  rw [width, ← hi.items, ← h.items, Array.length_toList]

/-- A reference that may come next waits for its value. -/
theorem reference_of_referable (ha : frame.Active draft)
    (hi : draft.Idle) (hr : Referable (Segment.mentions draft.allSegments) edge) :
    ∃ next, frame.reference edge = .ok next ∧
      next.After frame (draft.settled.inStage (.waiting edge)) := by
  have hpending := (ha.of_idle hi).1
  obtain ⟨scope, hconsume, ht⟩ := h.pushReference hi hr
  have hok : frame.reference edge = .ok { frame.push (.reference (edge.marked false)) with
      scope := scope
      pending := some ⟨edge.marked false,
        indexOf (Segment.mentions draft.allSegments) edge, frame.items.size⟩
      lastBound := none
      shifts := 0 } := by
    simp only [Frame.reference, hpending, hconsume]
    rfl
  refine ⟨_, hok, ⟨{ ht with }, ⟨?_, (ha.of_idle hi).2, rfl, rfl⟩, rfl, rfl⟩⟩
  show some _ = some _
  rw [h.size_of_idle hi]
  rfl

/-- A reference that is admitted may come next. -/
theorem referable_of_reference (ha : frame.Active draft)
    (hshifted : frame.shifted.isSome = false) (hr : frame.reference edge = .ok next) :
    draft.Idle ∧ Referable (Segment.mentions draft.allSegments) edge := by
  have hi : draft.Idle := by
    refine ha.idle ?_ hshifted
    unfold Frame.reference at hr
    split at hr
    · cases hr
    · rename_i hpending
      rw [hpending]
      rfl
  have hcounts : frame.scope.Counts (Segment.mentions draft.allSegments) := by
    rw [← hi.mentions]
    exact h.scope
  by_cases hm : Referable (Segment.mentions draft.allSegments) edge
  · exact ⟨hi, hm⟩
  · obtain ⟨scope, error, hconsume⟩ := Scope.consume_of_not_referable hcounts hm
    simp [Frame.reference, (ha.of_idle hi).1, hconsume, refuse] at hr

/-! ### Values -/

/-- An array has been started if the segments say so. -/
theorem Tells.hasArray (name : String) :
    frame.hasArray name =
      (started (Segment.mentions draft.allSegments) name &&
        !Mention.taken (Segment.mentions draft.allSegments) name) := by
  rw [Frame.hasArray, Register.get?_eq, h.properties, Segment.get?_properties h.orderly,
    Segment.propertyOf]
  cases hs : Segment.singlesOf draft.allSegments name with
  | nil =>
    rw [Segment.singlesOf_eq_nil_iff.mp hs]
    cases started (Segment.mentions draft.allSegments) name <;> rfl
  | cons first rest => rw [Segment.taken_of_singlesOf hs, Bool.not_true, Bool.and_false]

/-- A value may be bound to a reference if and only if the mentions before it allow it. -/
theorem Tells.checkTarget_iff (hs : draft.stage = .waiting edge) :
    frame.checkTarget (draft.target edge) = .ok () ↔
      Bindable (Segment.mentions draft.segments) edge := by
  have harray := h.hasArray edge.name
  have hall := Draft.allSegments_of_waiting hs
  rw [hall] at harray
  simp only [Frame.checkTarget, Draft.target, Reference.marked_isReserved, Reference.marked_name,
    Reference.marked_isArray, harray, Bindable]
  cases edge.isReserved with
  | true => simp
  | false =>
    cases edge.isArray <;> cases started (Segment.mentions draft.segments) edge.name <;>
      cases Mention.taken (Segment.mentions draft.segments) edge.name <;> simp

/-- A value is admitted if and only if a reference waits that may be given one. -/
theorem takePending_iff (ha : frame.Active draft) (kind : TagKind) :
    frame.takePending kind = .ok (target, next) ↔ ∃ edge, draft.stage = .waiting edge ∧
        Bindable (Segment.mentions draft.segments) edge ∧
        target = draft.target edge ∧ next = frame.taken := by
  cases hs : draft.stage with
  | waiting edge =>
    simp only [Active, hs] at ha
    have hcheck := h.checkTarget_iff hs
    simp only [takePending, ha.1]
    cases hc : frame.checkTarget (draft.target edge) with
    | ok => simp_all [eq_comm, Frame.taken]
    | error error =>
      simp only [hc, reduceCtorEq, false_iff] at hcheck
      simp only [refuse, reduceCtorEq, false_iff]
      rintro ⟨_, ⟨⟩, hb, -⟩
      exact hcheck hb
  | resting | bound | shifting =>
    simp only [Active, hs] at ha
    simp [takePending, ha.1, refuse]

/-- The frame whose reference waits no longer tells the same draft. -/
theorem Tells.taken : frame.taken.Tells draft :=
  { h with }

end Waiting

theorem Active.taken (ha : frame.Active draft) (hs : draft.stage = .waiting edge)
    (hb : edge.isReserved = false → Bindable (Segment.mentions draft.segments) edge) :
    frame.taken.Passive draft := by
  simp only [Active, hs] at ha
  simp only [Passive, hs]
  exact ⟨rfl, ha.2.1, ha.2.2.1, ha.2.2.2, hb⟩

/-- The reference at a place is marked, and all else stays. -/
theorem toList_markReference {items : Array (Item Node)} {before after : List (Item Node)}
    (h : items.toList = before ++ .reference edge :: after)
    (mark : ReferenceFlags → ReferenceFlags) :
    (markReference items before.length mark).toList =
      before ++ .reference { edge with flags := mark edge.flags } :: after := by
  rw [markReference, Array.toList_modify, h]
  exact List.modifyTailIdx_add _ 0 _ _

/-- The first value of a target is bound to it. -/
theorem toList_setProperty (hname : binding.reference.name = target.reference.name)
    (hkind : binding.reference.isArray = target.reference.isArray)
    (harray : target.reference.isArray = true → ∃ bindings,
      Entries.get? target.reference.name properties.toList = some (.array bindings) ∧
      target.index = some bindings.size) :
    (setProperty properties target binding).toList =
      bindTo binding.reference binding.node properties.toList := by
  rw [setProperty, bindTo, hname, hkind]
  by_cases ha : target.reference.isArray = true
  · obtain ⟨bindings, hget, hindex⟩ := harray ha
    simp [ha, Register.toList_modify, hget, bindElement, setBinding, hindex]
  · simp [ha, Register.toList_insert]

/-- A later value of a target takes the place of the one before. -/
theorem toList_setProperty_again {earlier : Entries (Property Node)} (first : Binding Node)
    (hfirst : first.reference.name = target.reference.name)
    (hname : binding.reference.name = target.reference.name)
    (hkind : first.reference.isArray = target.reference.isArray)
    (hkind' : binding.reference.isArray = target.reference.isArray)
    (harray : target.reference.isArray = true → ∃ bindings,
      Entries.get? target.reference.name earlier = some (.array bindings) ∧
      target.index = some bindings.size)
    (h : properties.toList = bindTo first.reference first.node earlier) :
    (setProperty properties target binding).toList =
      bindTo binding.reference binding.node earlier := by
  rw [bindTo, hfirst, hkind] at h
  rw [setProperty, bindTo, hname, hkind']
  by_cases ha : target.reference.isArray = true
  · obtain ⟨bindings, hget, hindex⟩ := harray ha
    have hset : (bindings.push first).setIfInBounds bindings.size binding =
        bindings.push binding := by
      apply Array.ext
      · simp
      · intro i hi hi'
        simp [Array.getElem_push]
        grind
    simp only [ha, if_true, hget] at h ⊢
    rw [Register.toList_modify, h]
    simp [bindElement, setBinding, hindex, hset]
  · simp only [ha, Bool.false_eq_true, if_false] at h ⊢
    rw [Register.toList_insert, h, Entries.insert_insert_self]

/-- A value is bound to a target whose array, if it has one, has been started. -/
theorem bind_eq
    (h : target.reference.isArray = true → frame.hasArray target.reference.name = true) :
    frame.bind target node = .ok { frame with
      items := markReference (frame.items.push .gap) target.position fun _ =>
        { target.reference.flags with hasGap := node.hasGap }
      properties := setProperty frame.properties target
        ⟨{ target.reference with
          flags := { target.reference.flags with hasGap := node.hasGap } }, node⟩
      lastBound := some target } := by
  have hcond : (target.reference.isArray && !frame.hasArray target.reference.name) = false := by
    cases ha : target.reference.isArray with
    | false => rfl
    | true => simp [h ha]
  show (attach _ _ _ >>= _) = _
  rw [attach]
  show ((if (_ && !frame.hasArray _) = true then _ else _ : Attempt Frame Frame) >>= _) = _
  rw [hcond]
  rfl

section Bound

variable (h : frame.Tells draft)

include h

/-- A value is bound to a reference that may be given one. -/
theorem bind_of_bindable (hs : draft.stage = .waiting edge)
    (hb : Bindable (Segment.mentions draft.segments) edge)
    (hpending : frame.pending = none) (hshifted : frame.shifted = none)
    (hshifts : frame.shifts = 0) (node : Node) :
    ∃ next, frame.bind (draft.target edge) node = .ok next ∧
      next.After frame (draft.inStage (.bound edge node 0)) := by
  have hall := Draft.allSegments_of_waiting hs
  have ho : Mention.Orderly [] (Segment.mentions draft.segments) := hall ▸ h.orderly
  have harray : edge.isArray = true → frame.hasArray edge.name = true := by
    intro ha
    rw [h.hasArray, hall, (hb.2 ha).1, (hb.2 ha).2]
    rfl
  refine ⟨_, bind_eq harray, ⟨⟨h.start, h.label, h.owed, h.held, ?_, ?_, ?_, ?_, nofun⟩,
    ⟨hpending, hshifted, rfl, hshifts⟩, rfl, rfl⟩⟩
  · have hitems : (frame.items.push .gap).toList =
        allItems draft.segments ++ .reference (edge.marked false) :: [.gap] := by
      rw [Array.toList_push, h.items, Draft.items, hall, hs]
      simp
    refine (toList_markReference hitems _).trans ?_
    simp [bound, Segment.items, Reference.marked, Draft.target]
  · refine (toList_setProperty rfl rfl ?_).trans ?_
    · rw [h.properties, hall]
      exact Segment.get?_properties_of_bindable ho hb
    · rw [h.properties, hall, Draft.allSegments_inStage, Stage.segments, properties_concat]
      rfl
  · have hscope := h.scope
    rw [Draft.mentions, hall, hs] at hscope
    simpa [bound, mention?, hb.1] using hscope
  · rw [Draft.allSegments_inStage, Stage.segments, mentions_append, orderly_append]
    exact ⟨ho, ⟨(h.referable edge hs).marked false, hb⟩, trivial⟩

/-- A value is bound to the reference that waited for it. -/
theorem bind_of_waiting (hp : frame.Passive draft)
    (hs : draft.stage = .waiting edge) (hres : edge.isReserved = false) (node : Node) :
    ∃ next, frame.bind (draft.target edge) node = .ok next ∧
      next.After frame (draft.inStage (.bound edge node 0)) := by
  simp only [Passive, hs] at hp
  obtain ⟨hpending, hshifted, -, hshifts, hb⟩ := hp
  exact bind_of_bindable h hs (hb hres) hpending hshifted hshifts node

/-- A node that took back a shifted value is bound in its place. -/
theorem bind_of_shifting {present : Node}
    (hp : frame.Passive draft) (hs : draft.stage = .shifting edge present shifts) (node : Node) :
    ∃ next, frame.bind (draft.target edge) node = .ok next ∧
      next.After frame (draft.inStage (.bound edge node (shifts + 1))) := by
  have hall := Draft.allSegments_of_shifting hs
  have horder := h.orderly
  rw [hall, mentions_append, orderly_append] at horder
  obtain ⟨ho, ⟨hr, hb⟩, -⟩ := horder
  have hb : Bindable (Segment.mentions draft.segments) edge := hb
  have harray : edge.isArray = true → frame.hasArray edge.name = true := by
    intro ha
    rw [h.hasArray, hall, mentions_append, Mention.started_append, Mention.taken_append,
      (hb.2 ha).1, (hb.2 ha).2]
    simp [bound, mention?, ha]
  refine ⟨_, bind_eq harray, ⟨⟨h.start, h.label, h.owed, h.held, ?_, ?_, ?_, ?_,
    by rintro _ ⟨⟩⟩, ⟨hp.1, hp.2.1, rfl, ?_⟩, rfl, rfl⟩⟩
  · have hitems : (frame.items.push .gap).toList = allItems draft.segments ++
        .reference (edge.marked present.hasGap) :: .gap :: Segment.shiftItems 1 (shifts + 1) := by
      rw [Array.toList_push, h.items, Draft.items, hall, hs, Segment.shiftItems_concat]
      simp [bound, Segment.items, Nat.add_comm]
    refine (toList_markReference hitems _).trans ?_
    simp [bound, Segment.items, Reference.marked, Draft.target]
  · have hproperties := h.properties
    rw [hall, properties_concat] at hproperties
    refine (toList_setProperty_again ⟨edge.marked present.hasGap, present⟩ rfl rfl rfl rfl
      (Segment.get?_properties_of_bindable ho hb) hproperties).trans ?_
    rw [Draft.allSegments_inStage, Stage.segments, properties_concat]
    rfl
  · have hscope := h.scope
    rw [Draft.mentions, hall, hs] at hscope
    simpa [bound, mention?] using hscope
  · rw [Draft.allSegments_inStage, Stage.segments, mentions_append, orderly_append]
    exact ⟨ho, ⟨hr, hb⟩, trivial⟩
  · simp only [Passive, hs] at hp
    exact hp.2.2.2

/-- A property is there if and only if its name has been mentioned. -/
theorem Tells.contains (name : String) :
    frame.properties.contains name = named (Segment.mentions draft.allSegments) name := by
  rw [Register.contains_eq, h.properties, Segment.isSome_get?_properties h.orderly]

/-- An array starts if its name has no property yet. -/
theorem startArray_of_startable (ha : frame.Active draft) (hs : draft.stage = .waiting edge)
    (hm : Startable (Segment.mentions draft.segments) edge) :
    ∃ next, frame.startArray = .ok next ∧
      next.After frame (draft.add (.arrayStart (edge.marked false))) := by
  have hall := Draft.allSegments_of_waiting hs
  have hcontains := h.contains edge.name
  rw [hall, hm.2.2] at hcontains
  simp only [Active, hs] at ha
  obtain ⟨hpending, hshifted, hlast, hshifts⟩ := ha
  have hok : frame.startArray = .ok { frame.push .arrayStart with
      pending := none
      properties := frame.properties.insert edge.name (.array #[])
      scope := frame.scope.startArray edge.name } := by
    simp [startArray, hpending, Draft.target, hm.1, hm.2.1, hcontains, Frame.push]
  refine ⟨_, hok, ⟨⟨h.start, h.label, h.owed, h.held, ?_, ?_, ?_, ?_, nofun⟩,
    ⟨rfl, hshifted, by simp [hlast, Frame.push]⟩, rfl, rfl⟩⟩
  · show (frame.items.push _).toList = _
    rw [Array.toList_push, h.items, Draft.items, hall, hs]
    simp [Segment.items]
  · show (frame.properties.insert _ _).toList = _
    rw [Register.toList_insert, h.properties, hall, Draft.allSegments_add, properties_concat]
    rfl
  · have hscope := h.scope
    rw [Draft.mentions, hall, hs, Stage.mentions, hm.1] at hscope
    simpa [mention?] using hscope.startArray hm
  · rw [Draft.allSegments_add, mentions_append, orderly_append]
    exact ⟨hall ▸ h.orderly, ⟨(h.referable edge hs).marked false, hm⟩, trivial⟩

/-- An array that was started has a reference, and its name had no property. -/
theorem startable_of_startArray (ha : frame.Active draft) (hr : frame.startArray = .ok next) :
    ∃ edge, draft.stage = .waiting edge ∧ Startable (Segment.mentions draft.segments) edge := by
  cases hs : draft.stage with
  | waiting edge =>
    have hall := Draft.allSegments_of_waiting hs
    have hcontains := h.contains edge.name
    rw [hall] at hcontains
    simp only [Active, hs] at ha
    refine ⟨edge, rfl, ?_⟩
    simp only [startArray, ha.1, Draft.target, Reference.marked_isArray,
      Reference.marked_isReserved, Reference.marked_name, hcontains] at hr
    split at hr
    · simp [refuse] at hr
    · split at hr
      · simp [refuse] at hr
      · rename_i hkind hnamed
        simp only [Bool.or_eq_true, Bool.not_eq_true', not_or, Bool.not_eq_false,
          Bool.not_eq_true] at hkind hnamed
        exact ⟨hkind.2, hkind.1, hnamed⟩
  | resting | bound | shifting =>
    simp only [Active, hs] at ha
    simp [startArray, ha.1, refuse] at hr

/-! ### Shifts -/

/-- The number of items up to a value with its shifts. -/
theorem Tells.size_of_bound (hs : draft.stage = .bound edge node shifts) :
    frame.items.size = (draft.target edge).position + 2 * (shifts + 1) := by
  rw [← Array.length_toList, h.items, Draft.items, Draft.allSegments, hs]
  simp [bound, Segment.items, Draft.target]
  omega

/-- The value that a shift may detach is found under its reference. -/
theorem Tells.bound?_of_bound (hs : draft.stage = .bound edge node shifts) :
    frame.bound? (draft.target edge) = some ⟨edge.marked node.hasGap, node⟩ := by
  have hall := Draft.allSegments_of_bound hs
  have horder := h.orderly
  rw [hall, mentions_append, orderly_append] at horder
  obtain ⟨ho, ⟨-, hb⟩, -⟩ := horder
  show (frame.properties.get? edge.name).bind
    (Property.binding? (indexOf (Segment.mentions draft.segments) edge)) = _
  rw [Register.get?_eq, h.properties, hall, properties_concat]
  show (Entries.get? edge.name (bindTo _ _ _)).bind _ = _
  rw [bindTo, Reference.marked_isArray, Reference.marked_name]
  by_cases ha : edge.isArray = true
  · obtain ⟨bindings, hget, hindex⟩ := Segment.get?_properties_of_bindable ho hb ha
    have hindex : indexOf (Segment.mentions draft.segments) edge = some bindings.size := hindex
    simp only [Reference.marked_name] at hget
    simp [ha, hget, hindex, Property.binding?]
  · simp [ha, Property.binding?]

/-- A shift detaches the last value. -/
theorem shift_of_bound (ha : frame.Active draft) (hs : draft.stage = .bound edge node shifts) :
    ∃ next, frame.shift (shifts + 1) = .ok next ∧
      next.After frame (draft.inStage (.shifting edge node shifts)) := by
  have hsize := h.size_of_bound hs
  have hbound := h.bound?_of_bound hs
  have hall := Draft.allSegments_of_bound hs
  simp only [Active, hs] at ha
  obtain ⟨hpending, -, hlast, hshifts⟩ := ha
  have hok : frame.shift (shifts + 1) = .ok { frame.push (.shift (shifts + 1)) with
      lastBound := none
      shifts := shifts + 1
      shifted := some (draft.target edge, node) } := by
    have hbound' : bound? { frame with pending := none, lastBound := none, shifts := shifts + 1 }
        (draft.target edge) = some ⟨edge.marked node.hasGap, node⟩ := hbound
    simp [shift, hpending, hlast, hshifts, hsize, hbound', Frame.push]
  refine ⟨_, hok, ⟨⟨h.start, h.label, h.owed, h.held, ?_, ?_, ?_, ?_, nofun⟩,
    ⟨hpending, rfl, rfl, rfl⟩, rfl, rfl⟩⟩
  · show (frame.items.push _).toList = _
    rw [Array.toList_push, h.items, Draft.items, hall, hs]
    simp
  · exact h.properties.trans (by rw [hall]; rfl)
  · have hscope := h.scope
    rwa [Draft.mentions, hall, hs] at hscope
  · have horder := h.orderly
    rwa [hall] at horder

end Bound

/-- A shift that is admitted continues the shifts of the last value. -/
theorem bound_of_shift {index : Nat} (ha : frame.Active draft) (hr : frame.shift index = .ok next) :
    ∃ edge node shifts, draft.stage = .bound edge node shifts ∧ index = shifts + 1 := by
  unfold shift at hr
  split at hr
  · cases hr
  · split at hr
    · cases hr
    · rename_i hpending last target hlast
      simp only [ne_eq, ite_not] at hr
      split at hr
      · rename_i hindex
        split at hr
        · rename_i hsize
          cases hs : draft.stage with
          | bound edge node shifts =>
            simp only [Active, hs] at ha
            exact ⟨edge, node, shifts, rfl, hindex.trans (by rw [ha.2.2.2])⟩
          | resting =>
            -- an item more stands after the last value than a shift needs
            simp only [Active, hs] at ha
            have := ha.2.2 target hlast
            omega
          | waiting | shifting =>
            simp only [Active, hs] at ha
            rw [ha.2.2.1] at hlast
            cases hlast
        · cases hr
      · cases hr

/-! ### Nodes within nodes -/

/-- The value that a node has to take back is bound to the reference that waits. -/
theorem Tells.hold (h : frame.Tells draft) : frame.hold.Tells draft.hold := { h with
  owed := rfl
  held := by
    show some frame.items.size = some draft.items.length
    rw [← h.items, Array.length_toList] }

/-- A node opens where the draft says so. -/
theorem opening_of_opens (start : OpenTag) {parent : Draft} (h : frame.Tells draft)
    (ha : frame.Active draft) (ho : draft.Opens start.flags.isEmbedded parent owed) :
    ∃ next, frame.opening start = .ok (next, parent.destination, owed) ∧ next.Tells parent ∧
      next.Passive parent ∧ next.destination = frame.destination ∧
      next.withinOwed = frame.withinOwed := by
  generalize he : start.flags.isEmbedded = embedded at ho
  cases ho with
  | beside hi =>
    obtain ⟨hpending, hshifted, hlast⟩ := ha.settled h hi
    refine ⟨frame.taken, ?_, (h.settled hi).taken, ⟨rfl, hshifted, hlast⟩, rfl, rfl⟩
    simp [opening, hshifted, he, hpending, Draft.destination, Draft.settled, Frame.taken]
  | reserved hs hr =>
    refine ⟨frame.taken, ?_, h.taken, ha.taken hs (by simp [hr]), rfl, rfl⟩
    simp only [Active, hs] at ha
    simp [opening, ha.1, ha.2.1, he, Draft.target, hr, Draft.destination, hs, Frame.taken]
  | value hs hb =>
    refine ⟨frame.taken, ?_, h.taken, ha.taken hs fun _ => hb, rfl, rfl⟩
    have htake := (takePending_iff h ha .opening).mpr ⟨_, hs, hb, rfl, rfl⟩
    simp only [Active, hs] at ha
    simp only [opening, ha.2.1, he, Draft.destination, hs, hb.1, htake]
    rfl
  | shifted hs =>
    simp only [Active, hs] at ha
    obtain ⟨hpending, hshifted, hlast, hshifts⟩ := ha
    refine ⟨{ frame with shifted := none }, ?_, { h with }, ?_, rfl, rfl⟩
    · simp [opening, hshifted, Draft.destination, hs]
    · simp only [Passive, hs]
      exact ⟨hpending, trivial, hlast, hshifts⟩

/-- Where a node was opened, the draft says that it may. -/
theorem opens_of_opening (start : OpenTag) {destination : Option Target} (h : frame.Tells draft)
    (ha : frame.Active draft) (he : frame.shifted.isSome = true → start.flags.isEmbedded = false)
    (hr : frame.opening start = .ok (next, destination, owed)) :
    ∃ parent, draft.Opens start.flags.isEmbedded parent owed := by
  cases hs : draft.stage with
  | shifting edge node shifts =>
    have hact := ha
    simp only [Active, hs] at hact
    simp only [opening, hact.2.1, Except.ok.injEq, Prod.mk.injEq] at hr
    rw [← hr.2.2]
    rw [he (by rw [hact.2.1]; rfl)]
    exact ⟨draft, .shifted hs⟩
  | waiting edge =>
    have hact := ha
    simp only [Active, hs] at hact
    simp only [opening, hact.2.1, hact.1] at hr
    cases hemb : start.flags.isEmbedded with
    | true =>
      cases hres : edge.isReserved with
      | true =>
        simp only [hemb, Draft.target, Reference.marked_isReserved, hres, if_true,
          Except.ok.injEq, Prod.mk.injEq] at hr
        rw [← hr.2.2]
        exact ⟨draft, .reserved hs hres⟩
      | false => simp [hemb, Draft.target, hres, refuse] at hr
    | false =>
      simp only [hemb, Bool.false_eq_true, if_false] at hr
      obtain ⟨found, htake, hr⟩ := bind_eq_ok.mp hr
      obtain ⟨edge, hs, hb, -, -⟩ := (takePending_iff h ha .opening).mp htake
      obtain ⟨-, -, rfl⟩ : _ ∧ _ ∧ none = owed := by simpa [pure, Except.pure] using hr
      exact ⟨draft, .value hs hb⟩
  | resting | bound =>
    have hi : draft.Idle := by simp [Draft.Idle, hs]
    obtain ⟨hpending, hshifted⟩ := ha.of_idle hi
    simp only [opening, hshifted, hpending] at hr
    cases hemb : start.flags.isEmbedded with
    | true =>
      simp only [hemb, if_true, Except.ok.injEq, Prod.mk.injEq] at hr
      rw [← hr.2.2]
      exact ⟨_, .beside hi⟩
    | false =>
      simp only [hemb, Bool.false_eq_true, if_false] at hr
      obtain ⟨found, htake, -⟩ := bind_eq_ok.mp hr
      obtain ⟨edge, hs', -⟩ := (takePending_iff h ha .opening).mp htake
      rw [hs] at hs'
      cases hs'

/-- A node may close if and only if nothing waits in it and it has nothing left to take back. -/
theorem checkClose_iff (h : frame.Tells draft) (ha : frame.Active draft) :
    frame.checkClose = .ok () ↔ draft.Idle ∧ draft.owed = none := by
  rw [← h.owed]
  cases hs : draft.stage with
  | resting | bound =>
    have hi : draft.Idle := by simp [Draft.Idle, hs]
    obtain ⟨hpending, hshifted⟩ := ha.of_idle hi
    cases howed : frame.owed <;> simp [checkClose, hpending, hshifted, howed, hi]
  | waiting edge | shifting edge node shifts =>
    simp only [Active, hs] at ha
    simp [checkClose, ha.1, ha.2.1, Draft.Idle, hs]

/-- A frame in which nothing waits makes the node of its draft. -/
theorem toNode_of_tells (h : frame.Tells draft) (hi : draft.Idle) :
    frame.toNode = draft.toNode := by
  have ht := h.settled hi
  rw [toNode_eq, ht.start, ht.label, ht.items, ht.properties, ht.held, Draft.toNode,
    Outline.toNode, Draft.idle_settled.items, Draft.allSegments_settled]
  rfl

/-- A node embedded after a reserved reference is a segment together with it. -/
theorem embedded_of_reserved (h : frame.Tells draft) (hp : frame.Passive draft)
    (hs : draft.stage = .waiting edge) (hres : edge.isReserved = true) (node : Node) :
    (frame.push (.embedded node)).After frame
      (draft.add (.embedded (some (edge.marked false)) node)) := by
  have hall := Draft.allSegments_of_waiting hs
  simp only [Passive, hs] at hp
  obtain ⟨hpending, hshifted, hlast, -⟩ := hp
  refine ⟨⟨h.start, h.label, h.owed, h.held, ?_, ?_, ?_, ?_, nofun⟩,
    ⟨hpending, hshifted, by simp [hlast, Frame.push]⟩, rfl, rfl⟩
  · show (frame.items.push _).toList = _
    rw [Array.toList_push, h.items, Draft.items, hall, hs]
    simp [Segment.items]
  · exact h.properties.trans (by rw [hall, Draft.allSegments_add, properties_concat]; rfl)
  · have hscope := h.scope
    rw [Draft.mentions, hall, hs, Stage.mentions, if_pos hres] at hscope
    rw [Draft.mentions_add]
    exact hscope
  · have ho := h.orderly
    rw [hall] at ho
    simpa [mention?] using ho

/-- A node that was opened in a frame is bound or embedded there when it is finished. -/
theorem receive_after (h : frame.Tells draft) (hp : frame.Passive draft) (node : Node) :
    ∃ next, frame.receive draft.destination node = .ok next ∧
      next.After frame (draft.receive node) := by
  cases hs : draft.stage with
  | resting =>
    refine ⟨frame.push (.embedded node), by simp [receive, Draft.destination, hs], ?_⟩
    rw [Draft.receive, hs]
    exact ⟨h.push hs rfl rfl, hp.push hs _ _, rfl, rfl⟩
  | bound => simp [Passive, hs] at hp
  | waiting edge =>
    cases hres : edge.isReserved with
    | true =>
      refine ⟨frame.push (.embedded node), by simp [receive, Draft.destination, hs, hres], ?_⟩
      simp only [Draft.receive, hs, hres, if_true]
      exact embedded_of_reserved h hp hs hres node
    | false =>
      obtain ⟨next, hbind, hafter⟩ := bind_of_waiting h hp hs hres node
      refine ⟨next, by simp [receive, Draft.destination, hs, hres, hbind], ?_⟩
      simpa [Draft.receive, hs, hres] using hafter
  | shifting edge present shifts =>
    obtain ⟨next, hbind, hafter⟩ := bind_of_shifting h hp hs node
    refine ⟨next, by simp [receive, Draft.destination, hs, hbind], ?_⟩
    simpa [Draft.receive, hs] using hafter

end Frame

end TagTree
