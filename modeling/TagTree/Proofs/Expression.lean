import TagTree.Proofs.Run

/-!
# Gaps that are filled

What an expression does to the open node whose gap it fills, in terms of drafts: each of its values
is bound to a reference of its own (`Draft.fill`). A node gives one value, and so does a missing
expression, which leaves the gap; a fragment gives all its values, and if there are none takes the
reference back.
-/

namespace TagTree

/-- The reference as a node keeps it, marked as that of an expression. -/
def Reference.asExpression (edge : Reference) : Reference :=
  { edge.marked false with flags := { (edge.marked false).flags with expression := true } }

namespace Reference

@[simp] theorem asExpression_name (edge : Reference) : edge.asExpression.name = edge.name := rfl

@[simp] theorem asExpression_isArray (edge : Reference) :
    edge.asExpression.isArray = edge.isArray := rfl

@[simp] theorem asExpression_isReserved (edge : Reference) :
    edge.asExpression.isReserved = edge.isReserved := rfl

@[simp] theorem marked_asExpression (edge : Reference) :
    edge.asExpression.marked false = edge.asExpression := rfl

end Reference

/-- The draft in which one more value is bound to a reference. -/
def Draft.give (draft : Draft) (edge : Reference) (node : Node) : Draft :=
  draft.settled.inStage (.bound edge node 0)

/-- The draft whose waiting reference is replaced by references to the given values. -/
def Draft.fill (draft : Draft) (edge : Reference) (nodes : List Node) : Draft :=
  nodes.foldl (fun draft node => draft.give edge node) (draft.inStage .resting)

theorem Draft.fill_cons (draft : Draft) (edge : Reference) (node : Node) (nodes : List Node) :
    draft.fill edge (node :: nodes) = nodes.foldl (fun draft node => draft.give edge node)
        (draft.inStage (.bound edge node 0)) := by
  simp [fill, give, inStage, settled, allSegments, Stage.segments]

/-- The values that an expression gives to a gap. -/
def Tree.fillers (tree : Tree) : List Node :=
  if tree.root.type = .fragment then tree.root.directory.values.map Node.withoutHold
  else [tree.root.withoutHold]

/-- A value of a reference does not keep it from being given another one. -/
theorem Mention.Bindable.value {mentions : List Mention} {edge : Reference}
    (hb : Bindable mentions edge) : Bindable (mentions ++ [.value (edge.marked false)]) edge := by
  refine ⟨hb.1, fun ha => ?_⟩
  obtain ⟨hstarted, htaken⟩ := hb.2 ha
  simp [hstarted, htaken, ha]

namespace Scope

variable {scope : Scope} {mentions : List Mention} {edge other : Reference}

/-- The counters depend on the name and the kind of a reference only. -/
theorem Counts.congr (h : Counts scope (mentions ++ [.value edge])) (hname : other.name = edge.name)
    (harray : other.isArray = edge.isArray) : Counts scope (mentions ++ [.value other]) where
  count name := by simpa [hname, harray] using h.count name
  scalars name := by simpa [hname, harray] using h.scalars name

/-- The last element of an array is given back. -/
theorem Counts.retract (h : Counts scope (mentions ++ [.value edge]))
    (ha : edge.isArray = true) : Counts (scope.retract edge.name) mentions := by
  have hown : scope.arrays.getD edge.name 0 = Mention.elements mentions edge.name + 1 := by
    simpa [ha, Scope.count] using h.count edge.name
  rw [Scope.retract]
  cases hget : scope.arrays[edge.name]? with
  | none => simp [Std.TreeMap.getD_eq_getD_getElem?, hget] at hown
  | some count =>
    obtain rfl : count = Mention.elements mentions edge.name + 1 := by
      simpa [Std.TreeMap.getD_eq_getD_getElem?, hget] using hown
    refine ⟨fun name => ?_, fun name => ?_⟩
    · have hcount := h.count name
      rw [count_setCount]
      by_cases hn : edge.name = name
      · simp [hn]
      · simpa [hn] using hcount
    · show scope.scalars.contains name = _
      simpa [ha] using h.scalars name

end Scope

namespace Frame

variable {frame next : Frame} {draft : Draft} {edge : Reference}

/-- The frame whose reference at a place is marked as that of an expression. -/
def withExpression (frame : Frame) (position : Nat) : Frame :=
  { frame with
    items := markReference frame.items position fun flags => { flags with expression := true } }

/-- The frame without the items from a place on, where a reference to the array stands. -/
def withoutReference (frame : Frame) (position : Nat) (name : String) : Frame :=
  { frame with
    items := frame.items.take position
    scope := frame.scope.retract name }

/-- The reference that waits is marked as that of an expression. -/
theorem Tells.withExpression (h : frame.Tells draft) (hs : draft.stage = .waiting edge)
    (hres : edge.isReserved = false) :
    (frame.withExpression (Segment.width draft.segments)).Tells
      (draft.inStage (.waiting edge.asExpression)) := by
  have hall := Draft.allSegments_of_waiting hs
  refine ⟨h.start, h.label, h.owed, h.held, ?_, ?_, ?_, ?_, ?_⟩
  · have hitems : frame.items.toList =
        Segment.allItems draft.segments ++ .reference (edge.marked false) :: [] := by
      rw [h.items, Draft.items, hall, hs]
      rfl
    refine (toList_markReference hitems _).trans ?_
    simp
    rfl
  · show frame.properties.toList = _
    simpa [hall] using h.properties
  · have hscope := h.scope
    rw [Draft.mentions, hall, hs, Stage.mentions, if_neg (by simp [hres])] at hscope
    rw [Draft.mentions_inStage, Stage.mentions, if_neg (by simp [hres])]
    show frame.scope.Counts _
    simpa using hscope.congr edge.asExpression_name edge.asExpression_isArray
  · simpa [hall] using h.orderly
  · rintro _ ⟨⟩
    exact (h.referable edge hs).marked false

/-- The reference that waits is taken back. -/
theorem Tells.withoutReference (h : frame.Tells draft) (hs : draft.stage = .waiting edge)
    (hres : edge.isReserved = false) (ha : edge.isArray = true) :
    (frame.withoutReference (Segment.width draft.segments) edge.name).Tells
      (draft.inStage .resting) := by
  have hall := Draft.allSegments_of_waiting hs
  refine ⟨h.start, h.label, h.owed, h.held, ?_, ?_, ?_, ?_, ?_⟩
  · show (frame.items.take _).toList = _
    rw [← Array.shrink_eq_take, Array.toList_shrink, h.items, Draft.items, hall, List.take_left]
    simp
  · show frame.properties.toList = _
    simpa [hall] using h.properties
  · have hscope := h.scope
    rw [Draft.mentions, hall, hs, Stage.mentions, if_neg (by simp [hres])] at hscope
    show (frame.scope.retract edge.name).Counts _
    simpa using hscope.retract ha
  · simpa [hall] using h.orderly
  · intro _ hstage
    cases hstage

end Frame

namespace Builder

variable {builder next : Builder} {frame after : Frame} {frames : List Frame} {draft : Draft}
  {edge : Reference} {target : Target}

theorem graft_eq_ok {node : Node} :
    builder.graft frame frames target node = .ok (next, after) ↔
      next = { builder with created := builder.created + node.size } ∧
      frame.bind target node.withoutHold = .ok after := by
  simp only [graft, bind_eq_ok, lift_eq_ok]
  constructor
  · rintro ⟨bound, hbind, hok⟩
    cases hok
    exact ⟨rfl, hbind⟩
  · rintro ⟨rfl, hbind⟩
    exact ⟨after, hbind, rfl⟩

/-- One more value is bound to a further reference to the same array. -/
theorem bind_further (h : frame.Tells draft) (ha : frame.Active draft) (hi : draft.Idle)
    (hshifts : frame.shifts = 0) (hb : Mention.Bindable (Segment.mentions draft.allSegments) edge)
    (hr : Mention.Referable (Segment.mentions draft.allSegments) edge) (node : Node) :
    ∃ scope index, frame.scope.consume edge = (scope, .ok index) ∧
      ∃ next, Frame.bind { frame.push (.reference (edge.marked false)) with scope := scope }
          ⟨edge.marked false, index, frame.items.size⟩ node = .ok next ∧
        next.After frame (draft.give edge node) := by
  obtain ⟨hpending, hshifted⟩ := ha.of_idle hi
  obtain ⟨scope, hconsume, ht⟩ := h.pushReference hi hr
  obtain ⟨next, hbind, hafter⟩ := Frame.bind_of_bindable ht rfl hb hpending hshifted hshifts node
  refine ⟨scope, _, hconsume, next, ?_, { hafter with }⟩
  rw [h.size_of_idle hi]
  exact hbind

/-- All nodes are bound to elements of the array. -/
theorem splice_spec {base : Frame} {nodes : List Node} (builder : Builder)
    (h : frame.After base draft) (hi : draft.Idle) (hshifts : frame.shifts = 0)
    (hb : Mention.Bindable (Segment.mentions draft.allSegments) edge)
    (hmarked : edge.marked false = edge) (ha : nodes ≠ [] → edge.isArray = true) :
    ∃ next last, builder.splice frame frames edge nodes = .ok next ∧ next.frames = last :: frames ∧
      next.Continues builder ∧ last.After base
        ((nodes.map Node.withoutHold).foldl (fun draft node => draft.give edge node) draft) := by
  induction nodes generalizing builder frame draft with
  | nil => exact ⟨_, frame, rfl, rfl, continues_withTop .., h⟩
  | cons node nodes ih =>
    have ha := ha (List.cons_ne_nil _ _)
    have hindex : edge.index = none := by rw [← hmarked]; rfl
    have hr : Mention.Referable (Segment.mentions draft.allSegments) edge :=
      .inr (by simp [ha, hindex])
    obtain ⟨scope, index, hconsume, bound, hbind, hafter⟩ :=
      bind_further h.tells h.active hi hshifts hb hr node.withoutHold
    have hscope : (frame.push (.reference edge)).scope.consume edge = (scope, .ok index) := hconsume
    have hsize : (frame.push (.reference edge)).items.size - 1 = frame.items.size := by
      simp [Frame.push]
    rw [hmarked] at hbind
    have hfurther : Mention.Bindable
        (Segment.mentions (draft.give edge node.withoutHold).allSegments) edge := by
      simpa [Draft.give, Segment.bound, Segment.mention?] using hb.value
    obtain ⟨next, last, hrest, hframes, hcontinues, hlast⟩ := ih
      { builder with created := builder.created + node.size }
      ⟨hafter.tells, hafter.active, hafter.destination.trans h.destination,
        hafter.withinOwed.trans h.withinOwed⟩
      (.inr ⟨_, _, _, rfl⟩) hafter.active.2.2.2 hfurther fun _ => ha
    refine ⟨next, last, ?_, hframes, { hcontinues with }, hlast⟩
    simp only [splice, hscope, hsize]
    exact bind_eq_ok.mpr ⟨_, graft_eq_ok.mpr ⟨rfl, hbind⟩, hrest⟩

theorem fill_eq (builder : Builder) (frame : Frame) (frames : List Frame) (draft : Draft)
    (edge : Reference) (root : Node) :
    builder.fill frame frames (draft.target edge) root =
      (let position := Segment.width draft.segments
      let marked := frame.withExpression position
      let target := (draft.inStage (.waiting edge.asExpression)).target edge.asExpression
      if root.type ≠ .fragment then do
        let (builder, frame) ← builder.graft marked frames target root
        return builder.withTop frames frame
      else if !edge.isArray && root.directory.values.length ≠ 1 then
        refuse (.fragmentArity edge.name root.directory.values.length)
          (builder.withTop frames marked)
      else
        match root.directory.values with
        | [] => return builder.withTop frames (marked.withoutReference position edge.name)
        | first :: rest => do
          let (builder, frame) ← builder.graft marked frames target first
          builder.splice frame frames edge.asExpression rest) := rfl

/-- A single property takes one value. -/
theorem length_fillers_of_fill {tree : Tree}
    (hf : builder.fill frame frames (draft.target edge) tree.root = .ok next)
    (ha : edge.isArray = false) : tree.fillers.length = 1 := by
  rw [fill_eq] at hf
  by_cases htype : tree.root.type = .fragment
  · refine Decidable.byContradiction fun hlength => ?_
    rw [Tree.fillers, if_pos htype, List.length_map] at hlength
    simp [htype, ha, hlength, refuse] at hf
  · rw [Tree.fillers, if_neg htype]
    rfl

/-- A tree fills the gap of the reference that waits with its values. -/
theorem exists_fill {tree : Tree} (h : frame.Tells draft) (hp : frame.Passive draft)
    (hs : draft.stage = .waiting edge)
    (hb : Mention.Bindable (Segment.mentions draft.segments) edge)
    (hn : edge.isArray = false → tree.fillers.length = 1) :
    ∃ next last, builder.fill frame frames (draft.target edge) tree.root = .ok next ∧
      next.frames = last :: frames ∧ next.Continues builder ∧
      last.After frame (draft.fill edge.asExpression tree.fillers) := by
  simp only [Frame.Passive, hs] at hp
  obtain ⟨hpending, hshifted, hlast, hshifts, -⟩ := hp
  have ht := h.withExpression hs hb.1
  have hgive := Frame.bind_of_bindable ht rfl hb hpending hshifted hshifts
  rw [fill_eq]
  by_cases htype : tree.root.type = .fragment
  · rw [Tree.fillers, if_pos htype, List.length_map] at hn
    rw [Tree.fillers, if_pos htype]
    have harity : (!edge.isArray && decide (tree.root.directory.values.length ≠ 1)) = false := by
      cases ha : edge.isArray with
      | true => rfl
      | false => simp [hn ha]
    simp only [htype, ne_eq, not_true_eq_false, if_false, harity, Bool.false_eq_true]
    cases hvalues : tree.root.directory.values with
    -- Without values the reference is taken back, which only an array allows.
    | nil =>
      have harray : edge.isArray = true := by
        rw [← Bool.not_eq_false]
        intro hscalar
        simpa [hvalues] using hn hscalar
      have hback := ht.withoutReference rfl hb.1 harray
      refine ⟨_, _, rfl, rfl, ⟨rfl, rfl, rfl, rfl⟩,
        ⟨hback, ⟨hpending, hshifted, fun target hmem => ?_⟩, rfl, rfl⟩⟩
      cases hlast.symm.trans hmem
    | cons first rest =>
      obtain ⟨bound, hbind, hafter⟩ := hgive first.withoutHold
      have harray : rest ≠ [] → edge.asExpression.isArray = true := by
        intro hne
        rw [Reference.asExpression_isArray, ← Bool.not_eq_false]
        intro hscalar
        refine hne (List.length_eq_zero_iff.mp ?_)
        simpa [hvalues] using hn hscalar
      have hfurther : Mention.Bindable (Segment.mentions
          (draft.inStage (.bound edge.asExpression first.withoutHold 0)).allSegments)
          edge.asExpression := by
        have hvalue : Mention.Bindable (_ ++ [.value (edge.asExpression.marked false)])
          edge.asExpression := Mention.Bindable.value hb
        simpa [Segment.bound, Segment.mention?] using hvalue
      obtain ⟨next, last, hrest, hframes, hcontinues, hlast⟩ := splice_spec
        { builder with created := builder.created + first.size } { hafter with }
        (.inr ⟨_, _, _, rfl⟩)
        hafter.active.2.2.2 hfurther rfl harray
      rw [List.map_cons, Draft.fill_cons]
      exact ⟨next, last, bind_eq_ok.mpr ⟨_, graft_eq_ok.mpr ⟨rfl, hbind⟩, hrest⟩, hframes,
        { hcontinues with }, { hlast with }⟩
  · obtain ⟨bound, hbind, hafter⟩ := hgive tree.root.withoutHold
    rw [Tree.fillers, if_neg htype, Draft.fill_cons, if_pos htype]
    exact ⟨_, bound, bind_eq_ok.mpr ⟨_, graft_eq_ok.mpr ⟨rfl, hbind⟩, rfl⟩, rfl,
      ⟨rfl, rfl, rfl, rfl⟩, { hafter with }⟩

end Builder

/-- What an expression, or its absence, does at a gap that asks for one. -/
inductive Fills : Phase → Option Tree → Phase → Prop where
  | gap {doctype : Option Doctype} {draft : Draft} {rest : List Draft} {edge : Reference}
    (hs : draft.stage = .waiting edge)
    (hb : Mention.Bindable (Segment.mentions draft.segments) edge) (ho : draft.owed = none) :
    Fills (.within doctype (draft :: rest)) none
      (.within doctype (draft.inStage (.bound edge .gap 0) :: rest))
  | tree {doctype : Option Doctype} {draft : Draft} {rest : List Draft} {edge : Reference}
    {tree : Tree} (hs : draft.stage = .waiting edge)
    (hb : Mention.Bindable (Segment.mentions draft.segments) edge) (ho : draft.owed = none)
    (hn : edge.isArray = false → tree.fillers.length = 1) :
    Fills (.within doctype (draft :: rest)) (some tree)
      (.within doctype (draft.fill edge.asExpression tree.fillers :: rest))

namespace Builder

variable {builder middle next : Builder} {phase : Phase} {tag : Tag} {expression : Option Tree}

/-- A builder that asks for an expression and is given one, or none, goes on by the rules. -/
theorem fills_of_supply (hb : builder.In phase)
    (hp : builder.push tag = .ok (.needsExpression, middle))
    (hs : middle.supply expression = .ok next) :
    ∃ after, Fills phase expression after ∧ next.In after ∧
      next.expressions = builder.expressions := by
  obtain ⟨doctype, draft, rest, frame, frames, edge, rfl, rfl,
    ⟨hframes, ⟨⟨h, ha, habove⟩, hbelow⟩, hstage, hbind, howed, -, -, rfl⟩⟩ := gap_of_push hb hp
  obtain ⟨hdoctype, hroot, -⟩ := hb.holds
  cases expression with
  | none =>
    obtain ⟨bound, hbound, hnext⟩ := bind_eq_ok.mp hs
    obtain ⟨found, hfound, hafter⟩ := bind_taken h ha hstage hbind .gap
    obtain rfl : found = bound := Except.ok.inj (hfound.symm.trans (lift_eq_ok.mp hbound))
    cases hnext
    exact ⟨_, .gap hstage hbind howed, ⟨rfl, hdoctype, hroot, hafter.running habove hbelow⟩, rfl⟩
  | some tree =>
    have hsingle := length_fillers_of_fill hs
    obtain ⟨filled, last, hfill, hlast, hcontinues, hafter⟩ :=
      exists_fill h.taken (ha.taken hstage fun _ => hbind) hstage hbind hsingle
    obtain rfl := Except.ok.inj (hfill.symm.trans hs)
    refine ⟨_, .tree hstage hbind howed hsingle, ⟨hcontinues.awaiting,
      hcontinues.doctype.trans hdoctype, hcontinues.root.trans hroot, ?_⟩, hcontinues.expressions⟩
    have hfilled : last.After frame (draft.fill edge.asExpression tree.fillers) := { hafter with }
    rw [hlast]
    exact hfilled.running habove hbelow

end Builder

end TagTree
