import TagTree.Proofs.Splice
import TagTree.Proofs.Store.Graft
import TagTree.Proofs.Values

/-!
# Fragments in gaps

A builder that has refused nothing and asks for an expression has taken a reference just before
(`Builder.Unrefused.exists_reference`). A fragment then gives all its values to that reference, each
with a reference and a gap of its own, and if it has none takes the reference back
(`Builder.supply_fragment`).
-/

namespace TagTree

variable {builder next : Builder} {feed : Feed} {ν : Type} {bindings : Array (Binding Node)}
  {store : Store} {frame last : Frame} {below : List Frame} {name : String}

/-! ### Calls that are not refused -/

namespace Builder

variable {phase : Phase} {tag : Tag}

/-- A builder that has refused no call. -/
inductive Unrefused : Builder → Prop where
  | start (expressions : Bool) : Unrefused { expressions := expressions }
  | push {builder next : Builder} {tag : Tag} {feed : Feed} (calls : Unrefused builder)
    (step : builder.push tag = .ok (feed, next)) : Unrefused next
  | supply {builder next : Builder} {expression : Option Tree} (calls : Unrefused builder)
    (step : builder.supply expression = .ok next) : Unrefused next

/-- A builder that has asked for an expression waits for one. -/
theorem push_ne_of_awaiting (h : builder.In phase) (ha : next.awaiting = none) :
    builder.push tag ≠ .ok (.needsExpression, next) := by
  intro hp
  obtain ⟨_, _, _, _, _, _, -, -, hasks⟩ := gap_of_push h hp
  rw [hasks.next] at ha
  cases ha

/-- A builder that waits for an expression takes no tag. -/
theorem awaiting_of_push (hp : builder.push tag = .ok (feed, next)) : builder.awaiting = none := by
  cases ha : builder.awaiting with
  | none => rfl
  | some target =>
    have hn : builder.needsExpression = true := by simp [needsExpression, ha]
    unfold push at hp
    rw [if_pos hn] at hp
    cases hp

/-- A builder that waits for no expression is given none. -/
theorem supply_ne_of_awaiting (ha : builder.awaiting = none) (expression : Option Tree) :
    builder.supply expression ≠ .ok next := by
  rw [supply, ha]
  rintro ⟨⟩

namespace Unrefused

/-- A builder that has refused nothing is in a phase, or a gap has just asked for an expression. -/
theorem phase_or_gap (h : Unrefused builder) :
    (∃ phase, builder.In phase) ∨ ∃ before phase, Unrefused before ∧ before.In phase ∧
      before.push .gap = .ok (.needsExpression, builder) := by
  induction h with
  | start expressions => exact .inl ⟨_, in_before expressions⟩
  | @push builder next tag feed calls step ih =>
    rcases ih with ⟨phase, hphase⟩ | ⟨before, phase, -, hbefore, hgap⟩
    · cases feed with
      | accepted =>
        obtain ⟨after, -, hafter, -⟩ := advance_of_push hphase step
        exact .inl ⟨after, hafter⟩
      | needsExpression =>
        obtain ⟨_, _, _, _, _, _, -, rfl, -⟩ := gap_of_push hphase step
        exact .inr ⟨builder, phase, calls, hphase, step⟩
    · exact absurd hgap (push_ne_of_awaiting hbefore (awaiting_of_push step))
  | @supply builder next expression calls step ih =>
    rcases ih with ⟨phase, hphase⟩ | ⟨before, phase, -, hbefore, hgap⟩
    · exact absurd step (supply_ne_of_awaiting hphase.awaiting expression)
    · obtain ⟨after, -, hafter, -⟩ := fills_of_supply hbefore hgap step
      exact .inl ⟨after, hafter⟩

theorem exists_phase (h : Unrefused builder) (ha : builder.awaiting = none) :
    ∃ phase, builder.In phase := by
  rcases h.phase_or_gap with hphase | ⟨before, phase, -, hbefore, hgap⟩
  · exact hphase
  · exact absurd hgap (push_ne_of_awaiting hbefore ha)

/-- A reference that waits was the last tag but for effects, which leave the builder as it is. -/
theorem exists_reference (h : Unrefused builder) (ha : builder.awaiting = none) {target : Target}
    (hframes : builder.frames = frame :: below) (hpending : frame.pending = some target) :
    ∃ start edge, Unrefused start ∧ start.push (.reference edge) = .ok (.accepted, builder) := by
  -- No step but that of a reference leaves a draft that waits.
  have hwaits : ∀ {next : Builder} {doctype : Option Doctype} {draft : Draft} {rest : List Draft},
      next.In (.within doctype (draft :: rest)) → next.frames = frame :: below →
        draft.stage.isWaiting = true := by
    intro next doctype draft rest hin hnext
    obtain ⟨-, -, hrunning⟩ := hin.holds
    rw [hnext] at hrunning
    obtain ⟨⟨-, hactive, -⟩, -⟩ := hrunning
    cases hstage : draft.stage with
    | waiting => rfl
    | resting | bound | shifting =>
      simp only [Frame.Active, hstage] at hactive
      cases hpending.symm.trans hactive.1
  induction h with
  | start expressions => cases hframes
  | @push earlier next tag feed calls step ih =>
    obtain ⟨phase, hphase⟩ := calls.exists_phase (awaiting_of_push step)
    cases feed with
    | needsExpression => exact absurd step (push_ne_of_awaiting hphase ha)
    | accepted =>
      obtain ⟨after, hadvance, hafter, -⟩ := advance_of_push hphase step
      cases hadvance with
      | @effect _ effect =>
        have hsame : earlier.push (.effect effect) = .ok (.accepted, earlier) := by
          simp [Builder.push, needsExpression, hphase.awaiting]
        obtain ⟨-, rfl⟩ := Prod.mk.inj (Except.ok.inj (step.symm.trans hsame))
        exact ih ha hframes
      | doctype => cases hframes.symm.trans hafter.holds.2.2
      | openRoot => exact (Bool.false_ne_true (hwaits hafter hframes)).elim
      | closeRoot => cases hframes.symm.trans hafter.holds.2.2
      | inside hstep =>
        cases hstep with
        | @reference _ _ edge => exact ⟨earlier, edge, calls, step⟩
        | @closing inner parent =>
          have hstage := (parent.receive_stage inner.toNode).2.1
          rw [hwaits hafter hframes] at hstage
          cases hstage
        | _ => exact (Bool.false_ne_true (hwaits hafter hframes)).elim
  | @supply earlier next expression calls step ih =>
    rcases calls.phase_or_gap with ⟨phase, hphase⟩ | ⟨before, phase, -, hbefore, hgap⟩
    · exact absurd step (supply_ne_of_awaiting hphase.awaiting expression)
    · obtain ⟨after, hfills, hafter, -⟩ := fills_of_supply hbefore hgap step
      cases hfills with
      | gap => exact (Bool.false_ne_true (hwaits hafter hframes)).elim
      | @tree _ draft _ edge tree =>
        have hstage := (draft.fill_stage edge.asExpression tree.fillers).2.1
        rw [hwaits hafter hframes] at hstage
        cases hstage

end Unrefused

end Builder

/-! ### Values of an expression -/

/-- The binding that a value of an expression becomes where the reference waits for it. -/
def Reference.given (edge : Reference) (node : Node) : Binding Node :=
  ⟨edge.asExpression.marked node.hasGap, node.withoutHold⟩

theorem Node.hasGap_withoutHold (node : Node) : node.withoutHold.hasGap = node.hasGap := by
  cases node <;> rfl

section Given

variable {draft : Draft} {edge : Reference}

theorem Draft.allSegments_foldl_give (draft : Draft) (edge : Reference) (nodes : List Node) :
    (nodes.foldl (fun draft node => draft.give edge node) draft).allSegments =
      draft.allSegments ++ nodes.map fun node => .bound edge node 0 := by
  induction nodes generalizing draft with
  | nil => simp
  | cons node nodes ih =>
    have hgive : (draft.give edge node).allSegments =
        draft.allSegments ++ [.bound edge node 0] := rfl
    rw [List.foldl_cons, ih, hgive, List.append_assoc]
    rfl

/-- The values of an expression are segments of their own. -/
theorem Draft.allSegments_fill (draft : Draft) (edge : Reference) (values : List Node) :
    (draft.fill edge.asExpression (values.map Node.withoutHold)).allSegments = draft.segments ++
      (values.map edge.given).map fun binding => .value binding.reference binding.node 0 := by
  have hrest : (draft.inStage .resting).allSegments = draft.segments := List.append_nil _
  rw [fill, allSegments_foldl_give, hrest, List.map_map, List.map_map]
  refine congrArg _ (List.map_congr_left fun node _ => ?_)
  simp only [Function.comp, Segment.bound, Node.hasGap_withoutHold, Reference.given]

/-- Values of an array are its last elements. -/
theorem Segment.foldl_addTo_values {entries : Entries (Property ν)} {old : Array (Binding ν)}
    (hget : entries.get? name = some (.array old)) {bindings : List (Binding ν)}
    (h : ∀ binding ∈ bindings, binding.reference.name = name ∧ binding.reference.isArray = true) :
    (bindings.map fun binding => Segment.value binding.reference binding.node 0).foldl
        Segment.addTo entries =
      entries.insert name (.array (old ++ bindings.toArray)) := by
  induction bindings generalizing entries old with
  | nil => simpa using (Entries.insert_of_get? hget).symm
  | cons binding rest ih =>
    obtain ⟨hname, harray⟩ := h binding List.mem_cons_self
    have hfirst : Segment.addTo entries (.value binding.reference binding.node 0) =
        entries.insert name (.array (old.push binding)) := by
      simp [Segment.addTo, Segment.bindTo, harray, hname, hget]
    rw [List.map_cons, List.foldl_cons, hfirst, ih (Entries.get?_insert_self ..)
      (List.forall_mem_cons.mp h).2, Entries.insert_insert_self]
    simp

theorem Segment.elements_values {bindings : List (Binding ν)}
    (h : ∀ binding ∈ bindings, binding.reference.name = name ∧ binding.reference.isArray = true) :
    Mention.elements (mentions
      (bindings.map fun binding => Segment.value binding.reference binding.node 0)) name =
        bindings.length := by
  induction bindings with
  | nil => rfl
  | cons binding rest ih =>
    obtain ⟨hname, harray⟩ := h binding List.mem_cons_self
    have hrest := ih (List.forall_mem_cons.mp h).2
    rw [List.map_cons, mentions_cons, Mention.elements_append, hrest, List.length_cons]
    simp [mention?, hname, harray, Nat.add_comm]

/-- What values of an expression do to an open node, from before its reference on: each is an
element more of the array, with a reference and a gap more among the items, and the next reference
is to the element after them. Without values all is as it was. -/
structure Frame.Spliced (frame last : Frame) (edge : Reference) (bindings : List (Binding Node)) :
    Prop where
  items : last.items.toList = frame.items.toList ++
    bindings.flatMap fun binding => [.reference binding.reference, .gap]
  array : ∃ old, frame.properties.get? edge.name = some (.array old) ∧
    last.properties.toList =
      frame.properties.toList.insert edge.name (.array (old ++ bindings.toArray)) ∧
    ∀ again : Reference, again.name = edge.name → again.isArray = true → again.index = none →
      (last.scope.consume again).2 = .ok (some (old ++ bindings.toArray).size)
  back : bindings = [] → last.items = frame.items ∧
    last.properties.toList = frame.properties.toList ∧
    last.scope.count edge.name = frame.scope.count edge.name

theorem Frame.Spliced.exists_array {bindings : List (Binding Node)}
    (h : frame.Spliced last edge bindings) :
    ∃ array, last.properties.get? edge.name = some (.array array) := by
  obtain ⟨old, -, hproperties, -⟩ := h.array
  refine ⟨old ++ bindings.toArray, ?_⟩
  rw [Register.get?_eq, hproperties]
  exact Entries.get?_insert_self ..

/-- The drafts before the reference and after the values tell what the values have done. -/
theorem Frame.Tells.spliced {values : List Node} (h : frame.Tells draft)
    (hi : draft.Idle) (ha : edge.isArray = true)
    (hb : Mention.Bindable (Segment.mentions draft.allSegments) edge)
    (hlast : last.Tells ((draft.settled.inStage (.waiting edge)).fill edge.asExpression
      (values.map Node.withoutHold))) : frame.Spliced last edge (values.map edge.given) := by
  have hsegments := Draft.allSegments_fill (draft.settled.inStage (.waiting edge)) edge values
  have hidle := Draft.idle_fill (draft.settled.inStage (.waiting edge)) edge.asExpression
    (values.map Node.withoutHold)
  generalize (draft.settled.inStage (.waiting edge)).fill edge.asExpression
    (values.map Node.withoutHold) = filled at hlast hsegments hidle
  have hsegments : filled.allSegments = draft.allSegments ++ (values.map edge.given).map
      fun binding => Segment.value binding.reference binding.node 0 := hsegments
  have hgiven : ∀ binding ∈ values.map edge.given,
      binding.reference.name = edge.name ∧ binding.reference.isArray = true := by
    intro binding hmem
    obtain ⟨node, -, rfl⟩ := List.mem_map.mp hmem
    exact ⟨rfl, ha⟩
  generalize values.map edge.given = bindings at hsegments hgiven ⊢
  have hitems : last.items.toList = frame.items.toList ++
      bindings.flatMap fun binding => [.reference binding.reference, .gap] := by
    rw [hlast.items, hidle.items, hsegments, h.items, hi.items, Segment.allItems_append]
    refine congrArg _ ?_
    rw [Segment.allItems, List.flatMap_map]
    rfl
  -- The elements that are there already are counted by the mentions before.
  obtain ⟨old, hold, hsize⟩ := Segment.get?_properties_of_bindable h.orderly hb ha
  have hproperties : last.properties.toList =
      frame.properties.toList.insert edge.name (.array (old ++ bindings.toArray)) := by
    rw [hlast.properties, hsegments, h.properties, Segment.properties, List.foldl_append]
    exact Segment.foldl_addTo_values hold hgiven
  refine ⟨hitems, ⟨old, ?_, hproperties, ?_⟩, ?_⟩
  · rw [Register.get?_eq, h.properties]
    exact hold
  · intro again hname harray hindex
    have hreserved : again.isReserved = false := by
      rw [Reference.isReserved, hname]
      exact hb.1
    have hcount : last.scope.count again.name = (old ++ bindings.toArray).size := by
      rw [hname, hlast.scope.count, hidle.mentions, hsegments, Segment.mentions_append,
        Mention.elements_append, Segment.elements_values hgiven]
      simp only [Mention.indexOf, hb.1, ha, Bool.false_eq_true, if_false, if_true,
        Option.some.injEq] at hsize
      simp [hsize]
    rw [← hcount]
    simp only [Scope.consume, hreserved, harray, hindex, Bool.false_eq_true, if_false, if_true]
    rfl
  · rintro rfl
    refine ⟨Array.toList_inj.mp (by simpa using hitems), ?_, ?_⟩
    · rw [hlast.properties, hsegments, h.properties, List.map_nil, List.append_nil]
    · rw [hlast.scope.count, h.scope.count, hidle.mentions, hi.mentions, hsegments, List.map_nil,
        List.append_nil]

end Given

/-! ### Parents -/

/-- What an array of the innermost open node binds has that node as its parent. -/
theorem Store.Shows.parent_of_array {value : Nat → Node} (h : store.Shows value builder)
    (hframes : builder.frames = frame :: below)
    (hget : frame.properties.get? name = some (.array bindings)) :
    ∃ node cell numbered, store.opened.head? = some node ∧ store.cells[node.id]? = some cell ∧
      cell.properties.get? name = some (.array numbered) ∧
      numbered.map (Binding.map value) = bindings ∧
      ∀ binding ∈ numbered, (store.cells[binding.node]?).map Cell.parent = some (some node.id) := by
  have hsound := h.sound
  have hstack := h.stack
  rw [hframes] at hstack
  generalize store.opened = opened at hsound hstack
  generalize store.scopes = scopes at hstack
  cases hstack with
  | @top node cell outer scope scopes frame frames holder steady shows rest =>
    have hproperties : frame.properties.toList =
        cell.properties.toList.map fun entry => (entry.1, entry.2.map value) := shows.properties
    rw [Register.get?_eq, hproperties, Entries.get?_map] at hget
    obtain ⟨property, hproperty, hmap⟩ := Option.map_eq_some_iff.mp hget
    cases property with
    | single binding => cases hmap
    | array numbered =>
      refine ⟨node, cell, numbered, rfl, holder, (Register.get?_eq ..).trans hproperty,
        Property.array.inj hmap, fun binding hmem => ?_⟩
      refine hsound.parent node.id binding.node ?_
      rw [hsound.due_head holder]
      exact List.mem_append_left _ (List.mem_flatMap.mpr
        ⟨_, Entries.mem_of_get? hproperty, List.mem_map_of_mem hmem.val⟩)

/-! ### The fragment -/

namespace Builder

variable {start middle waiting : Builder} {target : Target} {edge : Reference}

/-- A reference changes the innermost open node only. -/
theorem frames_of_reference (hframes : start.frames = frame :: below)
    (hp : start.push (.reference edge) = .ok (feed, middle)) :
    ∃ after, middle.frames = after :: below := by
  rw [push_eq (.reference edge) (awaiting_of_push hp) (by simp) (by simp), hframes] at hp
  obtain ⟨-, after, -, hresult⟩ := pushInside_reference_eq_ok.mp hp
  cases hresult
  exact ⟨after, rfl⟩

/-- A builder that asks for an expression took a reference and then the gap. -/
theorem Unrefused.exists_before (h : Unrefused waiting) (ha : waiting.awaiting = some target) :
    ∃ start middle edge doctype draft rest, Unrefused start ∧
      start.push (.reference edge) = .ok (.accepted, middle) ∧
      middle.push .gap = .ok (.needsExpression, waiting) ∧
      start.In (.within doctype (draft :: rest)) ∧ draft.Idle ∧
      middle.In (.within doctype (draft.settled.inStage (.waiting edge) :: rest)) := by
  rcases h.phase_or_gap with ⟨phase, hphase⟩ | ⟨middle, phase, hmiddle, hphase, hgap⟩
  · cases hphase.awaiting.symm.trans ha
  obtain ⟨_, _, _, _, _, _, -, -, hasks⟩ := gap_of_push hphase hgap
  have hactive := hasks.running.1.2.1
  simp only [Frame.Active, hasks.stage] at hactive
  obtain ⟨start, edge, hstart, hreference⟩ :=
    hmiddle.exists_reference hphase.awaiting hasks.frames hactive.1
  obtain ⟨before, hbefore⟩ := hstart.exists_phase (awaiting_of_push hreference)
  obtain ⟨after, hadvance, hafter, -⟩ := advance_of_push hbefore hreference
  cases hadvance with
  | inside hstep =>
    cases hstep with
    | reference hi =>
      exact ⟨start, middle, edge, _, _, _, hstart, hreference, hgap, hbefore, hi, hafter⟩

/-- Where a gap has asked for an expression, a tree is refused only if it has not one value and the
reference is to a single property. Its values take the place of the reference. -/
theorem supply_of_gap {doctype : Option Doctype} {draft : Draft} {rest : List Draft}
    (h : middle.In (.within doctype (draft :: rest)))
    (hgap : middle.push .gap = .ok (.needsExpression, waiting))
    (hstage : draft.stage = .waiting edge) (tree : Tree) :
    waiting.awaiting = some (draft.target edge) ∧
    Mention.Bindable (Segment.mentions draft.segments) edge ∧
    ((∃ next, waiting.supply (some tree) = .ok next) ↔
      (edge.isArray = false → tree.fillers.length = 1)) ∧
    ∀ next, waiting.supply (some tree) = .ok next → ∃ last,
      next.frames = last :: middle.frames.tail ∧
      last.Tells (draft.fill edge.asExpression tree.fillers) := by
  obtain ⟨_, _, _, waiter, below, found, ⟨⟩, -,
    ⟨hframes, ⟨⟨htells, hactive, -⟩, -⟩, hfound, hbind, -, -, -, rfl⟩⟩ := gap_of_push h hgap
  cases hstage.symm.trans hfound
  have hfill : (edge.isArray = false → tree.fillers.length = 1) → _ := fun hn =>
    @exists_fill { middle with frames := [], awaiting := none } waiter.taken below draft edge tree
      htells.taken (hactive.taken hstage fun _ => hbind) hstage hbind hn
  refine ⟨rfl, hbind, ⟨?_, ?_⟩, ?_⟩
  · rintro ⟨next, hnext⟩
    exact length_fillers_of_fill hnext
  · intro hn
    obtain ⟨next, last, hnext, -⟩ := hfill hn
    exact ⟨next, hnext⟩
  · intro next hnext
    obtain ⟨filled, last, hfilled, hlast, -, hafter⟩ := hfill (length_fillers_of_fill hnext)
    cases hnext.symm.trans hfilled
    rw [hframes]
    exact ⟨last, hlast, hafter.tells⟩

/-- The store of a builder that is given a fragment has the builder's answer, and what the array
then binds has the open node as its parent. -/
theorem exists_parents {arena : Arena} {fragment : Tree} (hs : Session store waiting)
    (hf : Finished arena fragment) (hsupply : waiting.supply (some fragment) = .ok next)
    (hframes : next.frames = last :: below)
    (hget : last.properties.get? name = some (.array bindings)) :
    ∃ after value node cell numbered, Store.supply (some arena) store = some (.ok (), after) ∧
      after.Shows value next ∧ after.opened.head? = some node ∧
      after.cells[node.id]? = some cell ∧ cell.properties.get? name = some (.array numbered) ∧
      numbered.map (Binding.map value) = bindings ∧ ∀ binding ∈ numbered,
        (after.cells[binding.node]?).map Cell.parent = some (some node.id) := by
  obtain ⟨after, hafter, hshown⟩ := hs.shown.supply hf.supplied
  rw [hsupply] at hafter hshown
  obtain ⟨value, hshows⟩ := hshown
  obtain ⟨node, cell, numbered, hnode⟩ := hshows.parent_of_array hframes hget
  exact ⟨after, value, node, cell, numbered, hafter, hshows, hnode⟩

theorem isStub_of_isFragment {node : Node} (h : node.type = .fragment) : node.isStub = false := by
  cases node with
  | element => rfl
  | gap | null | literal => simp [Node.type] at h

/-- A builder that has refused nothing and waits for an expression took a reference and a gap. If
the reference is to an array, it takes any fragment: the array has all values of the fragment's
references in their order, after the elements that it had before the reference, and these have the
open node as their parent. A reference to a single property takes a fragment with exactly one value.
-/
theorem supply_fragment {tags : List Tag} {fragment : Tree} (h : Unrefused waiting)
    (ha : waiting.awaiting = some target) (hfragment : Tree.ofTags tags = .ok fragment)
    (htype : fragment.root.type = .fragment) (hunmixed : fragment.root.isUnmixed = true) :
    ∃ start middle edge frame below sources, Unrefused start ∧ start.frames = frame :: below ∧
      start.push (.reference edge) = .ok (.accepted, middle) ∧
      middle.push .gap = .ok (.needsExpression, waiting) ∧ target.reference = edge.marked false ∧
      fragment.root.Lists sources ∧
      (edge.isArray = true → ∃ next last bindings, waiting.supply (some fragment) = .ok next ∧
        next.frames = last :: below ∧
        frame.Spliced last edge (sources.map fun source => edge.given source.node) ∧
        last.properties.get? edge.name = some (.array bindings) ∧
        ∀ store arena, Session store waiting → Finished arena fragment →
          ∃ after value node cell numbered,
            Store.supply (some arena) store = some (.ok (), after) ∧ after.Shows value next ∧
            after.opened.head? = some node ∧ after.cells[node.id]? = some cell ∧
            cell.properties.get? edge.name = some (.array numbered) ∧
            numbered.map (Binding.map value) = bindings ∧ ∀ binding ∈ numbered,
              (after.cells[binding.node]?).map Cell.parent = some (some node.id)) ∧
      (edge.isArray = false →
        ((∃ next, waiting.supply (some fragment) = .ok next) ↔ sources.length = 1)) := by
  obtain ⟨start, middle, edge, doctype, draft, rest, hstart, hreference, hgap, hin, hidle,
    hmiddle⟩ :=
    h.exists_before ha
  obtain ⟨hawaiting, hbind, hiff, hfilled⟩ := supply_of_gap hmiddle hgap rfl fragment
  obtain ⟨-, -, hrunning⟩ := hin.holds
  cases hframes : start.frames with
  | nil =>
    rw [hframes] at hrunning
    exact hrunning.elim
  | cons frame below =>
    rw [hframes] at hrunning
    obtain ⟨⟨htold, -, -⟩, -⟩ := hrunning
    obtain ⟨_, hmiddleFrames⟩ := frames_of_reference hframes hreference
    obtain ⟨sources, hsources, hvalues⟩ :=
      Tree.lists_values (.ofTags hfragment) (isStub_of_isFragment htype) hunmixed
    have hfillers : fragment.fillers = (sources.map Binding.node).map Node.withoutHold := by
      rw [Tree.fillers, if_pos htype, hvalues]
    cases ha.symm.trans hawaiting
    refine ⟨start, middle, edge, frame, below, sources, hstart, hframes, hreference, hgap, rfl,
      hsources, ?_, ?_⟩
    · intro harray
      obtain ⟨next, hnext⟩ := hiff.mpr fun hscalar => absurd (harray.symm.trans hscalar) (by decide)
      obtain ⟨last, hlast, htells⟩ := hfilled next hnext
      rw [hmiddleFrames] at hlast
      rw [hfillers] at htells
      have hspliced := htold.spliced hidle harray hbind htells
      rw [List.map_map] at hspliced
      obtain ⟨bindings, hget⟩ := hspliced.exists_array
      exact ⟨next, last, bindings, hnext, hlast, hspliced, hget, fun store arena hstore hfinished =>
        exists_parents hstore hfinished hnext hlast hget⟩
    · intro hscalar
      rw [hiff, hfillers, List.length_map, List.length_map]
      exact ⟨fun hn => hn hscalar, fun hn _ => hn⟩

/-- The builder after tags, none of which it refuses. -/
def taking (builder : Builder) : List Tag → Option Builder
  | [] => some builder
  | tag :: rest =>
    match builder.push tag with
    | .ok (_, next) => next.taking rest
    | .error _ => none

theorem Unrefused.taking {tags : List Tag} (h : Unrefused builder)
    (hnext : builder.taking tags = some next) : Unrefused next := by
  induction tags generalizing builder with
  | nil =>
    cases hnext
    exact h
  | cons tag rest ih =>
    rw [Builder.taking] at hnext
    split at hnext
    · rename_i hpush
      exact ih (h.push hpush) hnext
    · cases hnext

/-- The start of a list, with one item and a gap after it. -/
def listTags : List Tag :=
  let item : Tag := .reference ⟨"items", true, none, {}⟩
  [.opening ⟨{}, none, some "List", []⟩, item, .arrayStart, item, .literal "0", item, .gap]

/-- A fragment with two values, the first of which took back another one after a shift. -/
def pairTags : List Tag :=
  Session.shiftingFragment.dropLast ++ [.reference ⟨"right", false, none, {}⟩,
    .literal "1", .closing]

theorem supply_fragment_of_pair :
    ∃ waiting target fragment, Unrefused waiting ∧ waiting.awaiting = some target ∧
      Tree.ofTags pairTags = .ok fragment ∧ fragment.root.type = .fragment ∧
      fragment.root.isUnmixed = true ∧ target.reference.isArray = true ∧
      ∃ sources next, fragment.root.Lists sources ∧ waiting.supply (some fragment) = .ok next := by
  have hwaiting : (({ expressions := true } : Builder).taking listTags).any (fun waiting =>
      waiting.awaiting.any fun target => target.reference.isArray) = true := by decide +kernel
  obtain ⟨waiting, htaken, hwaiting⟩ := (Option.any_eq_true ..).mp hwaiting
  obtain ⟨target, htarget, harray⟩ := (Option.any_eq_true ..).mp hwaiting
  obtain ⟨fragment, htree, htype, hunmixed⟩ : ∃ fragment, Tree.ofTags pairTags = .ok fragment ∧
      fragment.root.type = .fragment ∧ fragment.root.isUnmixed = true := by decide +kernel
  have hunrefused := (Unrefused.start true).taking htaken
  obtain ⟨start, middle, edge, frame, below, sources, -, -, -, -, hreference, hsources,
    hsupply, -⟩ :=
    supply_fragment hunrefused htarget htree htype hunmixed
  rw [hreference] at harray
  obtain ⟨next, -, -, hnext, -⟩ := hsupply harray
  exact ⟨waiting, target, fragment, hunrefused, htarget, htree, htype, hunmixed,
    hreference ▸ harray, sources, next, hsources, hnext⟩

end Builder

end TagTree
