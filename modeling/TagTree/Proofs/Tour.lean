import TagTree.Proofs.FinalOrder
import TagTree.Proofs.Walk

/-!
# Tours

A walk through a node stays at the node itself for some of its slots, and enters other nodes from
the rest. It pays one visit to each place from there down, but for what the node took back where
that is passed over (`Place.toured`). So the stream of a tree opens each node once
(`Tree.walk_once`).
-/

namespace TagTree

open Segment (width allItems node? finals width_cons width_concat getElem?_gap)

variable {order : Order}

/-- A slot of a place. -/
structure Spot where
  place : Place
  slot : Nat

/-- The tag in a slot of a place. -/
def Spot.tag (spot : Spot) : Tag :=
  spot.place.node.tagAt spot.slot

/-- Where a cursor stands. -/
def Cursor.spot (cursor : Cursor) : Spot :=
  ⟨cursor.trail.place, cursor.slot⟩

/-- In the order of the finished tree, the spots have the tags of the given parts. -/
def Order.Tells : Order → List Spot → List (Tag ⊕ Node) → Prop
  | replayed, _, _ => True
  | final, spots, parts => spots.map Spot.tag = parts.flatMap Node.flatOf

theorem Order.Tells.append {spots others : List Spot} {parts more : List (Tag ⊕ Node)}
    (h : order.Tells spots parts) (hmore : order.Tells others more) :
    order.Tells (spots ++ others) (parts ++ more) := by
  cases order with
  | replayed => trivial
  | final =>
    rw [Tells] at h hmore ⊢
    rw [List.map_append, List.flatMap_append, h, hmore]

namespace Trail

/-- The spots that steps from a slot come to. -/
def ahead (order : Order) (trail : Trail) (slot : Nat) : Run Spot :=
  match _h : trail.seek order slot with
  | .error error => .fail error
  | .ok none => .done
  | .ok (some cursor) => .cons cursor.spot (cursor.trail.ahead order cursor.slot)
termination_by trail.remaining slot
decreasing_by exact @Cursor.remaining_lt_of_next order ⟨trail, slot⟩ cursor _h

/-- The spots that steps come to after the node. -/
def above (order : Order) (trail : Trail) : Run Spot :=
  trail.parent.elim .done (·.ahead order trail.parentSlot)

variable {trail : Trail} {slot : Nat}

theorem ahead_of_ok {found : Option Cursor} (h : trail.seek order slot = .ok found) :
    trail.ahead order slot =
      found.elim .done fun cursor => .cons cursor.spot (cursor.trail.ahead order cursor.slot) := by
  rw [ahead]
  split <;> rename_i hseek <;> cases hseek.symm.trans h <;> rfl

/-- Where steps stop next. -/
theorem ahead_of_scan {stop : Stop} (hslot : slot + 1 < trail.node.slotCount)
    (hscan : trail.scan order slot = .ok stop) :
    trail.ahead order slot = .cons (trail.cursorAt stop).spot
      ((trail.cursorAt stop).trail.ahead order (trail.cursorAt stop).slot) := by
  have hseek : trail.seek order slot = .ok (some (trail.cursorAt stop)) := by
    rw [seek_eq, if_pos hslot, hscan]
    rfl
  exact ahead_of_ok hseek

theorem ahead_congr {other : Trail} {later : Nat}
    (h : trail.seek order slot = other.seek order later) :
    trail.ahead order slot = other.ahead order later := by
  rw [ahead, ahead]
  split <;> split <;> simp_all

/-- After its last slot a walk leaves the node. -/
theorem ahead_of_le (h : trail.node.slotCount ≤ slot + 1) :
    trail.ahead order slot = trail.above order := by
  have hseek := trail.seek_eq order slot
  rw [if_neg (Nat.not_lt.mpr h)] at hseek
  rw [above]
  cases hparent : trail.parent with
  | none =>
    rw [hparent] at hseek
    exact ahead_of_ok hseek
  | some parent =>
    rw [hparent] at hseek
    exact ahead_congr hseek

end Trail

/-- A walk comes to where it starts and then to what is ahead, unless a step fails. -/
theorem Cursor.walk_of_ahead {cursor : Cursor} {spots : List Spot}
    (h : cursor.trail.ahead order cursor.slot = ⟨spots, none⟩) :
    (cursor.walk order).failure = none ∧
    (cursor.walk order).items.map spot = cursor.spot :: spots := by
  fun_induction Cursor.walk cursor order generalizing spots with
  | case1 cursor error hnext =>
    have hseek : cursor.trail.seek order cursor.slot = .error error := hnext
    rw [Trail.ahead] at h
    split at h <;> simp_all [Run.fail]
  | case2 cursor hnext =>
    rw [Trail.ahead_of_ok hnext] at h
    cases h
    exact ⟨rfl, rfl⟩
  | case3 cursor found hnext ih =>
    rw [Trail.ahead_of_ok hnext] at h
    obtain ⟨rfl, hfailure⟩ := Run.mk.inj h
    obtain ⟨hnone, hitems⟩ := ih (congrArg (Run.mk _) hfailure)
    exact ⟨hnone, congrArg (List.cons cursor.spot) hitems⟩

/-- A visit to a place: the slots at which a walk stays there, after the first one. -/
structure Visit where
  place : Place
  slots : List Nat
  ascending : (0 :: slots).Pairwise (· < ·)

/-- The spots of a visit. -/
def Visit.spots (visit : Visit) : List Spot :=
  (0 :: visit.slots).map (Spot.mk visit.place)

namespace Place

/-- A walk that comes to the place, however it does, pays one visit to each of the given places
before it leaves, and tells the node and all beneath it. -/
def Tours (place : Place) (order : Order) (bare : Option Nat) (visited : List Place) : Prop :=
  ∃ (spots : List Spot) (visits : List Visit), (visits.map Visit.place).Perm visited ∧
    spots.Perm (visits.flatMap Visit.spots) ∧ order.Tells spots [.inr place.node] ∧
    ∀ trail : Trail, trail.place = place → trail.bareSlot = bare →
      .cons ⟨place, 0⟩ (trail.ahead order 0) = (trail.above order).prepend spots

/-- Over a number of slots after the given one, a walk pays one visit to each of the given places,
stays at the place itself in some of the slots, and tells the given parts. -/
def Passes (place : Place) (order : Order) (bare : Option Nat) (first count : Nat)
    (visited : List Place) (parts : List (Tag ⊕ Node)) : Prop :=
  ∃ (spots : List Spot) (slots : List Nat) (visits : List Visit),
    slots.Sublist (List.range' (first + 1) count) ∧ (visits.map Visit.place).Perm visited ∧
    spots.Perm (slots.map (Spot.mk place) ++ visits.flatMap Visit.spots) ∧ order.Tells spots parts ∧
    ∀ trail : Trail, trail.place = place → trail.bareSlot = bare →
      trail.ahead order first = (trail.ahead order (first + count)).prepend spots

variable {place : Place} {bare : Option Nat} {first count : Nat} {visited others : List Place}
  {parts more : List (Tag ⊕ Node)}

theorem Tours.perm (h : place.Tours order bare visited)
    (hperm : visited.Perm others) : place.Tours order bare others := by
  obtain ⟨spots, visits, hvisits, htrail⟩ := h
  exact ⟨spots, visits, hvisits.trans hperm, htrail⟩

namespace Passes

theorem perm (h : place.Passes order bare first count visited parts)
    (hperm : visited.Perm others) : place.Passes order bare first count others parts := by
  obtain ⟨spots, slots, visits, hslots, hvisits, htrail⟩ := h
  exact ⟨spots, slots, visits, hslots, hvisits.trans hperm, htrail⟩

/-- In the order of the stream the parts do not matter. -/
theorem retell (h : place.Passes .replayed bare first count visited parts) :
    place.Passes .replayed bare first count visited more := by
  obtain ⟨spots, slots, visits, hslots, hvisits, hspots, -, htrail⟩ := h
  exact ⟨spots, slots, visits, hslots, hvisits, hspots, trivial, htrail⟩

/-- The walk passes over slots in which nothing is. -/
theorem of_eq (h : ∀ trail : Trail, trail.place = place → trail.bareSlot = bare →
      trail.ahead order first = trail.ahead order (first + count)) :
    place.Passes order bare first count [] [] := by
  refine ⟨[], [], [], List.nil_sublist _, .nil, .nil, ?_, h⟩
  cases order with
  | replayed => trivial
  | final => rfl

theorem none (place : Place) (order : Order) (bare : Option Nat) (first : Nat) :
    place.Passes order bare first 0 [] [] :=
  of_eq fun _ _ _ => rfl

theorem append {step : Nat} (h : place.Passes order bare first count visited parts)
    (hmore : place.Passes order bare (first + count) step others more) :
    place.Passes order bare first (count + step) (visited ++ others) (parts ++ more) := by
  obtain ⟨spots, slots, visits, hslots, hvisits, hspots, htells, htrail⟩ := h
  obtain ⟨spots', slots', visits', hslots', hvisits', hspots', htells', htrail'⟩ := hmore
  refine ⟨spots ++ spots', slots ++ slots', visits ++ visits', ?_, ?_, ?_,
    htells.append htells', ?_⟩
  · rw [← List.range'_append_1, Nat.add_right_comm]
    exact hslots.append hslots'
  · rw [List.map_append]
    exact hvisits.append hvisits'
  · refine (hspots.append hspots').trans ?_
    rw [List.map_append, List.flatMap_append, List.append_assoc, List.append_assoc]
    exact (List.perm_append_comm_assoc ..).append_left _
  · intro trail hplace hbare
    rw [htrail trail hplace hbare, htrail' trail hplace hbare, ← Nat.add_assoc]
    simp [Run.prepend]

/-- The walk stays at the place. -/
theorem here {tag : Tag} (hslot : first + 1 < place.node.slotCount)
    (htag : place.node.tagAt (first + 1) = tag)
    (h : ∀ trail : Trail, trail.place = place → trail.bareSlot = bare →
      trail.scan order first = .ok (.here (first + 1))) :
    place.Passes order bare first 1 [] [.inl tag] := by
  refine ⟨[⟨place, first + 1⟩], [first + 1], [], .refl _, .nil, .refl _, ?_, ?_⟩
  · cases order with
    | replayed => trivial
    | final => exact congrArg (fun tag => [tag]) htag
  · rintro trail rfl hbare
    exact Trail.ahead_of_scan hslot (h trail rfl hbare)

/-- The walk enters another place, and comes back from its tour. -/
theorem enter {inner : Place} {through : Option Nat} (hslot : first + 1 < place.node.slotCount)
    (htours : inner.Tours order through visited)
    (h : ∀ trail : Trail, trail.place = place → trail.bareSlot = bare →
      trail.scan order first = .ok (.enter (first + 1) inner through)) :
    place.Passes order bare first 1 visited [.inr inner.node] := by
  obtain ⟨spots, visits, hvisits, hspots, htells, htrail⟩ := htours
  refine ⟨spots, [], visits, List.nil_sublist _, hvisits, hspots, htells, ?_⟩
  rintro trail rfl hbare
  rw [Trail.ahead_of_scan hslot (h trail rfl hbare)]
  exact htrail _ rfl rfl

theorem skip (hslot : first + count + 1 < place.node.slotCount)
    (h : ∀ trail : Trail, trail.place = place → trail.bareSlot = bare →
      trail.scan order first = trail.scan order (first + count)) :
    place.Passes order bare first count [] [] := by
  refine of_eq ?_
  rintro trail rfl hbare
  have hlater : first + count + 1 < trail.node.slotCount := hslot
  have hfirst : first + 1 < trail.node.slotCount := by omega
  refine Trail.ahead_congr ?_
  rw [Trail.seek_eq, Trail.seek_eq, if_pos hfirst, if_pos hlater, h trail rfl hbare]

end Passes

/-! ### The segments of a place -/

/-- The slot whose gap stands for itself is none of a number of slots after the given one. -/
def Avoids (bare : Option Nat) (first count : Nat) : Prop :=
  ∀ slot ∈ bare, slot ≤ first ∨ first + count < slot

variable {outline : Outline} {located before after : List (Segment Place)}

/-- What the segments embed and bind takes a walk through all places from there down. -/
structure Enters (place : Place) (order : Order) (bare : Option Nat)
    (located : List (Segment Place)) : Prop where
  embedded : ∀ edge inner, .embedded edge inner ∈ located → inner.Tours order none inner.all
  value : ∀ before edge value shifts after, located = before ++ .value edge value shifts :: after →
    Avoids bare (width before) (2 + 2 * shifts) →
      place.Passes order bare (width before) (2 + 2 * shifts) value.all
        (Segment.value edge value.node shifts).finals

namespace Segmented

variable {position : Nat}

variable (h : place.Segmented outline located)

include h

/-- The walk stays at a tag of the node itself. -/
theorem passes_item {item : Item Place}
    (hitem : (allItems located)[position]? = some item) (hnode : item.node? = none)
    (hgap : item.isGap = false) (hshift : order = .final → item.isShift = false) :
    place.Passes order bare position 1 [] [.inl item.toTag] := by
  refine .here (h.lt_slotCount hitem) ?_ fun trail hplace _ => Trail.scan_here ?_
  · rw [h.tagAt, hitem]
    rfl
  · rw [h.getElem?_items hplace, hitem]
    rintro _ ⟨⟩
    exact ⟨hnode, hgap, hshift⟩

/-- The walk enters an embedded node. -/
theorem passes_embedded {edge : Option Reference} {inner : Place}
    (henters : place.Enters order bare located) (hmem : .embedded edge inner ∈ located)
    (hitem : (allItems located)[position]? = some (.embedded inner)) :
    place.Passes order bare position 1 inner.all [.inr inner.node] := by
  refine .enter (h.lt_slotCount hitem) (henters.embedded edge inner hmem) fun trail hplace _ => ?_
  exact Trail.scan_enter ((h.getElem?_items hplace _).trans hitem)

/-- A segment takes the walk through all places from its node down. -/
theorem passes_segment {segment : Segment Place}
    (henters : place.Enters order bare located) (hs : located = before ++ segment :: after)
    (hbare : Avoids bare (width before) segment.items.length) :
    place.Passes order bare (width before) segment.items.length
      (segment.node?.toList.flatMap all) (segment.map Place.node).finals := by
  have hmem : segment ∈ located := hs ▸ List.mem_append_cons_self
  have hitem : ∀ {offset : Nat}, offset < segment.items.length →
      (allItems located)[width before + offset]? =
        segment.items[offset]? := fun hlt => hs ▸ Segment.getElem?_allItems before after hlt
  cases segment with
  | content text => exact h.passes_item (hitem Nat.zero_lt_one) rfl rfl fun _ => rfl
  | embedded edge inner =>
    have hall : (Segment.embedded edge inner).node?.toList.flatMap all = inner.all :=
      List.append_nil _
    rw [hall]
    cases edge with
    | none => exact h.passes_embedded henters hmem (hitem Nat.zero_lt_one)
    | some edge =>
      have hstay : place.Passes order bare (width before) 1 [] _ :=
        h.passes_item (hitem Nat.zero_lt_two) rfl rfl fun _ => rfl
      exact hstay.append (h.passes_embedded henters hmem (hitem Nat.one_lt_two))
  | arrayStart edge =>
    have hstay : place.Passes order bare (width before) 1 [] _ :=
      h.passes_item (hitem Nat.zero_lt_two) rfl rfl fun _ => rfl
    exact hstay.append (h.passes_item (hitem Nat.one_lt_two) rfl rfl fun _ => rfl)
  | value edge inner shifts =>
    have hall : (Segment.value edge inner shifts).node?.toList.flatMap all = inner.all :=
      List.append_nil _
    rw [Segment.length_items_value] at hbare
    rw [Segment.length_items_value, hall]
    exact henters.value before edge inner shifts after hs hbare

/-- A run of segments takes the walk through all places from their nodes down. -/
theorem passes_segments {run : List (Segment Place)}
    (henters : place.Enters order bare located) (hs : located = before ++ run ++ after)
    (hbare : Avoids bare (width before) (width run)) :
    place.Passes order bare (width before) (width run) ((run.filterMap node?).flatMap all)
      ((run.map (Segment.map Place.node)).flatMap finals) := by
  induction run generalizing before with
  | nil => exact .none ..
  | cons segment rest ih =>
    rw [width_cons] at hbare ⊢
    have hsplit : located = before ++ segment :: (rest ++ after) := by simp [hs]
    have hfirst := h.passes_segment henters hsplit (by grind [Avoids])
    have hlength := width_concat before segment
    have hsplit : located = before ++ [segment] ++ rest ++ after := by simp [hs]
    have hrest := ih hsplit (by grind [Avoids])
    rw [hlength] at hrest
    rw [filterMap_cons_eq, List.flatMap_append, List.map_cons, List.flatMap_cons]
    exact hfirst.append hrest

/-- A walk that passes all items of a place makes a tour of it. -/
theorem tours (hpasses : place.Passes order bare 0 (width located) visited parts)
    (hparts : order = .final → parts = outline.segments.flatMap finals) :
    place.Tours order bare (place :: visited) := by
  obtain ⟨spots, slots, visits, hslots, hvisits, hspots, htells, htrail⟩ := hpasses
  have hrange : (0 :: (slots ++ [width located + 1])).Sublist
      (List.range' 0 (width located + 2)) := by
    rw [List.range'_succ, List.range'_1_concat, Nat.zero_add, Nat.add_comm 1]
    exact (hslots.append (.refl _)).cons_cons 0
  have hascending := List.Pairwise.sublist hrange List.pairwise_lt_range'
  have hcount := h.slotCount
  have hnone : (allItems located)[width located]? = none := List.getElem?_eq_none (Nat.le_refl _)
  refine ⟨⟨place, 0⟩ :: (spots ++ [⟨place, width located + 1⟩]),
    ⟨place, _, hascending⟩ :: visits, hvisits.cons place, ?_, ?_, ?_⟩
  · rw [List.flatMap_cons, Visit.spots, List.map_cons, List.map_append, List.cons_append,
      List.append_assoc]
    refine .cons _ ((hspots.append_right _).trans ?_)
    rw [List.append_assoc]
    exact List.perm_append_comm.append_left _
  · cases order with
    | replayed => trivial
    | final =>
      have hclosing : place.node.tagAt (width located + 1) = .closing := by
        rw [h.tagAt, hnone]
        rfl
      have hflat := Outline.flat_toNode h.laid
        ((h.segments ▸ Segment.mentions_map Place.node located) ▸ h.unmixed)
      rw [Order.Tells] at htells ⊢
      rw [hparts rfl, List.flatMap_assoc] at htells
      rw [List.map_cons, List.map_append, htells, List.map_singleton, Spot.tag, Spot.tag, hclosing,
        h.node]
      exact hflat.symm.trans (List.append_nil _).symm
  · rintro trail rfl hbare
    -- After the items there is the slot of the closing tag, and after it the walk leaves.
    have hclosing : trail.scan order (width located) = .ok (.here (width located + 1)) := by
      refine Trail.scan_here ?_
      rw [h.getElem?_items rfl, hnone]
      rintro _ ⟨⟩
    have hleave : trail.ahead order (width located + 1) = trail.above order := by
      refine Trail.ahead_of_le ?_
      rw [Trail.node]
      omega
    have hend : trail.ahead order (0 + width located) =
        .cons ⟨trail.place, width located + 1⟩ (trail.above order) := by
      rw [Nat.zero_add, Trail.ahead_of_scan (by rw [Trail.node]; omega) hclosing, ← hleave]
      rfl
    rw [htrail trail rfl hbare, hend]
    simp [Run.cons, Run.prepend]

/-- Without a gap that stands for itself, the tour is one of all places from there down. -/
theorem tours_all
    (henters : place.Enters order none located) : place.Tours order none place.all := by
  have hsplit : located = [] ++ located ++ [] := by simp
  have hpasses := h.passes_segments henters hsplit (by rintro _ ⟨⟩)
  rw [all_eq]
  refine (h.tours hpasses fun _ => ?_).perm ((h.kids.symm.flatMap_right all).cons place)
  rw [h.segments]

end Segmented

/-- A stub has no slot but the first. -/
theorem tours_of_isStub (h : place.node.isStub = true) : place.Tours order bare place.all := by
  rw [all_of_isStub h]
  refine ⟨[⟨place, 0⟩], [⟨place, [], List.pairwise_singleton _ _⟩], .refl _, .refl _, ?_, ?_⟩
  · cases order with
    | replayed => trivial
    | final => exact (Node.flat_of_isStub h).symm.trans (List.append_nil _).symm
  · rintro trail rfl -
    have hcount : trail.node.slotCount ≤ 0 + 1 := by
      rw [Trail.node]
      cases hnode : trail.place.node with
      | gap | null | literal => exact Nat.le_refl 1
      | element body =>
        rw [hnode] at h
        cases h
    rw [Trail.ahead_of_le hcount]
    rfl

/-! ### The order of the stream -/

/-- The place is made of segments, which are given with their places, and can be toured. -/
structure Layout (place : Place) (outline : Outline) (located : List (Segment Place)) : Prop
    extends place.Segmented outline located where
  replayable : outline.toNode.Replayable

theorem exists_layout (hn : place.node = outline.toNode) (hl : outline.Laid)
    (hs : ∀ segment ∈ outline.segments, segment.IsSound) (hr : place.node.Replayable) :
    ∃ located, place.Layout outline located := by
  rw [hn] at hr
  obtain ⟨located, h⟩ := exists_segmented hn hl hs (hr.unmixed_mentions hl)
  exact ⟨located, h, hr⟩

namespace Layout

/-- The node of a segment is less than the whole, and can be toured with it. -/
theorem inner {segment : Segment Place} {inner : Place} (h : place.Layout outline located)
    (hmem : segment ∈ located) (hnode : segment.node? = some inner) :
    inner.node.work < place.node.work ∧ inner.node.Replayable := by
  constructor
  · exact place.work_lt_of_mem_kids
      (h.kids.symm.subset (List.mem_filterMap.mpr ⟨segment, hmem, hnode⟩))
  · refine h.replayable.of_mem h.laid (h.segments ▸ List.mem_map_of_mem hmem) ?_
    rw [Segment.node?_map, hnode]
    rfl

/-- The walk stays at a gap that stands for itself. -/
theorem passes_bare {position : Nat} (h : place.Layout outline located)
    (hgap : (allItems located)[position]? = some .gap) :
    place.Passes .replayed (some (position + 1)) position 1 [] parts := by
  refine .retell (.here (h.lt_slotCount hgap) rfl fun trail hplace hbare => ?_)
  rw [Trail.scan_replayed, h.getElem?_items hplace, hgap]
  simp [hbare]

/-! ### The values that came to a reference -/

variable {edge : Reference} {value : Place} {shifts : Nat}

/-- What a node took back has the place that the segment says. -/
theorem held_of_value (h : place.Layout outline located)
    (hs : located = before ++ .value edge value shifts :: after)
    (hheld : place.node.heldSlot = some (width before + (1 + 2 * 0) + 1)) :
    place.held = .ok value := by
  rw [Place.held, hheld, Directory.held, h.bindingAt hs (Nat.zero_le shifts)]
  rfl

end Layout

/-- A node that took a value back without shifting it again. -/
theorem exists_layout_of_held {depth : Nat} (hs : place.node.Sound (depth + 1))
    (hr : place.node.Replayable) :
    ∃ (outline : Outline) (before after : List (Segment Place)) (edge : Reference)
      (inner : Place), place.Layout outline (before ++ .value edge inner 0 :: after) ∧
      place.node.heldSlot = some (width before + (1 + 2 * 0) + 1) ∧
      place.held = .ok inner ∧ inner.node.Sound depth := by
  generalize hnode : place.node = node at hs
  cases hs with
  | @holding outline before after edge inner shifts _ hl hembedded hvalue hsegments hheld hinner =>
    have hsound : ∀ segment ∈ outline.segments, segment.IsSound := by
      intro segment hmem
      cases segment with
      | content | arrayStart => trivial
      | embedded edge node => exact hembedded edge node hmem
      | value edge node shifts => exact hvalue edge node shifts hmem
    obtain rfl := Outline.shifts_eq_zero hsegments hheld (hnode ▸ Node.all_self hr.keeps)
    obtain ⟨located, h⟩ := exists_layout hnode hl hsound hr
    obtain ⟨first, last, value, rfl, rfl, hlength⟩ := h.exists_value hsegments
    have hslot : place.node.heldSlot = some (width first + (1 + 2 * 0) + 1) := by
      rw [hnode]
      show outline.held.map (· + 1) = _
      rw [hheld, hlength]
      rfl
    exact ⟨outline, first, last, edge, value, h, hnode ▸ hslot, h.held_of_value rfl hslot, hinner⟩

namespace Layout

variable {edge : Reference} {value : Place} {shifts : Nat}

/-- A value came to each gap, from which as many values can be traced as came before. -/
theorem exists_arrival (h : place.Layout outline located)
    (hs : located = before ++ .value edge value shifts :: after) (hcount : count ≤ shifts) :
    ∃ arrival : Place, (Survey.of place).arrivals[width before +
        (1 + 2 * count)]? = some (.ok arrival) ∧
      arrival.node.Sound count ∧ arrival.node.Replayable ∧ (count = shifts → arrival = value) := by
  obtain ⟨arrival, harrival, -, hrest⟩ := h.toSegmented.exists_arrival hs
    (fun _ hr => Node.all_self hr.unmixed) (fun _ hr kid hkid =>
      ⟨(Node.all_iff.mp hr.unmixed).2 kid hkid, (Node.all_iff.mp hr.keeps).2 kid hkid⟩)
    (h.inner (hs ▸ List.mem_append_cons_self) rfl).2 hcount
  exact ⟨arrival, harrival, hrest⟩

end Layout

/-- A walk that comes to the place visits all places from there down, once each; and if it passes
over what the node took back, all but those from that down. -/
structure Toured (place : Place) : Prop where
  whole : place.Tours .replayed none place.all
  rest : ∀ (depth : Nat) (inner : Place), place.node.Sound (depth + 1) → place.held = .ok inner →
    ∃ visited, place.Tours .replayed place.node.heldSlot visited ∧
      (visited ++ inner.all).Perm place.all

/-- Sound places with less work are toured. What a node binds, embeds or took back is such. -/
def TouredBeneath (place : Place) : Prop :=
  ∀ inner : Place, inner.node.work < place.node.work → inner.node.Sound 0 →
    inner.node.Replayable → inner.Toured

namespace Layout

variable {edge : Reference} {value arrival : Place} {shifts : Nat}

/-- The walk enters what came to a gap. -/
theorem passes_arrival (h : place.Layout outline located)
    (hs : located = before ++ .value edge value shifts :: after) (hcount : count ≤ shifts)
    (hbare : bare ≠ some (width before + (1 + 2 * count) + 1))
    (harrival : (Survey.of place).arrivals[width before +
      (1 + 2 * count)]? = some (.ok arrival)) (htours : arrival.Tours .replayed
      (if decide (0 < count) then arrival.node.heldSlot else none) visited) :
    place.Passes .replayed bare (width before + (1 + 2 * count)) 1 visited
      [.inr arrival.node] := by
  have hgap := getElem?_gap before after edge value hcount
  rw [← hs] at hgap
  refine .enter (h.lt_slotCount hgap) htours ?_
  rintro trail rfl rfl
  exact h.scan_of_arrival hs hcount hbare harrival

/-- Up to each of its gaps, a value takes the walk through all places from what came there down. -/
theorem passes_gaps (h : place.Layout outline located)
    (hs : located = before ++ .value edge value shifts :: after)
    (hbare : ∀ count ≤ shifts, bare ≠ some (width before + (1 + 2 * count) + 1))
    (hbeneath : place.TouredBeneath)
    (hcount : count ≤ shifts) (harrival : (Survey.of place).arrivals[
      width before + (1 + 2 * count)]? = some (.ok arrival)) :
    place.Passes .replayed bare (width before) (2 + 2 * count) arrival.all parts := by
  have htoured : ∀ {count : Nat} {arrival : Place}, count ≤ shifts →
      (Survey.of place).arrivals[width before + (1 + 2 * count)]? = some (.ok arrival) →
      arrival.node.Sound count ∧ arrival.node.Replayable ∧ arrival.Toured := by
    intro count arrival hcount harrival
    obtain ⟨found, hfound, hsound, hreplayable, -⟩ := h.exists_arrival hs hcount
    obtain rfl : found = arrival := by
      rw [harrival] at hfound
      exact (Except.ok.inj (Option.some.inj hfound)).symm
    have hwork := Survey.work_le_of_mem_arrivals (Array.mem_of_getElem? hfound)
    have hlt := Nat.lt_of_le_of_lt hwork place.node.childrenWork_lt
    exact ⟨hsound, hreplayable, hbeneath found hlt hsound.zero hreplayable⟩
  induction count generalizing arrival parts with
  | zero =>
    -- The first value took nothing back, so all of it is new to the walk.
    obtain ⟨-, -, hwhole, -⟩ := htoured hcount harrival
    have hreference := Segment.getElem?_reference before after edge value shifts
    rw [← hs] at hreference
    have hfirst : place.Passes .replayed bare (width before) 1 [] _ :=
      h.passes_item hreference rfl rfl fun _ => rfl
    exact (hfirst.append (h.passes_arrival hs hcount (hbare 0 hcount) harrival hwhole)).retell
  | succ count ih =>
    obtain ⟨hsound, hreplayable, -, hrest⟩ := htoured hcount harrival
    obtain ⟨inner, hheld, -⟩ := exists_held hsound (Node.all_self hreplayable.unmixed)
    obtain ⟨visited, htours, hperm⟩ := hrest count inner hsound hheld
    -- The walk has been through what was taken back; the shift and the new value come after it.
    have hbefore := @ih [] inner (Nat.le_of_succ_le hcount)
      (h.arrivals_of_held hs hcount harrival hheld)
    have hshift := Segment.getElem?_shift before after edge value hcount
    rw [← hs] at hshift
    have hstay : place.Passes .replayed bare (width before + (2 + 2 * count)) 1 [] _ :=
      h.passes_item hshift rfl rfl (by rintro ⟨⟩)
    have henter := h.passes_arrival hs hcount (hbare (count + 1) hcount) harrival htours
    have hslot : width before + (1 + 2 * (count + 1)) =
        width before + (2 + 2 * count) + 1 := by omega
    rw [hslot] at henter
    exact ((hbefore.append (hstay.append henter)).perm (List.perm_append_comm.trans hperm)).retell

/-- Each segment takes the walk through all places from its node down. -/
theorem enters (h : place.Layout outline located) (hbeneath : place.TouredBeneath) :
    place.Enters .replayed bare located where
  embedded edge inner hmem := by
    have hsound : ((Segment.embedded edge inner).map Place.node).IsSound :=
      h.sound _ (h.segments ▸ List.mem_map_of_mem hmem)
    obtain ⟨hwork, hreplayable⟩ := h.inner hmem rfl
    exact (hbeneath inner hwork hsound hreplayable).whole
  value before edge value shifts after hs hbare := by
    obtain ⟨arrival, harrival, -, -, hlast⟩ := h.exists_arrival hs (Nat.le_refl shifts)
    obtain rfl := hlast rfl
    refine h.passes_gaps hs ?_ hbeneath (Nat.le_refl shifts) harrival
    rintro count hcount rfl
    have := hbare _ rfl
    omega

/-- Where a gap stands for itself, the walk passes over the value. -/
theorem passes_held (h : place.Layout outline (before ++ .value edge value 0 :: after)) :
    place.Passes .replayed (some (width before + (1 + 2 * 0) + 1)) (width before) 2 [] parts := by
  have hreference := Segment.getElem?_reference before after edge value 0
  have hgap := getElem?_gap before after edge value (Nat.le_refl 0)
  have hstay : place.Passes .replayed (some (width before + (1 + 2 * 0) + 1))
      (width before) 1 [] _ := h.passes_item hreference rfl rfl fun _ => rfl
  exact (hstay.append (@passes_bare _ [] _ _ _ h hgap)).retell

/-- A tour that passes over what the node took back. -/
theorem tours_held (h : place.Layout outline (before ++ .value edge value 0 :: after))
    (hbare : bare = some (width before + (1 + 2 * 0) + 1)) (hbeneath : place.TouredBeneath) :
    place.Tours .replayed bare
      (place :: ((before ++ after).filterMap node?).flatMap all) := by
  have hlength : width (before ++ [.value edge value 0]) = width before + 2 := width_concat ..
  -- The gap that is passed over lies in the segment between the two runs, and in neither of them.
  have hbefore : place.Passes .replayed bare 0 (width before)
      ((before.filterMap node?).flatMap all) [] := by
    have hsplit : before ++ .value edge value 0 :: after =
        [] ++ before ++ .value edge value 0 :: after := by simp
    refine (h.passes_segments (h.enters hbeneath) hsplit ?_).retell
    rw [hbare]
    rintro slot ⟨⟩
    refine .inr ?_
    rw [Segment.width_nil]
    omega
  have hafter : place.Passes .replayed bare (width before + 2)
      (width after) ((after.filterMap node?).flatMap all) [] := by
    have hsplit : before ++ .value edge value 0 :: after =
        before ++ [.value edge value 0] ++ after ++ [] := by simp
    rw [← hlength]
    refine (h.passes_segments (h.enters hbeneath) hsplit ?_).retell
    rw [hbare]
    rintro slot ⟨⟩
    exact .inl (by omega)
  have hheld : place.Passes .replayed bare (width before) 2 [] [] := by
    rw [hbare]
    exact h.passes_held
  have hitems : width (before ++ .value edge value 0 :: after) =
      width before + (2 + width after) := by
    rw [Segment.width_append, width_cons]
    rfl
  rw [← Nat.zero_add (width before)] at hheld hafter
  have hall := hbefore.append (hheld.append hafter)
  rw [← hitems, List.nil_append, ← List.flatMap_append, ← List.filterMap_append] at hall
  exact h.tours hall (by rintro ⟨⟩)

end Layout

/-- However a walk comes to a place, its tour of it visits each place from there down once. -/
theorem toured (place : Place) (hs : place.node.Sound 0) (hr : place.node.Replayable) :
    place.Toured := by
  have hbeneath : place.TouredBeneath :=
    fun inner hlt hsound hreplayable => toured inner hsound hreplayable
  refine ⟨?_, ?_⟩
  · cases hnode : place.node with
    | gap | null | literal => exact tours_of_isStub (by rw [hnode]; rfl)
    | element body =>
      rw [hnode] at hs
      obtain ⟨outline, houtline, hl, hsegments⟩ := hs.exists_outline
      obtain ⟨located, h⟩ := exists_layout (hnode.trans houtline.symm) hl hsegments hr
      exact h.tours_all (h.enters hbeneath)
  · intro depth inner hsound hheld
    obtain ⟨outline, before, after, edge, found, h, hslot, hfound, -⟩ :=
      exists_layout_of_held hsound hr
    obtain rfl : found = inner := Except.ok.inj (hfound.symm.trans hheld)
    refine ⟨_, h.tours_held hslot hbeneath, ?_⟩
    have hkids : place.kids.Perm (found :: (before ++ after).filterMap node?) := by
      refine h.kids.trans ?_
      rw [List.filterMap_append, List.filterMap_append]
      exact List.perm_middle
    rw [place.all_eq, List.cons_append]
    refine .cons place (List.perm_append_comm.trans ?_)
    exact hkids.symm.flatMap_right all
termination_by place.node.work

end Place

/-! ### Walks from the root -/

namespace Visit

/-- A visit enters its place once. -/
theorem filter_spots (visit : Visit) : visit.spots.filter (·.slot == 0) = [⟨visit.place, 0⟩] := by
  have hlater : (visit.slots.map (Spot.mk visit.place)).filter (·.slot == 0) = [] := by
    rw [List.filter_eq_nil_iff]
    intro spot hmem
    obtain ⟨slot, hslot, rfl⟩ := List.mem_map.mp hmem
    have := List.rel_of_pairwise_cons visit.ascending hslot
    simp
    omega
  rw [spots, List.map_cons, List.filter_cons_of_pos rfl, hlater]

/-- Visits enter their places once. -/
theorem filter_flatMap_spots (visits : List Visit) :
    (visits.flatMap spots).filter (·.slot == 0) = visits.map fun visit => ⟨visit.place, 0⟩ := by
  induction visits with
  | nil => rfl
  | cons visit rest ih =>
    rw [List.flatMap_cons, List.filter_append, ih, filter_spots]
    rfl

/-- A walk that pays visits enters the places of these. -/
theorem perm_entered {cursors : List Cursor} {visits : List Visit}
    (h : (cursors.map Cursor.spot).Perm (visits.flatMap spots)) :
    ((cursors.filter (·.slot == 0)).map (·.trail.place)).Perm (visits.map place) := by
  have hentered := (h.filter (·.slot == 0)).map Spot.place
  rw [filter_flatMap_spots, List.filter_map, List.map_map, List.map_map] at hentered
  exact hentered

/-- Visits to places with different numbers have no spot in common, and none comes to a spot
twice. -/
theorem nodup_spots {visits : List Visit} (h : (visits.map (·.place.number)).Nodup) :
    ((visits.flatMap spots).map fun spot => (spot.place.number, spot.slot)).Nodup := by
  induction visits with
  | nil => exact List.nodup_nil
  | cons visit rest ih =>
    obtain ⟨hnew, hrest⟩ := List.nodup_cons.mp h
    have hown : (visit.spots.map fun spot => (spot.place.number, spot.slot)) =
        (0 :: visit.slots).map (Prod.mk visit.place.number) := by
      rw [spots, List.map_map]
      rfl
    rw [List.flatMap_cons, List.map_append, hown]
    refine List.nodup_append.mpr ⟨?_, ih hrest, ?_⟩
    · exact (visit.ascending.imp Nat.ne_of_lt).map _ fun _ _ hne heq => hne (Prod.mk.inj heq).2
    · rintro one hone other hother rfl
      obtain ⟨slot, -, rfl⟩ := List.mem_map.mp hone
      obtain ⟨spot, hspot, hkey⟩ := List.mem_map.mp hother
      obtain ⟨found, hfound, hmem⟩ := List.mem_flatMap.mp hspot
      obtain ⟨_, -, rfl⟩ := List.mem_map.mp hmem
      exact hnew (List.mem_map.mpr ⟨found, hfound, (Prod.mk.inj hkey).1⟩)

end Visit

/-- A walk from a place that makes a tour of it pays one visit to each place of the tour, and does
not fail. -/
theorem Place.Tours.exists_visits {place : Place} {visited : List Place}
    (h : place.Tours order none visited) (ladder : Ladder) :
    ((Cursor.first (.start place ladder)).walk order).failure = none ∧
    order.Tells (((Cursor.first (.start place ladder)).walk order).items.map Cursor.spot)
      [.inr place.node] ∧
    ∃ visits : List Visit, (visits.map Visit.place).Perm visited ∧
      (((Cursor.first (.start place ladder)).walk order).items.map Cursor.spot).Perm
        (visits.flatMap Visit.spots) := by
  obtain ⟨spots, visits, hvisits, hspots, htells, htrail⟩ := h
  obtain ⟨hitems, hfailure⟩ := Run.mk.inj (htrail (.start place ladder) rfl rfl)
  obtain ⟨hnone, hwalk⟩ :=
    @Cursor.walk_of_ahead order (.first (.start place ladder)) _ (congrArg (Run.mk _) hfailure)
  have hcome := hwalk.trans (hitems.trans (List.append_nil _))
  exact ⟨hnone, hcome ▸ htells, visits, hvisits, hcome ▸ hspots⟩

/-- The tag opens a node. -/
def Tag.isOpening : Tag → Bool
  | opening _ => true
  | _ => false

/-- A cursor stands at an opening tag exactly at the first slot of a node that is no stub. -/
theorem Cursor.isOpening_tag (cursor : Cursor) :
    cursor.tag.isOpening = (cursor.slot == 0 && !cursor.trail.place.node.isStub) := by
  obtain ⟨trail, slot⟩ := cursor
  show (trail.place.node.tagAt slot).isOpening = _
  cases trail.place.node with
  | gap | null | literal => simp [Node.tagAt, Tag.isOpening, Node.isStub]
  | element body =>
    cases slot with
    | zero => rfl
    | succ position =>
      rw [Node.tagAt]
      cases body.items[position]? with
      | none => rfl
      | some item => cases item <;> rfl

namespace Tree

variable {tree : Tree}

/-- The walk from the root of a tree pays one visit to each of its places. -/
theorem exists_visits (h : tree.Built) (hr : tree.root.Replayable) (ladder : Ladder) :
    ∃ visits : List Visit, (visits.map Visit.place).Perm tree.root.places.toList ∧
      ((tree.walk ladder).items.map Cursor.spot).Perm (visits.flatMap Visit.spots) := by
  have htours := (Place.toured (.root tree.root) h.sound hr).whole
  rw [← Node.places_eq h.sound.isCounted] at htours
  exact (htours.exists_visits ladder).2.2

/-- The walk enters each place once. -/
theorem perm_entered (h : tree.Built) (hr : tree.root.Replayable) (ladder : Ladder) :
    (((tree.walk ladder).items.filter (·.slot == 0)).map (·.trail.place)).Perm
      tree.root.places.toList := by
  obtain ⟨visits, hvisits, hspots⟩ := exists_visits h hr ladder
  exact (Visit.perm_entered hspots).trans hvisits

/-- The walk comes to no spot twice. -/
theorem pairwise_walk (h : tree.Built) (hr : tree.root.Replayable) (ladder : Ladder) :
    (tree.walk ladder).items.Pairwise fun first second => first.same second = false := by
  obtain ⟨visits, hvisits, hspots⟩ := exists_visits h hr ladder
  have hnumbers : (visits.map (·.place.number)).Nodup := by
    have hperm := hvisits.map Place.number
    rw [List.map_map, Node.places_eq h.sound.isCounted,
      Place.map_number_all _ h.sound.isCounted] at hperm
    exact hperm.nodup_iff.mpr List.nodup_range'
  have hnodup := (hspots.map fun spot => (spot.place.number, spot.slot)).nodup_iff.mpr
    (Visit.nodup_spots hnumbers)
  rw [List.map_map] at hnodup
  refine (List.pairwise_map.mp hnodup).imp ?_
  intro first second hne
  rw [Cursor.same, Bool.and_eq_false_iff, beq_eq_false_iff_ne, beq_eq_false_iff_ne, ← not_and_or]
  exact fun hboth => hne (Prod.ext hboth.1 hboth.2)

/-- The stream of a tree that was built goes through each node once: the walk from the root, which
does not fail, enters every place of the tree one time and never comes to a spot again, and the
stream has an opening tag for each node that is no stub. This holds if no node uses the same name
for an array and for a single property, and no value is shifted right after it was taken back. -/
theorem walk_once (h : tree.Built) (hunmixed : tree.root.all Node.isUnmixed = true)
    (hkeeps : tree.root.all Node.keepsHeld = true) (ladder : Ladder) :
    (tree.walk ladder).failure = none ∧
    (((tree.walk ladder).items.filter (·.slot == 0)).map (·.trail.place)).Perm
      tree.root.places.toList ∧
    (tree.walk ladder).items.Pairwise (fun first second => first.same second = false) ∧
    ∃ tags, tree.tags = .ok tags ∧ tags.countP Tag.isOpening =
      tree.root.places.toList.countP fun place => !place.node.isStub := by
  have hr : tree.root.Replayable := ⟨hunmixed, hkeeps⟩
  have hentered := perm_entered h hr ladder
  obtain ⟨hfailure, htags⟩ := tags_eq_walk h hunmixed ladder
  refine ⟨hfailure, hentered, pairwise_walk h hr ladder, _, htags, ?_⟩
  -- The opening tags are those of the slots at which the walk enters a place.
  have hheader : (Doctype.headerTags tree.doctype).countP Tag.isOpening = 0 := by
    cases tree.doctype <;> rfl
  have hopening : ((tree.walk ladder).items.map Cursor.tag).countP Tag.isOpening =
      (((tree.walk ladder).items.filter (·.slot == 0)).map (·.trail.place)).countP
        fun place => !place.node.isStub := by
    rw [List.countP_map, List.countP_map, List.countP_filter]
    refine List.countP_congr fun cursor _ => ?_
    rw [Function.comp_apply, Cursor.isOpening_tag, Bool.and_comm]
    rfl
  rw [List.countP_append, hheader, Nat.zero_add, hopening]
  exact hentered.countP_eq _

theorem walk_once_of_shift :
    ∃ tree tags, ofTags shiftedTags = .ok tree ∧ tree.root.all Node.isUnmixed = true ∧
      tree.root.all Node.keepsHeld = true ∧ (tree.walk ⟨31⟩).failure = none ∧
      (((tree.walk ⟨31⟩).items.filter (·.slot == 0)).map (·.trail.place)).Perm
        tree.root.places.toList ∧
      (tree.walk ⟨31⟩).items.Pairwise (fun first second => first.same second = false) ∧
      tree.tags = .ok tags ∧ tags.countP Tag.isOpening =
        tree.root.places.toList.countP fun place => !place.node.isStub := by
  obtain ⟨tree, htree, hunmixed, hkeeps⟩ :
      ∃ tree, ofTags shiftedTags = .ok tree ∧ tree.root.Replayable := by decide +kernel
  obtain ⟨hfailure, hentered, hpairwise, tags, htags, hcount⟩ :=
    walk_once (.ofTags htree) hunmixed hkeeps ⟨31⟩
  exact ⟨tree, tags, htree, hunmixed, hkeeps, hfailure, hentered, hpairwise, htags, hcount⟩

/-- Tags in which the node that takes back a shifted value has it shifted in turn. -/
def heldShiftTags : List Tag :=
  let start (name : String) : Tag := .opening ⟨{}, none, some name, []⟩
  let edge (name : String) : Tag := .reference ⟨name, false, none, {}⟩
  [start "P", edge "x", start "A", .closing, .shift 1, start "N", edge "y", .gap, .shift 1,
    start "M", edge "z", .gap, .closing, .closing, .closing]

/-- Where a value is shifted right after it was taken back, the stream has a node twice. -/
theorem opensTwice_of_heldShift :
    ∃ tree tags, ofTags heldShiftTags = .ok tree ∧ tree.root.all Node.isUnmixed = true ∧
      tree.tags = .ok tags ∧ tags.countP Tag.isOpening = 5 ∧
      (tree.root.places.toList.countP fun place => !place.node.isStub) = 4 := by
  simp only [exists_and_left]
  decide +kernel

end Tree

end TagTree
