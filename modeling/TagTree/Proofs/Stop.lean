import TagTree.Cursor.Basic
import TagTree.Proofs.Survey

/-!
# Where a cursor stops

From slot to slot of a node, a cursor stops at the tag that the replay of the node gives there, or
enters the value that the replay gives there (`Trail.scan_shows`). It never fails in a node that is
sound and mixes no name.
-/

namespace TagTree

open Segment (allItems width getElem?_gap allParts width_map)

variable {position : Nat} {trail : Trail} {order : Order} {item : Item Place} {place : Place}
  {count : Nat}

/-- A traversal of the node finds all that it looks for: the node is sound, and neither in it nor
beneath it is a name mixed. -/
structure Node.Traversable (node : Node) : Prop where
  sound : node.Sound 0
  unmixed : node.all isUnmixed = true

namespace Part

theorem length_shifts (bare : Option Nat) (slot index count : Nat)
    (due : List (Except LookupError Node)) :
    (shifts bare slot index count due).length = 2 * count := by
  induction count generalizing slot index due with
  | zero => rfl
  | succ count ih => rw [shifts, List.length_cons, List.length_cons, ih]; omega

theorem getElem?_shifts (bare : Option Nat) (slot index : Nat) {place : Nat}
    (due : List (Except LookupError Node)) (h : place < count) :
    (shifts bare slot index count due)[2 * place]? = some (.tag (.shift (index + place))) ∧
    (shifts bare slot index count due)[2 * place + 1]? =
      some (.atGap bare true (slot + (2 * place + 1)) (due.drop place)) := by
  induction count generalizing slot index place due with
  | zero => exact absurd h (Nat.not_lt_zero _)
  | succ count ih =>
    rw [shifts]
    cases place with
    | zero => exact ⟨rfl, rfl⟩
    | succ place =>
      obtain ⟨hshift, hgap⟩ := ih (slot + 2) (index + 1) due.tail (Nat.lt_of_succ_lt_succ h)
      have hindex : index + 1 + place = index + (place + 1) := by omega
      have hslot : slot + 2 + (2 * place + 1) = slot + (2 * (place + 1) + 1) := by omega
      rw [hindex] at hshift
      rw [hslot, List.drop_tail] at hgap
      exact ⟨hshift, hgap⟩

/-- The part that a gap gives where a value is due. -/
theorem atGap_of_due {bare : Option Nat} {afterShift : Bool} {slot : Nat}
    {due : List (Except LookupError Node)} {node : Node} (h : due[0]? = some (.ok node))
    (hb : bare ≠ some slot) :
    atGap bare afterShift slot due = .value node (if afterShift then node.heldSlot else none) := by
  cases due with
  | nil => cases h
  | cons first rest =>
    obtain rfl := Option.some.inj h
    rw [atGap, if_neg hb]
    rfl

end Part

namespace Segment

variable {ν : Type} {segments : List (Segment ν)} {place shifts : Nat} {item : Item ν}

/-- A slot of segments is a slot of one of them. -/
theorem exists_of_lt (h : position < width segments) :
    ∃ before segment after place, segments = before ++ segment :: after ∧
      position = width before + place ∧ place < segment.items.length := by
  induction segments generalizing position with
  | nil => exact absurd h (Nat.not_lt_zero _)
  | cons first rest ih =>
    rcases Nat.lt_or_ge position first.items.length with hlt | hge
    · exact ⟨[], first, rest, position, rfl, (Nat.zero_add _).symm, hlt⟩
    · rw [width_cons] at h
      have hlt : position - first.items.length < width rest := by omega
      obtain ⟨before, segment, after, place, hrest, hposition, hplace⟩ := ih hlt
      refine ⟨first :: before, segment, after, place, by rw [hrest]; rfl, ?_, hplace⟩
      rw [width_cons]
      omega

theorem length_parts (bare : Option Nat) (slot : Nat) (segment : Segment Node) :
    (segment.parts bare slot).length = segment.items.length := by
  cases segment with
  | content | arrayStart => rfl
  | embedded edge node => cases edge <;> rfl
  | value edge node shifts => simp [parts, items, Part.length_shifts]

theorem length_allParts (bare : Option Nat) (slot : Nat) (segments : List (Segment Node)) :
    (allParts bare slot segments).length = width segments := by
  induction segments generalizing slot with
  | nil => rfl
  | cons segment rest ih => rw [allParts, width_cons, List.length_append, length_parts, ih]

/-- A part of a segment among those of the node. -/
theorem getElem?_allParts (bare : Option Nat) (slot : Nat) (before after : List (Segment Node))
    {segment : Segment Node} (h : place < segment.items.length) :
    (allParts bare slot (before ++ segment :: after))[width before + place]? =
      (segment.parts bare (slot + width before))[place]? := by
  rw [allParts_append, allParts, ← length_allParts bare slot before,
    List.getElem?_append_right (Nat.le_add_right _ _), Nat.add_sub_cancel_left,
    List.getElem?_append_left]
  rwa [length_parts]

/-- What a value gives in its gaps, one after the other. -/
theorem getElem?_parts_gap (bare : Option Nat) (slot : Nat) (edge : Reference) (node : Node)
    (h : count ≤ shifts) :
    ((value edge node shifts).parts bare slot)[1 + 2 * count]? =
      some (.atGap bare (decide (0 < count)) (slot + (1 + 2 * count))
        ((node.history shifts).drop count)) := by
  cases count with
  | zero => rfl
  | succ count =>
    have hplace : 1 + 2 * (count + 1) = 2 * count + 1 + 1 + 1 := by omega
    have hslot : slot + 2 + (2 * count + 1) = slot + (2 * count + 1 + 1 + 1) := by omega
    have hgap := (Part.getElem?_shifts bare (slot + 2) 1 (node.history shifts).tail h).2
    rw [hslot, List.drop_tail] at hgap
    rw [parts, hplace, List.getElem?_cons_succ, List.getElem?_cons_succ, hgap]
    simp

/-- Before each gap of a value stands its reference or a shift. -/
theorem exists_before_gap (before after : List (Segment ν)) (edge : Reference) (node : ν)
    (h : count ≤ shifts) :
    ∃ item, (allItems (before ++ value edge node shifts :: after))[
        width before + 2 * count]? = some item ∧
      item.introducesValue = true ∧ item.isShift = decide (0 < count) := by
  cases count with
  | zero => exact ⟨_, getElem?_reference before after edge node shifts, rfl, rfl⟩
  | succ count =>
    have hplace : 2 * (count + 1) = 2 + 2 * count := by omega
    rw [hplace]
    exact ⟨_, getElem?_shift before after edge node h, rfl, rfl⟩

/-- The places of a value: its reference, its gaps, and its shifts. -/
theorem place_of_value {edge : Reference} {node : ν}
    (h : place < (value edge node shifts).items.length) :
    place = 0 ∨ (∃ count, count ≤ shifts ∧ place = 1 + 2 * count) ∨
    ∃ count, count < shifts ∧ place = 2 + 2 * count := by
  simp only [items, List.length_cons, length_shiftItems] at h
  rcases Nat.eq_zero_or_pos place with hzero | hpos
  · exact .inl hzero
  · rcases Nat.mod_two_eq_zero_or_one place with heven | hodd
    · exact .inr (.inr ⟨place / 2 - 1, by omega, by omega⟩)
    · exact .inr (.inl ⟨place / 2, by omega, by omega⟩)

/-- The items of a segment, with their places. -/
inductive ItemAt {ν : Type} : Segment ν → Nat → Item ν → Prop where
  | content (text : String) : ItemAt (content text) 0 (.literal text)
  | embedded (node : ν) : ItemAt (embedded none node) 0 (.embedded node)
  | mark (edge : Reference) (node : ν) : ItemAt (embedded (some edge) node) 0 (.reference edge)
  | marked (edge : Reference) (node : ν) : ItemAt (embedded (some edge) node) 1 (.embedded node)
  | start (edge : Reference) : ItemAt (arrayStart edge) 0 (.reference edge)
  | started (edge : Reference) : ItemAt (arrayStart edge) 1 .arrayStart
  | reference (edge : Reference) (node : ν) (shifts : Nat) :
    ItemAt (value edge node shifts) 0 (.reference edge)
  | gap (edge : Reference) (node : ν) {shifts count : Nat} (h : count ≤ shifts) :
    ItemAt (value edge node shifts) (1 + 2 * count) .gap
  | shift (edge : Reference) (node : ν) {shifts count : Nat} (h : count < shifts) :
    ItemAt (value edge node shifts) (2 + 2 * count) (.shift (1 + count))

/-- There are no other items. -/
theorem itemAt_of_getElem? {segment : Segment ν}
    (h : segment.items[place]? = some item) : segment.ItemAt place item := by
  have hplace := (List.getElem?_eq_some_iff.mp h).1
  cases segment with
  | content text =>
    obtain rfl : place = 0 := Nat.lt_one_iff.mp hplace
    cases h
    exact .content text
  | embedded edge node =>
    cases edge with
    | none =>
      obtain rfl : place = 0 := Nat.lt_one_iff.mp hplace
      cases h
      exact .embedded node
    | some edge =>
      rcases Nat.le_one_iff_eq_zero_or_eq_one.mp (Nat.le_of_lt_succ hplace) with rfl | rfl <;>
        cases h
      · exact .mark edge node
      · exact .marked edge node
  | arrayStart edge =>
    rcases Nat.le_one_iff_eq_zero_or_eq_one.mp (Nat.le_of_lt_succ hplace) with rfl | rfl <;> cases h
    · exact .start edge
    · exact .started edge
  | value edge node shifts =>
    have hall := getElem?_allItems [] [] hplace
    rw [h] at hall
    rcases place_of_value hplace with rfl | ⟨count, hcount, rfl⟩ | ⟨count, hcount, rfl⟩
    · cases h
      exact .reference edge node shifts
    · cases (getElem?_gap [] [] edge node hcount).symm.trans hall
      exact .gap edge node hcount
    · cases (getElem?_shift [] [] edge node hcount).symm.trans hall
      exact .shift edge node hcount

/-- An item of segments is one of a segment. -/
theorem exists_itemAt (h : (allItems segments)[position]? = some item) :
    ∃ before segment after place, segments = before ++ segment :: after ∧
      position = width before + place ∧ segment.items[place]? = some item ∧
      segment.ItemAt place item := by
  obtain ⟨before, segment, after, place, rfl, rfl, hplace⟩ :=
    exists_of_lt (List.getElem?_eq_some_iff.mp h).1
  rw [getElem?_allItems before after hplace] at h
  exact ⟨before, segment, after, place, rfl, rfl, h, itemAt_of_getElem? h⟩

/-- Every gap is one of a value. -/
theorem exists_value_of_isGap (h : (allItems segments)[position]? = some .gap) :
    ∃ before after edge node shifts count,
      segments = before ++ .value edge node shifts :: after ∧ count ≤ shifts ∧
      position = width before + (1 + 2 * count) := by
  obtain ⟨before, _, after, _, rfl, rfl, -, hat⟩ := exists_itemAt h
  cases hat with
  | gap edge node hcount => exact ⟨before, after, edge, node, _, _, rfl, hcount, rfl⟩

end Segment

namespace Trail

/-- The stop is at what the replay of the node gives in the slot. -/
inductive Shows (trail : Trail) (slot : Nat) : Stop → Part → Prop where
  | here {tag : Tag} (h : trail.node.tagAt slot = tag) : Shows trail slot (.here slot) (.tag tag)
  | enter {place : Place} {bare : Option Nat} (h : place.node.Traversable) :
    Shows trail slot (.enter slot place bare) (.value place.node bare)

/-- In the order of the stream no slot is passed over. -/
theorem scan_replayed (trail : Trail) (position : Nat) :
    trail.scan .replayed position =
      match trail.survey.directory.items[position]? with
      | some (.embedded place) => .ok (.enter (position + 1) place none)
      | some .gap =>
        if trail.bareSlot = some (position + 1) ||
            !(trail.survey.itemBefore position).any Item.introducesValue then
          .ok (.here (position + 1))
        else trail.enterValue .replayed position
      | _ => .ok (.here (position + 1)) := by
  rw [scan]
  split <;> simp_all

/-- The cursor stops at a tag of the node itself, unless it passes over shifts. After the items that
is the closing tag. -/
theorem scan_here (h : ∀ item ∈ trail.survey.directory.items[position]?,
    item.node? = none ∧ item.isGap = false ∧ (order = .final → item.isShift = false)) :
    trail.scan order position = .ok (.here (position + 1)) := by
  rw [scan]
  split
  · rename_i hitem
    cases (h _ hitem).1
  · rename_i hitem
    cases (h _ hitem).2.1
  · rename_i hitem
    split
    · rename_i horder
      cases (h _ hitem).2.2 horder
    · rfl
  · rfl

/-- The cursor enters an embedded node. -/
theorem scan_enter (h : trail.survey.directory.items[position]? = some (.embedded place)) :
    trail.scan order position = .ok (.enter (position + 1) place none) := by
  rw [scan]
  split <;> simp_all

/-- The cursor stops at what the slot gives. -/
def Meets (trail : Trail) (position : Nat) (part : Option Part) : Prop :=
  ∃ stop found, trail.scan .replayed position = .ok stop ∧ part = some found ∧
    trail.Shows (position + 1) stop found

end Trail

namespace Place.Segmented

variable {outline : Outline} {located before after : List (Segment Place)}

theorem getElem?_items (h : place.Segmented outline located) (hplace : trail.place = place)
    (position : Nat) : trail.survey.directory.items[position]? = (allItems located)[position]? := by
  rw [trail.survey_eq, hplace]
  exact h.getElem?_directory position

theorem tagAt (h : place.Segmented outline located) (position : Nat) :
    place.node.tagAt (position + 1) =
      (((allItems located)[position]?).map Item.toTag).getD .closing := by
  rw [h.node]
  show (((allItems outline.segments).toArray[position]?).map Item.toTag).getD .closing = _
  rw [List.getElem?_toArray, ← h.segments, Segment.allItems_map, List.getElem?_map, Option.map_map]
  congr 2
  funext item
  cases item <;> rfl

variable (h : trail.place.Segmented outline located)

include h

/-- The cursor stops at a tag of the node itself that is no gap, and after the items at the closing
tag. -/
theorem meets_tag (hitem : ∀ item ∈ (allItems located)[position]?,
      item.node? = none ∧ item.isGap = false) :
    trail.Meets position
      (some (.tag ((((allItems located)[position]?).map Item.toTag).getD .closing))) := by
  refine ⟨_, _, Trail.scan_here ?_, rfl, .here (h.tagAt position)⟩
  rw [h.getElem?_items rfl]
  exact fun item hmem => ⟨(hitem item hmem).1, (hitem item hmem).2, nofun⟩

theorem meets_item (hitem : (allItems located)[position]? = some item)
    (hnode : item.node? = none) (hgap : item.isGap = false) :
    trail.Meets position (some (.tag item.toTag)) := by
  have hmeets : trail.Meets position _ := h.meets_tag fun other hother => by
    cases hitem.symm.trans hother
    exact ⟨hnode, hgap⟩
  rwa [hitem] at hmeets

variable {edge : Reference} {value : Place} {shifts : Nat}
  (hs : located = before ++ .value edge value shifts :: after) (hcount : count ≤ shifts)

include hs hcount

/-- The cursor enters what first came to a gap. -/
theorem scan_of_arrival {arrival : Place}
    (hbare : trail.bareSlot ≠ some (width before + (1 + 2 * count) + 1))
    (harrival : (Survey.of trail.place).arrivals[
      width before + (1 + 2 * count)]? = some (.ok arrival)) :
    trail.scan .replayed (width before + (1 + 2 * count)) =
      .ok (.enter (width before + (1 + 2 * count) + 1) arrival
        (if decide (0 < count) then arrival.node.heldSlot else none)) := by
  obtain ⟨item, hitem, hintroduces, hshift⟩ :=
    Segment.exists_before_gap before after edge value hcount
  have hgap := getElem?_gap before after edge value hcount
  rw [← hs, ← h.getElem?_items rfl] at hgap hitem
  have hbefore : trail.survey.itemBefore (width before + (1 + 2 * count)) = some item := by
    rw [Nat.add_comm 1, ← Nat.add_assoc]
    exact hitem
  rw [← trail.survey_eq, ← trail.arrivals_eq] at harrival
  rw [Trail.scan_replayed, hgap]
  simp only [hbare, hbefore, Option.any_some, hintroduces, Trail.enterValue, harrival, hshift]
  rfl

/-- In each of its gaps, a value gives what came there first, unless the gap stands for itself. -/
theorem meets_gap (hall : value.node.all Node.isUnmixed = true) :
    trail.Meets (width before + (1 + 2 * count)) (some (.atGap trail.bareSlot (decide (0 < count))
        (width before + (1 + 2 * count) + 1) ((value.node.history shifts).drop count))) := by
  by_cases hbare : trail.bareSlot = some (width before + (1 + 2 * count) + 1)
  · have hgap := getElem?_gap before after edge value hcount
    rw [← hs] at hgap
    refine ⟨.here _, .tag .gap, ?_, by rw [Part.atGap, if_pos hbare], .here ?_⟩
    · rw [Trail.scan_replayed, h.getElem?_items rfl, hgap]
      simp [hbare]
    · rw [Trail.node, h.tagAt, hgap]
      rfl
  · obtain ⟨arrival, harrival, hhistory, hsound, hall, -⟩ := h.exists_arrival hs
      (fun _ => Node.all_self) (fun _ hnode => (Node.all_iff.mp hnode).2) hall hcount
    refine ⟨_, _, h.scan_of_arrival hs hcount hbare harrival, rfl, ?_⟩
    rw [Part.atGap_of_due ((List.getElem?_drop ..).trans hhistory) hbare]
    exact .enter ⟨hsound.zero, hall⟩

omit hs hcount

/-- The cursor stops at what each slot of a segment gives. -/
theorem meets_segment (ht : trail.node.Traversable) {segment : Segment Place} {offset : Nat}
    (hs : located = before ++ segment :: after) (hat : segment.ItemAt offset item)
    (hitem : (allItems located)[width before + offset]? = some item) :
    trail.Meets (width before + offset)
      ((segment.map Place.node).parts trail.bareSlot (1 + width before))[offset]? := by
  have hmem : segment ∈ located := hs ▸ List.mem_append_cons_self
  have hsound := h.sound_of_mem hmem
  have hall : ∀ inner, segment.node? = some inner → inner.node.all Node.isUnmixed = true := by
    intro inner hnode
    refine (Node.all_iff.mp ht.unmixed).2 _ ?_
    rw [Trail.node, ← map_kids]
    exact List.mem_map_of_mem (h.kids.symm.subset (List.mem_filterMap.mpr ⟨segment, hmem, hnode⟩))
  cases hat with
  | content | mark | start | started | reference => exact h.meets_item hitem rfl rfl
  | embedded inner | marked _ inner =>
    exact ⟨_, _, Trail.scan_enter ((h.getElem?_items rfl _).trans hitem), rfl,
      .enter ⟨hsound, hall inner rfl⟩⟩
  | @gap edge value shifts count hcount =>
    have hslot : 1 + width before + (1 + 2 * count) = width before + (1 + 2 * count) + 1 := by omega
    rw [Segment.map, Segment.getElem?_parts_gap _ _ _ _ hcount, hslot]
    exact h.meets_gap hs hcount (hall value rfl)
  | @shift edge value shifts count hcount =>
    have hplace : 2 + 2 * count = 2 * count + 1 + 1 := by omega
    have hpart : (((Segment.value edge value shifts).map Place.node).parts trail.bareSlot
        (1 + width before))[2 * count + 1 + 1]? = some (.tag (.shift (1 + count))) :=
      (Part.getElem?_shifts trail.bareSlot (1 + width before + 2) 1 _ hcount).1
    rw [← hplace] at hpart
    rw [hpart]
    exact h.meets_item hitem rfl rfl

end Place.Segmented

/-- In a gap the survey and the directory find the same binding. -/
theorem Place.exists_binding_of_gap (hs : place.node.Sound 0) (hu : place.node.isUnmixed = true)
    (hgap : place.directory.items[position]? = some .gap) :
    ∃ binding, (Survey.of place).bindingAt (position + 1) = .ok binding ∧
      place.directory.bindingAt (position + 1) = .ok binding := by
  have hstub : place.node.isStub = false := by
    have hitem : place.node.items[position]? = some .gap := by
      rw [← place.map_items, Array.getElem?_map]
      exact congrArg (Option.map _) hgap
    cases hnode : place.node with
    | element body => rfl
    | gap | null | literal =>
      rw [hnode] at hitem
      cases hitem
  obtain ⟨outline, located, h⟩ := exists_segmented_of_sound hs hstub hu
  rw [h.getElem?_directory] at hgap
  obtain ⟨before, after, edge, value, shifts, count, hsegments, hcount, rfl⟩ :=
    Segment.exists_value_of_isGap hgap
  exact ⟨⟨edge, value⟩, h.survey_bindingAt hsegments hcount, h.bindingAt hsegments hcount⟩

/-- From slot to slot of a node, the cursor stops at what the replay of the node gives. -/
theorem Trail.scan_shows (ht : trail.node.Traversable) (h : position + 1 < trail.node.slotCount) :
    trail.Meets position (trail.node.parts trail.bareSlot)[position + 1]? := by
  have hstub : trail.place.node.isStub = false := by
    rw [node] at h
    cases hnode : trail.place.node with
    | element body => rfl
    | gap | null | literal =>
      rw [hnode] at h
      exact absurd h (Nat.not_lt.mpr (Nat.le_add_left _ _))
  obtain ⟨outline, located, hlaid⟩ :=
    Place.exists_segmented_of_sound ht.sound hstub (Node.all_self ht.unmixed)
  have hparts : trail.node.parts trail.bareSlot = .tag (.opening outline.startTag) ::
      (allParts trail.bareSlot 1 outline.segments ++ [.tag .closing]) := by
    rw [node, hlaid.node]
    refine Outline.parts_toNode hlaid.laid ?_ _
    rw [← hlaid.segments, Segment.mentions_map]
    exact hlaid.unmixed
  have hlength := Segment.length_allParts trail.bareSlot 1 outline.segments
  rw [← hlaid.segments, width_map, hlaid.segments] at hlength
  rw [hparts, List.getElem?_cons_succ]
  rcases Nat.lt_or_ge position (width located) with hlt | hge
  · have hitem := List.getElem?_eq_getElem hlt
    obtain ⟨before, segment, after, offset, hsegments, rfl, hoffset, hat⟩ :=
      Segment.exists_itemAt hitem
    have hmeets := hlaid.meets_segment ht hsegments hat hitem
    have hinner : offset < (segment.map Place.node).items.length := by
      rw [Segment.items_map, List.length_map]
      exact (List.getElem?_eq_some_iff.mp hoffset).1
    have hpart := Segment.getElem?_allParts trail.bareSlot 1 (before.map (Segment.map Place.node))
      (after.map (Segment.map Place.node)) hinner
    rw [width_map, ← hlaid.split hsegments] at hpart
    rw [List.getElem?_append_left (by omega), hpart]
    exact hmeets
  · have hcount : trail.node.slotCount = _ := hlaid.slotCount
    have hend : position = (allParts trail.bareSlot 1 outline.segments).length := by omega
    have hnone := List.getElem?_eq_none hge
    have hclosing : trail.Meets position _ := hlaid.meets_tag (by rw [hnone]; rintro _ ⟨⟩)
    rw [hnone] at hclosing
    rw [List.getElem?_append_right (by omega), ← hend, Nat.sub_self]
    exact hclosing

end TagTree
