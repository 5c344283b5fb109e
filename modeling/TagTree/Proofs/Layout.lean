import TagTree.Proofs.Located
import TagTree.Proofs.Sound

/-!
# Places made of segments

A place whose node is sound and mixes no name is made of segments that are given with their places
(`Place.Segmented`). The directory of the place traces each gap of a value to that value, and so
what a sound node took back has a place (`Place.exists_held`).
-/

namespace TagTree

open Segment (mentions allItems node? mentions_map width width_map)

namespace Place

/-- The place is made of orderly and sound segments, which are given with their places, and mixes no
name. -/
structure Segmented (place : Place) (outline : Outline)
    (located : List (Segment Place)) : Prop where
  node : place.node = outline.toNode
  laid : outline.Laid
  sound : ∀ segment ∈ outline.segments, segment.IsSound
  unmixed : Mention.Unmixed (mentions located)
  segments : located.map (Segment.map Place.node) = outline.segments
  directory : place.directory = .of (allItems located).toArray (Segment.properties located)
  kids : place.kids.Perm (located.filterMap node?)

variable {place : Place} {outline : Outline} {located before after : List (Segment Place)}

theorem exists_segmented (hn : place.node = outline.toNode) (hl : outline.Laid)
    (hs : ∀ segment ∈ outline.segments, segment.IsSound)
    (hu : Mention.Unmixed (mentions outline.segments)) :
    ∃ located, place.Segmented outline located := by
  obtain ⟨located, hsegments, hdirectory, hkids⟩ := exists_located hn hl.orderly hu
  refine ⟨located, hn, hl, hs, ?_, hsegments, hdirectory, hkids⟩
  rwa [← mentions_map Place.node, hsegments]

/-- A sound node that is no stub and mixes no name is made of segments. -/
theorem exists_segmented_of_sound (hs : place.node.Sound 0) (hstub : place.node.isStub = false)
    (hu : place.node.isUnmixed = true) : ∃ outline located, place.Segmented outline located := by
  obtain ⟨outline, hnode, hl, hs, hu⟩ := hs.exists_unmixed hstub hu
  exact ⟨outline, exists_segmented hnode hl hs hu⟩

namespace Segmented

variable (h : place.Segmented outline located)

include h

theorem split {segment : Segment Place} (hs : located = before ++ segment :: after) :
    outline.segments = before.map (Segment.map Place.node) ++
      segment.map Place.node :: after.map (Segment.map Place.node) := by
  rw [← h.segments, hs, List.map_append, List.map_cons]

/-- Where the node has a value among its segments, the place has one. -/
theorem exists_value {first last : List (Segment Node)} {edge : Reference} {node : Node}
    {shifts : Nat} (hs : outline.segments = first ++ .value edge node shifts :: last) :
    ∃ (before after : List (Segment Place)) (value : Place),
      located = before ++ .value edge value shifts :: after ∧ value.node = node ∧
      (width before) = width first := by
  have hsplit := h.segments
  rw [hs] at hsplit
  obtain ⟨before, rest, hlocated, rfl, hrest⟩ := List.map_eq_append_iff.mp hsplit
  obtain ⟨segment, after, rfl, hsegment, -⟩ := List.map_eq_cons_iff.mp hrest
  cases segment with
  | value edge value shifts =>
    cases hsegment
    exact ⟨before, after, value, hlocated, rfl, (width_map ..).symm⟩
  | _ => cases hsegment

theorem orderly : Mention.Orderly [] (mentions located) := by
  have ho := h.laid.orderly
  rwa [← h.segments, mentions_map] at ho

theorem slotCount : place.node.slotCount = width located + 2 := by
  have hcount : outline.toNode.slotCount = width outline.segments + 2 := rfl
  rw [h.node, hcount, ← h.segments, width_map]

theorem lt_slotCount {position : Nat} {item : Item Place}
    (hitem : (allItems located)[position]? = some item) : position + 1 < place.node.slotCount := by
  rw [h.slotCount]
  have : position < width located := (List.getElem?_eq_some_iff.mp hitem).1
  omega

theorem items : place.directory.items = (allItems located).toArray := by
  rw [h.directory]
  rfl

theorem getElem?_directory (position : Nat) :
    place.directory.items[position]? = (allItems located)[position]? := by
  rw [h.items, List.getElem?_toArray]

theorem sound_of_mem {segment : Segment Place} (hmem : segment ∈ located) :
    (segment.map Place.node).IsSound :=
  h.sound _ (h.segments ▸ List.mem_map_of_mem hmem)

/-! ### Gaps and values -/

variable {edge : Reference} {value : Place} {shifts count : Nat}

/-- The directory traces each gap of a value to its binding. -/
theorem bindingAt
    (hs : located = before ++ .value edge value shifts :: after) (hcount : count ≤ shifts) :
    place.directory.bindingAt (width before + (1 + 2 * count) + 1) = .ok ⟨edge, value⟩ := by
  rw [h.directory, hs]
  exact Segment.bindingAt_of_value (hs ▸ h.orderly) (hs ▸ h.unmixed) hcount

end Segmented

/-- What a sound node took back is one of its parts, and has a place. -/
theorem exists_held {depth : Nat} (hs : place.node.Sound (depth + 1))
    (hu : place.node.isUnmixed = true) :
    ∃ inner : Place, place.held = .ok inner ∧ place.node.heldValue = .ok inner.node ∧
      inner.node ∈ place.node.kids ∧ inner.node.Sound depth := by
  generalize hnode : place.node = node at hs
  cases hs with
  | @holding outline before after edge inner shifts _ hl _ _ hsegments hheld hinner =>
    have hunmixed := Outline.unmixed_of_isUnmixed hl.orderly (hnode ▸ hu)
    have hvalue := Outline.heldValue_toNode hsegments hheld hl.orderly hunmixed
    have hmap : place.held.map Place.node = place.node.heldValue :=
      (place.maps_directory.held place.node.heldSlot).symm
    rw [hnode, hvalue] at hmap
    cases hplace : place.held with
    | error error =>
      rw [hplace] at hmap
      cases hmap
    | ok found =>
      rw [hplace] at hmap
      obtain rfl := Except.ok.inj hmap
      refine ⟨found, rfl, hvalue, ?_, hinner⟩
      refine (Segment.perm_nodes_of_unmixed hl.orderly hunmixed).symm.subset ?_
      refine List.mem_filterMap.mpr ⟨.value edge found.node shifts, ?_, rfl⟩
      rw [hsegments]
      exact List.mem_append_cons_self

end Place

end TagTree
