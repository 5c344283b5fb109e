import TagTree.Proofs.Tour
import TagTree.Source

/-!
# Tours of the finished tree

A walk in the order of the finished tree pays one visit to each place from its start down, since
every node is bound or embedded in one segment and a shift leads to none (`Place.tours_final`). It
comes to the tags of the tree in its final order (`Cursor.walk_final`), which gives the source text
of a node (`Node.sourceText_eq`).
-/

namespace TagTree

/-- The places that a walk enters: those of which it comes to the first slot. -/
def Run.entered (run : Run Cursor) : List Place :=
  (run.items.filter (·.slot == 0)).map (·.trail.place)

namespace Trail

variable {trail : Trail} {position : Nat} {inner : Place}

/-- A shift and the gap after it are passed over. -/
theorem scan_final_of_shift {index : Nat} (hbare : trail.bareSlot = none)
    (hshift : trail.survey.directory.items[position]? = some (.shift index))
    (hgap : trail.survey.directory.items[position + 1]? = some .gap) :
    trail.scan .final position = trail.scan .final (position + 2) := by
  have hbefore : trail.survey.itemBefore (position + 1) = some (.shift index) := hshift
  have hskip : trail.scan .final (position + 1) = trail.scan .final (position + 2) := by
    rw [scan]
    split <;> simp_all [Item.introducesValue, Item.isShift]
  rw [← hskip, scan]
  split <;> simp_all

/-- The gap after a reference leads to the value. -/
theorem scan_final_of_value {edge : Reference} (hbare : trail.bareSlot = none)
    (hedge : trail.survey.directory.items[position]? = some (.reference edge))
    (hgap : trail.survey.directory.items[position + 1]? = some .gap)
    (hvalue : trail.survey.valueAt (position + 2) = .ok inner) :
    trail.scan .final (position + 1) = .ok (.enter (position + 2) inner none) := by
  have hbefore : trail.survey.itemBefore (position + 1) = some (.reference edge) := hedge
  have henter : trail.enterValue .final (position + 1) =
      .ok (.enter (position + 2) inner none) := by
    rw [enterValue, hvalue]
    rfl
  rw [scan]
  split <;> simp_all [Item.introducesValue, Item.isShift]

end Trail

namespace Place

variable {place : Place} {outline : Outline} {located before after : List (Segment Place)}

namespace Segmented

variable {edge : Reference} {value : Place} {shifts : Nat}

/-- The walk passes over all shifts of a value. -/
theorem passes_shifts (h : place.Segmented outline located)
    (hs : located = before ++ .value edge value shifts :: after) {count : Nat}
    (hcount : count ≤ shifts) :
    place.Passes .final none (Segment.width before + 2) (2 * count) [] [] := by
  -- One scan passes over a shift together with its gap, so it is two slots at a time.
  induction count with
  | zero => exact .none ..
  | succ count ih =>
    have hshift := Segment.getElem?_shift before after edge value hcount
    have hgap := Segment.getElem?_gap before after edge value hcount
    have hnext : Segment.width before + (1 + 2 * (count + 1)) =
        Segment.width before + 2 + 2 * count + 1 := by omega
    rw [← hs, ← Nat.add_assoc] at hshift
    rw [← hs, hnext] at hgap
    have hlt : _ < Segment.width located := (List.getElem?_eq_some_iff.mp hgap).1
    refine (ih (Nat.le_of_succ_le hcount)).append (.skip ?_ fun trail hplace hbare => ?_)
    · rw [h.slotCount]
      omega
    · rw [← h.getElem?_items hplace] at hshift hgap
      exact Trail.scan_final_of_shift hbare hshift hgap

/-- A value takes the walk through all places from its node down. -/
theorem passes_value (h : place.Segmented outline located)
    (hs : located = before ++ .value edge value shifts :: after)
    (htours : value.Tours .final none value.all) :
    place.Passes .final none (Segment.width before) (2 + 2 * shifts) value.all
      (Segment.value edge value.node shifts).finals := by
  have hreference := Segment.getElem?_reference before after edge value shifts
  have hgap := Segment.getElem?_gap before after edge value (Nat.zero_le shifts)
  rw [← hs] at hreference
  rw [← hs, Nat.mul_zero, Nat.add_zero] at hgap
  have hfound := h.valueAt hs (Nat.zero_le shifts)
  have hstay : place.Passes .final none (Segment.width before) 1 [] _ :=
    h.passes_item hreference rfl rfl fun _ => rfl
  have henter : place.Passes .final none (Segment.width before + 1) 1 value.all
      [.inr value.node] := by
    refine .enter (h.lt_slotCount hgap) htours fun trail hplace hbare => ?_
    rw [← h.getElem?_items hplace] at hreference hgap
    rw [Nat.mul_zero, Nat.add_zero, ← hplace, ← trail.survey_eq] at hfound
    exact Trail.scan_final_of_value hbare hreference hgap hfound
  have hpasses := (hstay.append henter).append (h.passes_shifts hs (Nat.le_refl shifts))
  rwa [List.append_nil, List.append_nil] at hpasses

end Segmented

/-- However a walk comes to a place, its tour of it visits each place from there down once. -/
theorem tours_final (place : Place) (h : place.node.Traversable) :
    place.Tours .final none place.all := by
  cases hstub : place.node.isStub with
  | true => exact tours_of_isStub hstub
  | false =>
    obtain ⟨outline, located, hlaid⟩ :=
      exists_segmented_of_sound h.sound hstub (Node.all_self h.unmixed)
    -- No shift leads back into a part, so each part is toured as a whole.
    have hinner : ∀ segment ∈ located, ∀ inner ∈ segment.node?,
        inner.Tours .final none inner.all := by
      intro segment hsegment inner hnode
      have hkid := hlaid.kids.symm.subset (List.mem_filterMap.mpr ⟨segment, hsegment, hnode⟩)
      refine tours_final inner (h.of_mem_kids ?_)
      rw [← map_kids]
      exact List.mem_map_of_mem hkid
    refine hlaid.tours_all ⟨fun edge inner hmem => hinner _ hmem inner rfl, ?_⟩
    intro before edge value shifts after hs _
    exact hlaid.passes_value hs (hinner _ (hs ▸ List.mem_append_cons_self) value rfl)
termination_by place.node.work
decreasing_by exact place.work_lt_of_mem_kids hkid

end Place

/-- The walk from a place gives the tags of its node and of all beneath it. -/
theorem Cursor.walk_final {place : Place} (h : place.node.Traversable) (ladder : Ladder) :
    ((first (.start place ladder)).walk .final).failure = none ∧
    ((first (.start place ladder)).walk .final).items.map Cursor.tag = place.node.flat := by
  obtain ⟨hfailure, htells, -⟩ := (place.tours_final h).exists_visits ladder
  rw [Order.Tells, List.map_map] at htells
  exact ⟨hfailure, htells.trans (List.append_nil _)⟩

/-- The source text of a node is all its text in the order of the finished tree. -/
theorem Node.sourceText_eq {node : Node} (h : node.Traversable) :
    node.sourceText = .ok (String.join (node.flat.map Tag.literalText)) := by
  obtain ⟨hfailure, hitems⟩ := @Cursor.walk_final (.root node) h {}
  have hflat : node.flat = ((Cursor.start (.root node)).walk .final).items.map Cursor.tag :=
    hitems.symm
  have hok : ((Cursor.start (.root node)).walk .final).toExcept =
      pure ((Cursor.start (.root node)).walk .final).items := by
    have hnone : ((Cursor.start (.root node)).walk .final).failure = none := hfailure
    rw [Run.toExcept, hnone]
    rfl
  rw [sourceText, hok, pure_bind, hflat, List.map_map]
  rfl

namespace Tree

/-- In a tree that was built and uses no name for an array and for a single property too, the walk
in the order of the finished tree from any of its places goes through the tags of the node and of
all beneath it, without failure. It enters each place from there down once, and these have different
numbers. The texts of the tags together are the source text of the node. Every gap after a reference
has a binding of that reference, so the order has no gap in place of a value. -/
theorem walk_final_of_built {tree : Tree} {place : Place} (h : tree.Built)
    (hu : tree.root.all Node.isUnmixed = true) (hplace : place ∈ tree.root.places)
    (ladder : Ladder) :
    ((Cursor.first (.start place ladder)).walk .final).failure = none ∧
    ((Cursor.first (.start place ladder)).walk .final).items.map Cursor.tag = place.node.flat ∧
    ((Cursor.first (.start place ladder)).walk .final).entered.Perm place.all ∧
    (place.all.map Place.number).Nodup ∧
    place.node.sourceText = .ok (String.join (place.node.flat.map Tag.literalText)) ∧
    ∀ inner ∈ place.all, ∀ position edge,
      inner.node.itemBefore position = some (.reference edge) →
        inner.node.items[position]? = some .gap →
          ∃ value, inner.node.bindingAt (position + 1) = .ok ⟨edge, value⟩ := by
  have ht : place.node.Traversable :=
    h.of_mem_places (fun _ _ => Node.Traversable.of_mem_kids) ⟨h.sound, hu⟩ hplace
  obtain ⟨hfailure, htags⟩ := Cursor.walk_final ht ladder
  refine ⟨hfailure, htags, ?_, ?_, Node.sourceText_eq ht, ?_⟩
  · obtain ⟨-, -, visits, hvisits, hspots⟩ := (place.tours_final ht).exists_visits ladder
    exact (Visit.perm_entered hspots).trans hvisits
  · rw [Place.map_number_all place ht.sound.isCounted]
    exact List.nodup_range'
  · intro inner hinner position edge hedge hgap
    have htraversable : inner.node.Traversable :=
      Place.of_mem_all (fun _ _ => Node.Traversable.of_mem_kids) ht hinner
    obtain ⟨-, -, -, value, -, -, -, -, -, -, hbinding⟩ := htraversable.exists_value hedge hgap
    exact ⟨value, hbinding⟩

/-- A value that is given and shifted twice, and where the node that takes it back first shifts it
in turn. -/
theorem walk_final_of_template :
    ∃ inner tree place, ofTags shiftedTags = .ok inner ∧
      ofTemplate reshiftedTags [some inner] = .ok tree ∧
      tree.root.all Node.isUnmixed = true ∧ place ∈ tree.root.places ∧
      ((Cursor.first (.start place ⟨31⟩)).walk .final).failure = none ∧
      ((Cursor.first (.start place ⟨31⟩)).walk .final).items.map Cursor.tag = place.node.flat ∧
      ((Cursor.first (.start place ⟨31⟩)).walk .final).entered.Perm place.all ∧
      (place.all.map Place.number).Nodup ∧
      place.node.sourceText = .ok (String.join (place.node.flat.map Tag.literalText)) := by
  obtain ⟨inner, tree, hinner, htree, hbuilt, hu, hsome⟩ := exists_built shiftedTags reshiftedTags
    (fun tree => tree.root.all Node.isUnmixed = true ∧ (tree.root.places[1]?).isSome = true)
    (by decide +kernel)
  obtain ⟨place, hplace⟩ := Option.isSome_iff_exists.mp hsome
  have hmem := Array.mem_of_getElem? hplace
  obtain ⟨hfailure, htags, hentered, hnumbers, hsource, -⟩ :=
    walk_final_of_built hbuilt hu hmem ⟨31⟩
  exact ⟨inner, tree, place, hinner, htree, hu, hmem, hfailure, htags, hentered, hnumbers, hsource⟩

end Tree

end TagTree
