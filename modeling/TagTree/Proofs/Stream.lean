import TagTree.Proofs.Alignment
import TagTree.Proofs.Calls
import TagTree.Proofs.Tour

/-!
# Streams of trees

A tree that was built from tags is flattened to the same tags, up to effects, the indexes of
references and the marks of gaps, and is built again from these (`Tree.ofTags_tags`). An opening tag
is then marked if a gap can be reached from its node, and a reference if one can be reached from the
value that is bound to it in the end (`Cursor.IsMarked`).
-/

namespace TagTree

variable {slot : Nat} {edge : Reference}

namespace Node

variable {node : Node}

/-- Only a gap records a binding. -/
theorem bindingAt_of_not_gap (h : node.slots[slot]? ≠ some .gap) :
    node.bindingAt slot = .error (.slot slot) := by
  refine Directory.bindingAt_of_not_gap ?_
  rintro position rfl hgap
  cases node with
  | gap | null | literal => simp [directory, Directory.of, items] at hgap
  | element body =>
    have hitem : body.items.toList[position]? = some .gap := by rwa [Array.getElem?_toList]
    have hlt : position < (body.items.toList.map Item.toTag).length := by
      rw [List.length_map]
      exact (List.getElem?_eq_some_iff.mp hitem).1
    refine h ?_
    rw [slots, List.cons_append, List.getElem?_cons_succ, List.getElem?_append_left hlt,
      List.getElem?_map, hitem]
    rfl

/-- A reference that a cursor comes to stands in a slot of the node. -/
theorem getElem?_slots_of_reference (h : node.tagAt slot = .reference edge) :
    node.slots[slot]? = some (.reference edge) := by
  cases node with
  | gap | null | literal => cases slot <;> cases h
  | element body =>
    cases slot with
    | zero => cases h
    | succ position =>
      rw [tagAt] at h
      cases hitem : body.items[position]? with
      | none =>
        rw [hitem] at h
        cases h
      | some item =>
        rw [hitem] at h
        have hlt : position < (body.items.toList.map Item.toTag).length := by
          rw [List.length_map]
          exact (Array.getElem?_eq_some_iff.mp hitem).1
        rw [slots, List.cons_append, List.getElem?_cons_succ, List.getElem?_append_left hlt,
          List.getElem?_map, Array.getElem?_toList, hitem]
        exact congrArg some h

/-- An opening tag that a cursor comes to is the first tag of a node that is no stub. -/
theorem head?_slots_of_opening {start : OpenTag} (h : node.tagAt slot = .opening start) :
    node.isStub = false ∧ node.slots.head? = some (.opening start) := by
  cases node with
  | gap | null | literal => cases slot <;> cases h
  | element body =>
    cases slot with
    | zero => exact ⟨rfl, congrArg some h⟩
    | succ position =>
      rw [tagAt] at h
      cases hitem : body.items[position]? with
      | none =>
        rw [hitem] at h
        cases h
      | some item =>
        rw [hitem] at h
        cases item <;> cases h

/-- What is reached from a node that can be traversed can be traversed. -/
theorem Traversable.of_reaches {inner : Node} (h : node.Traversable) (hinner : node.Reaches inner) :
    inner.Traversable := by
  induction hinner with
  | refl => exact h
  | tail _ hkid ih => exact ih.of_mem_kids hkid

end Node

/-- A reference of a node is marked if and only if the gap after it leads to a value with a gap. -/
theorem Outline.hasGap_of_reference {outline : Outline} (hl : outline.Laid)
    (hu : Mention.Unmixed (Segment.mentions outline.segments))
    (h : outline.toNode.slots[slot]? = some (.reference edge)) :
    edge.flags.hasGap = true ↔
      ∃ binding, outline.toNode.bindingAt (slot + 1) = .ok binding ∧
        binding.node.hasGap = true := by
  obtain ⟨before, segment, after, hs, rfl, hsegment⟩ := segment_of_reference h
  have hmem : segment ∈ outline.segments := hs ▸ List.mem_append_cons_self
  have hplain := hl.plain segment hmem
  -- What follows a reference that has no value is no gap, and the reference is not marked.
  have hunmarked {item : Item Node} (hitem : segment.items[1]? = some item)
      (hgap : item.toTag ≠ .gap)
      (hedge : edge.flags.hasGap = false) : edge.flags.hasGap = true ↔
        ∃ binding, outline.toNode.bindingAt (Segment.width before + 1 + 1) = .ok binding ∧
          binding.node.hasGap = true := by
    have hslot := getElem?_slots_of_segment hs 1 hitem
    rw [Node.bindingAt_of_not_gap (by rwa [hslot, Ne, Option.some.injEq]), hedge]
    simp
  rcases hsegment with ⟨node, rfl⟩ | rfl | ⟨node, shifts, rfl⟩
  · exact hunmarked rfl (by simp [Item.toTag]) (hplain edge rfl).2
  · exact hunmarked rfl (by simp [Item.toTag]) hplain.2
  · rw [(records_of_value hl hu hs).2, hplain.2]
    simp

/-- In a node that can be traversed, a reference is marked if and only if it has a value with a gap.
-/
theorem Node.Traversable.hasGap_of_reference {node : Node} (h : node.Traversable)
    (htag : node.tagAt slot = .reference edge) :
    edge.flags.hasGap = true ↔
      ∃ binding, node.bindingAt (slot + 1) = .ok binding ∧ binding.node.hasGap = true := by
  have hslot := getElem?_slots_of_reference htag
  cases node with
  | gap | null | literal => cases slot <;> cases htag
  | element body =>
    obtain ⟨outline, houtline, hl, -, hu⟩ := h.sound.exists_unmixed rfl (all_self h.unmixed)
    rw [houtline] at hslot ⊢
    exact Outline.hasGap_of_reference hl hu hslot

/-- The mark for gaps of the tag at the cursor is that of the finished tree: an opening tag has it
if a gap can be reached from the node, and a reference if the gap after it leads to a value from
which one can be reached. -/
structure Cursor.IsMarked (cursor : Cursor) : Prop where
  opening : ∀ start, cursor.tag = .opening start →
    (start.flags.hasGap = true ↔ cursor.trail.node.Reaches .gap)
  reference : ∀ edge, cursor.tag = .reference edge → (edge.flags.hasGap = true ↔
    ∃ binding, cursor.trail.node.bindingAt (cursor.slot + 1) = .ok binding ∧
      binding.node.Reaches .gap)

namespace Tree

variable {tags : List Tag} {tree : Tree}

/-- Where a walk comes to is reached from the root. -/
theorem reaches_of_mem_walk {ladder : Ladder} {cursor : Cursor} (h : tree.Built)
    (hr : tree.root.Replayable) (hmem : cursor ∈ (tree.walk ladder).items) :
    tree.root.Reaches cursor.trail.node := by
  obtain ⟨visits, hvisits, hspots⟩ := exists_visits h hr ladder
  obtain ⟨visit, hvisit, hspot⟩ :=
    List.mem_flatMap.mp (hspots.mem_iff.mp (List.mem_map_of_mem hmem))
  obtain ⟨slot, -, heq⟩ := List.mem_map.mp hspot
  have hplace : visit.place ∈ tree.root.places :=
    Array.mem_toList_iff.mp (hvisits.mem_iff.mp (List.mem_map_of_mem hvisit))
  have hsame : cursor.trail.place = visit.place := congrArg Spot.place heq.symm
  rw [Trail.node, hsame]
  exact h.of_mem_places (fun node kid hnode hkid => hnode.tail hkid) .refl hplace

/-- The marks of a tree that was built from tags are those of the finished tree. -/
theorem isMarked_of_reaches {cursor : Cursor} (h : ofTags tags = .ok tree)
    (hu : tree.root.all Node.isUnmixed = true) (hnode : tree.root.Reaches cursor.trail.node) :
    cursor.IsMarked := by
  have hgrown : tree.Grown fun _ => True := grown_of_ofTags h
  have hfaithful := hgrown.faithful
  constructor
  · intro start htag
    obtain ⟨hstub, hhead⟩ := Node.head?_slots_of_opening htag
    obtain ⟨found, hmirrors⟩ := hfaithful.exists_mirrors hnode hstub
    cases hhead.symm.trans hmirrors.head
    rw [← hfaithful.hasGap_iff hnode, Node.hasGap, hmirrors.flags]
  · intro edge htag
    have hroot : tree.root.Traversable := ⟨(Tree.Built.ofTags h).sound, hu⟩
    rw [(hroot.of_reaches hnode).hasGap_of_reference htag]
    -- The value is beneath the node, so its mark too tells whether a gap can be reached.
    refine exists_congr fun binding => and_congr_right fun hbinding => hfaithful.hasGap_iff ?_
    exact hnode.tail (Node.mem_kids_of_bindingAt hbinding)

/-- A tree is flattened to the tags that it was built from, up to effects, the indexes of references
and the marks of gaps, and is built again from what it is flattened to. The walk from the root comes
to these tags after the header, and their marks are those of the finished tree. This holds if no
node uses the same name for an array and for a single property, and no value is shifted right after
it was taken back. -/
theorem ofTags_tags (h : ofTags tags = .ok tree) (hunmixed : tree.root.all Node.isUnmixed = true)
    (hkeeps : tree.root.all Node.keepsHeld = true) :
    ∃ out, tree.tags = .ok out ∧
      out.map Tag.withoutGap = (Tag.withoutEffects tags).map Tag.plain ∧ ofTags out = .ok tree ∧
      out = Doctype.headerTags tree.doctype ++ (tree.walk {}).items.map Cursor.tag ∧
      ∀ cursor ∈ (tree.walk {}).items, tree.root.Reaches cursor.trail.node ∧ cursor.IsMarked := by
  have hr : tree.root.Replayable := ⟨hunmixed, hkeeps⟩
  obtain ⟨out, hout, hflat⟩ := exists_tags h hr
  have htags := (tags_eq_walk (.ofTags h) hunmixed {}).2
  refine ⟨out, hout, hflat, ofTags_of_flattened h hflat, ?_, fun cursor hmem => ?_⟩
  · exact Except.ok.inj (hout.symm.trans htags)
  · have hnode := reaches_of_mem_walk (.ofTags h) hr hmem
    exact ⟨hnode, isMarked_of_reaches h hunmixed hnode⟩

/-- Where a value was shifted, taken back and gaps are left, the tags are given with their marks. -/
theorem ofTags_tags_of_shift :
    ∃ tree out, ofTags shiftedTags = .ok tree ∧ tree.root.all Node.isUnmixed = true ∧
      tree.root.all Node.keepsHeld = true ∧ tree.tags = .ok out ∧
      out.map Tag.withoutGap = (Tag.withoutEffects shiftedTags).map Tag.plain ∧
      ofTags out = .ok tree ∧
      out = Doctype.headerTags tree.doctype ++ (tree.walk {}).items.map Cursor.tag ∧
      (∀ cursor ∈ (tree.walk {}).items, cursor.IsMarked) ∧ tree.root.Reaches .gap := by
  obtain ⟨tree, htree, hunmixed, hkeeps, hgap⟩ : ∃ tree, ofTags shiftedTags = .ok tree ∧
      tree.root.all Node.isUnmixed = true ∧ tree.root.all Node.keepsHeld = true ∧
      tree.root.hasGap = true := by decide +kernel
  obtain ⟨out, hout, hflat, hagain, hwalk, hmarks⟩ := ofTags_tags htree hunmixed hkeeps
  have hgrown : tree.Grown fun _ => True := grown_of_ofTags htree
  exact ⟨tree, out, htree, hunmixed, hkeeps, hout, hflat, hagain, hwalk,
    fun cursor hmem => (hmarks cursor hmem).2, (hgrown.faithful.hasGap_iff .refl).mp hgap⟩

end Tree

end TagTree
