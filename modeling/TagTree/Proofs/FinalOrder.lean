import TagTree.Proofs.Preorder
import TagTree.Proofs.Stop

/-!
# The order of the finished tree

In the order of the finished tree a node gives its own tags one after the other, what is embedded in
it or finally bound to its references in their places, and nothing for a shift and the gap after it
(`Node.flat`). In a node that is made of segments, each gives its own part of the order
(`Outline.flat_toNode`).
-/

namespace TagTree

open Segment (mentions width)

variable {node inner : Node} {binding : Binding Node} {place : Nat} {edge : Reference}
  {position : Nat}

namespace Node

/-- The item before a position. -/
def itemBefore (node : Node) : (position : Nat) → Option (Item Node)
  | 0 => none
  | position + 1 => node.items[position]?

/-- What the item at a position gives to the order of the finished tree: a tag, or a part of the
node. After the last item comes the closing tag. -/
def finalAt (node : Node) (position : Nat) : Option (Tag ⊕ Node) :=
  match node.items[position]? with
  | none => some (.inl .closing)
  | some (.embedded inner) => some (.inr inner)
  | some (.shift _) => none
  | some .gap =>
    match node.itemBefore position with
    | some (.shift _) => none
    | some (.reference _) =>
      (node.bindingAt (position + 1)).toOption.map fun binding => .inr binding.node
    | _ => some (.inl .gap)
  | some item => some (.inl item.toTag)

section Gap

variable (hgap : node.items[position]? = some .gap)

include hgap

theorem finalAt_of_shift (h : (node.itemBefore position).any Item.isShift = true) :
    node.finalAt position = none := by
  simp only [finalAt, hgap]
  cases hbefore : node.itemBefore position with
  | none =>
    rw [hbefore] at h
    cases h
  | some item =>
    rw [hbefore] at h
    cases item with
    | shift index => rfl
    | _ => cases h

theorem finalAt_of_reference (h : node.itemBefore position = some (.reference edge))
    (hbinding : node.bindingAt (position + 1) = .ok binding) :
    node.finalAt position = some (.inr binding.node) := by
  simp only [finalAt, hgap, h, hbinding]
  rfl

end Gap

/-- What the items from a position on give, and the closing tag. -/
def finalFrom (node : Node) (position : Nat) : List (Tag ⊕ Node) :=
  (List.range' position (node.slotCount - 1 - position)).filterMap node.finalAt

theorem mem_kids_of_bindingAt {slot : Nat} (h : node.bindingAt slot = .ok binding) :
    binding.node ∈ node.kids := by
  obtain ⟨key, hkey⟩ := Directory.binding_of_bindingAt h
  have hbinding := Directory.property_of_binding hkey
  rw [getElem?_properties_directory] at hbinding
  exact List.mem_append_left _ (mem_boundNodes_of_binding? hbinding)

/-- A node in the final order is a part. -/
theorem mem_kids_of_finalAt
    (h : node.finalAt position = some (.inr inner)) : inner ∈ node.kids := by
  unfold finalAt at h
  split at h
  · cases h
  · rename_i hitem
    cases h
    exact List.mem_append_right _ (List.mem_filterMap.mpr
      ⟨_, Array.mem_toList_iff.mpr (Array.mem_of_getElem? hitem), rfl⟩)
  · cases h
  · split at h
    · cases h
    · obtain ⟨binding, hbinding, hnode⟩ := Option.map_eq_some_iff.mp h
      cases hnode
      cases hfound : node.bindingAt (position + 1) with
      | error error =>
        rw [hfound] at hbinding
        cases hbinding
      | ok found =>
        rw [hfound] at hbinding
        cases hbinding
        exact mem_kids_of_bindingAt hfound
    · cases h
  · cases h

theorem mem_kids_of_mem_finalFrom
    (h : .inr inner ∈ node.finalFrom position) : inner ∈ node.kids := by
  obtain ⟨found, -, hfound⟩ := List.mem_filterMap.mp h
  exact mem_kids_of_finalAt hfound

/-- The tags of a node and of all beneath it, in the order of the finished tree. -/
def flat (node : Node) : List Tag :=
  node.tagAt 0 :: (node.finalFrom 0).attach.flatMap fun
    | ⟨.inl tag, _⟩ => [tag]
    | ⟨.inr inner, _⟩ => inner.flat
termination_by node.work
decreasing_by exact work_lt_of_mem_kids (mem_kids_of_mem_finalFrom (by assumption))

/-- The tags of a tag, or of a part. -/
def flatOf : Tag ⊕ Node → List Tag :=
  Sum.elim (fun tag => [tag]) flat

theorem flat_eq (node : Node) : node.flat = node.tagAt 0 :: (node.finalFrom 0).flatMap flatOf := by
  rw [flat]
  conv => rhs; rw [← List.attach_map_subtype_val (node.finalFrom 0), List.flatMap_map]
  congr 2
  funext ⟨found, _⟩
  cases found <;> rfl

theorem finalFrom_eq (h : position + 1 < node.slotCount) :
    node.finalFrom position = (node.finalAt position).toList ++ node.finalFrom (position + 1) := by
  have hcount : node.slotCount - 1 - position = node.slotCount - 1 - (position + 1) + 1 := by omega
  rw [finalFrom, hcount, List.range'_succ, filterMap_cons_eq, finalFrom]

/-- After the closing tag there is nothing. -/
theorem finalFrom_of_le (h : node.slotCount ≤ position + 1) : node.finalFrom position = [] := by
  have hcount : node.slotCount - 1 - position = 0 := by omega
  rw [finalFrom, hcount]
  rfl

/-- The parts of a node that can be traversed can be traversed. -/
theorem Traversable.of_mem_kids {kid : Node} (h : node.Traversable) (hkid : kid ∈ node.kids) :
    kid.Traversable :=
  ⟨h.sound.of_mem_kids hkid, (all_iff.mp h.unmixed).2 kid hkid⟩

end Node

/-! ### Gaps of references -/

theorem Outline.getElem?_items (outline : Outline) (position : Nat) :
    outline.toNode.items[position]? = (Segment.allItems outline.segments)[position]? :=
  List.getElem?_toArray ..

/-- A gap after a reference is the first gap of a value. -/
theorem Segment.exists_value_of_gap {segments : List (Segment Node)}
    (hedge : (allItems segments)[position]? = some (.reference edge))
    (hgap : (allItems segments)[position + 1]? = some .gap) :
    ∃ before after node shifts, segments = before ++ .value edge node shifts :: after ∧
      position = width before := by
  obtain ⟨before, after, bound, node, shifts, count, rfl, hcount, hposition⟩ :=
    exists_value_of_isGap hgap
  cases count with
  | zero =>
    obtain rfl : position = width before := by omega
    rw [getElem?_reference] at hedge
    cases hedge
    exact ⟨before, after, node, shifts, rfl, rfl⟩
  | succ count =>
    obtain rfl : position = width before + (2 + 2 * count) := by omega
    rw [getElem?_shift before after bound node hcount] at hedge
    cases hedge

/-- A gap after a reference has a binding of that reference. -/
theorem Node.Traversable.exists_value (h : node.Traversable)
    (hedge : node.itemBefore position = some (.reference edge))
    (hgap : node.items[position]? = some .gap) :
    ∃ (outline : Outline) (before after : List (Segment Node)) (value : Node) (shifts : Nat),
      node = outline.toNode ∧ outline.Laid ∧ Mention.Unmixed (mentions outline.segments) ∧
      outline.segments = before ++ .value edge value shifts :: after ∧ position = width before + 1 ∧
      node.bindingAt (position + 1) = .ok ⟨edge, value⟩ := by
  cases node with
  | gap | null | literal => cases hgap
  | element body =>
    obtain ⟨outline, houtline, hl, -, hu⟩ := h.sound.exists_unmixed rfl (all_self h.unmixed)
    rw [houtline] at hedge hgap ⊢
    cases position with
    | zero => cases hedge
    | succ position =>
      rw [outline.getElem?_items] at hgap
      obtain ⟨before, after, value, shifts, hs, rfl⟩ :=
        Segment.exists_value_of_gap ((outline.getElem?_items position).symm.trans hedge) hgap
      have hbinding := Segment.bindingAt_of_value (hs ▸ hl.orderly) (hs ▸ hu) (Nat.zero_le shifts)
      rw [← hs] at hbinding
      exact ⟨outline, before, after, value, shifts, rfl, hl, hu, hs, rfl, hbinding⟩

/-! ### Segments in the order of the finished tree -/

namespace Node

variable {item : Item Node}

theorem finalAt_of_embedded (h : node.items[position]? = some (.embedded inner)) :
    node.finalAt position = some (.inr inner) := by
  simp only [finalAt, h]

/-- A stub gives its tag. -/
theorem flat_of_isStub (h : node.isStub = true) : node.flat = [node.tagAt 0] := by
  have hcount : node.slotCount ≤ 0 + 1 := by
    cases node with
    | element body => cases h
    | gap | null | literal => exact Nat.le_refl 1
  rw [flat_eq, finalFrom_of_le hcount]
  rfl

/-- Apart from gaps, shifts and embedded nodes an item gives its tag. -/
theorem finalAt_of_tag (h : node.items[position]? = some item) (hgap : item.isGap = false)
    (hshift : item.isShift = false) (hnode : item.node? = none) :
    node.finalAt position = some (.inl item.toTag) := by
  simp only [finalAt, h]
  cases item with
  | gap => cases hgap
  | shift index => cases hshift
  | embedded inner => cases hnode
  | reference | arrayStart | literal => rfl

end Node

/-- What a segment gives to the order of the finished tree. -/
def Segment.finals : Segment Node → List (Tag ⊕ Node)
  | content text => [.inl (.literal text)]
  | embedded edge node => edge.toList.map (fun edge => .inl (.reference edge)) ++ [.inr node]
  | arrayStart edge => [.inl (.reference edge), .inl .arrayStart]
  | value edge node _ => [.inl (.reference edge), .inr node]

namespace Outline

variable {outline : Outline} {before after : List (Segment Node)} {segment : Segment Node}

/-- An item of a segment gives what it gives, and then the items after it. -/
theorem finalFrom_eq_append (hs : outline.segments = before ++ segment :: after)
    (hplace : place < segment.items.length) {found : Option (Tag ⊕ Node)}
    (h : outline.toNode.finalAt (width before + place) = found) :
    outline.toNode.finalFrom (width before + place) =
      found.toList ++ outline.toNode.finalFrom (width before + (place + 1)) := by
  have hlength : width outline.segments = width before +
      (segment.items.length + width after) := by
    rw [hs, Segment.width_append, Segment.width_cons]
  have hslot : width before + place + 1 < outline.toNode.slotCount := by
    show _ < width outline.segments + 2
    omega
  rw [Node.finalFrom_eq hslot, h]
  rfl

/-- Shifts and the gaps after them give nothing. -/
theorem finalFrom_shifts {shifts count : Nat}
    (hs : outline.segments = before ++ .value edge node shifts :: after) (h : count ≤ shifts) :
    outline.toNode.finalFrom (width before + 2) =
      outline.toNode.finalFrom (width before + (2 + 2 * count)) := by
  induction count with
  | zero => rfl
  | succ count ih =>
    have hlength : 2 + 2 * count + 1 < (Segment.value edge node shifts).items.length := by
      rw [Segment.length_items_value]
      omega
    have hshift : outline.toNode.items[width before + (2 + 2 * count)]? =
        some (.shift (1 + count)) := by
      rw [getElem?_items, hs, Segment.getElem?_shift before after edge node h]
    have hgap : outline.toNode.items[width before + (2 + 2 * count + 1)]? = some .gap := by
      have hplace : 2 + 2 * count + 1 = 1 + 2 * (count + 1) := by omega
      rw [getElem?_items, hs, hplace, Segment.getElem?_gap before after edge node h]
    have hskip : outline.toNode.finalAt (width before + (2 + 2 * count)) = none := by
      simp only [Node.finalAt, hshift]
    have hskipGap : outline.toNode.finalAt (width before + (2 + 2 * count + 1)) = none := by
      refine Node.finalAt_of_shift hgap ?_
      show (outline.toNode.items[width before + (2 + 2 * count)]?).any _ = true
      rw [hshift]
      rfl
    rw [ih (Nat.le_of_succ_le h), finalFrom_eq_append hs (Nat.lt_of_succ_lt hlength) hskip,
      finalFrom_eq_append hs hlength hskipGap]
    rfl

variable (hl : outline.Laid) (hu : Mention.Unmixed (mentions outline.segments))

include hl hu

/-- A segment gives its tags and its node, and then come the segments after it. -/
theorem finalFrom_segment (hs : outline.segments = before ++ segment :: after) :
    outline.toNode.finalFrom (width before) = segment.finals ++
      outline.toNode.finalFrom (width before + segment.items.length) := by
  have hat : ∀ {place item}, segment.items[place]? = some item → place < segment.items.length ∧
      outline.toNode.items[width before + place]? = some item := by
    intro place item hitem
    have hplace := (List.getElem?_eq_some_iff.mp hitem).1
    rw [getElem?_items, hs, Segment.getElem?_allItems before after hplace]
    exact ⟨hplace, hitem⟩
  have htag : ∀ {place item}, segment.items[place]? = some item → item.isGap = false →
      item.isShift = false → item.node? = none →
        outline.toNode.finalFrom (width before + place) =
          .inl item.toTag :: outline.toNode.finalFrom (width before + (place + 1)) :=
    fun hitem hgap hshift hnode =>
      finalFrom_eq_append hs (hat hitem).1 (Node.finalAt_of_tag (hat hitem).2 hgap hshift hnode)
  cases segment with
  | content text => exact @htag 0 _ rfl rfl rfl rfl
  | embedded edge node =>
    cases edge with
    | none =>
      obtain ⟨hplace, hitem⟩ := @hat 0 _ rfl
      exact finalFrom_eq_append hs hplace (Node.finalAt_of_embedded hitem)
    | some edge =>
      obtain ⟨hplace, hitem⟩ := @hat 1 _ rfl
      refine (@htag 0 _ rfl rfl rfl rfl).trans ?_
      rw [finalFrom_eq_append hs hplace (Node.finalAt_of_embedded hitem)]
      rfl
  | arrayStart edge =>
    refine (@htag 0 _ rfl rfl rfl rfl).trans ?_
    rw [@htag 1 _ rfl rfl rfl rfl]
    rfl
  | value edge node shifts =>
    obtain ⟨hplace, hitem⟩ := @hat 1 _ rfl
    have hbinding := Segment.bindingAt_of_value (hs ▸ hl.orderly) (hs ▸ hu) (Nat.zero_le shifts)
    rw [← hs] at hbinding
    have hvalue : outline.toNode.finalAt (width before + 1) =
        some (.inr node) := Node.finalAt_of_reference hitem (@hat 0 _ rfl).2 hbinding
    refine (@htag 0 _ rfl rfl rfl rfl).trans ?_
    rw [finalFrom_eq_append hs hplace hvalue, finalFrom_shifts hs (Nat.le_refl shifts),
      Segment.length_items_value]
    rfl

/-- The rest of the final order is that of the segments. -/
theorem finalFrom_allItems (hs : outline.segments = before ++ after) :
    outline.toNode.finalFrom (width before) = after.flatMap Segment.finals ++ [.inl .closing] := by
  induction after generalizing before with
  | nil =>
    rw [List.append_nil] at hs
    subst hs
    have hnone : outline.toNode.items[width outline.segments]? = none := by
      rw [getElem?_items]
      exact List.getElem?_eq_none (Nat.le_refl _)
    have hclosing : outline.toNode.finalAt (width outline.segments) = some (.inl .closing) := by
      simp only [Node.finalAt, hnone]
    rw [Node.finalFrom_eq (Nat.lt_succ_self _), hclosing, Node.finalFrom_of_le (Nat.le_refl _)]
    rfl
  | cons segment after ih =>
    have hnext := @ih (before ++ [segment]) (by rw [hs, List.append_assoc]; rfl)
    rw [Segment.width_concat] at hnext
    rw [finalFrom_segment hl hu hs, hnext, List.flatMap_cons, List.append_assoc]

/-- A node gives its opening tag, what its segments give, and its closing tag. -/
theorem flat_toNode :
    outline.toNode.flat = .opening outline.startTag ::
      (outline.segments.flatMap (fun segment => segment.finals.flatMap Node.flatOf) ++
        [.closing]) := by
  have hfinals := finalFrom_allItems hl hu (List.nil_append _).symm
  rw [Node.flat_eq]
  refine congrArg (List.cons _) ?_
  rw [show outline.toNode.finalFrom 0 = _ from hfinals, List.flatMap_append, List.flatMap_assoc]
  rfl

end Outline

/-- The nodes of the segments can be traversed with the node. -/
theorem Node.Traversable.of_mem_segments {outline : Outline} (h : outline.toNode.Traversable)
    (hl : outline.Laid) {segment : Segment Node} (hmem : segment ∈ outline.segments)
    (hnode : segment.node? = some inner) : inner.Traversable := by
  have hu := Outline.unmixed_of_isUnmixed hl.orderly (all_self h.unmixed)
  refine h.of_mem_kids ((Segment.perm_nodes_of_unmixed hl.orderly hu).symm.subset ?_)
  exact List.mem_filterMap.mpr ⟨segment, hmem, hnode⟩

end TagTree
