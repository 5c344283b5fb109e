import TagTree.Proofs.Beneath
import TagTree.Proofs.Store.Occurrence

/-!
# Values that are replaced

Where a name has the elements of an array and then comes a single value for the same name, the value
stands in place of the elements. What a node binds and what was replaced in it are together the
values of its segments (`Segment.perm_values`). Nothing is replaced exactly if no single value comes
after an element of the same name (`Outline.replacesNothing_iff`).
-/

namespace TagTree

open Mention (Orderly taken orderly_append Unmixed)

/-- The later reference gives a single value to a name that the earlier one gave an element. -/
def Reference.replaces (later earlier : Reference) : Bool :=
  earlier.isArray && !later.isArray && earlier.name == later.name

namespace Item

variable {ν : Type}

/-- The references that have a value, in order. -/
def valueReferences : List (Item ν) → List Reference
  | [] => []
  | reference edge :: rest =>
    if rest.head?.any isGap then edge :: valueReferences rest else valueReferences rest
  | _ :: rest => valueReferences rest

end Item

namespace Node

/-- What the node binds, and then what is embedded in it. -/
def kids (node : Node) : List Node :=
  boundNodes node.properties ++ embeddedNodes node.items.toList

/-- No value of the node was replaced by a later one. -/
def replacesNothing (node : Node) : Bool :=
  decide ((Item.valueReferences node.items.toList).Pairwise fun earlier later =>
    later.replaces earlier = false)

end Node

namespace Segment

variable {ν : Type}

/-! ### What a segment replaces -/

/-- The value that a segment binds. -/
def value? : Segment ν → Option ν
  | value _ node _ => some node
  | _ => none

/-- The reference that a segment binds a value to. -/
def valueReference? : Segment ν → Option Reference
  | value edge _ _ => some edge
  | _ => none

/-- The values of earlier segments that a segment replaces. -/
def replaces (earlier : List (Segment ν)) : Segment ν → List ν
  | value edge _ _ => if edge.isArray then [] else (elementsOf earlier edge.name).map Binding.node
  | _ => []

/-- The values that the segments replace, after earlier ones. -/
def replaced (earlier : List (Segment ν)) : List (Segment ν) → List ν
  | [] => []
  | segment :: rest => segment.replaces earlier ++ replaced (earlier ++ [segment]) rest

variable {earlier segments : List (Segment ν)}

/-- Before a single value comes for a name, the elements of its array are all that it binds. -/
theorem nodes_propertyOf {name : String} (ho : Orderly [] (mentions segments))
    (h : taken (mentions segments) name = false) :
    ((propertyOf segments name).map Property.nodes).getD [] =
      (elementsOf segments name).map Binding.node := by
  rw [propertyOf, singlesOf_eq_nil h]
  cases hstarted : Mention.started (mentions segments) name with
  | true => rfl
  | false =>
    have hnamed := Mention.named_eq name rfl ho
    rw [List.nil_append, hstarted, h] at hnamed
    rw [elementsOf_eq_nil hnamed]
    rfl

/-- A further segment binds its value, and takes away what it replaces. -/
theorem perm_addTo {entries : Entries (Property ν)}
    {segment : Segment ν} (h : Describes segments entries) (ho : Orderly [] (mentions segments))
    (hm : ∀ mention ∈ segment.mention?, mention.Admissible (mentions segments)) :
    (boundNodes (segment.addTo entries) ++ segment.replaces segments).Perm
      (boundNodes entries ++ segment.value?.toList) := by
  cases segment with
  | content | embedded => exact .refl _
  | arrayStart edge =>
    have hs : Mention.Startable (mentions segments) edge := (hm _ rfl).2
    have hnone := (h edge.name).trans (propertyOf_of_startable hs)
    have hinsert := perm_boundNodes_insert edge.name (.array #[]) entries
    rw [hnone] at hinsert
    exact hinsert
  | value edge node shifts =>
    cases ha : edge.isArray with
    | true =>
      have hb : Mention.Bindable (mentions segments) edge := (hm _ rfl).2
      have hget := (h edge.name).trans (propertyOf_of_bindable hb ha)
      have hinsert := perm_boundNodes_insert edge.name
        (.array ((elementsOf segments edge.name).toArray.push ⟨edge, node⟩)) entries
      rw [hget] at hinsert
      -- The elements that were there before stand on both sides.
      have hnodes :
          (Property.array ((elementsOf segments edge.name).toArray.push ⟨edge, node⟩)).nodes =
            (elementsOf segments edge.name).map Binding.node ++ [node] := by
        simp [Property.nodes, Property.bindings]
      have hswap : ((elementsOf segments edge.name).map Binding.node ++ [node]).Perm
          ([node] ++ (elementsOf segments edge.name).map Binding.node) := List.perm_append_comm
      have hboth := hinsert.trans (hnodes ▸ hswap.append_left (boundNodes entries))
      rw [← List.append_assoc] at hboth
      simp only [addTo, bindTo, replaces, ha, hget, if_true, List.append_nil]
      exact (List.perm_append_right_iff _).mp hboth
    | false =>
      have htaken := Mention.taken_of_admissible (hm _ rfl) ha
      -- The name may have elements, which the single value takes the place of.
      have hinsert := perm_boundNodes_insert edge.name (.single ⟨edge, node⟩) entries
      rw [h edge.name, nodes_propertyOf ho htaken] at hinsert
      simp only [addTo, bindTo, replaces, ha]
      exact hinsert

/-- What is bound at last and what was replaced are the values that came. -/
theorem perm_foldl_addTo {entries : Entries (Property ν)}
    (h : Describes earlier entries) (ho : Orderly [] (mentions (earlier ++ segments))) :
    (boundNodes (segments.foldl Segment.addTo entries) ++ replaced earlier segments).Perm
      (boundNodes entries ++ segments.filterMap value?) := by
  -- The entries after the earlier segments carry the induction, not the segments alone.
  induction segments generalizing earlier entries with
  | nil => simp [replaced]
  | cons segment rest ih =>
    have hsplit := ho
    rw [mentions_append, mentions_cons, orderly_append, orderly_append] at hsplit
    obtain ⟨hearlier, hsegment, -⟩ := hsplit
    have hm := Mention.orderly_toList.mp hsegment
    have hrest := ih (h.addTo hm) (by simpa using ho)
    have hfirst := perm_addTo h hearlier hm
    rw [List.foldl_cons, replaced, filterMap_cons_eq]
    refine (List.perm_append_comm.append_left _).trans ?_
    rw [← List.append_assoc]
    refine (hrest.append_right _).trans ?_
    rw [List.append_assoc]
    refine (List.perm_append_comm.append_left _).trans ?_
    rw [← List.append_assoc, ← List.append_assoc]
    exact hfirst.append_right _

/-- What a node binds and what was replaced in it are the values of its segments. -/
theorem perm_values (ho : Orderly [] (mentions segments)) :
    (boundNodes (properties segments) ++ replaced [] segments).Perm
    (segments.filterMap value?) := by
  have hnil : Describes ([] : List (Segment ν)) [] := fun _ => rfl
  exact perm_foldl_addTo hnil ho

theorem embeddedNodes_shiftItems (first count : Nat) :
    embeddedNodes (shiftItems (ν := ν) first count) = [] := by
  induction count generalizing first with
  | zero => rfl
  | succ count ih => exact ih (first + 1)

/-- The nodes of the segments are the values, and what is embedded. -/
theorem perm_filterMap_node? (segments : List (Segment ν)) :
    (segments.filterMap value? ++ embeddedNodes (allItems segments)).Perm
      (segments.filterMap node?) := by
  induction segments with
  | nil => exact .refl _
  | cons segment rest ih =>
    rw [allItems_cons, embeddedNodes_append]
    cases segment with
    | content | arrayStart => exact ih
    | embedded edge node =>
      have hitems : embeddedNodes (embedded edge node).items = [node] := by cases edge <;> rfl
      rw [hitems]
      exact List.perm_middle.trans (ih.cons node)
    | value edge node shifts =>
      have hitems : embeddedNodes (value edge node shifts).items = [] :=
        embeddedNodes_shiftItems 1 shifts
      rw [hitems]
      exact ih.cons node

/-- What a node binds and embeds, and what was replaced in it, are the nodes of its segments. -/
theorem perm_nodes (ho : Orderly [] (mentions segments)) :
    (boundNodes (properties segments) ++ embeddedNodes (allItems segments) ++
      replaced [] segments).Perm (segments.filterMap node?) := by
  refine List.Perm.trans ?_ (perm_filterMap_node? segments)
  rw [List.append_assoc]
  refine (List.perm_append_comm.append_left _).trans ?_
  rw [← List.append_assoc]
  exact (perm_values ho).append_right _

/-! ### When nothing is replaced -/

theorem valueReferences_shiftItems (first count : Nat) (rest : List (Item ν)) :
    Item.valueReferences (shiftItems first count ++ rest) = Item.valueReferences rest := by
  induction count generalizing first with
  | zero => rfl
  | succ count ih => exact ih (first + 1)

/-- The references of a node that have a value are those of its values. -/
theorem valueReferences_allItems (segments : List (Segment ν)) :
    Item.valueReferences (allItems segments) = segments.filterMap valueReference? := by
  induction segments with
  | nil => rfl
  | cons segment rest ih =>
    rw [allItems_cons]
    cases segment with
    | content | arrayStart => exact ih
    | embedded edge node => cases edge <;> exact ih
    | value edge node shifts =>
      exact congrArg (edge :: ·) ((valueReferences_shiftItems 1 shifts _).trans ih)

/-- A value may replace nothing. -/
theorem replaces_eq_nil_iff {edge : Reference} {node : ν} {shifts : Nat} :
    (value edge node shifts).replaces earlier = [] ↔
      ∀ other ∈ earlier.filterMap valueReference?, edge.replaces other = false := by
  cases ha : edge.isArray with
  | true => simp [replaces, ha, Reference.replaces]
  | false =>
    rw [replaces, ha, if_neg Bool.false_ne_true, List.map_eq_nil_iff, elementsOf,
      List.filterMap_eq_nil_iff]
    constructor
    · intro h other hmem
      obtain ⟨segment, hsegment, hreference⟩ := List.mem_filterMap.mp hmem
      have hnone := h segment hsegment
      cases segment with
      | value found inner count =>
        cases hreference
        simpa [element?, Reference.replaces, ha] using hnone
      | _ => cases hreference
    · intro h segment hsegment
      cases segment with
      | value found inner count =>
        have hfound := h found (List.mem_filterMap.mpr ⟨_, hsegment, rfl⟩)
        simpa [element?, Reference.replaces, ha] using hfound
      | _ => rfl

/-- Nothing is replaced exactly if no value is one that replaces an earlier one. -/
theorem replaced_eq_nil_iff :
    replaced earlier segments = [] ↔
      (∀ first ∈ earlier.filterMap valueReference?, ∀ second ∈ segments.filterMap valueReference?,
        second.replaces first = false) ∧
      (segments.filterMap valueReference?).Pairwise fun first second =>
        second.replaces first = false := by
  induction segments generalizing earlier with
  | nil => simp [replaced]
  | cons segment rest ih =>
    rw [replaced, List.append_eq_nil_iff, ih, List.filterMap_append]
    cases segment with
    | value edge node shifts =>
      rw [replaces_eq_nil_iff]
      simp only [List.filterMap_cons, List.filterMap_nil, valueReference?, List.mem_append,
        List.pairwise_cons, List.mem_cons, or_imp, forall_and, forall_eq]
      grind
    | _ =>
      simp only [replaces, List.filterMap_cons, List.filterMap_nil, valueReference?,
        List.append_nil,
        true_and]

/-- Where no name is mixed, nothing is replaced. -/
theorem replaced_eq_nil (hu : Unmixed (mentions segments)) : replaced [] segments = [] := by
  have hmention : ∀ edge ∈ segments.filterMap valueReference?,
      .value (edge.marked false) ∈ mentions segments := by
    intro edge hmem
    obtain ⟨segment, hsegment, hreference⟩ := List.mem_filterMap.mp hmem
    refine List.mem_filterMap.mpr ⟨segment, hsegment, ?_⟩
    cases segment with
    | value found node shifts =>
      cases hreference
      rfl
    | _ => cases hreference
  rw [replaced_eq_nil_iff]
  refine ⟨List.forall_mem_nil _, List.pairwise_iff_forall_sublist.mpr ?_⟩
  intro first second hsublist
  have hfirst := hmention first (hsublist.subset List.mem_cons_self)
  have hsecond := hmention second (hsublist.subset (List.mem_cons_of_mem _ List.mem_cons_self))
  have hsame := hu _ hfirst _ hsecond
  -- An element and a single value have different names.
  by_cases hname : first.name = second.name
  · have harray : first.isArray = second.isArray := hsame hname
    simp [Reference.replaces, harray]
  · simp [Reference.replaces, hname]

/-- Where no name is mixed, the nodes of the segments are what the node binds and embeds. -/
theorem perm_nodes_of_unmixed
    (ho : Orderly [] (mentions segments)) (hu : Unmixed (mentions segments)) :
    (boundNodes (properties segments) ++ embeddedNodes (allItems segments)).Perm
      (segments.filterMap node?) := by
  have hperm := perm_nodes ho
  rwa [replaced_eq_nil hu, List.append_nil] at hperm

end Segment

namespace Node

variable {test : Node → Bool}

theorem allBindings_iff {bindings : List (Binding Node)} :
    allBindings test bindings = true ↔ ∀ node ∈ bindings.map Binding.node, node.all test =
      true := by
  induction bindings with
  | nil => simp [allBindings]
  | cons binding rest ih => simp [allBindings, ih]

theorem allBound_iff {properties : Entries (Property Node)} :
    allBound test properties = true ↔ ∀ node ∈ boundNodes properties, node.all test = true := by
  induction properties with
  | nil => simp [allBound, boundNodes]
  | cons entry rest ih =>
    obtain ⟨name, property⟩ := entry
    rw [boundNodes_cons, List.forall_mem_append, ← ih]
    cases property with
    | single binding => simp [allBound, Property.nodes, Property.bindings]
    | array bindings =>
      rw [allBound, Bool.and_eq_true, allBindings_iff]
      rfl

theorem allEmbedded_iff {items : List (Item Node)} :
    allEmbedded test items = true ↔ ∀ node ∈ embeddedNodes items, node.all test = true := by
  induction items with
  | nil => simp [allEmbedded, embeddedNodes]
  | cons item rest ih =>
    cases item with
    | embedded node => simpa [allEmbedded, embeddedNodes, Item.node?] using fun _ => ih
    | _ => exact ih

/-- All nodes pass the test if the node does and all beneath its parts do. -/
theorem all_iff {node : Node} :
    node.all test = true ↔ test node = true ∧ ∀ kid ∈ node.kids, kid.all test = true := by
  cases node with
  | element body =>
    rw [all, Bool.and_eq_true, Bool.and_eq_true, allEmbedded_iff, allBound_iff, kids,
      List.forall_mem_append]
    exact ⟨fun h => ⟨h.1.1, h.2, h.1.2⟩, fun h => ⟨⟨h.1, h.2.2⟩, h.2.1⟩⟩
  | gap | null | literal => simp [all, kids, boundNodes, embeddedNodes, properties, items]

end Node

namespace Outline

variable {outline : Outline}

theorem perm_kids (ho : Orderly [] (Segment.mentions outline.segments)) :
    (outline.toNode.kids ++ Segment.replaced [] outline.segments).Perm
      (outline.segments.filterMap Segment.node?) :=
  Segment.perm_nodes ho

/-- The nodes of the segments are beneath the node. -/
theorem all_of_mem {test : Node → Bool} {segment : Segment Node} {inner : Node}
    (h : outline.toNode.all test = true) (ho : Orderly [] (Segment.mentions outline.segments))
    (hu : Unmixed (Segment.mentions outline.segments))
    (hmem : segment ∈ outline.segments) (hnode : segment.node? = some inner) :
    inner.all test = true := by
  refine (Node.all_iff.mp h).2 inner ((Segment.perm_nodes_of_unmixed ho hu).symm.subset ?_)
  exact List.mem_filterMap.mpr ⟨segment, hmem, hnode⟩

/-- A node counts itself and what it binds and embeds. -/
theorem size_toNode : outline.toNode.size = 1 + (outline.toNode.kids.map Node.size).sum := by
  show 1 + Node.propertiesSize (Segment.properties outline.segments) +
    Node.itemsSize (Segment.allItems outline.segments) = _
  rw [Node.propertiesSize_eq, Node.itemsSize_eq, Node.kids, List.map_append, List.sum_append,
    Nat.add_assoc]
  rfl

theorem replacesNothing_iff :
    outline.toNode.replacesNothing = true ↔ Segment.replaced [] outline.segments = [] := by
  have hitems : Item.valueReferences outline.toNode.items.toList =
      outline.segments.filterMap Segment.valueReference? :=
    Segment.valueReferences_allItems outline.segments
  rw [Node.replacesNothing, decide_eq_true_iff, hitems, Segment.replaced_eq_nil_iff]
  exact ⟨fun h => ⟨List.forall_mem_nil _, h⟩, And.right⟩

end Outline

end TagTree
