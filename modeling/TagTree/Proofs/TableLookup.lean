import TagTree.Proofs.Matching
import TagTree.Proofs.Preorder
import TagTree.Proofs.Stop

/-!
# Look-up by the table

A survey looks values up in the table of its node, the node itself by going through its items. By
slot both find the same bindings and fail alike (`Tree.survey_bindingAt_of_built`). By name they
find the same places too (`Place.exists_traces`), and differ only in how they fail for an array that
was started and has no element (`Tree.survey_get_getElement`).
-/

namespace TagTree

open Segment (propertyOf mentions mention? width)

variable {slot : Nat}

/-! ### Look-up by slot -/

/-- There is a gap in a slot of the node. -/
def Node.hasGapAt (node : Node) : (slot : Nat) → Bool
  | 0 => false
  | position + 1 => (node.items[position]?).any Item.isGap

/-- Only a gap records a binding, for a survey too. -/
theorem Survey.bindingAt_of_not_gap {survey : Survey} {table : SlotTable}
    (ht : survey.table = .ok table)
    (h : ∀ position, slot = position + 1 → survey.directory.items[position]? ≠ some .gap) :
    survey.bindingAt slot = .error (.lookup (.slot slot)) := by
  have hkey : survey.keyAt slot = .error (.lookup (.slot slot)) := by
    cases slot with
    | zero =>
      rw [keyAt, ht]
      rfl
    | succ position =>
      cases hitem : survey.directory.items[position]? with
      | none =>
        simp only [keyAt, ht, hitem]
        rfl
      | some item =>
        cases item with
        | gap => exact absurd hitem (h position rfl)
        | _ =>
          simp only [keyAt, ht, hitem]
          rfl
  rw [bindingAt, hkey]
  rfl

namespace Place

variable {place : Place}

/-- A place has gaps where its node has them. -/
theorem hasGapAt_iff : place.node.hasGapAt slot = true ↔
    ∃ position, slot = position + 1 ∧ place.directory.items[position]? = some .gap := by
  cases slot with
  | zero => simp [Node.hasGapAt]
  | succ position =>
    have hitem : place.node.items[position]? =
        (place.directory.items[position]?).map (Item.map Place.node) := by
      rw [← place.map_items, Array.getElem?_map]
      rfl
    rw [Node.hasGapAt, hitem]
    cases hfound : place.directory.items[position]? with
    | none => simp [hfound]
    | some item => cases item <;> simp [hfound, Item.map, Item.isGap]

/-- The table of a sound node is worked out without failure. -/
theorem exists_table (hs : place.node.Sound 0) : ∃ table, (Survey.of place).table = .ok table := by
  show ∃ table, SlotTable.of place.node = .ok table
  cases hnode : place.node with
  | gap | null | literal => exact ⟨_, rfl⟩
  | element body =>
    rw [hnode] at hs
    obtain ⟨outline, houtline, hl, -⟩ := hs.exists_outline
    obtain ⟨table, htable, -⟩ := SlotTable.of_toNode hl
    exact ⟨table, houtline ▸ htable⟩

/-- In a gap the survey and the directory find the same binding. -/
theorem exists_bindingAt (hs : place.node.Sound 0) (hu : place.node.isUnmixed = true)
    (hgap : place.node.hasGapAt slot = true) :
    ∃ binding, (Survey.of place).bindingAt slot = .ok binding ∧
      place.directory.bindingAt slot = .ok binding := by
  obtain ⟨position, rfl, hitem⟩ := hasGapAt_iff.mp hgap
  exact exists_binding_of_gap hs hu hitem

/-- In any other slot both fail. -/
theorem bindingAt_eq_error (hs : place.node.Sound 0) (hgap : place.node.hasGapAt slot = false) :
    (Survey.of place).bindingAt slot = .error (.lookup (.slot slot)) ∧
    place.directory.bindingAt slot = .error (.slot slot) := by
  have hnone : ∀ position, slot = position + 1 → place.directory.items[position]? ≠ some .gap := by
    intro position hslot hitem
    rw [hasGapAt_iff.mpr ⟨position, hslot, hitem⟩] at hgap
    cases hgap
  obtain ⟨table, htable⟩ := exists_table hs
  exact ⟨Survey.bindingAt_of_not_gap htable hnone, Directory.bindingAt_of_not_gap hnone⟩

end Place

/-- In a tree that was built, the survey of a node that uses no name for an array and for a single
property too finds in each slot the binding that the node itself finds there, which is one if the
slot has a gap. In any other slot, and beyond the last, both fail for that slot. -/
theorem Tree.survey_bindingAt_of_built {tree : Tree} {trail : Trail} (h : tree.Built)
    (hplace : trail.place ∈ tree.root.places) (hu : trail.node.isUnmixed = true) (slot : Nat) :
    if trail.node.hasGapAt slot then
      ∃ binding, trail.survey.bindingAt slot = .ok binding ∧
        trail.place.directory.bindingAt slot = .ok binding ∧
        trail.node.bindingAt slot = .ok (binding.map Place.node)
    else trail.survey.bindingAt slot = .error (.lookup (.slot slot)) ∧
      trail.place.directory.bindingAt slot = .error (.slot slot) ∧
      trail.node.bindingAt slot = .error (.slot slot) := by
  have hs : trail.place.node.Sound 0 := h.sound_of_mem hplace
  have hnode : trail.node.bindingAt slot = _ := trail.place.maps_directory.bindingAt slot
  rw [trail.survey_eq]
  split
  · rename_i hgap
    obtain ⟨binding, hsurvey, hdirectory⟩ := Place.exists_bindingAt hs hu hgap
    rw [hdirectory] at hnode
    exact ⟨binding, hsurvey, hdirectory, hnode⟩
  · rename_i hgap
    obtain ⟨hsurvey, hdirectory⟩ := Place.bindingAt_eq_error hs (Bool.eq_false_iff.mpr hgap)
    rw [hdirectory] at hnode
    exact ⟨hsurvey, hdirectory, hnode⟩

/-- An array without elements, one with two, the last of which is shifted, and a single property. -/
def Tree.tabledTags : List Tag :=
  let start (name : String) : Tag := .opening ⟨{}, none, some name, []⟩
  let edge (name : String) (isArray : Bool) : Tag := .reference ⟨name, isArray, none, {}⟩
  [start "Sum", edge "notes" true, .arrayStart, edge "parts" true, .arrayStart,
    edge "parts" true, .gap, edge "parts" true, .literal "1", .shift 1,
    start "Sum", edge "left" false, .gap, .closing, edge "left" false, .null, .closing]

/-- The gap after a shift has a binding, and a slot beyond the last has none. -/
theorem Tree.survey_bindingAt_of_template :
    ∃ inner tree, ofTags tabledTags = .ok inner ∧
      ofTemplate tabledTags [some inner] = .ok tree ∧ tree.root.isUnmixed = true ∧
      (∃ binding, (Survey.of (.root tree.root)).bindingAt 10 = .ok binding ∧
        (Place.root tree.root).directory.bindingAt 10 = .ok binding) ∧
      (Survey.of (.root tree.root)).bindingAt 14 = .error (.lookup (.slot 14)) ∧
      (Place.root tree.root).directory.bindingAt 14 = .error (.slot 14) := by
  obtain ⟨inner, tree, hinner, htree, hbuilt, hu, hgap, hbeyond⟩ :=
    exists_built tabledTags tabledTags
    (fun tree => tree.root.isUnmixed = true ∧ tree.root.hasGapAt 10 = true ∧
      tree.root.hasGapAt 14 = false) (by decide +kernel)
  have hlookup := @survey_bindingAt_of_built tree (.start (.root tree.root) {}) hbuilt
    hbuilt.root_mem hu
  obtain ⟨binding, hsurvey, hdirectory, -⟩ := (if_pos hgap).mp (hlookup 10)
  have hafter := (if_neg (Bool.eq_false_iff.mp hbeyond)).mp (hlookup 14)
  exact ⟨inner, tree, hinner, htree, hu, ⟨binding, hsurvey, hdirectory⟩, hafter.1, hafter.2.1⟩

/-! ### Look-up by name -/

/-- What the table has recorded of a name leads to what is bound to the name. Of an array without
elements it has recorded nothing. -/
inductive Survey.Traces (survey : Survey) : Option ValueSlots → Option (Property Place) → Prop where
  | absent : Traces survey none none
  | empty : Traces survey none (some (.array #[]))
  | single {slot : Nat} {binding : Binding Place} (h : survey.bindingAt slot = .ok binding) :
    Traces survey (some (.single slot)) (some (.single binding))
  | array {slots : Array Nat} {bindings : Array (Binding Place)} (hne : bindings ≠ #[])
    (h : List.Forall₂ (fun slot binding => survey.bindingAt slot = .ok binding)
      slots.toList bindings.toList) :
    Traces survey (some (.array slots)) (some (.array bindings))

namespace Survey.Traces

variable {survey : Survey} {before : List (Segment Place)} {name : String}
  {present : Option ValueSlots} {edge : Reference} {value : Place}

/-- A further element of an array is recorded after those before it. -/
theorem recorded_element {bindings : Array (Binding Place)} {index : Nat}
    (h : survey.Traces present (some (.array bindings)))
    (hbinding : survey.bindingAt slot = .ok ⟨edge, value⟩) :
    survey.Traces (some (ValueSlots.recorded slot (some index) present))
      (some (.array (bindings.push ⟨edge, value⟩))) := by
  cases h with
  | empty => exact .array (by simp) (.cons hbinding .nil)
  | array hne h =>
    refine .array (by simp) ?_
    rw [Array.toList_push, Array.toList_push]
    exact List.rel_append h (.cons hbinding .nil)

/-- One more segment that may come keeps the record right. -/
theorem recorded {segment : Segment Place} (h : survey.Traces present (propertyOf before name))
    (hm : ∀ mention ∈ segment.mention?, mention.Admissible (mentions before))
    (hbinding : ∀ edge value shifts, segment = .value edge value shifts →
      survey.bindingAt (slot + 1) = .ok ⟨edge, value⟩) :
    survey.Traces (segment.recorded (mentions before) name slot present)
      (propertyOf (before ++ [segment]) name) := by
  by_cases hn : ∀ mention ∈ segment.mention?, mention.edge.name ≠ name
  · rw [Segment.propertyOf_concat_of_ne hn]
    cases segment with
    | content | embedded | arrayStart => exact h
    | value edge =>
      have hname : edge.name ≠ name := hn _ rfl
      rw [Segment.recorded, if_neg hname]
      exact h
  cases segment with
  | content | embedded => exact absurd (by rintro _ ⟨⟩) hn
  | arrayStart edge =>
    obtain rfl : edge.name = name := by simpa [mention?] using hn
    have hs : Mention.Startable (mentions before) edge := (hm _ rfl).2
    -- The name is new, so nothing has been recorded of it.
    rw [Segment.propertyOf_of_startable hs] at h
    cases h
    rw [Segment.propertyOf_concat_arrayStart hs]
    exact .empty
  | value edge value shifts =>
    obtain rfl : edge.name = name := by simpa [mention?] using hn
    have hbinding := hbinding edge value shifts rfl
    rw [Segment.recorded, if_pos rfl]
    cases ha : edge.isArray with
    | true =>
      have hb : Mention.Bindable (mentions before) edge := (hm _ rfl).2
      have hindex : Mention.indexOf (mentions before) edge =
          some (Mention.elements (mentions before) edge.name) := by
        simp [Mention.indexOf, hb.1, ha]
      rw [Segment.propertyOf_concat_element hb ha, hindex]
      -- The array was started before, even if nothing has been recorded of it.
      exact recorded_element (Segment.propertyOf_of_bindable hb ha ▸ h) hbinding
    | false =>
      have hindex : Mention.indexOf (mentions before) edge = none := by simp [Mention.indexOf, ha]
      rw [Segment.propertyOf_concat_single (Mention.taken_of_admissible (hm _ rfl) ha) ha, hindex]
      exact .single hbinding

end Survey.Traces

/-- What is recorded does not depend on the nodes. -/
theorem Segment.allRecorded_map {ν μ : Type} (f : ν → μ) (earlier : List Mention) (name : String)
    (slot : Nat) (present : Option ValueSlots) (segments : List (Segment ν)) :
    allRecorded earlier name slot present (segments.map (map f)) =
      allRecorded earlier name slot present segments := by
  induction segments generalizing earlier slot present with
  | nil => rfl
  | cons segment rest ih =>
    have hrecorded : (segment.map f).recorded earlier name slot present =
        segment.recorded earlier name slot present := by
      cases segment <;> rfl
    rw [List.map_cons, allRecorded, allRecorded, mention?_map, items_map,
      List.length_map, hrecorded,
      ih]

namespace Place

variable {place : Place} {outline : Outline} {located before after : List (Segment Place)}

/-- From segment to segment the record of a name follows its property. -/
theorem Segmented.traces_allRecorded (h : place.Segmented outline located)
    (hs : located = before ++ after) {name : String} {present : Option ValueSlots}
    (hpresent : (Survey.of place).Traces present (propertyOf before name)) :
    (Survey.of place).Traces (Segment.allRecorded (mentions before) name (width before + 1)
      present after) (propertyOf located name) := by
  -- The record so far is that of `before`, to which the first segment of `after` is added.
  induction after generalizing before present with
  | nil =>
    rw [hs, List.append_nil]
    exact hpresent
  | cons segment rest ih =>
    have ho := h.orderly
    rw [hs, Segment.mentions_append, Mention.orderly_append, Segment.mentions_cons,
      Mention.orderly_append] at ho
    have hstep : (Survey.of place).Traces (segment.recorded (mentions before) name
        (width before + 1) present) (propertyOf (before ++ [segment]) name) := by
      refine hpresent.recorded (Mention.orderly_toList.mp ho.2.1) ?_
      rintro edge value shifts rfl
      have hbinding := h.survey_bindingAt hs (Nat.zero_le shifts)
      rwa [Nat.mul_zero, Nat.add_zero] at hbinding
    have hrest := ih (by rw [hs, List.append_assoc]; rfl) hstep
    have hmentions : mentions (before ++ [segment]) =
        mentions before ++ segment.mention?.toList := by
      simp
    rwa [Segment.width_concat, Nat.add_right_comm, hmentions] at hrest

/-- The table of a sound node that mixes no name leads to all that the node binds. -/
theorem exists_traces (hs : place.node.Sound 0) (hu : place.node.isUnmixed = true) :
    ∃ table, (Survey.of place).table.mapError Error.structural = pure table ∧ ∀ name : String,
      (Survey.of place).Traces (table.values.get? name) place.directory.properties[name]? := by
  cases hnode : place.node with
  | gap | null | literal =>
    refine ⟨.first, ?_, fun name => ?_⟩
    · show (SlotTable.of place.node).mapError _ = _
      rw [hnode]
      rfl
    · have hproperty : place.directory.properties[name]? = none := by
        show (Entries.index place.properties)[name]? = none
        rw [Entries.getElem?_index, properties, hnode]
        rfl
      rw [hproperty]
      exact .absent
  | element body =>
    obtain ⟨outline, located, h⟩ := exists_segmented_of_sound hs (hnode ▸ rfl) hu
    obtain ⟨table, htable, -, hvalues⟩ := SlotTable.of_toNode h.laid
    refine ⟨table, ?_, fun name => ?_⟩
    · show (SlotTable.of place.node).mapError _ = _
      rw [h.node, htable]
      rfl
    · have hproperty : place.directory.properties[name]? = propertyOf located name := by
        rw [h.directory]
        exact (Entries.getElem?_index ..).trans (Segment.get?_properties h.orderly name)
      rw [hvalues, hproperty, ← h.segments, Segment.allRecorded_map]
      exact h.traces_allRecorded (List.nil_append _).symm .absent

end Place

namespace Survey

variable {survey : Survey} {table : SlotTable} {name : String} {slots : Option ValueSlots}
  {property : Option (Property Place)}

/-- Of an empty array the table has no element, and no array either. -/
theorem getElement_of_empty (ht : survey.table.mapError Error.structural = pure table)
    (h : survey.Traces (table.values.get? name) (some (.array #[]))) (index : Nat) :
    survey.getElement name index = .error (.lookup (.property name)) := by
  generalize hslots : table.values.get? name = slots at h
  simp only [getElement, ht, pure_bind, hslots]
  cases h with
  | empty => rfl
  | array hne => exact absurd rfl hne

variable (ht : survey.table.mapError Error.structural = pure table)
  (hslots : table.values.get? name = slots)
  (hproperty : survey.directory.properties[name]? = property) (h : survey.Traces slots property)

include ht hslots hproperty h

/-- By a name alone the table finds what the directory finds. -/
theorem get_of_traces : survey.get name = (survey.directory.get name).mapError .lookup := by
  simp only [get, ht, pure_bind, hslots, Directory.get, Directory.binding, hproperty]
  cases h with
  | absent | empty | array => rfl
  | single h =>
    simp only [valueAt, h]
    rfl

/-- By a name and an index the table finds what the directory finds, unless an array is empty. -/
theorem getElement_of_traces (hne : property ≠ some (.array #[])) (index : Nat) :
    survey.getElement name index = (survey.directory.binding name (some index) >>= fun binding =>
      pure binding.node).mapError .lookup := by
  simp only [getElement, ht, pure_bind, hslots, Directory.binding, hproperty]
  cases h with
  | empty => exact absurd rfl hne
  | absent | single => rfl
  | @array slots bindings _ h =>
    have hat := rel_getElem?_of_forall₂ h index
    rw [Array.getElem?_toList, Array.getElem?_toList] at hat
    dsimp only
    generalize slots[index]? = slot, bindings[index]? = binding at hat ⊢
    cases hat with
    | none => rfl
    | some h =>
      simp only [valueAt, h]
      rfl

end Survey

/-- The name is that of an array that was started and has no element. -/
def Node.hasEmptyArray (node : Node) (name : String) : Bool :=
  (node.property? name).any fun
    | .array bindings => bindings.isEmpty
    | .single _ => false

namespace Place

variable {place : Place} {name : String}

theorem hasEmptyArray_iff : place.node.hasEmptyArray name = true ↔
    place.directory.properties[name]? = some (.array #[]) := by
  rw [Node.hasEmptyArray, ← Node.getElem?_properties_directory, place.maps_directory.properties]
  cases place.directory.properties[name]? with
  | none => simp
  | some property => cases property <;> simp [Property.map]

/-- Where an array is empty, the node misses the element, and the survey the array. -/
theorem getElement_of_hasEmptyArray (hs : place.node.Sound 0) (hu : place.node.isUnmixed = true)
    (hempty : place.node.hasEmptyArray name = true) (index : Nat) :
    (Survey.of place).getElement name index = .error (.lookup (.property name)) ∧
    place.follow name (some index) = .error (.arrayElement name index) := by
  obtain ⟨table, htable, htraces⟩ := exists_traces hs hu
  have hproperty := hasEmptyArray_iff.mp hempty
  refine ⟨Survey.getElement_of_empty htable (hproperty ▸ htraces name) index, ?_⟩
  rw [follow]
  simp only [Directory.binding, hproperty]
  rfl

end Place

/-- In a tree that was built, the survey of a node that uses no name for an array and for a single
property too finds by name what the node itself finds, and fails as it fails. The one difference is
in an array that was started and has no element: the node misses the element, and the survey the
array. -/
theorem Tree.survey_get_getElement {tree : Tree} {trail : Trail} (h : tree.Built)
    (hplace : trail.place ∈ tree.root.places) (hu : trail.node.isUnmixed = true) (name : String)
    (index : Nat) :
    trail.survey.get name = (trail.place.directory.get name).mapError .lookup ∧
    if trail.node.hasEmptyArray name then
      trail.survey.getElement name index = .error (.lookup (.property name)) ∧
      trail.place.follow name (some index) = .error (.arrayElement name index)
    else trail.survey.getElement name index =
      (trail.place.follow name (some index)).mapError .lookup := by
  have hs : trail.place.node.Sound 0 := h.sound_of_mem hplace
  obtain ⟨table, htable, htraces⟩ := Place.exists_traces hs hu
  rw [trail.survey_eq]
  refine ⟨Survey.get_of_traces htable rfl rfl (htraces name), ?_⟩
  split
  · rename_i hempty
    exact Place.getElement_of_hasEmptyArray hs hu hempty index
  · rename_i hempty
    exact Survey.getElement_of_traces htable rfl rfl (htraces name)
      (fun hproperty => hempty (Place.hasEmptyArray_iff.mpr hproperty)) index

/-- The second element of an array, a single property, and an array without elements. -/
theorem Tree.survey_get_getElement_of_template :
    ∃ inner tree, ofTags tabledTags = .ok inner ∧
      ofTemplate tabledTags [some inner] = .ok tree ∧ tree.root.isUnmixed = true ∧
      (Survey.of (.root tree.root)).get "left" =
        ((Place.root tree.root).directory.get "left").mapError .lookup ∧
      (Survey.of (.root tree.root)).getElement "parts" 1 =
        ((Place.root tree.root).follow "parts" (some 1)).mapError .lookup ∧
      (Survey.of (.root tree.root)).getElement "notes" 1 =
        .error (.lookup (.property "notes")) := by
  obtain ⟨inner, tree, hinner, htree, hbuilt, hu, hempty, hparts⟩ :=
    exists_built tabledTags tabledTags
    (fun tree => tree.root.isUnmixed = true ∧ tree.root.hasEmptyArray "notes" = true ∧
      tree.root.hasEmptyArray "parts" = false) (by decide +kernel)
  have hlookup :=
    @survey_get_getElement tree (.start (.root tree.root) {}) hbuilt hbuilt.root_mem hu
  exact ⟨inner, tree, hinner, htree, hu, (hlookup "left" 0).1,
    (if_neg (Bool.eq_false_iff.mp hparts)).mp (hlookup "parts" 1).2,
    ((if_pos hempty).mp (hlookup "notes" 1).2).1⟩

/-- A node with an array that has no element. -/
def Tree.emptyArrayTags : List Tag :=
  [.opening ⟨{}, none, some "L", []⟩, .reference ⟨"xs", true, none, {}⟩, .arrayStart, .closing]

/-- The survey and the node itself fail in different ways in an array without elements. -/
theorem Tree.getElement_ne_follow_of_empty :
    ∃ tree, ofTags emptyArrayTags = .ok tree ∧ tree.root.isUnmixed = true ∧
      (Survey.of (.root tree.root)).getElement "xs" 0 = .error (.lookup (.property "xs")) ∧
      (Place.root tree.root).follow "xs" (some 0) = .error (.arrayElement "xs" 0) := by
  obtain ⟨tree, htree, hu, hempty⟩ : ∃ tree, ofTags emptyArrayTags = .ok tree ∧
      tree.root.isUnmixed = true ∧ tree.root.hasEmptyArray "xs" = true := by decide +kernel
  have hbuilt : tree.Built := .ofTags htree
  exact ⟨tree, htree, hu,
    Place.getElement_of_hasEmptyArray (hbuilt.sound_of_mem hbuilt.root_mem) hu hempty 0⟩

end TagTree
