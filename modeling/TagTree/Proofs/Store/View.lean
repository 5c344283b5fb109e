import Mathlib.Algebra.Order.BigOperators.Group.List
import Mathlib.Algebra.Order.Group.Nat
import TagTree.Proofs.Agreement
import TagTree.Proofs.Store.Occurrence

/-!
# What a store shows

Once it is said which node each number stands for, the content of a cell denotes a node
(`Content.Denotes`) and an open cell shows a frame (`Top.Shows`). A step of an open cell then does
to the frame what the step of the frame does, and leaves what the cell binds and embeds in good
order (`Top.Moves`): there is one such lemma for each step.
-/

namespace TagTree

open Register (toList_modify toList_insert get?_eq contains_eq)

variable {target : Target}

namespace Frame

variable {ν μ : Type} (f : ν → μ)

theorem map_markReference (items : Array (Item ν)) (position : Nat)
    (mark : ReferenceFlags → ReferenceFlags) :
    markReference (items.map (Item.map f)) position mark =
      (markReference items position mark).map (Item.map f) := by
  refine Array.ext_getElem? fun place => ?_
  simp only [markReference, Array.getElem?_modify, Array.getElem?_map]
  split
  · cases items[place]? with
    | none => rfl
    | some item => cases item <;> rfl
  · rfl

theorem map_setBinding (bindings : Array (Binding ν)) (index : Option Nat) (binding : Binding ν) :
    setBinding (bindings.map (Binding.map f)) index (binding.map f) =
      (setBinding bindings index binding).map (Binding.map f) := by
  cases index with
  | none => simp [setBinding]
  | some index =>
    simp only [setBinding, Array.size_map]
    split <;> simp

theorem map_bindElement (index : Option Nat) (binding : Binding ν) (property : Property ν) :
    bindElement index (binding.map f) (property.map f) =
      (bindElement index binding property).map f := by
  cases property with
  | single present => rfl
  | array bindings => exact congrArg Property.array (map_setBinding f bindings index binding)

theorem map_setProperty {properties : Register (Property μ)} {numbered : Register (Property ν)}
    (h : properties.toList = numbered.toList.map fun entry => (entry.1, entry.2.map f))
    (target : Target) (binding : Binding ν) :
    (setProperty properties target (binding.map f)).toList =
      (setProperty numbered target binding).toList.map fun entry => (entry.1, entry.2.map f) := by
  unfold setProperty
  split
  · rw [toList_modify, toList_modify, h, Entries.get?_map]
    cases numbered.toList.get? target.reference.name with
    | none => rfl
    | some property =>
      simp only [Option.map_some, map_bindElement]
      exact (Entries.mapValues_insert ..).symm
  · rw [toList_insert, toList_insert, h]
    exact (Entries.mapValues_insert (Property.map f) _ (.single binding) _).symm

theorem embeddedNodes_markReference (items : Array (Item ν)) (position : Nat)
    (mark : ReferenceFlags → ReferenceFlags) :
    embeddedNodes (markReference items position mark).toList = embeddedNodes items.toList := by
  have hmodify : ∀ (items : List (Item ν)) (position : Nat) (f : Item ν → Item ν),
      (∀ item, (f item).node? = item.node?) →
        embeddedNodes (items.modify position f) = embeddedNodes items := by
    intro items
    induction items with
    | nil => exact fun position f _ => by simp [embeddedNodes]
    | cons item rest ih =>
      intro position f hf
      cases position with
      | zero => simp [embeddedNodes, List.filterMap_cons, hf]
      | succ position =>
        have := ih position f hf
        simp only [embeddedNodes, List.modify_succ_cons, List.filterMap_cons] at this ⊢
        rw [this]
  rw [markReference, Array.toList_modify]
  refine hmodify _ _ _ fun item => ?_
  cases item <;> rfl

theorem hasGap_eq (frame : Frame) : frame.hasGap =
    (boundNodes frame.properties.toList ++ embeddedNodes frame.items.toList).any Node.hasGap := by
  rw [List.any_append, any_boundNodes, any_embeddedNodes, Array.any_toList, Register.toList,
    Array.any_toList]
  rfl

end Frame

theorem Directory.Maps.values {ν μ : Type} {f : ν → μ} {fine : Directory ν} {coarse : Directory μ}
    (h : Maps f fine coarse) : coarse.values = fine.values.map f := by
  rw [Directory.values, Directory.values, h.keys, List.map_filterMap]
  refine congrArg (List.filterMap · _) (funext fun key => ?_)
  cases key with
  | none => rfl
  | some key =>
    show (do
      let property ← coarse.properties[key.name]?
      return (← property.binding? key.index).node) = Option.map f (do
      let property ← fine.properties[key.name]?
      return (← property.binding? key.index).node)
    rw [h.properties]
    cases fine.properties[key.name]? with
    | none => rfl
    | some property =>
      simp only [Option.map_some, Option.bind_some, Property.binding?_map, bind, pure]
      cases property.binding? key.index <;> rfl

/-- The node of one tag that the head is. -/
def Head.stub? : Head → Option Node
  | gap => some .gap
  | null => some .null
  | literal text => some (.literal text)
  | opening _ => none

namespace Content

variable {value value' : Nat → Node} {content : Content} {node : Node}

/-- The items, given the nodes that the numbers stand for. -/
def itemsOf (content : Content) (value : Nat → Node) : Array (Item Node) :=
  content.items.map (Item.map value)

/-- The properties, given the nodes that the numbers stand for. -/
def propertiesOf (content : Content) (value : Nat → Node) : Entries (Property Node) :=
  content.properties.toList.map fun entry => (entry.1, entry.2.map value)

/-- The node with its opening tag, given the nodes that the numbers stand for. -/
def toElement (content : Content) (value : Nat → Node) (start : OpenTag) : Element Node where
  start := start
  label := content.label
  items := content.itemsOf value
  properties := content.propertiesOf value
  held := content.held
  size := 1 + Node.propertiesSize (content.propertiesOf value) +
    Node.itemsSize (content.itemsOf value).toList

/-- To mark a node writes both the label and the opening tag. -/
theorem Labelled.withGap {start : OpenTag} (h : content.Labelled)
    (hhead : content.head = .opening start)
    (hasGap : Bool) : (content.withGap hasGap).Labelled := by
  obtain ⟨inherited, hlabel⟩ := h
  refine ⟨inherited, ?_⟩
  rw [Content.withGap, hlabel, hhead]
  rfl

/-- The node has the marks, the type and the attributes of its opening tag, and the language if that
says one. -/
structure Mirrors (start : OpenTag) (content : Content) : Prop where
  flags : content.label.flags = start.flags
  typeName : content.label.typeName = start.typeName
  attributes : content.label.attributes = start.attributes
  language : start.language = none ∨ content.label.language = start.language

theorem Labelled.mirrors {start : OpenTag} (h : content.Labelled)
    (hhead : content.head = .opening start) : content.Mirrors start := by
  obtain ⟨inherited, hlabel⟩ := h
  rw [hhead] at hlabel
  refine ⟨?_, ?_, ?_, ?_⟩ <;> rw [hlabel, Head.label, OpenTag.label]
  cases start.language with
  | none => exact .inl rfl
  | some language => exact .inr rfl

/-- The node that a content is, given the nodes that the numbers stand for. -/
inductive Denotes (value : Nat → Node) (content : Content) : Node → Prop where
  | stub {node : Node} (head : content.head.stub? = some node)
    (label : content.label = content.head.label none) (leaf : content.kids = []) :
    Denotes value content node
  | element {start : OpenTag} (head : content.head = .opening start) (labelled : content.Labelled) :
    Denotes value content (.element (content.toElement value start))

theorem itemsOf_congr (h : ∀ kid ∈ content.kids, value kid = value' kid) :
    content.itemsOf value = content.itemsOf value' := by
  refine Array.toList_inj.mp ?_
  rw [itemsOf, itemsOf, Array.toList_map, Array.toList_map]
  exact map_congr_items fun kid hkid => h kid (List.mem_append_right _ hkid)

theorem propertiesOf_congr (h : ∀ kid ∈ content.kids, value kid = value' kid) :
    content.propertiesOf value = content.propertiesOf value' :=
  map_congr_properties fun kid hkid => h kid (List.mem_append_left _ hkid)

theorem size_toElement (content : Content) (value : Nat → Node) (start : OpenTag) :
    (content.toElement value start).size =
      1 + (content.kids.map fun kid => (value kid).size).sum := by
  simp only [toElement, Node.propertiesSize_eq, Node.itemsSize_eq, itemsOf, propertiesOf,
    boundNodes_map, Array.toList_map, embeddedNodes_map, kids, List.map_append, List.map_map,
    List.sum_append_nat]
  exact Nat.add_assoc ..

namespace Denotes

variable (h : content.Denotes value node)

include h

/-- A content denotes the same node as another one if it differs from that in the numbers only. -/
theorem transfer {copy : Content}
    (hhead : copy.head = content.head) (hlabel : copy.label = content.label)
    (hheld : copy.held = content.held) (hitems : copy.itemsOf value' = content.itemsOf value)
    (hproperties : copy.propertiesOf value' = content.propertiesOf value) :
    copy.Denotes value' node := by
  cases h with
  | stub head label leaf =>
    refine .stub (hhead ▸ head) (by rw [hlabel, hhead, label]) ?_
    have hbound := congrArg boundNodes hproperties
    have hembedded := congrArg (fun items => embeddedNodes items.toList) hitems
    simp only [propertiesOf, itemsOf, boundNodes_map, Array.toList_map, embeddedNodes_map]
      at hbound hembedded
    obtain ⟨hnoneBound, hnoneEmbedded⟩ := List.append_eq_nil_iff.mp leaf
    rw [hnoneBound, List.map_nil, List.map_eq_nil_iff] at hbound
    rw [hnoneEmbedded, List.map_nil, List.map_eq_nil_iff] at hembedded
    rw [kids, hbound, hembedded, List.append_nil]
  | @element start head labelled =>
    have hsame : content.toElement value start = copy.toElement value' start := by
      rw [toElement, toElement, hitems, hproperties, hlabel, hheld]
    rw [hsame]
    exact .element (hhead.trans head) (by rw [Labelled, hlabel, hhead]; exact labelled)

theorem congr
    (hvalue : ∀ kid ∈ content.kids, value kid = value' kid) : content.Denotes value' node :=
  h.transfer rfl rfl rfl (itemsOf_congr hvalue).symm (propertiesOf_congr hvalue).symm

/-- Nodes are counted one by one. -/
theorem size_eq : node.size = 1 + (content.kids.map fun kid => (value kid).size).sum := by
  cases h with
  | stub head label leaf =>
    rw [leaf]
    revert head
    cases content.head <;> intro head <;> cases head <;> rfl
  | @element start => exact size_toElement content value start

/-- What a node binds or embeds is smaller. -/
theorem size_lt {kid : Nat} (hkid : kid ∈ content.kids) : (value kid).size < node.size := by
  have : (value kid).size ≤ (content.kids.map fun kid => (value kid).size).sum :=
    List.le_sum_of_mem (List.mem_map.mpr ⟨kid, hkid, rfl⟩)
  rw [h.size_eq]
  omega

theorem hasGap : content.hasGap = node.hasGap := by
  cases h with
  | stub head label leaf =>
    rw [Content.hasGap, label]
    revert head
    cases content.head <;> intro head <;> cases head <;> rfl
  | element => rfl

theorem isFragment : content.isFragment = true ↔ node.type = .fragment := by
  cases h with
  | stub head label leaf =>
    revert head
    simp only [Content.isFragment]
    cases content.head <;> intro head <;> cases head <;> simp [Node.type]
  | @element start head =>
    simp only [Content.isFragment, head, Node.type, toElement]
    cases content.label.typeName <;> simp

/-- The values of a node, by their numbers and as they are. -/
theorem values :
    node.directory.values =
      (Directory.of content.items content.properties.toList).values.map value := by
  cases h with
  | stub head label leaf =>
    have hnone : node.directory.values = [] := by
      revert head
      cases content.head <;> intro head <;> cases head <;> rfl
    have hkids : ∀ kid, kid ∉ (Directory.of content.items content.properties.toList).values := by
      intro kid hkid
      have := List.mem_append_left (embeddedNodes content.items.toList)
        (Directory.mem_boundNodes_of_mem_values hkid)
      rw [← kids, leaf] at this
      cases this
    rw [hnone, List.eq_nil_iff_forall_not_mem.mpr hkids]
    rfl
  | element => exact (Directory.maps_of value content.items content.properties.toList).values

theorem withoutHold : ({ content with held := none } : Content).Denotes value node.withoutHold := by
  cases h with
  | @stub node head label leaf =>
    have hsame : node.withoutHold = node := by
      revert head
      cases content.head <;> intro head <;> cases head <;> rfl
    rw [hsame]
    exact .stub head label leaf
  | @element start head labelled =>
    have hhead : ({ content with held := none } : Content).head = .opening start := head
    exact .element hhead labelled

/-- A complete cell is labelled as its opening tag says. -/
theorem labelled : content.Labelled := by
  cases h with
  | stub _ label => exact ⟨none, label⟩
  | element _ labelled => exact labelled

end Denotes

/-! ### Arrays -/

section StartArray

variable {name : String}

theorem propertiesOf_startArray (content : Content) (value : Nat → Node) (name : String) :
    (content.startArray name).propertiesOf value =
      Entries.insert name (.array #[]) (content.propertiesOf value) := by
  show (content.properties.insert name (.array #[])).toList.map _ = _
  have hempty : (Property.array #[]).map value = .array #[] := by simp [Property.map]
  rw [toList_insert, ← hempty]
  exact Entries.mapValues_insert (Property.map value) name (.array #[]) _

variable {other : String} (h : content.properties.toList.get? name = none)
include h

theorem get?_startArray {property : Property Nat}
    (hother : content.properties.toList.get? other = some property) :
    (content.startArray name).properties.toList.get? other = some property := by
  have hne : name ≠ other := by
    rintro rfl
    rw [h] at hother
    cases hother
  show (content.properties.insert name (.array #[])).toList.get? other = some property
  rw [toList_insert, Entries.get?_insert_of_ne hne, hother]

theorem hasArray_startArray (hother : content.hasArray other = true) :
    (content.startArray name).hasArray other = true := by
  obtain ⟨bindings, hget⟩ := hasArray_iff.mp hother
  exact hasArray_iff.mpr ⟨bindings, get?_startArray h hget⟩

theorem bound?_startArray {id : Nat} (hbound : content.bound? target = some id) :
    (content.startArray name).bound? target = some id := by
  rw [bound?_eq] at hbound ⊢
  obtain ⟨property, hget, hid⟩ := Option.bind_eq_some_iff.mp hbound
  rw [get?_startArray h hget]
  exact hid

theorem count_startArray (id : Nat) :
    (content.startArray name).kids.count id = content.kids.count id := by
  have hinsert := count_boundNodes_insert name (.array #[]) content.properties.toList id
  have hnone : (Property.array (#[] : Array (Binding Nat))).nodes = [] := rfl
  have hitems : embeddedNodes (content.startArray name).items.toList =
      embeddedNodes content.items.toList := by
    simp [startArray, push, embeddedNodes, Item.node?]
  rw [h, hnone, ← toList_insert] at hinsert
  simp only [Option.map_none, Option.getD_none, List.count_nil, Nat.add_zero] at hinsert
  rw [kids, kids, List.count_append, List.count_append, hitems, ← hinsert]
  rfl

end StartArray

end Content

/-! ### Binding -/

namespace Content

variable {content : Content}

/-- The content with a value bound to a target. -/
def attached (content : Content) (target : Target) (node : Nat) (hasGap : Bool) : Content :=
  let flags := { target.reference.flags with hasGap := hasGap }
  { content with
    items := Frame.markReference content.items target.position fun _ => flags
    properties := Frame.setProperty content.properties target
      ⟨{ target.reference with flags := flags }, node⟩ }

theorem attach_of_ready (h : content.Ready target) (node : Nat) (hasGap : Bool) :
    content.attach target node hasGap = .ok (content.attached target node hasGap) := by
  refine if_neg ?_
  simp only [Bool.and_eq_true, Bool.not_eq_true', not_and, Bool.not_eq_false]
  exact h

theorem get?_setProperty_of_isArray (h : target.reference.isArray = true)
    {bindings : Array (Binding Nat)} (binding : Binding Nat)
    (hget : content.properties.toList.get? target.reference.name = some (.array bindings)) :
    (Frame.setProperty content.properties target binding).toList.get? target.reference.name =
      some (.array (Frame.setBinding bindings target.index binding)) := by
  rw [Frame.setProperty, if_pos h, toList_modify, hget]
  exact Entries.get?_insert_self ..

/-- A value can be bound to the same target again, and to others of the same array. -/
theorem ready_attached (h : content.Ready target) (node : Nat) (hasGap : Bool) {again : Target}
    (hagain : again.reference.name = target.reference.name)
    (harray : again.reference.isArray = target.reference.isArray) :
    (content.attached target node hasGap).Ready again := by
  intro hisArray
  rw [harray] at hisArray
  obtain ⟨bindings, hget⟩ := hasArray_iff.mp (h hisArray)
  rw [hagain]
  exact hasArray_iff.mpr ⟨_, get?_setProperty_of_isArray hisArray _ hget⟩

end Content

/-! ### Open cells -/

namespace Top

/-- The frame that an open cell is, given the nodes that the numbers stand for and the open cells
around it. -/
structure Shows (value : Nat → Node) (outer : List OpenCell) (top : Top)
    (frame : Frame) : Prop where
  depth : frame.depth = outer.length + 1
  head : top.content.head = .opening frame.start
  label : frame.label = top.content.label
  labelled : top.content.Labelled
  destination : frame.destination = top.node.destination
  owed : frame.owed = top.node.owed.map value
  withinOwed : frame.withinOwed = outer.any fun node => node.owed.isSome
  items : frame.items = top.content.itemsOf value
  properties : frame.properties.toList = top.content.propertiesOf value
  held : frame.held = top.content.held
  scope : frame.scope = top.scope
  pending : frame.pending = top.node.pending
  lastBound : frame.lastBound = top.node.lastBound
  shifts : frame.shifts = top.node.shifts
  shifted : frame.shifted = top.node.shifted.map fun detached => (detached.1, value detached.2)

/-- A value can be bound to the target that a shift may detach, and a value that has been detached
is still bound to its target. -/
structure Steady (top : Top) : Prop where
  lastBound : ∀ target, top.node.lastBound = some target → top.content.Ready target
  shifted : ∀ target id, top.node.shifted = some (target, id) →
    top.content.Ready target ∧ top.content.bound? target = some id

/-- The open cell may have lost some of what it binds, embeds and owes, and has no more of it. -/
structure Keeps (top after : Top) : Prop where
  id : after.node.id = top.node.id
  destination : after.node.destination = top.node.destination
  owed : after.node.owed = top.node.owed ∨ after.node.owed = none
  kids : ∀ id, after.content.kids.count id ≤ top.content.kids.count id
  arrays : ∀ name, top.content.hasArray name = true → after.content.hasArray name = true
  steady : top.Steady → after.Steady

/-- The open cell shows a frame after a step and has no more than it had. -/
structure Moves (value : Nat → Node) (outer : List OpenCell) (top after : Top) (frame : Frame) :
    Prop where
  shows : after.Shows value outer frame
  keeps : top.Keeps after

/-- A step of an open cell and a step of its frame agree, and so do the states that they leave if
they are refused. -/
abbrev Follows {α β : Type} (value : Nat → Node) (outer : List OpenCell) (top : Top)
    (R : α → β → Prop) : Attempt Top α → Attempt Frame β → Prop :=
  Agree (fun first second =>
    first.error = second.error ∧ top.Moves value outer first.state second.state) R

variable {value value' : Nat → Node} {outer : List OpenCell} {top after : Top} {frame : Frame}

/-- A step that leaves the properties keeps what it does not add. -/
theorem Keeps.of_properties (id : after.node.id = top.node.id)
    (destination : after.node.destination = top.node.destination)
    (owed : after.node.owed = top.node.owed ∨ after.node.owed = none)
    (properties : after.content.properties = top.content.properties)
    (items : (embeddedNodes after.content.items.toList).Sublist
      (embeddedNodes top.content.items.toList))
    (lastBound : ∀ target, after.node.lastBound = some target → top.node.lastBound = some target)
    (shifted : top.Steady → ∀ target id, after.node.shifted = some (target, id) →
      top.content.Ready target ∧ top.content.bound? target = some id) : top.Keeps after where
  id := id
  destination := destination
  owed := owed
  kids id := by
    have hbound : boundNodes after.content.properties.toList =
      boundNodes top.content.properties.toList := by rw [properties]
    have hembedded := items.count_le id
    simp only [Content.kids, List.count_append, hbound]
    omega
  arrays name := by
    rw [Content.hasArray, Content.hasArray, properties]
    exact fun h => h
  steady h := by
    have hready : ∀ target, top.content.Ready target → after.content.Ready target := by
      intro target hready harray
      rw [Content.hasArray, properties]
      exact hready harray
    constructor
    · intro target htarget
      exact hready target (h.lastBound target (lastBound target htarget))
    · intro target id hshifted
      obtain ⟨htarget, hbound⟩ := shifted h target id hshifted
      refine ⟨hready target htarget, ?_⟩
      rw [Content.bound?, properties]
      exact hbound

theorem Keeps.refl (top : Top) : top.Keeps top :=
  .of_properties rfl rfl (.inl rfl) rfl (.refl _) (fun _ h => h) Steady.shifted

/-- An item that embeds nothing adds nothing. -/
theorem embeddedNodes_push {content : Content} {item : Item Nat} (h : item.node? = none) :
    (embeddedNodes (content.push item).items.toList).Sublist
      (embeddedNodes content.items.toList) := by
  simp [Content.push, embeddedNodes, h]

namespace Shows

variable (h : top.Shows value outer frame)

include h

theorem congr (hkids : ∀ kid ∈ top.content.kids, value kid = value' kid)
    (howed : ∀ id, top.node.owed = some id → value id = value' id)
    (hshifted : ∀ target id, top.node.shifted = some (target, id) → value id = value' id) :
    top.Shows value' outer frame := by
  refine { h with owed := ?_, items := ?_, properties := ?_, shifted := ?_ }
  · rw [h.owed]
    cases hid : top.node.owed with
    | none => rfl
    | some id => exact congrArg some (howed id hid)
  · rw [h.items, Content.itemsOf_congr hkids]
  · rw [h.properties, Content.propertiesOf_congr hkids]
  · rw [h.shifted]
    cases hid : top.node.shifted with
    | none => rfl
    | some detached => exact congrArg (fun node => some (detached.1, node)) (hshifted _ _ hid)

theorem hasArray (name : String) : frame.hasArray name = top.content.hasArray name := by
  rw [Frame.hasArray, Content.hasArray, get?_eq, get?_eq, h.properties,
    Content.propertiesOf, Entries.get?_map]
  cases top.content.properties.toList.get? name with
  | none => rfl
  | some property => cases property <;> rfl

theorem bound? (target : Target) :
    (frame.bound? target).map Binding.node = (top.content.bound? target).map value := by
  rw [Frame.bound?, Content.bound?_eq, get?_eq, h.properties, Content.propertiesOf,
    Entries.get?_map]
  cases top.content.properties.toList.get? target.reference.name with
  | none => rfl
  | some property =>
    show ((property.map value).binding? target.index).map Binding.node =
      ((property.binding? target.index).map Binding.node).map value
    rw [Property.binding?_map]
    cases property.binding? target.index <;> rfl

theorem size_items : frame.items.size = top.content.items.size := by
  simp [h.items, Content.itemsOf]

theorem push (item : Item Nat) :
    (top.push item).Shows value outer (frame.push (item.map value)) where
  __ := h
  items := by simp [Frame.push, Top.push, Content.push, Content.itemsOf, h.items]

theorem checkTarget (target : Target) : frame.checkTarget target = top.checkTarget target := by
  rw [Frame.checkTarget, Top.checkTarget, h.hasArray]

theorem taken : top.Moves value outer top.taken { frame with pending := none } where
  shows := { h with pending := rfl }
  keeps := .of_properties rfl rfl (.inl rfl) rfl (.refl _) (fun _ h => h) Steady.shifted

theorem moves_refl : top.Moves value outer top frame :=
  ⟨h, .refl top⟩

end Shows

theorem ready_of_checkTarget (h : top.checkTarget target = .ok ()) : top.content.Ready target := by
  intro harray
  rw [checkTarget] at h
  split at h
  · cases h
  · cases hstarted : top.content.hasArray target.reference.name with
    | true => rfl
    | false => simp [harray, hstarted] at h

/-- What is known of a reference that has been taken: its value can be bound. -/
structure Taken (value : Nat → Node) (outer : List OpenCell) (top : Top) (first : Target × Top)
    (second : Target × Frame) : Prop where
  target : first.1 = second.1
  moves : top.Moves value outer first.2 second.2
  ready : first.2.content.Ready first.1
  shifted : first.2.node.shifted = top.node.shifted

namespace Shows

theorem takePending (h : top.Shows value outer frame) (kind : TagKind) :
    top.Follows value outer (Taken value outer top) (top.takePending kind)
      (frame.takePending kind) := by
  rw [Top.takePending, Frame.takePending, h.pending]
  cases top.node.pending with
  | none => exact .error ⟨rfl, h.moves_refl⟩
  | some target =>
    simp only [h.checkTarget]
    cases hcheck : top.checkTarget target with
    | ok _ => exact .ok ⟨rfl, h.taken, ready_of_checkTarget hcheck, rfl⟩
    | error error => exact .error ⟨rfl, h.taken⟩

/-- Both take references alike. -/
theorem reference (h : top.Shows value outer frame) (edge : Reference) :
    top.Follows value outer (top.Moves value outer) (top.reference edge)
      (frame.reference edge) := by
  rw [Top.reference, Frame.reference, h.pending]
  cases hpending : top.node.pending with
  | some first => exact .error ⟨rfl, h.moves_refl⟩
  | none =>
    simp only [h.scope, h.size_items]
    obtain ⟨scope, result⟩ := top.scope.consume edge
    cases result with
    | error error =>
      exact .error ⟨rfl, { h with scope := rfl, pending := hpending.symm },
        .of_properties rfl rfl (.inl rfl) rfl (.refl _) (fun _ h => h) Steady.shifted⟩
    | ok index =>
      refine .ok ⟨{ h.push (.reference _) with
        scope := rfl, pending := rfl, lastBound := rfl, shifts := rfl }, ?_⟩
      exact .of_properties rfl rfl (.inl rfl) rfl (embeddedNodes_push rfl) (fun _ h => nomatch h)
        Steady.shifted

/-- Both shift alike. -/
theorem shift (h : top.Shows value outer frame) (index : Nat) :
    top.Follows value outer (top.Moves value outer) (top.shift index) (frame.shift index) := by
  -- A refused shift may have given up the value that could be shifted, and may have counted.
  have hfreed : ∀ shifts, top.Moves value outer
      { top with node := { top.node with lastBound := none, shifts := shifts } }
      { frame with lastBound := none, shifts := shifts } := fun shifts =>
    ⟨{ h with lastBound := rfl, shifts := rfl },
      .of_properties rfl rfl (.inl rfl) rfl (.refl _) (fun _ h => nomatch h) Steady.shifted⟩
  unfold Top.shift Frame.shift
  refine Agree.ite_iff (by rw [h.pending]) (fun _ => .error ⟨rfl, h.moves_refl⟩) fun _ => ?_
  cases hlast : top.node.lastBound with
  | none =>
    rw [h.lastBound.trans hlast]
    exact .error ⟨rfl, h.moves_refl⟩
  | some target =>
    rw [h.lastBound.trans hlast]
    refine Agree.ite_iff (by rw [h.shifts]) (fun _ => .error ⟨rfl, ?_⟩) fun _ => ?_
    · simpa [h.shifts] using hfreed top.node.shifts
    refine Agree.ite_iff (by rw [h.size_items]) (fun _ => .error ⟨rfl, hfreed index⟩) fun _ => ?_
    have hbound := (hfreed index).shows.bound? target
    cases hnumber : ({ top with
      node := { top.node with lastBound := none, shifts := index } } : Top).content.bound?
        target with
    | none =>
      rw [hnumber] at hbound
      rw [Option.map_eq_none_iff.mp hbound]
      exact .error ⟨rfl, hfreed index⟩
    | some id =>
      rw [hnumber] at hbound
      obtain ⟨binding, hbinding, hid⟩ := Option.map_eq_some_iff.mp hbound
      rw [hbinding]
      have hshown := (hfreed index).shows.push (.shift index)
      refine .ok ⟨{ hshown with shifted := by rw [hid]; rfl }, ?_⟩
      refine .of_properties rfl rfl (.inl rfl) rfl (embeddedNodes_push rfl)
        (fun _ h => nomatch h) ?_
      intro hsteady _ _ hshifted
      cases hshifted
      exact ⟨hsteady.lastBound target hlast, hnumber⟩

/-- Both start arrays alike. -/
theorem startArray (h : top.Shows value outer frame) :
    top.Follows value outer (top.Moves value outer) top.startArray frame.startArray := by
  unfold Top.startArray Frame.startArray
  cases hpending : top.node.pending with
  | none =>
    rw [h.pending.trans hpending]
    exact .error ⟨rfl, h.moves_refl⟩
  | some target =>
    rw [h.pending.trans hpending]
    have hcontains : frame.properties.contains target.reference.name =
        top.content.properties.contains target.reference.name := by
      rw [contains_eq, contains_eq, h.properties, Content.propertiesOf,
        Entries.get?_map, Option.isSome_map]
    refine Agree.ite (fun _ => .error ⟨rfl, h.taken⟩) fun _ => ?_
    refine Agree.ite_iff (by rw [hcontains]) (fun _ => .error ⟨rfl, h.taken⟩) fun hnew => ?_
    have hshown := h.taken.shows.push .arrayStart
    have hnone : top.content.properties.toList.get? target.reference.name = none := by
      rw [contains_eq] at hnew
      simpa using hnew
    refine .ok ⟨{ hshown with properties := ?_, scope := ?_ }, ?_⟩
    · show (frame.properties.insert _ _).toList = (top.content.startArray _).propertiesOf value
      rw [toList_insert, h.properties, Content.propertiesOf_startArray]
    · exact congrArg (Scope.startArray · _) h.scope
    · exact {
        id := rfl
        destination := rfl
        owed := .inl rfl
        kids := fun id => Nat.le_of_eq (Content.count_startArray hnone id)
        arrays := fun name => Content.hasArray_startArray hnone
        steady := fun hsteady => ⟨fun target hlast harray =>
          Content.hasArray_startArray hnone (hsteady.lastBound target hlast harray),
          fun target id hshifted => ⟨fun harray => Content.hasArray_startArray hnone
            ((hsteady.shifted target id hshifted).1 harray),
            Content.bound?_startArray hnone (hsteady.shifted target id hshifted).2⟩⟩ }

end Shows

/-- What is known of a node that opens: where it goes, and which shifted value it takes back. -/
structure Admits (value : Nat → Node) (outer : List OpenCell) (top : Top)
    (first : (Option Target × Option Nat) × Top) (second : Frame × Option Target × Option Node) :
    Prop where
  destination : first.1.1 = second.2.1
  owed : second.2.2 = first.1.2.map value
  moves : top.Moves value outer first.2 second.1
  ready : ∀ target, first.1.1 = some target → first.2.content.Ready target
  bound : ∀ id, first.1.2 = some id →
    ∃ target, first.1.1 = some target ∧ first.2.content.bound? target = some id
  shifted : first.2.node.shifted = none

namespace Shows

variable (h : top.Shows value outer frame)

include h

/-- Both admit opening tags alike. -/
theorem opening (hsteady : top.Steady) (start : OpenTag) :
    top.Follows value outer (Admits value outer top) (top.opening start) (frame.opening start) := by
  unfold Top.opening Frame.opening
  cases hshifted : top.node.shifted with
  | some detached =>
    obtain ⟨target, id⟩ := detached
    have hframe : frame.shifted = some (target, value id) := by rw [h.shifted, hshifted]; rfl
    obtain ⟨hready, hbound⟩ := hsteady.shifted target id hshifted
    rw [hframe]
    refine .ok ⟨rfl, rfl, ⟨{ h with shifted := rfl }, ?_⟩, ?_, ?_, rfl⟩
    · exact .of_properties rfl rfl (.inl rfl) rfl (.refl _) (fun _ h => h) fun _ _ _ h => nomatch h
    · rintro _ ⟨⟩
      exact hready
    · rintro _ ⟨⟩
      exact ⟨target, rfl, hbound⟩
  | none =>
    have hframe : frame.shifted = none := by rw [h.shifted, hshifted]; rfl
    have htaken := h.taken
    have hbeside : Admits value outer top ((none, none), top.taken)
        ({ frame with pending := none }, none, none) :=
      ⟨rfl, rfl, htaken, nofun, nofun, hshifted⟩
    rw [hframe] at htaken hbeside ⊢
    refine Agree.ite (fun _ => ?_) fun _ => ?_
    · cases hpending : top.node.pending with
      | none =>
        rw [h.pending.trans hpending]
        exact .ok hbeside
      | some target =>
        rw [h.pending.trans hpending]
        exact Agree.ite (fun _ => .ok hbeside) fun _ => .error ⟨rfl, htaken⟩
    · refine (h.takePending .opening).bind ?_
      intro first second h
      refine .ok ⟨congrArg some h.target, rfl, h.moves, ?_, nofun, h.shifted.trans hshifted⟩
      rintro _ ⟨⟩
      exact h.ready

/-- Both may be closed alike. -/
theorem checkClose :
    Agree (fun refusal error => refusal.error = error ∧ refusal.state = top)
      (fun (first : Unit × Top) _ => first.2 = top ∧
        top.node.pending = none ∧ top.node.owed = none ∧ top.node.shifted = none)
      top.checkClose frame.checkClose := by
  unfold Top.checkClose Frame.checkClose
  cases hpending : top.node.pending with
  | some target =>
    rw [h.pending.trans hpending]
    exact .error ⟨rfl, rfl⟩
  | none =>
    rw [h.pending.trans hpending]
    refine Agree.ite_iff ?_ (fun _ => .error ⟨rfl, rfl⟩) fun hnot => ?_
    · rw [h.owed, h.shifted, Option.isSome_map, Option.isSome_map]
    · simp only [Bool.or_eq_true, not_or, Option.not_isSome_iff_eq_none] at hnot
      exact .ok ⟨rfl, rfl, hnot.1, hnot.2⟩

theorem markExpression (target : Target) :
    top.Moves value outer (top.markExpression target) { frame with
      items := Frame.markReference frame.items target.position
        fun flags => { flags with expression := true } } where
  shows := { h with items := by rw [h.items, Content.itemsOf, Frame.map_markReference]; rfl }
  keeps := by
    refine .of_properties rfl rfl (.inl rfl) rfl ?_ (fun _ h => h) Steady.shifted
    exact (Frame.embeddedNodes_markReference ..).symm ▸ .refl _

theorem withdraw (target : Target) :
    top.Moves value outer (top.withdraw target) { frame with
      items := frame.items.take target.position
      scope := frame.scope.retract target.reference.name } where
  shows := { h with
    items := by simp [h.items, Content.itemsOf, Top.withdraw]
    scope := congrArg (Scope.retract · _) h.scope }
  keeps := by
    refine .of_properties rfl rfl (.inl rfl) rfl ?_ (fun _ h => h) Steady.shifted
    have : (top.content.items.take target.position).toList =
      top.content.items.toList.take target.position := by simp
    rw [Top.withdraw, this]
    exact (List.take_sublist _ _).filterMap _

theorem withLast : top.Moves value outer (top.withLast none) { frame with lastBound := none } where
  shows := { h with lastBound := rfl }
  keeps := .of_properties rfl rfl (.inl rfl) rfl (.refl _) (fun _ h => nomatch h) Steady.shifted

theorem takeOwed {id : Nat} (howed : top.node.owed = some id) :
    top.takeOwed.1 = some id ∧ top.Moves value outer top.takeOwed.2
      { frame with owed := none, held := some frame.items.size } := by
  rw [Top.takeOwed, howed]
  refine ⟨rfl, { h with owed := rfl, held := congrArg some h.size_items }, ?_⟩
  exact .of_properties rfl rfl (.inr rfl) rfl (.refl _) (fun _ h => h) Steady.shifted

theorem further (edge : Reference) (scope : Scope) :
    top.Moves value outer { top.push (.reference edge) with scope := scope }
      { frame.push (.reference edge) with scope := scope } where
  shows := { h.push (.reference edge) with scope := rfl }
  keeps := .of_properties rfl rfl (.inl rfl) rfl (embeddedNodes_push rfl)
    (fun _ h => h) Steady.shifted

theorem literal (text : String) :
    top.Moves value outer (top.push (.literal text)) (frame.push (.literal text)) where
  shows := h.push (.literal text)
  keeps := .of_properties rfl rfl (.inl rfl) rfl (embeddedNodes_push rfl)
    (fun _ h => h) Steady.shifted

end Shows

/-- The open cell after a value was bound to a target, for which an item stands already. -/
def attached (top : Top) (target : Target) (id : Nat) (hasGap : Bool) : Top :=
  { top with
    node := { top.node with lastBound := some target }
    content := top.content.attached target id hasGap }

/-- The open cell after a value was bound to a target and recorded as a gap. -/
def bind (top : Top) (target : Target) (id : Nat) (hasGap : Bool) : Top :=
  (top.push .gap).attached target id hasGap

theorem steady_attached (hready : top.content.Ready target)
    (hshifted : top.node.shifted = none) (id : Nat) (hasGap : Bool) :
    (top.attached target id hasGap).Steady := by
  constructor
  · rintro _ ⟨⟩
    exact Content.ready_attached hready id hasGap rfl rfl
  · intro last held hlast
    rw [show (top.attached target id hasGap).node.shifted = none from hshifted] at hlast
    cases hlast

/-- A new node shows a new frame. -/
theorem shows_fresh (value : Nat → Node) (outer : List OpenCell) (id : Nat)
    (destination : Option Target) (owed : Option Nat) (start : OpenTag)
    (inherited : Option String) :
    (Top.mk { id := id, destination := destination, owed := owed }
      { head := .opening start, label := start.label inherited } {}).Shows value outer {
        depth := outer.length + 1
        start := start
        label := start.label inherited
        destination := destination
        owed := owed.map value
        withinOwed := outer.any fun node => node.owed.isSome } where
  depth := rfl
  head := rfl
  label := rfl
  labelled := ⟨inherited, rfl⟩
  destination := rfl
  owed := rfl
  withinOwed := rfl
  items := by simp [Content.itemsOf]
  properties := rfl
  held := rfl
  scope := rfl
  pending := rfl
  lastBound := rfl
  shifts := rfl
  shifted := rfl

/-- An open cell binds a value as its frame does. -/
theorem Shows.bind (h : top.Shows value outer frame)
    (hready : top.content.Ready target) (id : Nat) :
    ∃ bound, frame.bind target (value id) = .ok bound ∧
      (top.bind target id (value id).hasGap).Shows value outer bound := by
  have hpush : (top.push .gap).Shows value outer (frame.push .gap) := h.push .gap
  have hstarted := h.hasArray target.reference.name
  refine ⟨_, Frame.bind_eq fun harray => hstarted.trans (hready harray),
    { hpush with items := ?_, properties := ?_, lastBound := rfl }⟩
  · show Frame.markReference (frame.push .gap).items target.position
      (fun _ => { target.reference.flags with hasGap := (value id).hasGap }) = _
    rw [hpush.items, Content.itemsOf, Frame.map_markReference]
    rfl
  · exact Frame.map_setProperty value hpush.properties target ⟨_, id⟩

/-- A node that is complete is what its cell denotes. -/
theorem Shows.denotes (h : top.Shows value outer frame) :
    (top.content.withGap frame.hasGap).Denotes value frame.toNode := by
  have hnode : frame.toNode = .element
      ((top.content.withGap frame.hasGap).toElement value (frame.start.marked frame.hasGap)) := by
    simp only [Frame.toNode, Frame.size, Content.toElement, h.label, h.items, h.properties, h.held]
    rfl
  rw [hnode]
  refine .element ?_ (h.labelled.withGap h.head _)
  rw [Content.withGap, h.head]
  rfl

/-- A node has a gap if one of its kids has. -/
theorem Shows.hasGap (h : top.Shows value outer frame) :
    frame.hasGap = top.content.kids.any fun kid => (value kid).hasGap := by
  rw [frame.hasGap_eq, h.properties, h.items, Content.propertiesOf, boundNodes_map,
    Content.itemsOf, Array.toList_map, embeddedNodes_map, ← List.map_append, List.any_map]
  rfl

end Top

end TagTree
