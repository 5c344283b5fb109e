import Mathlib.Data.List.Forall2
import TagTree.Proofs.Stop

/-!
# Slots and properties

The slots of a node and its properties tell the same story. `Node.Aligned` says what follows each
reference and each shift, which names have a property, and which binding belongs to which slot.
Every node of a tree that was built is aligned, unless it uses a name for an array and for a single
property too (`Tree.aligned_of_built`).
-/

namespace TagTree

open Segment (allItems width mentions_cons items)

variable {mention : Mention} {node : Node} {slot : Nat}

namespace Tag

/-- The tag is a reference to the given name. -/
def refersTo (name : String) : Tag → Bool
  | reference edge => edge.name == name
  | _ => false

/-- The tag is a gap. -/
def isGap : Tag → Bool
  | gap => true
  | _ => false

/-- The tag starts an array. -/
def isArrayStart : Tag → Bool
  | arrayStart => true
  | _ => false

/-- The slots of the references to a name whose next tag passes the test. The first of the tags has
the given slot. -/
def slotsOf (name : String) (next : Tag → Bool) (slot : Nat) : List Tag → List Nat
  | [] => []
  | tag :: rest =>
    if tag.refersTo name && rest.head?.any next then slot :: slotsOf name next (slot + 1) rest
    else slotsOf name next (slot + 1) rest

end Tag

namespace Node

/-- The slots of the references to a name that have a value. -/
def valueSlots (node : Node) (name : String) : List Nat :=
  Tag.slotsOf name Tag.isGap 0 node.slots

/-- The slots of the references to a name that start an array. -/
def startSlots (node : Node) (name : String) : List Nat :=
  Tag.slotsOf name Tag.isArrayStart 0 node.slots

/-- The slot has the reference of the binding, with all its marks, and the gap after it leads to the
binding. -/
def Records (node : Node) (slot : Nat) (binding : Binding Node) : Prop :=
  node.slots[slot]? = some (.reference binding.reference) ∧ node.bindingAt (slot + 1) = .ok binding

/-- The name is that of a single property: one reference has a value, and the property is bound to
what that reference records. -/
def IsSingle (node : Node) (name : String) : Prop :=
  ∃ slot binding, node.valueSlots name = [slot] ∧ node.startSlots name = [] ∧
    node.property? name = some (.single binding) ∧ node.Records slot binding

/-- The name is that of an array: it is started once, before the first element, and the references
that have a value record the bindings of the array one by one. -/
def IsArray (node : Node) (name : String) : Prop :=
  ∃ start bindings, node.startSlots name = [start] ∧ (∀ slot ∈ node.valueSlots name, start < slot) ∧
    node.property? name = some (.array bindings) ∧
    List.Forall₂ node.Records (node.valueSlots name) bindings.toList

/-- The slots of a node agree with its properties. -/
structure Aligned (node : Node) : Prop where
  /-- The opening tag comes first and the closing tag last. -/
  ends : ∃ start tags, node.slots = .opening start :: (tags ++ [.closing]) ∧
    ∀ tag ∈ tags, (∀ other, tag ≠ .opening other) ∧ tag ≠ .closing
  /-- A reserved reference is followed by an embedded node, any other by a gap or the start of an
  array. -/
  reference : ∀ (slot : Nat) (edge : Reference), node.slots[slot]? = some (.reference edge) →
    if edge.isReserved then node.slots[slot + 1]? = some .embedded
    else node.slots[slot + 1]? = some .gap ∨ node.slots[slot + 1]? = some .arrayStart
  /-- A shift is followed by a gap. Its reference stands twice its index before it, with a gap and
  all earlier shifts in between. -/
  shift : ∀ (slot index : Nat), node.slots[slot]? = some (.shift index) →
    node.slots[slot + 1]? = some .gap ∧ ∃ first edge, slot = first + 2 * index ∧
      node.slots[first]? = some (.reference edge) ∧ node.slots[first + 1]? = some .gap ∧
      ∀ earlier, 0 < earlier → earlier < index →
        node.slots[first + 2 * earlier]? = some (.shift earlier)
  /-- The names of the properties are those that are referred to, apart from the reserved ones, each
  once. -/
  keys_nodup : (Entries.keys node.properties).Nodup
  mem_keys : ∀ name, name ∈ Entries.keys node.properties ↔
    ∃ edge, .reference edge ∈ node.slots ∧ edge.isReserved = false ∧ edge.name = name
  /-- A name that is referred to is that of a single property or of an array. -/
  single : ∀ edge, .reference edge ∈ node.slots → edge.isReserved = false →
    edge.isArray = false → node.IsSingle edge.name
  array : ∀ edge, .reference edge ∈ node.slots → edge.isReserved = false →
    edge.isArray = true → node.IsArray edge.name

/-- The node is the other one or is bound or embedded somewhere beneath it. -/
inductive Beneath (root : Node) : Node → Prop where
  | self : Beneath root root
  | bound {node : Node} {name : String} {property : Property Node} {binding : Binding Node}
    (h : Beneath root node) (hp : (name, property) ∈ node.properties)
    (hb : binding ∈ property.bindings) : Beneath root binding.node
  | embedded {node inner : Node} (h : Beneath root node)
    (hmem : .embedded inner ∈ node.items.toList) : Beneath root inner

end Node

namespace Mention

variable {earlier mentions : List Mention} {name : String}

/-- A single property is not given a value again. -/
theorem taken_eq_false_of_taken (ho : Orderly earlier mentions) (h : taken earlier name = true) :
    taken mentions name = false := by
  rw [taken, List.any_eq_false]
  intro mention hmem hsingle
  obtain ⟨between, hadm⟩ := ho.exists_admissible hmem
  cases mention with
  | arrayStart edge => cases hsingle
  | value edge =>
    obtain ⟨ha, rfl⟩ : edge.isArray = false ∧ edge.name = name := by
      simpa [isSingle] using hsingle
    have hfree := hadm.1.resolve_left (by simp [hadm.2.1])
    simp [ha, h] at hfree

/-- No array is started once its name was mentioned. -/
theorem started_eq_false_of_named (ho : Orderly earlier mentions) (h : named earlier name = true) :
    started mentions name = false := by
  rw [started, List.any_eq_false]
  intro mention hmem hstarts
  obtain ⟨between, hadm⟩ := ho.exists_admissible hmem
  cases mention with
  | value edge => cases hstarts
  | arrayStart edge =>
    obtain rfl : edge.name = name := by simpa [starts] using hstarts
    have hfree : named (earlier ++ between) edge.name = false := hadm.2.2.2
    simp [h] at hfree

end Mention

namespace Segment

variable {ν : Type}

/-- The segment starts with a reference to the name, and what comes next passes the test. -/
def begins (name : String) (next : Tag → Bool) : Segment ν → Bool
  | content _ => false
  | embedded edge _ => edge.any (fun edge => edge.name == name) && next .embedded
  | arrayStart edge => edge.name == name && next .arrayStart
  | value edge _ _ => edge.name == name && next .gap

/-- The slots at which the segments start that pass a test. The first item has the given slot. -/
def starts (test : Segment ν → Bool) (slot : Nat) : List (Segment ν) → List Nat
  | [] => []
  | segment :: rest =>
    (if test segment then [slot] else []) ++ starts test (slot + segment.items.length) rest

/-- The tags of all items, and the closing tag. -/
def innerTags (segments : List (Segment ν)) : List Tag :=
  (allItems segments).map Item.toTag ++ [.closing]

theorem innerTags_cons (segment : Segment ν) (rest : List (Segment ν)) :
    innerTags (segment :: rest) = segment.items.map Item.toTag ++ innerTags rest := by
  simp [innerTags]

section Starts

variable {test : Segment ν → Bool} {segments : List (Segment ν)} {found : Nat}

theorem starts_append (slot : Nat) (first second : List (Segment ν)) :
    starts test slot (first ++ second) =
      starts test slot first ++ starts test (slot + width first) second := by
  induction first generalizing slot with
  | nil => simp [starts]
  | cons segment rest ih =>
    rw [List.cons_append, starts, ih, starts, width_cons, ← Nat.add_assoc, List.append_assoc]

theorem mem_starts :
    found ∈ starts test slot segments ↔ ∃ before segment after,
      segments = before ++ segment :: after ∧ test segment = true ∧
        found = slot + width before := by
  induction segments generalizing slot with
  | nil => simp [starts]
  | cons segment rest ih =>
    rw [starts, List.mem_append, ih]
    constructor
    · rintro (h | ⟨before, inner, after, rfl, htest, rfl⟩)
      · split at h
        · rename_i htest
          exact ⟨[], segment, rest, rfl, htest, List.mem_singleton.mp h⟩
        · cases h
      · exact ⟨segment :: before, inner, after, rfl, htest, by simp [Nat.add_assoc]⟩
    · rintro ⟨before, inner, after, hsegments, htest, rfl⟩
      cases before with
      | nil =>
        obtain ⟨rfl, rfl⟩ := List.cons.inj hsegments
        exact .inl (by simp [htest])
      | cons first before =>
        obtain ⟨rfl, rfl⟩ := List.cons.inj hsegments
        exact .inr ⟨before, inner, after, rfl, htest, by simp [Nat.add_assoc]⟩

theorem starts_eq_nil (slot : Nat) (h : ∀ segment ∈ segments, test segment = false) :
    starts test slot segments = [] := by
  refine List.eq_nil_iff_forall_not_mem.mpr fun found hmem => ?_
  obtain ⟨before, segment, after, rfl, htest, -⟩ := mem_starts.mp hmem
  exact absurd htest (Bool.eq_false_iff.mp (h segment List.mem_append_cons_self))

end Starts

section SlotsOf

variable {name : String} {next : Tag → Bool}

/-- The tags of shifts have no reference. -/
theorem tag_slotsOf_shiftItems (slot first count : Nat) (rest : List Tag) :
    Tag.slotsOf name next slot ((shiftItems (ν := ν) first count).map Item.toTag ++ rest) =
      Tag.slotsOf name next (slot + 2 * count) rest := by
  induction count generalizing slot first with
  | zero => rfl
  | succ count ih =>
    have hslot : slot + 2 * (count + 1) = slot + 1 + 1 + 2 * count := by omega
    rw [hslot, ← ih (slot + 1 + 1) (first + 1)]
    rfl

/-- A reference stands at the start of a segment. -/
theorem tag_slotsOf_items (segment : Segment ν) (slot : Nat) (rest : List Tag) :
    Tag.slotsOf name next slot (segment.items.map Item.toTag ++ rest) =
      (if segment.begins name next then [slot] else []) ++
        Tag.slotsOf name next (slot + segment.items.length) rest := by
  cases segment with
  | content text => rfl
  | embedded edge node =>
    cases edge with
    | none => rfl
    | some edge =>
      by_cases h : (edge.name == name && next .embedded) = true <;>
        simp [items, begins, Item.toTag, Tag.slotsOf, Tag.refersTo, h]
  | arrayStart edge =>
    by_cases h : (edge.name == name && next .arrayStart) = true <;>
      simp [items, begins, Item.toTag, Tag.slotsOf, Tag.refersTo, h]
  | value edge node shifts =>
    rw [length_items_value, ← Nat.add_assoc,
      ← tag_slotsOf_shiftItems (ν := ν) (slot + 2) 1 shifts rest]
    by_cases h : (edge.name == name && next .gap) = true <;>
      simp [items, begins, Item.toTag, Tag.slotsOf, Tag.refersTo, h]

theorem tag_slotsOf_innerTags (segments : List (Segment ν)) (slot : Nat) :
    Tag.slotsOf name next slot (innerTags segments) = starts (begins name next) slot segments := by
  induction segments generalizing slot with
  | nil => rfl
  | cons segment rest ih => rw [innerTags_cons, tag_slotsOf_items, ih, starts]

end SlotsOf

section Named

variable {segments : List (Segment ν)} {segment : Segment ν} {name : String} {next : Tag → Bool}

/-- No segment begins with a name that is not mentioned. -/
theorem begins_eq_false_of_named (h : Mention.named (mentions segments) name = false)
    (hnext : next .embedded = false) (hmem : segment ∈ segments) :
    segment.begins name next = false := by
  have hname : ∀ mention, segment.mention? = some mention → mention.edge.name ≠ name := by
    intro mention hmention heq
    have hother := List.any_eq_false.mp h mention (List.mem_filterMap.mpr ⟨segment, hmem, hmention⟩)
    exact hother (beq_iff_eq.mpr heq)
  cases segment with
  | content text => rfl
  | embedded edge node => rw [begins, hnext, Bool.and_false]
  | arrayStart edge =>
    have hne : edge.name ≠ name := hname _ rfl
    rw [begins, beq_false_of_ne hne, Bool.false_and]
  | value edge node shifts =>
    have hne : edge.name ≠ name := hname _ rfl
    rw [begins, beq_false_of_ne hne, Bool.false_and]

/-- No segment begins the array of a name that is not started. -/
theorem begins_eq_false_of_started (h : Mention.started (mentions segments) name = false)
    (hmem : segment ∈ segments) : segment.begins name Tag.isArrayStart = false := by
  cases segment with
  | content text => rfl
  | embedded edge node => exact Bool.and_false _
  | value edge node shifts => exact Bool.and_false _
  | arrayStart edge =>
    have hother := List.any_eq_false.mp h (.arrayStart (edge.marked false))
      (List.mem_filterMap.mpr ⟨_, hmem, rfl⟩)
    rw [begins, Bool.and_eq_false_iff]
    exact .inl (Bool.eq_false_iff.mpr hother)

/-- The binding that a segment gives to a name. -/
def binding? (name : String) : Segment ν → Option (Binding ν)
  | value edge node _ => if edge.name = name then some ⟨edge, node⟩ else none
  | _ => none

theorem begins_isGap (name : String) (segment : Segment ν) :
    segment.begins name Tag.isGap = (segment.binding? name).isSome := by
  cases segment with
  | value edge node shifts =>
    by_cases hname : edge.name = name <;> simp [begins, binding?, Tag.isGap, hname]
  | _ => simp [begins, binding?, Tag.isGap]

/-- If all mentions of a name are of one kind, its values are those of that kind. -/
theorem filterMap_binding? {isArray : Bool} (h : ∀ mention ∈ mentions segments,
      mention.edge.name = name → mention.edge.isArray = isArray) :
    segments.filterMap (binding? name) =
      if isArray then elementsOf segments name else singlesOf segments name := by
  rw [elementsOf, singlesOf, ← apply_ite (List.filterMap · segments)]
  refine List.filterMap_congr fun segment hmem => ?_
  cases segment with
  | value edge node shifts =>
    have hkind := h (.value (edge.marked false)) (List.mem_filterMap.mpr ⟨_, hmem, rfl⟩)
    by_cases hname : edge.name = name
    · obtain rfl : edge.isArray = isArray := hkind hname
      cases ha : edge.isArray <;> simp [binding?, element?, single?, hname, ha]
    · cases isArray <;> simp [binding?, element?, single?, hname]
  | _ => cases isArray <;> rfl

/-- No name has two properties. -/
theorem nodup_keys_properties (segments : List (Segment ν)) :
    (Entries.keys (properties segments)).Nodup := by
  have hstep : ∀ (entries : Entries (Property ν)) (segment : Segment ν),
      entries.keys.Nodup → (segment.addTo entries).keys.Nodup := by
    intro entries segment h
    cases segment with
    | content | embedded => exact h
    | arrayStart edge => exact Entries.nodup_keys_insert h
    | value edge node shifts =>
      show (bindTo edge node entries).keys.Nodup
      unfold bindTo
      split
      · split
        · exact Entries.nodup_keys_insert h
        · exact h
      · exact Entries.nodup_keys_insert h
  have hfold : ∀ (rest : List (Segment ν)) (entries : Entries (Property ν)),
      entries.keys.Nodup → (rest.foldl addTo entries).keys.Nodup := by
    intro rest
    induction rest with
    | nil => exact fun _ h => h
    | cons segment rest ih => exact fun entries h => ih _ (hstep entries segment h)
  exact hfold segments [] List.nodup_nil

end Named

end Segment

namespace Outline

variable {outline : Outline} {edge : Reference}

theorem slots_toNode (outline : Outline) :
    outline.toNode.slots = .opening outline.startTag :: Segment.innerTags outline.segments := rfl

theorem getElem?_slots_toNode {position : Nat} {item : Item Node}
    (h : (allItems outline.segments)[position]? = some item) :
    outline.toNode.slots[position + 1]? = some item.toTag := by
  have hlt : position < ((allItems outline.segments).map Item.toTag).length := by
    rw [List.length_map]
    exact (List.getElem?_eq_some_iff.mp h).1
  rw [slots_toNode, List.getElem?_cons_succ, Segment.innerTags, List.getElem?_append_left hlt,
    List.getElem?_map, h]
  rfl

/-- A tag of a node between its opening and its closing tag belongs to a segment. -/
theorem exists_of_getElem?_slots {tag : Tag}
    (h : outline.toNode.slots[slot]? = some tag) (ho : ∀ start, tag ≠ .opening start)
    (hc : tag ≠ .closing) :
    ∃ before segment after place item, outline.segments = before ++ segment :: after ∧
      slot = width before + place + 1 ∧ segment.ItemAt place item ∧ item.toTag = tag := by
  rw [slots_toNode] at h
  cases slot with
  | zero => exact absurd (Option.some.inj h).symm (ho _)
  | succ position =>
    rw [List.getElem?_cons_succ, Segment.innerTags] at h
    have hlt : position < width outline.segments := by
      refine Nat.lt_of_not_le fun hle => ?_
      rw [List.getElem?_append_right (by rwa [List.length_map])] at h
      exact hc (List.mem_singleton.mp (List.mem_of_getElem? h))
    rw [List.getElem?_append_left (by rwa [List.length_map]), List.getElem?_map] at h
    obtain ⟨item, hitem, htag⟩ := Option.map_eq_some_iff.mp h
    obtain ⟨before, segment, after, place, hs, rfl, -, hat⟩ := Segment.exists_itemAt hitem
    exact ⟨before, segment, after, place, item, hs, rfl, hat, htag⟩

/-- What follows a tag within its segment follows it in the node. -/
theorem getElem?_slots_of_segment {before after : List (Segment Node)} {segment : Segment Node}
    (hs : outline.segments = before ++ segment :: after) (place : Nat) {item : Item Node}
    (h : segment.items[place]? = some item) :
    outline.toNode.slots[width before + place + 1]? = some item.toTag := by
  refine getElem?_slots_toNode ?_
  rw [hs, Segment.getElem?_allItems before after (List.getElem?_eq_some_iff.mp h).1, h]

/-- A value records its binding. -/
theorem records_of_value (hl : outline.Laid)
    (hu : Mention.Unmixed (Segment.mentions outline.segments)) {before after : List (Segment Node)}
    {shifts : Nat} (hs : outline.segments = before ++ .value edge node shifts :: after) :
    outline.toNode.Records (width before + 1) ⟨edge, node⟩ := by
  refine ⟨getElem?_slots_of_segment hs 0 rfl, ?_⟩
  have hat := Segment.bindingAt_of_value (hs ▸ hl.orderly) (hs ▸ hu) (Nat.zero_le shifts)
  rw [← hs] at hat
  exact hat

/-- Values record the bindings that are picked from them. -/
theorem forall₂_records (hl : outline.Laid)
    (hu : Mention.Unmixed (Segment.mentions outline.segments))
    {pick : Segment Node → Option (Binding Node)} (hp : ∀ segment binding,
      pick segment = some binding → ∃ shifts, segment =
        .value binding.reference binding.node shifts)
    (before after : List (Segment Node)) (hs : outline.segments = before ++ after) :
    List.Forall₂ outline.toNode.Records
      (Segment.starts (fun segment => (pick segment).isSome) (width before + 1) after)
      (after.filterMap pick) := by
  -- one segment moves from the front of `after` to the end of `before`
  induction after generalizing before with
  | nil => exact .nil
  | cons segment after ih =>
    have hrest := ih (before ++ [segment]) (by rw [hs, List.append_assoc, List.singleton_append])
    rw [Segment.width_concat, Nat.add_right_comm] at hrest
    rw [Segment.starts, List.filterMap_cons]
    cases hpick : pick segment with
    | none => exact hrest
    | some binding =>
      obtain ⟨shifts, rfl⟩ := hp segment binding hpick
      exact .cons (records_of_value hl hu hs) hrest

/-- A reference of a node begins a segment: an embedded node if it is reserved, or else an array or
a value. -/
theorem segment_of_reference (h : outline.toNode.slots[slot]? = some (.reference edge)) :
    ∃ before segment after, outline.segments = before ++ segment :: after ∧
      slot = width before + 1 ∧
      ((∃ node, segment = .embedded (some edge) node) ∨ segment = .arrayStart edge ∨
        ∃ node shifts, segment = .value edge node shifts) := by
  obtain ⟨before, segment, after, place, item, hs, rfl, hat, htag⟩ :=
    exists_of_getElem?_slots h (by simp) (by simp)
  -- a reference is the first item of its segment
  refine ⟨before, segment, after, hs, ?_⟩
  cases hat <;> cases htag
  case mark node => exact ⟨rfl, .inl ⟨node, rfl⟩⟩
  case start => exact ⟨rfl, .inr (.inl rfl)⟩
  case reference node shifts => exact ⟨rfl, .inr (.inr ⟨node, shifts, rfl⟩)⟩

/-- A shift of a node is one of a value. -/
theorem segment_of_shift {index : Nat} (h : outline.toNode.slots[slot]? = some (.shift index)) :
    ∃ before edge node shifts after count,
      outline.segments = before ++ .value edge node shifts :: after ∧ count < shifts ∧
      index = 1 + count ∧ slot = width before + (2 + 2 * count) + 1 := by
  obtain ⟨before, segment, after, place, item, hs, rfl, hat, htag⟩ :=
    exists_of_getElem?_slots h (by simp) (by simp)
  cases hat <;> cases htag
  case shift edge node shifts count hcount =>
    exact ⟨before, edge, node, shifts, after, count, hs, hcount, rfl, rfl⟩

/-- A reference of a node that is not reserved is mentioned. -/
theorem exists_mention (hl : outline.Laid)
    (hmem : .reference edge ∈ outline.toNode.slots) (hr : edge.isReserved = false) :
    ∃ mention ∈ Segment.mentions outline.segments, mention.edge = edge.marked false := by
  obtain ⟨slot, hslot⟩ := List.mem_iff_getElem?.mp hmem
  obtain ⟨before, segment, after, hs, -, hsegment⟩ := segment_of_reference hslot
  have hsegments : segment ∈ outline.segments := by
    rw [hs]
    exact List.mem_append_cons_self
  rcases hsegment with ⟨node, rfl⟩ | rfl | ⟨node, shifts, rfl⟩
  · have hreserved : edge.isReserved = true := (hl.plain _ hsegments edge rfl).1
    rw [hr] at hreserved
    cases hreserved
  · exact ⟨_, List.mem_filterMap.mpr ⟨_, hsegments, rfl⟩, rfl⟩
  · exact ⟨_, List.mem_filterMap.mpr ⟨_, hsegments, rfl⟩, rfl⟩

theorem valueSlots_toNode (outline : Outline) (name : String) :
    outline.toNode.valueSlots name =
      Segment.starts (Segment.begins name Tag.isGap) 1 outline.segments :=
  Segment.tag_slotsOf_innerTags outline.segments 1

theorem startSlots_toNode (outline : Outline) (name : String) :
    outline.toNode.startSlots name =
      Segment.starts (Segment.begins name Tag.isArrayStart) 1 outline.segments :=
  Segment.tag_slotsOf_innerTags outline.segments 1

theorem mem_items_of_mem_references (h : edge ∈ node.references) :
    .reference edge ∈ node.items.toList ∧ edge.isReserved = false := by
  obtain ⟨item, hmem, hitem⟩ := List.mem_filterMap.mp h
  cases item with
  | reference found =>
    cases hr : found.isReserved with
    | true => simp [hr] at hitem
    | false =>
      obtain rfl : found = edge := by simpa [hr] using hitem
      exact ⟨hmem, hr⟩
  | _ => cases hitem

variable (hl : outline.Laid) (hu : Mention.Unmixed (Segment.mentions outline.segments))
include hl hu

theorem forall₂_valueSlots (name : String) :
    List.Forall₂ outline.toNode.Records (outline.toNode.valueSlots name)
      (outline.segments.filterMap (Segment.binding? name)) := by
  rw [valueSlots_toNode, funext (Segment.begins_isGap name)]
  refine forall₂_records hl hu (fun segment binding h => ?_) [] outline.segments rfl
  cases segment with
  | value edge node shifts =>
    obtain ⟨-, ⟨⟩⟩ := Option.ite_none_right_eq_some.mp h
    exact ⟨shifts, rfl⟩
  | _ => cases h

/-- A name that is used for a single property has one value, which is bound to it. -/
theorem isSingle_of_mention
    (hmem : mention ∈ Segment.mentions outline.segments) (ha : mention.edge.isArray = false) :
    outline.toNode.IsSingle mention.edge.name := by
  obtain ⟨segment, hsegment, hmention⟩ := List.mem_filterMap.mp hmem
  obtain ⟨before, after, hs⟩ := List.append_of_mem hsegment
  have ho := hl.orderly
  have hadm : mention.Admissible (Segment.mentions before) ∧
      Mention.Orderly (Segment.mentions before ++ [mention]) (Segment.mentions after) := by
    rw [hs, Segment.mentions_append, mentions_cons, hmention] at ho
    exact (Mention.orderly_append.mp ho).2
  have hsingles : ∀ other ∈ Segment.mentions outline.segments,
      other.edge.name = mention.edge.name → other.edge.isArray = false :=
    fun other hother hname => (hu other hother mention hmem hname).trans ha
  cases segment with
  | content | embedded => cases hmention
  | arrayStart edge =>
    -- only an array is started
    obtain rfl := Option.some.inj hmention
    have harray : edge.isArray = true := hadm.1.2.2.1
    exact absurd harray (Bool.eq_false_iff.mp ha)
  | value edge node shifts =>
    obtain rfl := Option.some.inj hmention
    have ha : edge.isArray = false := ha
    have hbefore : Segment.singlesOf before edge.name = [] := by
      refine Segment.singlesOf_eq_nil ?_
      have hr := hadm.1.1.resolve_left (Bool.eq_false_iff.mp hadm.1.2.1)
      simpa [ha] using hr
    have hafter : Segment.singlesOf after edge.name = [] :=
      Segment.singlesOf_eq_nil (Mention.taken_eq_false_of_taken hadm.2 (by simp [ha]))
    have hbindings : outline.segments.filterMap (Segment.binding? edge.name) = [⟨edge, node⟩] := by
      refine (Segment.filterMap_binding? hsingles).trans ?_
      show Segment.singlesOf outline.segments edge.name = _
      rw [hs, ← List.singleton_append, Segment.singlesOf_append, Segment.singlesOf_append, hbefore,
        hafter, Segment.singlesOf_singleton]
      simp [Segment.single?, ha]
    have hrecords := forall₂_valueSlots hl hu edge.name
    rw [hbindings, List.forall₂_cons_right_iff] at hrecords
    obtain ⟨slot, rest, hrecord, hrest, hslots⟩ := hrecords
    obtain rfl := List.forall₂_nil_right_iff.mp hrest
    refine ⟨slot, ⟨edge, node⟩, hslots, ?_, ?_, hrecord⟩
    · rw [startSlots_toNode]
      exact Segment.starts_eq_nil 1 fun segment hsegment =>
        Segment.begins_eq_false_of_started (Mention.started_eq_false_of_single ho hsingles) hsegment
    · have hget := (Segment.get?_properties_of_single (hs ▸ ho) ha).1
      rw [← hs] at hget
      exact hget

/-- A name that is used for an array has its start before all values, which are the elements. -/
theorem isArray_of_mention
    (hmem : mention ∈ Segment.mentions outline.segments) (ha : mention.edge.isArray = true) :
    outline.toNode.IsArray mention.edge.name := by
  have ho := hl.orderly
  have htaken := Mention.taken_eq_false_of_array hu hmem ha
  have hstarted : Mention.started (Segment.mentions outline.segments) mention.edge.name = true := by
    have hnamed := Mention.named_eq mention.edge.name rfl ho
    rw [List.nil_append, htaken, Bool.or_false] at hnamed
    rw [← hnamed]
    exact List.any_eq_true.mpr ⟨mention, hmem, beq_self_eq_true _⟩
  -- Some mention has started the array, and it is the first one of the name.
  obtain ⟨start, hstart, hstarts⟩ := List.any_eq_true.mp hstarted
  obtain ⟨segment, hsegment, hsmention⟩ := List.mem_filterMap.mp hstart
  obtain ⟨before, after, hs⟩ := List.append_of_mem hsegment
  cases segment with
  | content | embedded => cases hsmention
  | value edge node shifts =>
    obtain rfl := Option.some.inj hsmention
    cases hstarts
  | arrayStart edge =>
    obtain rfl := Option.some.inj hsmention
    have hname : edge.name = mention.edge.name := beq_iff_eq.mp hstarts
    rw [← hname] at htaken hstarted ⊢
    obtain ⟨hadm, hafter⟩ : (Mention.arrayStart (edge.marked false)).Admissible
        (Segment.mentions before) ∧ Mention.Orderly (Segment.mentions before ++
          [.arrayStart (edge.marked false)]) (Segment.mentions after) := by
      rw [hs, Segment.mentions_append, mentions_cons] at ho
      exact (Mention.orderly_append.mp ho).2
    have hfresh : Mention.named (Segment.mentions before) edge.name = false := hadm.2.2.2
    have hagain : Mention.started (Segment.mentions after) edge.name = false :=
      Mention.started_eq_false_of_named hafter (by simp)
    have harrays : ∀ other ∈ Segment.mentions outline.segments,
        other.edge.name = edge.name → other.edge.isArray = true :=
      fun other hother hsame => (hu other hother mention hmem (hsame.trans hname)).trans ha
    have hnone : ∀ next : Tag → Bool, next .embedded = false →
        Segment.starts (Segment.begins edge.name next) 1 before = [] := fun next hnext =>
      Segment.starts_eq_nil 1 fun segment hsegment =>
        Segment.begins_eq_false_of_named hfresh hnext hsegment
    refine ⟨1 + width before,
      (Segment.elementsOf outline.segments edge.name).toArray, ?_, ?_, ?_, ?_⟩
    · rw [startSlots_toNode, hs, Segment.starts_append, hnone _ rfl, Segment.starts,
        Segment.starts_eq_nil _ fun segment hsegment =>
          Segment.begins_eq_false_of_started hagain hsegment]
      simp [Segment.begins, Tag.isArrayStart]
    · intro slot hslot
      have hstart : (Segment.arrayStart edge : Segment Node).begins edge.name Tag.isGap = false :=
        Bool.and_false _
      rw [valueSlots_toNode, hs, Segment.starts_append, hnone _ rfl, Segment.starts,
        hstart] at hslot
      obtain ⟨-, -, -, -, -, rfl⟩ := Segment.mem_starts.mp hslot
      simp only [items, List.length_cons]
      omega
    · show Entries.get? edge.name (Segment.properties outline.segments) = _
      rw [Segment.get?_properties ho, Segment.propertyOf, Segment.singlesOf_eq_nil htaken]
      simp [hstarted]
    · have hrecords := forall₂_valueSlots hl hu edge.name
      rwa [Segment.filterMap_binding? harrays] at hrecords

/-- A node that is made of orderly segments, and mixes no name, is aligned. -/
theorem aligned_toNode : outline.toNode.Aligned where
  ends := by
    refine ⟨outline.startTag, (allItems outline.segments).map Item.toTag, rfl, ?_⟩
    intro tag hmem
    obtain ⟨item, -, rfl⟩ := List.mem_map.mp hmem
    cases item <;> simp [Item.toTag]
  reference slot edge h := by
    obtain ⟨before, segment, after, hs, rfl, hsegment⟩ := segment_of_reference h
    have hnext : ∀ item, segment.items[1]? = some item →
        outline.toNode.slots[width before + 1 + 1]? = some item.toTag :=
      fun item hitem => getElem?_slots_of_segment hs 1 hitem
    have hmem : segment ∈ outline.segments := by
      rw [hs]
      exact List.mem_append_cons_self
    rcases hsegment with ⟨node, rfl⟩ | rfl | ⟨node, shifts, rfl⟩
    · rw [if_pos (hl.plain _ hmem edge rfl).1]
      exact hnext _ rfl
    · have hr : edge.isReserved = false := Mention.isReserved_of_orderly hl.orderly
        (List.mem_filterMap.mpr ⟨_, hmem, rfl⟩)
      rw [hr]
      exact .inr (hnext _ rfl)
    · have hr : edge.isReserved = false := Mention.isReserved_of_orderly hl.orderly
        (List.mem_filterMap.mpr ⟨_, hmem, rfl⟩)
      rw [hr]
      exact .inl (hnext _ rfl)
  shift slot index h := by
    -- The shifts of a value stand in one segment, so those before this one have the lower indexes.
    obtain ⟨before, edge, node, shifts, after, count, hs, hcount, rfl, rfl⟩ := segment_of_shift h
    have hgap := Segment.getElem?_gap before after edge node (Nat.succ_le_of_lt hcount)
    have hplace : width before + (1 + 2 * (count + 1)) =
        width before + (2 + 2 * count) + 1 := by omega
    rw [← hs, hplace] at hgap
    refine ⟨getElem?_slots_toNode hgap, width before + 1, edge, by omega,
      getElem?_slots_of_segment hs 0 rfl, getElem?_slots_of_segment hs 1 rfl,
      ?_⟩
    intro earlier hpos hlt
    obtain ⟨earlier, rfl⟩ := Nat.exists_eq_succ_of_ne_zero (Nat.ne_of_gt hpos)
    have hshift := Segment.getElem?_shift before after edge node (by omega : earlier < shifts)
    have hslot : width before + 1 + 2 * (earlier + 1) =
        width before + (2 + 2 * earlier) + 1 := by omega
    rw [← hs, Nat.add_comm 1 earlier] at hshift
    rw [Nat.succ_eq_add_one, hslot]
    exact getElem?_slots_toNode hshift
  keys_nodup := Segment.nodup_keys_properties outline.segments
  mem_keys name := by
    show name ∈ Entries.keys (Segment.properties outline.segments) ↔ _
    rw [Entries.mem_keys_iff, Segment.isSome_get?_properties hl.orderly]
    refine ⟨fun h => ?_, ?_⟩
    · obtain ⟨mention, hmem, hname⟩ := List.any_eq_true.mp h
      obtain ⟨edge, hedge, hsame, -⟩ := mem_references hl.orderly hmem
      obtain ⟨hitem, hr⟩ := mem_items_of_mem_references hedge
      refine ⟨edge, ?_, hr, hsame.trans (beq_iff_eq.mp hname)⟩
      rw [slots_toNode]
      refine List.mem_cons_of_mem _ (List.mem_append_left _ ?_)
      exact List.mem_map.mpr ⟨_, hitem, rfl⟩
    · rintro ⟨edge, hmem, hr, rfl⟩
      obtain ⟨mention, hmention, hedge⟩ := exists_mention hl hmem hr
      refine List.any_eq_true.mpr ⟨mention, hmention, ?_⟩
      rw [hedge]
      exact beq_self_eq_true _
  single edge hmem hr ha := by
    obtain ⟨mention, hmention, hedge⟩ := exists_mention hl hmem hr
    have hsingle := isSingle_of_mention hl hu hmention (by rw [hedge]; exact ha)
    rw [hedge] at hsingle
    exact hsingle
  array edge hmem hr ha := by
    obtain ⟨mention, hmention, hedge⟩ := exists_mention hl hmem hr
    have harray := isArray_of_mention hl hu hmention (by rw [hedge]; exact ha)
    rw [hedge] at harray
    exact harray

end Outline

/-- What is beneath a sound node is sound. -/
theorem Node.Beneath.sound {root : Node} (h : root.Beneath node) (hroot : root.Sound 0) :
    node.Sound 0 := by
  induction h with
  | self => exact hroot
  | bound _ hp hb ih =>
    exact ih.of_mem_kids (List.mem_append_left _
      (List.mem_flatMap.mpr ⟨_, hp, List.mem_map_of_mem hb⟩))
  | embedded _ hmem ih =>
    exact ih.of_mem_kids (List.mem_append_right _ (List.mem_filterMap.mpr ⟨_, hmem, rfl⟩))

namespace Tree

/-- In a tree that was built, from tags alone or from templates, every node that is no stub and uses
no name for an array and for a single property too has slots that agree with its properties. -/
theorem aligned_of_built {tree : Tree} {node : Node} (h : tree.Built) (hn : tree.root.Beneath node)
    (hstub : node.isStub = false) (hu : node.isUnmixed = true) : node.Aligned := by
  obtain ⟨outline, rfl, hl, -, hu⟩ := (hn.sound h.sound).exists_unmixed hstub hu
  exact Outline.aligned_toNode hl hu

/-- An array, a value that is shifted, and a single property, with one node given for a gap. -/
def alignedTags : List Tag :=
  let start (name : String) : Tag := .opening ⟨{}, none, some name, []⟩
  let left : Tag := .reference ⟨"left", false, none, {}⟩
  let part : Tag := .reference ⟨"parts", true, none, {}⟩
  [start "Sum", part, .arrayStart, part, .gap, part, .literal "1", .shift 1, start "Sum", left,
    .gap, .closing, left, .null, .closing]

theorem aligned_of_template :
    ∃ inner tree, ofTags alignedTags = .ok inner ∧
      ofTemplate alignedTags [some inner] = .ok tree ∧ tree.root.isUnmixed = true ∧
      tree.root.Aligned := by
  obtain ⟨inner, tree, hinner, htree, hbuilt, hstub, hu⟩ := exists_built alignedTags alignedTags
    (fun tree => tree.root.isStub = false ∧ tree.root.isUnmixed = true) (by decide +kernel)
  exact ⟨inner, tree, hinner, htree, hu, aligned_of_built hbuilt .self hstub hu⟩

end Tree

end TagTree
