import TagTree.Node.Lookup
import TagTree.Proofs.Mention

/-!
# Segments

The items of a node fall into segments: a text of its content, an embedded node with the reserved
reference before it, the start of an array, or a value with all its shifts. Items and properties of
the node both follow from its segments. If the references are orderly, a name is bound to what the
segments say (`get?_properties`).
-/

namespace TagTree

open Mention (started taken named Startable taken_eq_false Bindable Orderly orderly_append indexOf
  Unmixed)

/-- What the first member gives, if anything, comes before what the rest gives. -/
theorem filterMap_cons_eq {α β : Type} (f : α → Option β) (first : α) (rest : List α) :
    (first :: rest).filterMap f = (f first).toList ++ rest.filterMap f := by
  rw [List.filterMap_cons]
  cases f first <;> rfl

/-- Items that belong together, with the value that they record. -/
inductive Segment (ν : Type) where
  | content (text : String)
  | embedded (edge : Option Reference) (node : ν)
  | arrayStart (edge : Reference)
  | value (edge : Reference) (node : ν) (shifts : Nat)

namespace Segment

variable {ν : Type}

/-- A number of shifts, each with its gap, the first of which has the given index. -/
def shiftItems (first count : Nat) : List (Item ν) :=
  (List.range' first count).flatMap fun index => [.shift index, .gap]

@[simp] theorem shiftItems_zero (first : Nat) : shiftItems (ν := ν) first 0 = [] := rfl

theorem shiftItems_succ (first count : Nat) : shiftItems (ν := ν) first (count + 1) =
      .shift first :: .gap :: shiftItems (first + 1) count := rfl

theorem shiftItems_concat (first count : Nat) : shiftItems (ν := ν) first (count + 1) =
      shiftItems first count ++ [.shift (first + count), .gap] := by
  simp [shiftItems, List.range'_1_concat]

@[simp] theorem length_shiftItems (first count : Nat) :
    (shiftItems (ν := ν) first count).length = 2 * count := by
  induction count generalizing first with
  | zero => rfl
  | succ count ih =>
    rw [shiftItems_succ, List.length_cons, List.length_cons, ih]
    omega

/-- The items of a segment. -/
def items : Segment ν → List (Item ν)
  | content text => [.literal text]
  | embedded edge node => edge.toList.map .reference ++ [.embedded node]
  | arrayStart edge => [.reference edge, .arrayStart]
  | value edge _ shifts => .reference edge :: .gap :: shiftItems 1 shifts

theorem length_items_value (edge : Reference) (node : ν) (shifts : Nat) :
    (value edge node shifts).items.length = 2 + 2 * shifts := by
  simp only [items, List.length_cons, length_shiftItems]
  omega

/-- The items of a node with the given segments. -/
def allItems (segments : List (Segment ν)) : List (Item ν) :=
  segments.flatMap items

/-- The number of items of segments. -/
abbrev width (segments : List (Segment ν)) : Nat :=
  (allItems segments).length

@[simp] theorem allItems_nil : allItems ([] : List (Segment ν)) = [] := rfl

@[simp] theorem allItems_cons (segment : Segment ν) (rest : List (Segment ν)) :
    allItems (segment :: rest) = segment.items ++ allItems rest := rfl

@[simp] theorem allItems_append (first second : List (Segment ν)) :
    allItems (first ++ second) = allItems first ++ allItems second :=
  List.flatMap_append

@[simp] theorem width_nil : width ([] : List (Segment ν)) = 0 := rfl

@[simp] theorem width_cons (segment : Segment ν) (rest : List (Segment ν)) :
    width (segment :: rest) = segment.items.length + width rest :=
  List.length_append

@[simp] theorem width_append (first second : List (Segment ν)) :
    width (first ++ second) = width first + width second := by
  rw [width, allItems_append, List.length_append]

theorem width_concat (before : List (Segment ν)) (segment : Segment ν) :
    width (before ++ [segment]) = width before + segment.items.length := by
  simp

/-- The node of a segment. -/
def node? : Segment ν → Option ν
  | embedded _ node => some node
  | value _ node _ => some node
  | _ => none

/-- The mention of a property that a segment makes. -/
def mention? : Segment ν → Option Mention
  | arrayStart edge => some (.arrayStart (edge.marked false))
  | value edge _ _ => some (.value (edge.marked false))
  | _ => none

/-- The mentions of all segments. -/
def mentions (segments : List (Segment ν)) : List Mention :=
  segments.filterMap mention?

@[simp] theorem mentions_nil : mentions ([] : List (Segment ν)) = [] := rfl

@[simp] theorem mentions_cons (segment : Segment ν) (rest : List (Segment ν)) :
    mentions (segment :: rest) = segment.mention?.toList ++ mentions rest :=
  filterMap_cons_eq ..

@[simp] theorem mentions_append (first second : List (Segment ν)) :
    mentions (first ++ second) = mentions first ++ mentions second :=
  List.filterMap_append

/-- The properties with one more value: the value of a single property, or a new element. -/
def bindTo (edge : Reference) (node : ν) (properties : Entries (Property ν)) :
    Entries (Property ν) :=
  if edge.isArray then
    match Entries.get? edge.name properties with
    | some (.array bindings) =>
      Entries.insert edge.name (.array (bindings.push ⟨edge, node⟩)) properties
    | _ => properties
  else Entries.insert edge.name (.single ⟨edge, node⟩) properties

/-- The properties after one more segment. -/
def addTo (properties : Entries (Property ν)) : Segment ν → Entries (Property ν)
  | arrayStart edge => Entries.insert edge.name (.array #[]) properties
  | value edge node _ => bindTo edge node properties
  | _ => properties

/-- The properties of a node with the given segments. -/
def properties (segments : List (Segment ν)) : Entries (Property ν) :=
  segments.foldl addTo []

theorem properties_concat (segments : List (Segment ν)) (segment : Segment ν) :
    properties (segments ++ [segment]) = segment.addTo (properties segments) := by
  simp [properties]

/-- All that the entries bind comes from values of the segments. -/
def Yield (segments : List (Segment ν)) (entries : Entries (Property ν)) : Prop :=
  ∀ entry ∈ entries, ∀ binding ∈ entry.2.bindings,
    ∃ shifts, .value binding.reference binding.node shifts ∈ segments

variable {segments : List (Segment ν)} {entries : Entries (Property ν)} {edge : Reference}
  {node : ν} {name : String}

/-- A property that binds values of the segments may be added. -/
theorem Yield.insert {property : Property ν} (h : Yield segments entries)
    (hp : ∀ binding ∈ property.bindings,
      ∃ shifts, .value binding.reference binding.node shifts ∈ segments) :
    Yield segments (Entries.insert name property entries) := by
  intro entry hentry
  rcases Entries.mem_of_mem_insert hentry with rfl | hentry
  · exact hp
  · exact h entry hentry

theorem Yield.addTo (h : Yield segments entries) {segment : Segment ν} (hmem : segment ∈ segments) :
    Yield segments (segment.addTo entries) := by
  cases segment with
  | content | embedded => exact h
  | arrayStart edge => exact h.insert nofun
  | value edge node shifts =>
    show Yield segments (bindTo edge node entries)
    unfold bindTo
    split
    · split
      · rename_i bindings hget
        refine h.insert ?_
        rw [Property.bindings, Array.toList_push]
        exact List.forall_mem_append.mpr
          ⟨h _ (Entries.mem_of_get? hget), List.forall_mem_singleton.mpr ⟨shifts, hmem⟩⟩
      · exact h
    · exact h.insert (List.forall_mem_singleton.mpr ⟨shifts, hmem⟩)

/-- All that a node binds comes from values of its segments. -/
theorem yield_properties (segments : List (Segment ν)) : Yield segments (properties segments) :=
  List.foldlRecOn segments addTo (motive := Yield segments) nofun fun _ h _ hmem => h.addTo hmem

/-! ### What a name is bound to -/

/-- The binding that a segment adds to the array of a name. -/
def element? (name : String) : Segment ν → Option (Binding ν)
  | value edge node _ => if edge.isArray ∧ edge.name = name then some ⟨edge, node⟩ else none
  | _ => none

/-- The binding that a segment gives to the single property of a name. -/
def single? (name : String) : Segment ν → Option (Binding ν)
  | value edge node _ => if edge.isArray = false ∧ edge.name = name then some ⟨edge, node⟩ else none
  | _ => none

/-- The bindings that the segments give to the array of a name. -/
def elementsOf (segments : List (Segment ν)) (name : String) : List (Binding ν) :=
  segments.filterMap (element? name)

/-- The bindings that the segments give to the single property of a name. -/
def singlesOf (segments : List (Segment ν)) (name : String) : List (Binding ν) :=
  segments.filterMap (single? name)

/-- The property that orderly segments give to a name. -/
def propertyOf (segments : List (Segment ν)) (name : String) : Option (Property ν) :=
  match singlesOf segments name with
  | binding :: _ => some (.single binding)
  | [] =>
    if started (mentions segments) name then
      some (.array (elementsOf segments name).toArray)
    else none

@[simp] theorem elementsOf_append (first second : List (Segment ν)) (name : String) :
    elementsOf (first ++ second) name = elementsOf first name ++ elementsOf second name :=
  List.filterMap_append

@[simp] theorem singlesOf_append (first second : List (Segment ν)) (name : String) :
    singlesOf (first ++ second) name = singlesOf first name ++ singlesOf second name :=
  List.filterMap_append

theorem elementsOf_singleton (segment : Segment ν) (name : String) :
    elementsOf [segment] name = (segment.element? name).toList := by
  cases h : segment.element? name <;> simp [elementsOf, h]

theorem singlesOf_singleton (segment : Segment ν) (name : String) :
    singlesOf [segment] name = (segment.single? name).toList := by
  cases h : segment.single? name <;> simp [singlesOf, h]

theorem length_elementsOf (segments : List (Segment ν)) (name : String) :
    (elementsOf segments name).length = Mention.elements (mentions segments) name := by
  induction segments with
  | nil => rfl
  | cons segment rest ih =>
    rw [← List.singleton_append, elementsOf_append, List.length_append, ih, mentions_append,
      Mention.elements_append, elementsOf_singleton]
    cases segment with
    | value edge node shifts =>
      by_cases h : edge.isArray = true ∧ edge.name = name <;> simp [element?, mention?, h]
    | _ => rfl

/-- A name has no binding of a single property if and only if no segment gives it one. -/
theorem singlesOf_eq_nil_iff :
    singlesOf segments name = [] ↔ taken (mentions segments) name = false := by
  induction segments with
  | nil => simp [singlesOf, taken]
  | cons segment rest ih =>
    rw [← List.singleton_append, singlesOf_append, List.append_eq_nil_iff, ih, mentions_append,
      Mention.taken_append, singlesOf_singleton, Bool.or_eq_false_iff]
    refine and_congr_left fun _ => ?_
    cases segment with
    | value edge node shifts =>
      by_cases h : edge.isArray = false ∧ edge.name = name <;> simp_all [single?, mention?]
    | _ => simp [single?, mention?, taken, Mention.isSingle]

theorem singlesOf_eq_nil
    (h : taken (mentions segments) name = false) : singlesOf segments name = [] :=
  singlesOf_eq_nil_iff.mpr h

theorem taken_of_singlesOf {first : Binding ν}
    {rest : List (Binding ν)} (h : singlesOf segments name = first :: rest) :
    taken (mentions segments) name = true := by
  rw [← Bool.not_eq_false, ← singlesOf_eq_nil_iff, h]
  exact List.cons_ne_nil _ _

/-- A name that is not mentioned has no elements. -/
theorem elementsOf_eq_nil
    (h : named (mentions segments) name = false) : elementsOf segments name = [] := by
  rw [← List.length_eq_zero_iff, length_elementsOf, Mention.elements_eq_zero h]

/-- The entries bind every name as the segments say. -/
def Describes (segments : List (Segment ν)) (entries : Entries (Property ν)) : Prop :=
  ∀ name, Entries.get? name entries = propertyOf segments name

/-- A segment changes nothing for a name that it does not mention. -/
theorem propertyOf_concat_of_ne {segment : Segment ν}
    (h : ∀ mention ∈ segment.mention?, mention.edge.name ≠ name) :
    propertyOf (segments ++ [segment]) name = propertyOf segments name := by
  cases segment with
  | content | embedded =>
    simp [propertyOf, elementsOf_singleton, singlesOf_singleton, single?, element?, mention?]
  | arrayStart edge | value edge =>
    have hn : edge.name ≠ name := h _ rfl
    simp [propertyOf, singlesOf_singleton, elementsOf_singleton, single?, element?, mention?, hn]

theorem get?_addTo_of_ne {segment : Segment ν}
    (h : ∀ mention ∈ segment.mention?, mention.edge.name ≠ name) (entries : Entries (Property ν)) :
    Entries.get? name (segment.addTo entries) = Entries.get? name entries := by
  cases segment with
  | content | embedded => rfl
  | arrayStart => exact Entries.get?_insert_of_ne (h _ rfl) ..
  | value =>
    rw [addTo, bindTo]
    split
    · split
      · exact Entries.get?_insert_of_ne (h _ rfl) ..
      · rfl
    · exact Entries.get?_insert_of_ne (h _ rfl) ..

/-- The name of an array that may start has no property. -/
theorem propertyOf_of_startable (h : Startable (mentions segments) edge) :
    propertyOf segments edge.name = none := by
  rw [propertyOf, singlesOf_eq_nil (taken_eq_false h.2.2), Mention.started_eq_false h.2.2]
  rfl

/-- The array that may be given a value has been started. -/
theorem propertyOf_of_bindable (h : Bindable (mentions segments) edge) (ha : edge.isArray = true) :
    propertyOf segments edge.name = some (.array (elementsOf segments edge.name).toArray) := by
  rw [propertyOf, singlesOf_eq_nil (h.2 ha).2, (h.2 ha).1]
  rfl

/-- The start of an array gives its name a property. -/
theorem propertyOf_concat_arrayStart (h : Startable (mentions segments) edge) :
    propertyOf (segments ++ [.arrayStart edge]) edge.name = some (.array #[]) := by
  have hs := singlesOf_eq_nil (taken_eq_false h.2.2)
  have he := elementsOf_eq_nil h.2.2
  simp [propertyOf, singlesOf_singleton, elementsOf_singleton, single?, element?, mention?, hs, he]

/-- A value of an array is its last element. -/
theorem propertyOf_concat_element
    {shifts : Nat} (h : Bindable (mentions segments) edge) (ha : edge.isArray = true) :
    propertyOf (segments ++ [.value edge node shifts]) edge.name =
      some (.array ((elementsOf segments edge.name).toArray.push ⟨edge, node⟩)) := by
  obtain ⟨hstarted, htaken⟩ := h.2 ha
  simp [propertyOf, singlesOf_singleton, elementsOf_singleton, single?, element?, mention?, ha,
    singlesOf_eq_nil htaken, hstarted]

/-- The value of a single property is bound to it. -/
theorem propertyOf_concat_single {shifts : Nat} (h : taken (mentions segments) edge.name = false)
    (ha : edge.isArray = false) :
    propertyOf (segments ++ [.value edge node shifts]) edge.name = some (.single ⟨edge, node⟩) := by
  simp [propertyOf, singlesOf_singleton, single?, ha, singlesOf_eq_nil h]

/-- A further segment that may come keeps the description. -/
theorem Describes.addTo {segment : Segment ν} (h : Describes segments entries)
    (hm : ∀ mention ∈ segment.mention?, mention.Admissible (mentions segments)) :
    Describes (segments ++ [segment]) (segment.addTo entries) := by
  intro name
  by_cases hn : ∀ mention ∈ segment.mention?, mention.edge.name ≠ name
  · rw [propertyOf_concat_of_ne hn, get?_addTo_of_ne hn]
    exact h name
  cases segment with
  | content | embedded => exact absurd (by rintro _ ⟨⟩) hn
  | arrayStart edge =>
    obtain rfl : edge.name = name := by simpa [mention?] using hn
    have hs : Startable (mentions segments) edge := (hm _ rfl).2
    rw [propertyOf_concat_arrayStart hs]
    simp [Segment.addTo]
  | value edge node shifts =>
    obtain rfl : edge.name = name := by simpa [mention?] using hn
    cases ha : edge.isArray with
    | true =>
      have hb : Bindable (mentions segments) edge := (hm _ rfl).2
      rw [propertyOf_concat_element hb ha]
      simp [Segment.addTo, bindTo, ha, h edge.name, propertyOf_of_bindable hb ha]
    | false =>
      rw [propertyOf_concat_single (Mention.taken_of_admissible (hm _ rfl) ha) ha]
      simp [Segment.addTo, bindTo, ha]

theorem Describes.foldl_addTo {earlier : List (Segment ν)} (h : Describes earlier entries)
    (ho : Orderly (mentions earlier) (mentions segments)) :
    Describes (earlier ++ segments) (segments.foldl Segment.addTo entries) := by
  induction segments generalizing earlier entries with
  | nil => simpa using h
  | cons segment rest ih =>
    rw [mentions_cons, orderly_append] at ho
    have hstep := h.addTo (Mention.orderly_toList.mp ho.1)
    have hrest := ih hstep (by simpa using ho.2)
    simpa using hrest

/-- In a node whose references are orderly, every name is bound to what the segments say. -/
theorem get?_properties (ho : Orderly [] (mentions segments))
    (name : String) : Entries.get? name (properties segments) = propertyOf segments name := by
  have hnil : Describes ([] : List (Segment ν)) [] := fun _ => rfl
  exact hnil.foldl_addTo (by simpa using ho) name

/-- A name has a property if and only if it is mentioned. -/
theorem isSome_get?_properties (ho : Orderly [] (mentions segments)) (name : String) :
    (Entries.get? name (properties segments)).isSome = named (mentions segments) name := by
  have hnamed := Mention.named_eq name rfl ho
  rw [List.nil_append] at hnamed
  rw [get?_properties ho, hnamed, propertyOf]
  cases hs : singlesOf segments name with
  | nil =>
    rw [singlesOf_eq_nil_iff.mp hs]
    cases started (mentions segments) name <;> rfl
  | cons first rest =>
    rw [taken_of_singlesOf hs, Bool.or_true]
    rfl

/-- The array that a reference gives a value to has as many elements as the reference says. -/
theorem get?_properties_of_bindable
    (ho : Orderly [] (mentions segments)) (hb : Bindable (mentions segments) edge)
    (ha : edge.isArray = true) :
    ∃ bindings, Entries.get? edge.name (properties segments) = some (.array bindings) ∧
      indexOf (mentions segments) edge = some bindings.size := by
  refine ⟨_, (get?_properties ho _).trans (propertyOf_of_bindable hb ha), ?_⟩
  simp [indexOf, hb.1, ha, length_elementsOf]

section Value

variable {before after : List (Segment ν)} {shifts : Nat}
  (ho : Orderly [] (mentions (before ++ .value edge node shifts :: after)))

include ho

theorem admissible_of_orderly :
    Mention.Admissible (mentions before) (.value (edge.marked false)) := by
  rw [mentions_append, orderly_append, mentions_cons] at ho
  exact ho.2.1

/-- A value of an array stands among the elements where its reference says, unless the same name is
used for a single property too. -/
theorem get?_properties_of_element
    (hu : Unmixed (mentions (before ++ .value edge node shifts :: after)))
    (ha : edge.isArray = true) :
    Entries.get? edge.name (properties (before ++ .value edge node shifts :: after)) =
        some (.array (elementsOf before edge.name ++
          ⟨edge, node⟩ :: elementsOf after edge.name).toArray) ∧
      indexOf (mentions before) edge = some (elementsOf before edge.name).length := by
  obtain ⟨hreserved, hstarted⟩ : Bindable (mentions before) edge := (admissible_of_orderly ho).2
  have hmem : .value (edge.marked false) ∈
      mentions (before ++ .value edge node shifts :: after) := by
    simp [mention?]
  have hsingle : singlesOf (before ++ .value edge node shifts :: after) edge.name = [] :=
    singlesOf_eq_nil (Mention.taken_eq_false_of_array hu hmem ha)
  have helements : elementsOf (before ++ .value edge node shifts :: after) edge.name =
      elementsOf before edge.name ++ ⟨edge, node⟩ :: elementsOf after edge.name := by
    rw [elementsOf_append, ← List.singleton_append, elementsOf_append, elementsOf_singleton]
    simp [element?, ha]
  refine ⟨?_, by simp [indexOf, hreserved, ha, length_elementsOf]⟩
  rw [get?_properties ho, propertyOf, hsingle, helements]
  simp [(hstarted ha).1]

/-- The value of a single property is bound to it. -/
theorem get?_properties_of_single (ha : edge.isArray = false) :
    Entries.get? edge.name (properties (before ++ .value edge node shifts :: after)) =
        some (.single ⟨edge, node⟩) ∧
      indexOf (mentions before) edge = none := by
  have htaken := Mention.taken_of_admissible (admissible_of_orderly ho) ha
  have hsingle : singlesOf (before ++ .value edge node shifts :: after) edge.name =
      ⟨edge, node⟩ :: singlesOf after edge.name := by
    rw [singlesOf_append, singlesOf_eq_nil htaken, ← List.singleton_append, singlesOf_append,
      singlesOf_singleton]
    simp [single?, ha]
  refine ⟨?_, by simp [indexOf, ha]⟩
  rw [get?_properties ho, propertyOf, hsingle]

/-- A value is found under its name and the index that its reference stands for, unless the same
name is used for an array and a single property. -/
theorem binding?_properties (hu : Unmixed (mentions (before ++ .value edge node shifts :: after))) :
    (Entries.get? edge.name (properties (before ++ .value edge node shifts :: after))).bind
      (Property.binding? (indexOf (mentions before) edge)) = some ⟨edge, node⟩ := by
  cases ha : edge.isArray with
  | true =>
    obtain ⟨hget, hindex⟩ := get?_properties_of_element ho hu ha
    rw [hget, hindex]
    simp [Property.binding?]
  | false =>
    rw [(get?_properties_of_single ho ha).1]
    rfl

end Value

end Segment

end TagTree
