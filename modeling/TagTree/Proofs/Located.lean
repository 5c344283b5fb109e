import Mathlib.Data.List.Induction
import TagTree.Proofs.Replacement

/-!
# Segments with places

A node at a place is made of segments of nodes. Where no name is mixed, it is made of the same
segments with places for nodes too: the items and the properties of the place follow from them
(`Segment.exists_map`, `Place.exists_located`).
-/

namespace TagTree

open Mention (Orderly Unmixed orderly_append)

variable {ν μ : Type} {key : String}

namespace Entries

variable {α β : Type}

theorem keys_mapValues (f : α → β) (entries : Entries α) :
    (mapValues f entries).keys = entries.keys := by
  simp [mapValues, keys]

/-- To insert what is there changes nothing. -/
theorem insert_of_get? {value : α} {entries : Entries α}
    (h : entries.get? key = some value) : insert key value entries = entries := by
  induction entries with
  | nil => cases h
  | cons entry rest ih =>
    obtain ⟨present, old⟩ := entry
    by_cases hp : present = key
    · rw [get?, if_pos hp] at h
      rw [insert, if_pos hp, Option.some.inj h]
    · rw [get?, if_neg hp] at h
      rw [insert, if_neg hp, ih h]

/-- Where the last entry was added at the end, it is the last under other values too. -/
theorem exists_of_mapValues_insert {f : α → β} {entries : Entries α} {others : Entries β}
    {value : β} (hnone : others.get? key = none)
    (h : mapValues f entries = insert key value others) :
    ∃ earlier label, mapValues f earlier = others ∧ f label = value ∧
      insert key label earlier = entries := by
  have hnew : key ∉ keys others := by simp [mem_keys_iff, hnone]
  rw [insert_of_not_mem hnew] at h
  obtain ⟨earlier, last, rfl, hearlier, hlast⟩ := List.map_eq_append_iff.mp h
  obtain ⟨⟨name, label⟩, rfl, hentry⟩ := List.map_eq_singleton_iff.mp hlast
  obtain ⟨rfl, hlabel⟩ := Prod.mk.inj hentry
  have hearlier : mapValues f earlier = others := hearlier
  refine ⟨earlier, label, hearlier, hlabel, insert_of_not_mem ?_ label⟩
  rwa [← keys_mapValues f, hearlier]

end Entries

/-! ### Labels -/

theorem Binding.map_eq {f : ν → μ} {binding : Binding ν} {edge : Reference} {node : μ}
    (h : binding.map f = ⟨edge, node⟩) : ∃ label, binding = ⟨edge, label⟩ ∧ f label = node := by
  cases h
  exact ⟨binding.node, rfl, rfl⟩

/-- Items without embedded nodes are the same, whatever the labels. -/
theorem Item.eq_of_map {f : ν → μ} {items others : List (Item ν)}
    (h : items.map (Item.map f) = others.map (Item.map f)) (hnone : embeddedNodes others = []) :
    items = others := by
  induction others generalizing items with
  | nil => exact List.map_eq_nil_iff.mp h
  | cons other others ih =>
    obtain ⟨item, rest, rfl, hitem, hrest⟩ := List.map_eq_cons_iff.mp h
    cases other with
    | embedded node => cases hnone
    | _ =>
      cases item <;> cases hitem
      exact congrArg _ (ih hrest hnone)

/-- No array is started of a name that is used for single properties only. -/
theorem Mention.started_eq_false_of_single {mentions : List Mention} {name : String}
    (ho : Orderly [] mentions)
    (h : ∀ mention ∈ mentions, mention.edge.name = name → mention.edge.isArray = false) :
    started mentions name = false := by
  rw [started, List.any_eq_false]
  intro mention hmem hstarts
  cases mention with
  | value other => cases hstarts
  | arrayStart other =>
    have hsingle := h _ hmem (beq_iff_eq.mp hstarts)
    obtain ⟨between, hadmissible⟩ := ho.exists_admissible hmem
    exact Bool.false_ne_true (hsingle.symm.trans hadmissible.2.2.1)

namespace Segment

/-- The segment with another node. -/
def map (f : ν → μ) : Segment ν → Segment μ
  | content text => content text
  | embedded edge node => embedded edge (f node)
  | arrayStart edge => arrayStart edge
  | value edge node shifts => value edge (f node) shifts

@[simp] theorem mention?_map (f : ν → μ) (segment : Segment ν) :
    (segment.map f).mention? = segment.mention? := by
  cases segment <;> rfl

@[simp] theorem node?_map (f : ν → μ) (segment : Segment ν) :
    (segment.map f).node? = segment.node?.map f := by
  cases segment <;> rfl

theorem mentions_map (f : ν → μ) (segments : List (Segment ν)) :
    mentions (segments.map (map f)) = mentions segments := by
  rw [mentions, mentions, List.filterMap_map]
  exact congrArg (List.filterMap · segments) (funext (mention?_map f))

theorem map_shiftItems (f : ν → μ) (first count : Nat) :
    (shiftItems first count).map (Item.map f) = shiftItems first count := by
  simp [shiftItems, List.map_flatMap, Item.map]

theorem items_map (f : ν → μ) (segment : Segment ν) :
    (segment.map f).items = segment.items.map (Item.map f) := by
  cases segment with
  | content | arrayStart => rfl
  | embedded edge node => cases edge <;> rfl
  | value edge node shifts => simp [map, items, Item.map, map_shiftItems]

theorem allItems_map (f : ν → μ) (segments : List (Segment ν)) :
    allItems (segments.map (map f)) = (allItems segments).map (Item.map f) := by
  simp [allItems, List.flatMap_map, List.map_flatMap, items_map]

theorem width_map (f : ν → μ) (segments : List (Segment ν)) :
    width (segments.map (map f)) = width segments := by
  rw [width, allItems_map, List.length_map]

variable {f : ν → μ} {segments : List (Segment μ)} {edge : Reference} {node : μ} {shifts : Nat}
  {entries : Entries (Property ν)}

/-- The property of a single value is new where no name is mixed. -/
theorem get?_properties_eq_none (ho : Orderly [] (mentions (segments ++ [value edge node shifts])))
    (hu : Unmixed (mentions (segments ++ [value edge node shifts])))
    (ha : edge.isArray = false) : Entries.get? edge.name (properties segments) = none := by
  rw [mentions_append, orderly_append] at ho
  obtain ⟨hearlier, hvalue, -⟩ := ho
  have htaken := Mention.taken_of_admissible hvalue ha
  -- An array of the name would be mixed with the single value.
  have hstarted : Mention.started (mentions segments) edge.name = false := by
    refine Mention.started_eq_false_of_single hearlier fun mention hmem hname => ?_
    exact (hu mention (by simp [hmem]) (.value (edge.marked false))
      (by simp [mention?]) hname).trans ha
  rw [get?_properties hearlier, propertyOf, singlesOf_eq_nil htaken, hstarted]
  rfl

/-- The last element of an array is the one that was added. -/
theorem exists_push {labelled : Array (Binding ν)} {bindings : Array (Binding μ)}
    (h : labelled.map (Binding.map f) = bindings.push ⟨edge, node⟩) :
    ∃ (first : Array (Binding ν)) (label : ν), labelled = first.push ⟨edge, label⟩ ∧
      f label = node ∧
      first.map (Binding.map f) = bindings := by
  have hlist : labelled.toList.map (Binding.map f) = bindings.toList ++ [⟨edge, node⟩] := by
    rw [← Array.toList_map, h, Array.toList_push]
  obtain ⟨first, last, hsplit, hfirst, hlast⟩ := List.map_eq_append_iff.mp hlist
  obtain ⟨binding, rfl, hbinding⟩ := List.map_eq_singleton_iff.mp hlast
  obtain ⟨label, rfl, hlabel⟩ := Binding.map_eq hbinding
  refine ⟨first.toArray, label, ?_, hlabel, ?_⟩
  · have htoList := congrArg List.toArray hsplit
    rwa [Array.toArray_toList, ← List.push_toArray] at htoList
  · rw [List.map_toArray, hfirst, Array.toArray_toList]

/-- The entries are labels for what was bound before, and one for the value that was bound last. -/
def Unbinds (f : ν → μ) (edge : Reference) (node : μ) (before : Entries (Property μ))
    (entries : Entries (Property ν)) : Prop :=
  ∃ earlier label, Entries.mapValues (Property.map f) earlier = before ∧ f label = node ∧
    bindTo edge label earlier = entries

section Last

variable (h : Entries.mapValues (Property.map f) entries = bindTo edge node (properties segments))
include h

/-- A single value was added at the end, with its name. -/
theorem unbinds_single (ha : edge.isArray = false)
    (hnone : Entries.get? edge.name (properties segments) = none) :
    Unbinds f edge node (properties segments) entries := by
  have hbind : ∀ {α : Type} (node : α) (properties : Entries (Property α)),
      bindTo edge node properties = Entries.insert edge.name (.single ⟨edge, node⟩) properties := by
    intro α node properties
    rw [bindTo, ha]
    rfl
  rw [hbind] at h
  obtain ⟨earlier, property, hearlier, hproperty, hinsert⟩ :=
    Entries.exists_of_mapValues_insert hnone h
  cases property with
  | array bindings => cases hproperty
  | single binding =>
    obtain ⟨label, rfl, hlabel⟩ := Binding.map_eq (Property.single.inj hproperty)
    exact ⟨earlier, label, hearlier, hlabel, (hbind label earlier).trans hinsert⟩

/-- An element was added to an array that was there before. -/
theorem unbinds_array {bindings : Array (Binding μ)} (ha : edge.isArray = true)
    (hget : Entries.get? edge.name (properties segments) = some (.array bindings)) :
    Unbinds f edge node (properties segments) entries := by
  have hbind : bindTo edge node (properties segments) =
      Entries.insert edge.name (.array (bindings.push ⟨edge, node⟩)) (properties segments) := by
    simp only [bindTo, ha, if_true]
    rw [hget]
  rw [hbind] at h
  have hfound : (Entries.get? edge.name entries).map (Property.map f) =
      some (.array (bindings.push ⟨edge, node⟩)) := by
    rw [← Entries.get?_map]
    exact (congrArg _ h).trans (Entries.get?_insert_self ..)
  obtain ⟨property, hproperty, hmap⟩ := Option.map_eq_some_iff.mp hfound
  cases property with
  | single binding => cases hmap
  | array labelled =>
    obtain ⟨first, label, rfl, hlabel, hfirst⟩ := exists_push (Property.array.inj hmap)
    have hold : Property.map f (.array first) = .array bindings := congrArg Property.array hfirst
    -- Without the last element the array is the one that was there before.
    refine ⟨Entries.insert edge.name (.array first) entries, label, ?_, hlabel, ?_⟩
    · rw [Entries.mapValues_insert, h, hold, Entries.insert_insert_self,
        Entries.insert_of_get? hget]
    · simp only [bindTo, ha, if_true]
      rw [Entries.get?_insert_self]
      simp only [Entries.insert_insert_self]
      exact Entries.insert_of_get? hproperty

theorem unbinds (ho : Orderly [] (mentions (segments ++ [value edge node shifts])))
    (hu : Unmixed (mentions (segments ++ [value edge node shifts]))) :
    Unbinds f edge node (properties segments) entries := by
  cases ha : edge.isArray with
  | false => exact unbinds_single h ha (get?_properties_eq_none ho hu ha)
  | true =>
    rw [mentions_append, orderly_append] at ho
    obtain ⟨hearlier, ⟨-, hb⟩, -⟩ := ho
    obtain ⟨bindings, hget, -⟩ := get?_properties_of_bindable hearlier hb ha
    exact unbinds_array h ha hget

end Last

/-- A label for the last segment, and labels for what was bound before it. -/
theorem exists_addTo {segment : Segment μ} {items : List (Item ν)}
    (ho : Orderly [] (mentions (segments ++ [segment])))
    (hu : Unmixed (mentions (segments ++ [segment])))
    (hitems : items.map (Item.map f) = segment.items)
    (hentries : Entries.mapValues (Property.map f) entries = segment.addTo (properties segments)) :
    ∃ (earlier : Entries (Property ν)) (label : Segment ν),
      Entries.mapValues (Property.map f) earlier = properties segments ∧ label.map f = segment ∧
      label.items = items ∧ label.addTo earlier = entries := by
  -- Only an embedded node is labelled in the items themselves.
  have hplain : ∀ label : Segment ν, label.map f = segment → embeddedNodes label.items = [] →
      label.items = items := by
    intro label hlabel hnone
    have hsame : items.map (Item.map f) = label.items.map (Item.map f) := by
      rw [hitems, ← hlabel, items_map]
    exact (Item.eq_of_map hsame hnone).symm
  cases segment with
  | content text => exact ⟨entries, .content text, hentries, rfl, hplain _ rfl rfl, rfl⟩
  | embedded edge node =>
    have hlast : ∃ label, f label = node ∧ (embedded edge label).items = items := by
      cases edge with
      | none =>
        obtain ⟨item, rfl, hitem⟩ := List.map_eq_singleton_iff.mp hitems
        cases item <;> cases hitem
        exact ⟨_, rfl, rfl⟩
      | some edge =>
        obtain ⟨first, rest, rfl, hfirst, hrest⟩ := List.map_eq_cons_iff.mp hitems
        obtain ⟨item, rfl, hitem⟩ := List.map_eq_singleton_iff.mp hrest
        cases first <;> cases hfirst
        cases item <;> cases hitem
        exact ⟨_, rfl, rfl⟩
    obtain ⟨label, rfl, hlabelled⟩ := hlast
    exact ⟨entries, .embedded edge label, hentries, rfl, hlabelled, rfl⟩
  | arrayStart edge =>
    rw [mentions_append, orderly_append] at ho
    obtain ⟨hearlier, ⟨-, hstart⟩, -⟩ := ho
    have hnone : Entries.get? edge.name (properties segments) = none :=
      (get?_properties hearlier _).trans (propertyOf_of_startable hstart)
    obtain ⟨earlier, property, hbefore, hproperty, hinsert⟩ :=
      Entries.exists_of_mapValues_insert hnone hentries
    cases property with
    | single binding => cases hproperty
    | array bindings =>
      obtain rfl := Array.map_eq_empty_iff.mp (Property.array.inj hproperty)
      exact ⟨earlier, .arrayStart edge, hbefore, rfl, hplain _ rfl rfl, hinsert⟩
  | value edge node shifts =>
    obtain ⟨earlier, label, hbefore, rfl, hbind⟩ := unbinds hentries ho hu
    exact ⟨earlier, .value edge label shifts, hbefore, rfl,
      hplain _ rfl (embeddedNodes_shiftItems 1 shifts), hbind⟩

/-- Segments whose nodes are labelled, for labelled items and properties. -/
theorem exists_map {items : List (Item ν)} (ho : Orderly [] (mentions segments))
    (hu : Unmixed (mentions segments)) (hitems : items.map (Item.map f) = allItems segments)
    (hentries : Entries.mapValues (Property.map f) entries = properties segments) :
    ∃ located : List (Segment ν), located.map (map f) = segments ∧ allItems located = items ∧
      properties located = entries := by
  -- The labels are found from the last segment back, since each is bound after those before it.
  induction segments using List.reverseRecOn generalizing items entries with
  | nil =>
    obtain rfl := List.map_eq_nil_iff.mp hitems
    obtain rfl := List.map_eq_nil_iff.mp hentries
    exact ⟨[], rfl, rfl, rfl⟩
  | append_singleton segments segment ih =>
    rw [properties_concat] at hentries
    rw [allItems_append, allItems_cons, allItems_nil, List.append_nil] at hitems
    obtain ⟨first, own, rfl, hfirst, hown⟩ := List.map_eq_append_iff.mp hitems
    obtain ⟨earlier, label, hearlier, hlabel, hlabelled, hadd⟩ := exists_addTo ho hu hown hentries
    rw [mentions_append] at ho hu
    have hunmixed : Unmixed (mentions segments) := fun one hone other hother =>
      hu one (List.mem_append_left _ hone) other (List.mem_append_left _ hother)
    obtain ⟨located, hlocated, hall, hproperties⟩ :=
      ih (orderly_append.mp ho).1 hunmixed hfirst hearlier
    refine ⟨located ++ [label], ?_, ?_, ?_⟩
    · rw [List.map_append, hlocated, List.map_singleton, hlabel]
    · rw [allItems_append, hall, allItems_cons, hlabelled, allItems_nil, List.append_nil]
    · rw [properties_concat, hproperties, hadd]

end Segment

/-! ### Places -/

namespace Place

variable {place : Place} {outline : Outline}

/-- The places of what a node binds, and then of what is embedded in it. -/
def kids (place : Place) : List Place :=
  boundNodes place.properties ++ embeddedNodes place.items.toList

theorem map_kids (place : Place) : place.kids.map Place.node = place.node.kids := by
  have hitems : embeddedNodes (place.items.map (Item.map Place.node)).toList =
      (embeddedNodes place.items.toList).map Place.node := by
    rw [Array.toList_map, embeddedNodes_map]
  rw [kids, List.map_append, ← boundNodes_map, properties, map_locateProperties,
    ← hitems, map_items]
  rfl

/-- A place whose node is made of segments is made of the same segments with places. -/
theorem exists_located (hn : place.node = outline.toNode)
    (ho : Orderly [] (Segment.mentions outline.segments))
    (hu : Unmixed (Segment.mentions outline.segments)) :
    ∃ located : List (Segment Place), located.map (Segment.map Place.node) = outline.segments ∧
      place.directory = .of (Segment.allItems located).toArray (Segment.properties located) ∧
      place.kids.Perm (located.filterMap Segment.node?) := by
  have hitems : place.items.toList.map (Item.map Place.node) =
      Segment.allItems outline.segments := by
    rw [← Array.toList_map, map_items, hn]
    rfl
  have hentries : Entries.mapValues (Property.map Place.node) place.properties =
      Segment.properties outline.segments := by
    exact (place.map_locateProperties _ _).trans (by rw [hn]; rfl)
  obtain ⟨located, hlocated, hall, hproperties⟩ := Segment.exists_map ho hu hitems hentries
  refine ⟨located, hlocated, ?_, ?_⟩
  · rw [directory, hproperties, hall, Array.toArray_toList]
  · rw [← hlocated, Segment.mentions_map] at ho hu
    have hperm := Segment.perm_nodes_of_unmixed ho hu
    rwa [hall, hproperties] at hperm

end Place

end TagTree
