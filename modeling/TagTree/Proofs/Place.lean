import TagTree.Node.Place

/-!
# Look-up among places

The directory of a place differs from that of its node in that each child comes with its place. What
is looked up in one is what is looked up in the other (`Directory.Maps`, `Place.maps_directory`).
-/

namespace TagTree

variable {ν μ : Type}

/-- The item with another embedded node. -/
def Item.map (f : ν → μ) : Item ν → Item μ
  | reference edge => reference edge
  | gap => gap
  | arrayStart => arrayStart
  | shift index => shift index
  | literal text => literal text
  | embedded node => embedded (f node)

/-- The binding with another node. -/
def Binding.map (f : ν → μ) (binding : Binding ν) : Binding μ :=
  ⟨binding.reference, f binding.node⟩

/-- The property with other nodes. -/
def Property.map (f : ν → μ) : Property ν → Property μ
  | single binding => single (binding.map f)
  | array bindings => array (bindings.map (Binding.map f))

theorem Property.binding?_map (f : ν → μ) (property : Property ν) (index : Option Nat) :
    (property.map f).binding? index = (property.binding? index).map (Binding.map f) := by
  cases property with
  | single binding => rfl
  | array bindings =>
    cases index with
    | none => rfl
    | some index => simp [Property.map, Property.binding?]

namespace Item

@[simp] theorem isGap_map (f : ν → μ) (item : Item ν) : (item.map f).isGap = item.isGap := by
  cases item <;> rfl

theorem owner?_map (f : ν → μ) (items : Array (Item ν)) (position : Nat) :
    owner? (items.map (Item.map f)) position = owner? items position := by
  cases position with
  | zero => rfl
  | succ before =>
    rw [owner?, owner?, Array.getElem?_map]
    cases items[before]? with
    | none => rfl
    | some item =>
      cases item with
      | shift index =>
        simp only [Option.map_some, Item.map, Array.getElem?_map]
        cases items[before - 2 * index]? with
        | none => rfl
        | some found => cases found <;> rfl
      | _ => rfl

theorem keys_map (f : ν → μ) (counts : Std.TreeMap String Nat) (items : List (Item ν)) :
    keys counts (items.map (Item.map f)) = keys counts items := by
  induction items generalizing counts with
  | nil => rfl
  | cons item rest ih =>
    cases item with
    | reference edge =>
      have hnext : (rest.map (Item.map f)).head?.any isGap = rest.head?.any isGap := by
        cases rest <;> simp
      simp only [List.map_cons, Item.map, keys, hnext, ih]
    | _ => exact congrArg (none :: ·) (ih counts)

end Item

/-- One directory is the other with other nodes. -/
structure Directory.Maps (f : ν → μ) (fine : Directory ν) (coarse : Directory μ) : Prop where
  items : coarse.items = fine.items.map (Item.map f)
  properties : ∀ name : String, coarse.properties[name]? =
    (fine.properties[name]?).map (Property.map f)
  keys : coarse.keys = fine.keys

namespace Directory.Maps

variable {f : ν → μ} {fine : Directory ν} {coarse : Directory μ}

theorem binding (h : Maps f fine coarse) (name : String) (index : Option Nat) :
    coarse.binding name index = (fine.binding name index).map (Binding.map f) := by
  simp only [Directory.binding, h.properties]
  cases fine.properties[name]? with
  | none => rfl
  | some property =>
    cases property with
    | single bound => cases index <;> rfl
    | array bindings =>
      cases index with
      | none => rfl
      | some index =>
        simp only [Option.map_some, Property.map, Array.getElem?_map]
        cases bindings[index]? <;> rfl

theorem keyAt? (h : Maps f fine coarse) (slot : Nat) : coarse.keyAt? slot = fine.keyAt? slot := by
  cases slot with
  | zero => rfl
  | succ position =>
    rw [Directory.keyAt?, Directory.keyAt?, h.items, h.keys, Item.owner?_map, Array.getElem?_map]
    cases fine.items[position]? with
    | none => rfl
    | some item => cases item <;> rfl

theorem bindingAt (h : Maps f fine coarse) (slot : Nat) :
    coarse.bindingAt slot = (fine.bindingAt slot).map (Binding.map f) := by
  rw [Directory.bindingAt, Directory.bindingAt, h.keyAt?]
  cases fine.keyAt? slot with
  | none => rfl
  | some key =>
    simp only [h.binding]
    cases fine.binding key.name key.index <;> rfl

theorem held (h : Maps f fine coarse) (slot : Option Nat) :
    coarse.held slot = (fine.held slot).map f := by
  cases slot with
  | none => rfl
  | some slot =>
    rw [Directory.held, Directory.held, h.bindingAt]
    cases fine.bindingAt slot <;> rfl

end Directory.Maps

namespace Entries

variable {α β : Type}

/-- The entries with other values. -/
def mapValues (f : α → β) (entries : Entries α) : Entries β :=
  entries.map fun entry => (entry.1, f entry.2)

theorem mapValues_insert (f : α → β) (key : String) (value : α) (entries : Entries α) :
    mapValues f (insert key value entries) = insert key (f value) (mapValues f entries) := by
  induction entries with
  | nil => rfl
  | cons entry rest ih =>
    obtain ⟨present, old⟩ := entry
    by_cases hp : present = key
    · simp [mapValues, insert, hp]
    · simpa [mapValues, insert, hp] using ih

theorem get?_map (f : α → β) (name : String) (entries : Entries α) :
    get? name (entries.map fun entry => (entry.1, f entry.2)) = (get? name entries).map f := by
  induction entries with
  | nil => rfl
  | cons entry rest ih =>
    obtain ⟨present, value⟩ := entry
    rw [List.map_cons, get?, get?, ih]
    split <;> rfl

end Entries

theorem Directory.maps_of (f : ν → μ) (items : Array (Item ν))
    (properties : List (String × Property ν)) :
    Maps f (.of items properties) (.of (items.map (Item.map f))
      (properties.map fun entry => (entry.1, entry.2.map f))) where
  items := rfl
  properties name := by
    show (Entries.index _)[name]? = ((Entries.index _)[name]?).map _
    rw [Entries.getElem?_index, Entries.getElem?_index, Entries.get?_map]
  keys := by
    show (Item.keys ∅ (items.map (Item.map f)).toList).toArray = _
    rw [Array.toList_map, Item.keys_map]
    rfl

namespace Place

variable (place : Place)

theorem map_locateBindings (number : Nat) (bindings : List (Binding Node)) :
    (place.locateBindings number bindings).map (Binding.map Place.node) = bindings := by
  induction bindings generalizing number with
  | nil => rfl
  | cons binding rest ih => exact congrArg (binding :: ·) (ih _)

theorem map_locateProperty (number : Nat) (property : Property Node) :
    (place.locateProperty number property).map Place.node = property := by
  cases property with
  | single binding => rfl
  | array bindings => simp [locateProperty, Property.map, map_locateBindings]

theorem map_locateProperties (number : Nat) (properties : List (String × Property Node)) :
    (place.locateProperties number properties).map
      (fun entry => (entry.1, entry.2.map Place.node)) = properties := by
  induction properties generalizing number with
  | nil => rfl
  | cons entry rest ih =>
    obtain ⟨name, property⟩ := entry
    rw [locateProperties, List.map_cons, ih, map_locateProperty]

theorem map_locateItems (number : Nat) (items : List (Item Node)) :
    (place.locateItems number items).map (Item.map Place.node) = items := by
  induction items generalizing number with
  | nil => rfl
  | cons item rest ih => cases item <;> exact congrArg (_ :: ·) (ih _)

/-- The items with their places are the items. -/
theorem map_items : place.items.map (Item.map Place.node) = place.node.items := by
  simp [items, map_locateItems]

/-- The directory of a place has the places of what the directory of the node has. -/
theorem maps_directory : Directory.Maps Place.node place.directory place.node.directory := by
  have h := Directory.maps_of Place.node place.items place.properties
  rw [map_items, properties, map_locateProperties] at h
  exact h

end Place

end TagTree
