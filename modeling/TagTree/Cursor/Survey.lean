import TagTree.Cursor.Table
import TagTree.Node.Place

/-!
# Surveys

A traversal that comes to a node surveys it once: it lays out the node's parts with their places,
and works out the table of its slots. After that every gap is traced to its value without a search.
-/

namespace TagTree

/-- What is known of a place: its parts with their places, and the table of its slots. -/
structure Survey where
  directory : Directory Place
  table : Except StructuralError SlotTable

namespace Survey

/-- The survey of a place. -/
def of (place : Place) : Survey :=
  ⟨place.directory, SlotTable.of place.node⟩

/-- The item before a position. -/
def itemBefore (survey : Survey) : (position : Nat) → Option (Item Place)
  | 0 => none
  | position + 1 => survey.directory.items[position]?

/-- The key of the binding that the gap in a slot records, from the table. -/
def keyAt (survey : Survey) (slot : Nat) : Except Error Key := do
  let table ← survey.table.mapError .structural
  match slot with
  | 0 => .error (.lookup (.slot slot))
  | position + 1 =>
    match survey.directory.items[position]?, Item.owner? survey.directory.items position with
    | some .gap, some (edge, _) => return ⟨edge.name, (table.indexes[slot]?).join⟩
    | _, _ => .error (.lookup (.slot slot))

/-- The binding that the gap in a slot records. -/
def bindingAt (survey : Survey) (slot : Nat) : Except Error (Binding Place) := do
  let key ← survey.keyAt slot
  (survey.directory.binding key.name key.index).mapError .lookup

/-- The place of the value that the gap in a slot records. -/
def valueAt (survey : Survey) (slot : Nat) : Except Error Place := do
  return (← survey.bindingAt slot).node

/-- The place of the value of a single property. -/
def get (survey : Survey) (name : String) : Except Error Place := do
  let table ← survey.table.mapError .structural
  match table.values.get? name with
  | some (.single slot) => survey.valueAt slot
  | _ => .error (.lookup (.property name))

/-- The place of one value of an array. -/
def getElement (survey : Survey) (name : String) (index : Nat) : Except Error Place := do
  let table ← survey.table.mapError .structural
  match table.values.get? name with
  | some (.array slots) =>
    match slots[index]? with
    | some slot => survey.valueAt slot
    | none => .error (.lookup (.arrayElement name index))
  | some (.single _) => .error (.lookup (.notAnArray name))
  | none => .error (.lookup (.property name))

/-- The place of the value that first came in a slot, given the items after it and what came in
their slots: where a shift follows, it is what the next value of the reference took back. -/
def arrival (survey : Survey) (slot : Nat) (after : List (Item Place))
    (later : List (Except Error Place)) : Except Error Place :=
  match after, later with
  | .shift _ :: .gap :: _, _ :: next :: _ => do (← next).held.mapError .lookup
  | _, _ => survey.valueAt slot

/-- The places of the values that came in the slots of the items, the first of which is given. -/
def arrivalsFrom (survey : Survey) (slot : Nat) : List (Item Place) → List (Except Error Place)
  | [] => []
  | _ :: rest =>
    let later := survey.arrivalsFrom (slot + 1) rest
    survey.arrival slot rest later :: later

/-- For each item, the place of the value that came there first. Only gaps have one. -/
def arrivals (survey : Survey) : Array (Except Error Place) :=
  (survey.arrivalsFrom 1 survey.directory.items.toList).toArray

end Survey

end TagTree
