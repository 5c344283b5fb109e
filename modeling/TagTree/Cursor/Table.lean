import TagTree.Node.Lookup
import TagTree.Scope.Basic

/-!
# Slot tables

The table of a node says, for each slot, which element of an array its reference stands for, and for
each property, in which slots its values are recorded first. It is worked out in one pass over the
items, which fails if a reference has no value.
-/

namespace TagTree

/-- The slots of the gaps that record the values of a property. -/
inductive ValueSlots where
  | single (slot : Nat)
  | array (slots : Array Nat)
  deriving DecidableEq, Repr

/-- The slots with one more at the end of an array. -/
def ValueSlots.add (slot : Nat) : ValueSlots → ValueSlots
  | single present => single present
  | array slots => array (slots.push slot)

/-- What is known of the slots of a node: the array index of each, and the slots of the values. -/
structure SlotTable where
  indexes : Array (Option Nat)
  values : Register ValueSlots

namespace SlotTable

variable {ν : Type}

/-- The table of the opening tag alone. -/
def first : SlotTable :=
  ⟨#[none], ∅⟩

/-- The table with one more slot, of the given index. -/
def push (table : SlotTable) (index : Option Nat) : SlotTable :=
  { table with indexes := table.indexes.push index }

/-- The table with the next slot recorded as that of a value. -/
def record (table : SlotTable) (name : String) (index : Option Nat) : SlotTable :=
  let slot := table.indexes.size
  match index with
  | none => { table with values := table.values.insert name (.single slot) }
  | some _ =>
    if table.values.contains name then
      { table with values := table.values.modify name (ValueSlots.add slot) }
    else { table with values := table.values.insert name (.array #[slot]) }

/-- The reference whose value may come next: its name and its index. -/
abbrev Last := Option (String × Option Nat)

/-- The item stands for the value of the reference before it. -/
def isValue : Item ν → Bool
  | .gap | .arrayStart | .embedded _ => true
  | _ => false

/-- The item starts an array. -/
def isArrayStart : Item ν → Bool
  | .arrayStart => true
  | _ => false

/-- The pass over the items, given the table of the slots before them and the item just before. -/
def scan (scope : Scope) (last : Last) (table : SlotTable) (before : Option (Item ν)) :
    List (Item ν) → Except StructuralError SlotTable
  | [] => .ok (table.push none)
  | .reference edge :: rest =>
    if rest.head?.any isValue then
      match scope.consume edge with
      | (_, .error error) => .error error
      | (scope, .ok index) =>
        if rest.head?.any isArrayStart then
          scan (scope.startArray edge.name) none (table.push none) (some (.reference edge)) rest
        else scan scope (some (edge.name, index)) (table.push index) (some (.reference edge)) rest
    else .error (.danglingReference table.indexes.size)
  | .gap :: rest =>
    match before, last with
    | some (.reference _), some (name, index) =>
      scan scope last ((table.record name index).push index) (some .gap) rest
    | some (.shift _), some (_, index) => scan scope last (table.push index) (some .gap) rest
    | _, _ => scan scope last (table.push none) (some .gap) rest
  | item :: rest => scan scope last (table.push none) (some item) rest

/-- The table of a node. -/
def of : Node → Except StructuralError SlotTable
  | .element body => scan {} none first none body.items.toList
  | _ => .ok first

end SlotTable

end TagTree
