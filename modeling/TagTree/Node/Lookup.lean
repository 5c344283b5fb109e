import TagTree.Node.Basic

/-!
# Look-up in nodes

A binding is found by its key, the name of a property and, for an array, an index. It is found too
by the slot of the gap that records it: the reference that the gap belongs to stands directly before
it, or as far back as the shift before it counts. A directory holds what look-up needs of a node and
is worked out once.
-/

namespace TagTree

/-- What a binding of a node is found by. -/
structure Key where
  name : String
  index : Option Nat
  deriving DecidableEq, Repr

namespace Item

variable {ν : Type}

/-- The item is a gap. -/
def isGap : Item ν → Bool
  | gap => true
  | _ => false

/-- The item is a shift. -/
def isShift : Item ν → Bool
  | shift _ => true
  | _ => false

/-- A gap after the item is the place of a value. -/
def introducesValue : Item ν → Bool
  | reference _ | shift _ => true
  | _ => false

/-- The reference that the gap at a position belongs to, and the position of the reference. A shift
of index `n` stands `2 * n` items after its reference. -/
def owner? (items : Array (Item ν)) : (position : Nat) → Option (Reference × Nat)
  | 0 => none
  | before + 1 =>
    match items[before]? with
    | some (reference edge) => some (edge, before)
    | some (shift index) =>
      if 2 * index ≤ before then
        match items[before - 2 * index]? with
        | some (reference edge) => some (edge, before - 2 * index)
        | _ => none
      else none
    | _ => none

/-- For each item, the key of the value that it introduces if it is a reference before a gap. The
counts are those of the values before, by name. -/
def keys (counts : Std.TreeMap String Nat) : List (Item ν) → List (Option Key)
  | [] => []
  | reference edge :: rest =>
    if rest.head?.any isGap then
      let count := counts.getD edge.name 0
      some ⟨edge.name, if edge.isArray then some count else none⟩ ::
        keys (counts.insert edge.name (count + 1)) rest
    else none :: keys counts rest
  | _ :: rest => none :: keys counts rest

/-- The number of shifts, each with its gap, that directly follow a value. -/
def shiftsAfter : List (Item ν) → Nat
  | shift _ :: gap :: rest => shiftsAfter rest + 1
  | _ => 0

end Item

/-- The parts of a node, laid out for look-up: its items, its properties by name, and for each item
the key of the value that it introduces. -/
structure Directory (ν : Type) where
  items : Array (Item ν)
  properties : Std.TreeMap String (Property ν)
  keys : Array (Option Key)

namespace Directory

variable {ν : Type}

/-- The directory of a node with the given items and properties. -/
def of (items : Array (Item ν)) (properties : List (String × Property ν)) : Directory ν where
  items := items
  properties := Entries.index properties
  keys := (Item.keys ∅ items.toList).toArray

/-- The binding of a key. A single binding has no index, an array needs one. -/
def binding (directory : Directory ν) (name : String) (index : Option Nat) :
    Except LookupError (Binding ν) :=
  match directory.properties[name]?, index with
  | none, _ => .error (.property name)
  | some (.single binding), none => .ok binding
  | some (.single _), some _ => .error (.notAnArray name)
  | some (.array _), none => .error (.property name)
  | some (.array bindings), some index =>
    match bindings[index]? with
    | some binding => .ok binding
    | none => .error (.arrayElement name index)

/-- What is bound to a single property. -/
def get (directory : Directory ν) (name : String) : Except LookupError ν := do
  return (← directory.binding name none).node

/-- What is bound to an array. -/
def getArray (directory : Directory ν) (name : String) : Except LookupError (List ν) :=
  match directory.properties[name]? with
  | some (.array bindings) => .ok (bindings.toList.map Binding.node)
  | some (.single _) => .error (.notAnArray name)
  | none => .error (.property name)

/-- The key of the binding that the gap in a slot records. -/
def keyAt? (directory : Directory ν) : (slot : Nat) → Option Key
  | 0 => none
  | position + 1 =>
    match directory.items[position]? with
    | some .gap => do
      let (_, owner) ← Item.owner? directory.items position
      (directory.keys[owner]?).join
    | _ => none

/-- The binding that the gap in a slot records. -/
def bindingAt (directory : Directory ν) (slot : Nat) : Except LookupError (Binding ν) :=
  match directory.keyAt? slot with
  | some key => (directory.binding key.name key.index).mapError fun _ => .slot slot
  | none => .error (.slot slot)

/-- The shifted value that was taken back in a slot. -/
def held (directory : Directory ν) : (slot : Option Nat) → Except LookupError ν
  | none => .error (.slot 0)
  | some slot => do return (← directory.bindingAt slot).node

/-- The values of all references in the order of the items. -/
def values (directory : Directory ν) : List ν :=
  directory.keys.toList.filterMap fun key => do
    let key ← key
    let property ← directory.properties[key.name]?
    let binding ← property.binding? key.index
    return binding.node

end Directory

namespace Node

/-- A property by its name. -/
def property? (node : Node) (name : String) : Option (Property Node) :=
  Entries.get? name node.properties

/-- The parts of a node, laid out for look-up. -/
def directory (node : Node) : Directory Node :=
  .of node.items node.properties

/-- The directory has the properties of the node. -/
@[simp] theorem getElem?_properties_directory (node : Node) (name : String) :
    node.directory.properties[name]? = node.property? name :=
  Entries.getElem?_index node.properties name

/-- The binding of a key. -/
def binding (node : Node) (name : String) (index : Option Nat) :
    Except LookupError (Binding Node) :=
  node.directory.binding name index

/-- The binding that the gap in a slot records. -/
def bindingAt (node : Node) (slot : Nat) : Except LookupError (Binding Node) :=
  node.directory.bindingAt slot

/-- The shifted value that the node took back. -/
def heldValue (node : Node) : Except LookupError Node :=
  node.directory.held node.heldSlot

/-- The values that stood before a number of shifts, oldest first, each taken back by the one after
it, then the given value and the later ones. -/
def historyOnto (value : Except LookupError Node) (later : List (Except LookupError Node)) :
    (shifts : Nat) → List (Except LookupError Node)
  | 0 => value :: later
  | shifts + 1 => historyOnto (value.bind heldValue) (value :: later) shifts

/-- All values that a reference had, oldest first, given the last one and the number of shifts. -/
def history (node : Node) (shifts : Nat) : List (Except LookupError Node) :=
  historyOnto (.ok node) [] shifts

end Node

end TagTree
