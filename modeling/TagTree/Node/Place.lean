import TagTree.Node.Lookup

/-!
# Places in a tree

The nodes of a tree are numbered in preorder: a node comes before what its properties bind, and that
before what is embedded in it. The place of a node is its number with that of the node above. Two
nodes that look the same are told apart by their numbers.
-/

namespace TagTree

/-- A node with its number in the tree and the number of the node above. -/
structure Place where
  number : Nat
  parent : Option Nat
  node : Node

namespace Place

/-- The place of the root. -/
def root (node : Node) : Place :=
  ⟨0, none, node⟩

/-- The place of a child with the given number. -/
def child (place : Place) (number : Nat) (node : Node) : Place :=
  ⟨number, some place.number, node⟩

/-- The bindings with the places of their nodes, the first of which has the given number. -/
def locateBindings (place : Place) (number : Nat) : List (Binding Node) → List (Binding Place)
  | [] => []
  | ⟨reference, node⟩ :: rest =>
    ⟨reference, place.child number node⟩ :: place.locateBindings (number + node.size) rest

/-- The property with the places of its nodes, the first of which has the given number. -/
def locateProperty (place : Place) (number : Nat) : Property Node → Property Place
  | .single ⟨reference, node⟩ => .single ⟨reference, place.child number node⟩
  | .array bindings => .array (place.locateBindings number bindings.toList).toArray

/-- The properties with the places of their nodes, the first of which has the given number. -/
def locateProperties (place : Place) (number : Nat) :
    List (String × Property Node) → List (String × Property Place)
  | [] => []
  | (name, property) :: rest =>
    (name, place.locateProperty number property) ::
      place.locateProperties (number + Node.bindingsSize property.bindings) rest

/-- The items with the places of the embedded nodes, the first of which has the given number. -/
def locateItems (place : Place) (number : Nat) : List (Item Node) → List (Item Place)
  | [] => []
  | .embedded node :: rest =>
    .embedded (place.child number node) :: place.locateItems (number + node.size) rest
  | .reference edge :: rest => .reference edge :: place.locateItems number rest
  | .gap :: rest => .gap :: place.locateItems number rest
  | .arrayStart :: rest => .arrayStart :: place.locateItems number rest
  | .shift index :: rest => .shift index :: place.locateItems number rest
  | .literal text :: rest => .literal text :: place.locateItems number rest

/-- The properties with the places of the bound nodes. -/
def properties (place : Place) : List (String × Property Place) :=
  place.locateProperties (place.number + 1) place.node.properties

/-- The items with the places of the embedded nodes, which come after all that is bound. -/
def items (place : Place) : Array (Item Place) :=
  let first := place.number + 1 + Node.propertiesSize place.node.properties
  (place.locateItems first place.node.items.toList).toArray

/-- The parts of the node with their places, laid out for look-up. -/
def directory (place : Place) : Directory Place :=
  .of place.items place.properties

/-- The places of the embedded nodes in order. -/
def embedded (place : Place) : List Place :=
  place.items.toList.filterMap Item.node?

/-- The place of what a key is bound to. -/
def follow (place : Place) (name : String) (index : Option Nat) : Except LookupError Place := do
  return (← place.directory.binding name index).node

/-- The place of the shifted value that the node took back. -/
def held (place : Place) : Except LookupError Place :=
  place.directory.held place.node.heldSlot

end Place

namespace Node

mutual

/-- The places met before, and then those from a node down. A node's number is the count of those
met before it. -/
def listPlaces (met : Array Place) (parent : Option Nat) : Node → Array Place
  | node@(element ⟨_, _, ⟨items⟩, properties, _, _⟩) =>
    let number := met.size
    listItems (listProperties (met.push ⟨number, parent, node⟩) number properties) number items
  | stub => met.push ⟨met.size, parent, stub⟩

/-- The places met before, and then those beneath the items. -/
def listItems (met : Array Place) (parent : Nat) : List (Item Node) → Array Place
  | [] => met
  | .embedded node :: rest => listItems (listPlaces met (some parent) node) parent rest
  | _ :: rest => listItems met parent rest

/-- The places met before, and then those beneath the properties. -/
def listProperties (met : Array Place) (parent : Nat) :
    List (String × Property Node) → Array Place
  | [] => met
  | (_, .single ⟨_, node⟩) :: rest => listProperties (listPlaces met (some parent) node) parent rest
  | (_, .array ⟨bindings⟩) :: rest => listProperties (listBindings met parent bindings) parent rest

/-- The places met before, and then those beneath the bindings of an array. -/
def listBindings (met : Array Place) (parent : Nat) : List (Binding Node) → Array Place
  | [] => met
  | ⟨_, node⟩ :: rest => listBindings (listPlaces met (some parent) node) parent rest

end

/-- All places of a tree in preorder. -/
def places (root : Node) : Array Place :=
  listPlaces #[] none root

end Node

/-- The place above a place in the tree with the given root. -/
def Place.above? (root : Node) (place : Place) : Option Place := do
  root.places[← place.parent]?

end TagTree
