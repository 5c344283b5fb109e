import TagTree.Error

/-!
# Nodes

A node keeps its own tags between its opening and its closing tag as items. The value of a reference
is recorded there as a gap, and the node itself stands among the properties; an embedded node stands
at its place. A value that is one tag, a gap, `null` or a literal, is a stub.

The slots of a node number its own tags: slot 0 is the opening tag, the items follow, and the last
slot is the closing tag. A stub has slot 0 alone.
-/

namespace TagTree

/-- A bound value with the reference that it is bound to. -/
structure Binding (ν : Type) where
  reference : Reference
  node : ν

/-- The value of a property: one binding, or the bindings of an array in the order of their
references. -/
inductive Property (ν : Type) where
  | single (binding : Binding ν)
  | array (bindings : Array (Binding ν))

/-- What stands between the opening and the closing tag of a node. -/
inductive Item (ν : Type) where
  | reference (reference : Reference)
  | gap
  | arrayStart
  | shift (index : Nat)
  | literal (text : String)
  | embedded (node : ν)

/-- A node with an opening and a closing tag. The node has its marks, its language, its type and its
attributes twice: its opening tag says them in the flattened tree, and its label is what the node
itself is asked for. `held` is the place, among the items, of the gap that took back a shifted
value. `size` counts the nodes from this one down. -/
structure Element (ν : Type) where
  start : OpenTag
  label : OpenTag
  items : Array (Item ν)
  properties : List (String × Property ν)
  held : Option Nat
  size : Nat

/-- A node of a tree. -/
inductive Node where
  | gap
  | null
  | literal (text : String)
  | element (element : Element Node)

/-- What a node is. -/
inductive NodeType where
  | named (name : String)
  | fragment
  | gap
  | null
  | literal
  deriving DecidableEq, Repr

/-- All bindings of a property in order. -/
def Property.bindings {ν : Type} : Property ν → List (Binding ν)
  | single binding => [binding]
  | array bindings => bindings.toList

/-- One binding of a property. A single one ignores the index, an array needs it. -/
def Property.binding? {ν : Type} (index : Option Nat) : Property ν → Option (Binding ν)
  | single binding => some binding
  | array bindings => index.bind fun index => bindings[index]?

/-- What a property binds to a key is among its bindings. -/
theorem Property.mem_bindings_of_binding? {ν : Type} {index : Option Nat} {property : Property ν}
    {binding : Binding ν} (h : property.binding? index = some binding) :
    binding ∈ property.bindings := by
  cases property with
  | single bound => exact List.mem_singleton.mpr (Option.some.inj h).symm
  | array bindings =>
    obtain ⟨_, _, h⟩ := Option.bind_eq_some_iff.mp h
    exact Array.mem_toList_iff.mpr (Array.mem_of_getElem? h)

/-- An item as a tag. -/
def Item.toTag {ν : Type} : Item ν → Tag
  | reference edge => .reference edge
  | gap => .gap
  | arrayStart => .arrayStart
  | shift index => .shift index
  | literal text => .literal text
  | embedded _ => .embedded

/-- The embedded node of an item. -/
def Item.node? {ν : Type} : Item ν → Option ν
  | embedded node => some node
  | _ => none

namespace Node

/-- The node is a single tag. -/
def isStub : Node → Bool
  | element _ => false
  | _ => true

/-- What a node is. -/
def type : Node → NodeType
  | gap => .gap
  | null => .null
  | literal _ => .literal
  | element body =>
    match body.label.typeName with
    | some name => .named name
    | none => .fragment

/-- The name of a node's type. -/
def typeName? : Node → Option String
  | element body => body.label.typeName
  | _ => none

/-- The marks of a node. A gap has a gap, and a literal is an intrinsic token. -/
def flags : Node → NodeFlags
  | gap => { hasGap := true }
  | null => {}
  | literal _ => .intrinsicToken
  | element body => body.label.flags

/-- The node is a gap or has one beneath it. -/
def hasGap (node : Node) : Bool :=
  node.flags.hasGap

/-- The language of a node. -/
def language : Node → Option String
  | element body => body.label.language
  | _ => none

/-- The attributes of a node. -/
def attributes : Node → Attributes
  | element body => body.label.attributes
  | _ => []

/-- The text of a literal stub. -/
def literal? : Node → Option String
  | literal text => some text
  | _ => none

/-- The items of a node. -/
def items : Node → Array (Item Node)
  | element body => body.items
  | _ => #[]

/-- The properties of a node. -/
def properties : Node → List (String × Property Node)
  | element body => body.properties
  | _ => []

/-- The slot of the gap that took back a shifted value. -/
def heldSlot : Node → Option Nat
  | element body => body.held.map (· + 1)
  | _ => none

/-- A node's own tags, one for each slot. -/
def slots : Node → List Tag
  | gap => [.gap]
  | null => [.null]
  | literal text => [.literal text]
  | element body => .opening body.start :: body.items.toList.map Item.toTag ++ [.closing]

/-- The number of slots of a node. -/
def slotCount : Node → Nat
  | element body => body.items.size + 2
  | _ => 1

/-- The tag in a slot. Past the last slot of an element stands its closing tag again. -/
def tagAt (node : Node) (slot : Nat) : Tag :=
  match node, slot with
  | gap, _ => .gap
  | null, _ => .null
  | literal text, _ => .literal text
  | element body, 0 => .opening body.start
  | element body, position + 1 => ((body.items[position]?).map Item.toTag).getD .closing

/-- The node without the record of a shifted value. -/
def withoutHold : Node → Node
  | element body => element { body with held := none }
  | stub => stub

/-- The number of nodes in the tree beneath a node, itself included. -/
def size : Node → Nat
  | element body => body.size
  | _ => 1

/-- The number of nodes in the bindings. -/
def bindingsSize : List (Binding Node) → Nat
  | [] => 0
  | binding :: rest => binding.node.size + bindingsSize rest

/-- The number of nodes bound in the properties. -/
def propertiesSize : List (String × Property Node) → Nat
  | [] => 0
  | (_, property) :: rest => bindingsSize property.bindings + propertiesSize rest

/-- The number of nodes embedded in the items. -/
def itemsSize : List (Item Node) → Nat
  | [] => 0
  | .embedded node :: rest => node.size + itemsSize rest
  | _ :: rest => itemsSize rest

end Node

end TagTree
