import TagTree.Scope.Basic
import TagTree.Tree

/-!
# Open nodes

While a tree is built from tags, each open node is a frame: what the node holds so far, the
reference that waits for a value, the last value that a shift may detach, a value just detached, and
a value that the node has to take back. A tag that is refused leaves the frame as the refusal says.
-/

namespace TagTree

/-- A reference on its way to a value: the index of the array element, and the place of the
reference among the items of its node. -/
structure Target where
  reference : Reference
  index : Option Nat
  position : Nat

/-- A failure and the state that it leaves. -/
structure Refusal (σ : Type) where
  error : StructuralError
  state : σ

/-- A step that succeeds, or is refused and leaves a state. -/
abbrev Attempt (σ α : Type) := Except (Refusal σ) α

/-- The step is refused and leaves the given state. -/
def refuse {σ α : Type} (error : StructuralError) (state : σ) : Attempt σ α :=
  .error ⟨error, state⟩

/-- An open node. -/
structure Frame where
  /-- The number of open nodes up to this one. -/
  depth : Nat := 1
  start : OpenTag
  label : OpenTag
  /-- Where the node is bound in its parent. The root and embedded nodes are not bound. -/
  destination : Option Target
  /-- The shifted value that the node has to take back. -/
  owed : Option Node
  /-- A node around this one has a shifted value to take back. -/
  withinOwed : Bool := false
  items : Array (Item Node) := #[]
  properties : Register (Property Node) := ∅
  held : Option Nat := none
  scope : Scope := {}
  /-- The reference that waits for its value. -/
  pending : Option Target := none
  /-- The last value that a shift may detach. -/
  lastBound : Option Target := none
  /-- The number of shifts since the last reference. -/
  shifts : Nat := 0
  /-- A detached value, which the next node takes back. -/
  shifted : Option (Target × Node) := none

namespace Frame

variable {ν : Type}

/-- The frame with another item. -/
def push (frame : Frame) (item : Item Node) : Frame :=
  { frame with items := frame.items.push item }

/-- The array has been started. -/
def hasArray (frame : Frame) (name : String) : Bool :=
  match frame.properties.get? name with
  | some (.array _) => true
  | _ => false

/-- The value of a reference may be bound: the reference is not reserved, and its array has been
started. -/
def checkTarget (frame : Frame) (target : Target) : Except StructuralError Unit :=
  let name := target.reference.name
  if target.reference.isReserved then .error (.reservedReferenceMisuse name)
  else if target.reference.isArray && !frame.hasArray name then .error (.uninitializedArray name)
  else .ok ()

/-- The waiting reference, for a value of the given kind. It waits no longer, even if refused. -/
def takePending (frame : Frame) (kind : TagKind) : Attempt Frame (Target × Frame) :=
  match frame.pending with
  | none => refuse (.valueWithoutReference kind) frame
  | some target =>
    let taken := { frame with pending := none }
    match frame.checkTarget target with
    | .ok () => .ok (target, taken)
    | .error error => refuse error taken

/-- The items with other marks on the reference at a place. -/
def markReference (items : Array (Item ν)) (position : Nat)
    (mark : ReferenceFlags → ReferenceFlags) : Array (Item ν) :=
  items.modify position fun
    | .reference edge => .reference { edge with flags := mark edge.flags }
    | item => item

/-- The bindings of an array with one at an index: in place if there is one already, else at the
end. -/
def setBinding (bindings : Array (Binding ν)) (index : Option Nat) (binding : Binding ν) :
    Array (Binding ν) :=
  match index with
  | some index =>
    if index < bindings.size then bindings.setIfInBounds index binding else bindings.push binding
  | none => bindings.push binding

/-- The property with a binding set. A single one is left. -/
def bindElement (index : Option Nat) (binding : Binding ν) : Property ν → Property ν
  | .array bindings => .array (setBinding bindings index binding)
  | .single present => .single present

/-- The properties with a value bound to a target, whose array has been started. -/
def setProperty (properties : Register (Property ν)) (target : Target)
    (binding : Binding ν) : Register (Property ν) :=
  if target.reference.isArray then
    properties.modify target.reference.name (bindElement target.index binding)
  else properties.insert target.reference.name (.single binding)

/-- A value is bound to a target; its reference is marked if the value has a gap. -/
def attach (frame : Frame) (target : Target) (node : Node) : Attempt Frame Frame :=
  let flags := { target.reference.flags with hasGap := node.hasGap }
  let frame := { frame with items := markReference frame.items target.position fun _ => flags }
  let binding := ⟨{ target.reference with flags := flags }, node⟩
  if target.reference.isArray && !frame.hasArray target.reference.name then
    refuse (.uninitializedArray target.reference.name) frame
  else .ok { frame with properties := setProperty frame.properties target binding }

/-- A value is bound to a target and recorded as a gap. A shift may detach it. -/
def bind (frame : Frame) (target : Target) (node : Node) : Attempt Frame Frame := do
  let frame ← (frame.push .gap).attach target node
  return { frame with lastBound := some target }

/-- A reference starts to wait for its value. -/
def reference (frame : Frame) (edge : Reference) : Attempt Frame Frame :=
  match frame.pending with
  | some first => refuse (.consecutiveReferences first.reference.name edge.name) frame
  | none =>
    match frame.scope.consume edge with
    | (scope, .error error) => refuse error { frame with scope := scope }
    | (scope, .ok index) =>
      let edge := { edge with index := none, flags := { edge.flags with hasGap := false } }
      let target : Target := ⟨edge, index, frame.items.size⟩
      .ok { frame.push (.reference edge) with
        scope := scope
        pending := some target
        lastBound := none
        shifts := 0 }

/-- The binding of a target, as the properties have it. -/
def bound? (frame : Frame) (target : Target) : Option (Binding Node) := do
  let property ← frame.properties.get? target.reference.name
  property.binding? target.index

/-- A shift detaches the last value. Its index must continue the shifts of the same reference. -/
def shift (frame : Frame) (index : Nat) : Attempt Frame Frame :=
  if frame.pending.isSome then refuse .nothingToShift frame
  else
    match frame.lastBound with
    | none => refuse .nothingToShift frame
    | some target =>
      let freed := { frame with lastBound := none }
      if index ≠ freed.shifts + 1 then refuse (.shiftIndexMismatch index) freed
      else
        let counted := { freed with shifts := index }
        if counted.items.size ≠ target.position + 2 * index then
          refuse (.shiftIndexMismatch index) counted
        else
          match counted.bound? target with
          | none => refuse .nothingToShift counted
          | some binding =>
            .ok { counted.push (.shift index) with shifted := some (target, binding.node) }

/-- An array starts without elements. -/
def startArray (frame : Frame) : Attempt Frame Frame :=
  match frame.pending with
  | none => refuse (.valueWithoutReference .arrayStart) frame
  | some target =>
    let taken := { frame with pending := none }
    let name := target.reference.name
    if !target.reference.isArray || target.reference.isReserved then
      refuse (.initializerForScalar name) taken
    else if taken.properties.contains name then refuse (.arrayInitializedTwice name) taken
    else .ok { taken.push .arrayStart with
      properties := taken.properties.insert name (.array #[])
      scope := taken.scope.startArray name }

/-- Where a node that opens here goes: the target that it is bound to, if any, and the shifted
value that it takes back, if there is one. -/
def opening (frame : Frame) (start : OpenTag) :
    Attempt Frame (Frame × Option Target × Option Node) :=
  match frame.shifted with
  | some (target, node) => .ok ({ frame with shifted := none }, some target, some node)
  | none =>
    let taken := { frame with pending := none }
    if start.flags.isEmbedded then
      match frame.pending with
      | some target =>
        if target.reference.isReserved then .ok (taken, none, none)
        else refuse (.embeddedUnderNamedReference target.reference.name) taken
      | none => .ok (taken, none, none)
    else do
      let (target, taken) ← frame.takePending .opening
      return (taken, some target, none)

/-- Some value that is bound or embedded has a gap. -/
def hasGap (frame : Frame) : Bool :=
  frame.properties.entries.any
      (fun entry => entry.2.bindings.any fun binding => binding.node.hasGap) ||
    frame.items.any fun item => item.node?.any Node.hasGap

/-- The number of nodes from the open node down. -/
def size (frame : Frame) : Nat :=
  1 + Node.propertiesSize frame.properties.toList + Node.itemsSize frame.items.toList

/-- The finished node. -/
def toNode (frame : Frame) : Node :=
  .element {
    start := frame.start.marked frame.hasGap
    label := frame.label.marked frame.hasGap
    items := frame.items
    properties := frame.properties.toList
    held := frame.held
    size := frame.size }

/-- The node may close: no reference waits and no shifted value is left over. -/
def checkClose (frame : Frame) : Except StructuralError Unit :=
  match frame.pending with
  | some target => .error (.referencePendingAtClose target.reference.name)
  | none =>
    if frame.owed.isSome || frame.shifted.isSome then .error .shiftedValueNotReattached else .ok ()

/-- A node that was opened here is finished. -/
def receive (frame : Frame) (destination : Option Target) (node : Node) : Attempt Frame Frame :=
  match destination with
  | some target => frame.bind target node
  | none => .ok (frame.push (.embedded node))

end Frame

end TagTree
