import TagTree.Builder.Run
import TagTree.Scope.Stack

/-!
# Building in a store

A second way to build a tree. All nodes are cells of one store and refer to what they bind and
embed, and to the node above, by number. The open nodes are a stack of numbers, and beside it there
is a stack of scopes. A tag changes cells in place.

Unlike a `Builder`, a store can go wrong: a step takes the innermost open node where there is none,
follows a number that no cell has, or copies without end. An action then has no result. That this
does not happen is shown in `TagTree.Proofs.Store.Session`.
-/

namespace TagTree

/-- The nodes that a property binds, in order. -/
def Property.nodes {ν : Type} (property : Property ν) : List ν :=
  property.bindings.map Binding.node

/-- The nodes that the properties bind, in order. -/
def boundNodes {ν : Type} (properties : Entries (Property ν)) : List ν :=
  properties.flatMap fun entry => entry.2.nodes

/-- The nodes that the items embed, in order. -/
def embeddedNodes {ν : Type} (items : List (Item ν)) : List ν :=
  items.filterMap Item.node?

/-- What a cell is: a stub of one tag, or a node with an opening tag. -/
inductive Head where
  | gap
  | null
  | literal (text : String)
  | opening (start : OpenTag)

namespace Head

/-- The opening tag with the mark of a gap set. -/
def withGap (hasGap : Bool) : Head → Head
  | opening start => opening (start.marked hasGap)
  | stub => stub

/-- What a new node is asked for: a gap has a gap, and a literal is an intrinsic token. -/
def label (inherited : Option String) : Head → OpenTag
  | gap => ⟨{ hasGap := true }, none, none, []⟩
  | null => ⟨{}, none, none, []⟩
  | literal _ => ⟨.intrinsicToken, none, none, []⟩
  | opening start => start.label inherited

end Head

/-- A node whose parts are known by their numbers. Its own marks, language, type and attributes are
kept in the label, apart from the tag that it begins with. -/
structure Content where
  head : Head
  label : OpenTag
  items : Array (Item Nat) := #[]
  properties : Register (Property Nat) := ∅
  held : Option Nat := none

namespace Content

/-- The node is a gap or is marked to have one beneath it. -/
def hasGap (content : Content) : Bool :=
  content.label.flags.hasGap

/-- The node with the mark of a gap set, in its label and in its opening tag. -/
def withGap (hasGap : Bool) (content : Content) : Content :=
  { content with
    label := content.label.marked hasGap
    head := content.head.withGap hasGap }

/-- The node is a fragment. -/
def isFragment (content : Content) : Bool :=
  match content.head with
  | .opening _ => content.label.typeName.isNone
  | _ => false

/-- The label says what the opening tag says, but for a language that the node may have inherited.
-/
def Labelled (content : Content) : Prop :=
  ∃ inherited, content.label = content.head.label inherited

/-- The numbers of all that the node binds and embeds. -/
def kids (content : Content) : List Nat :=
  boundNodes content.properties.toList ++ embeddedNodes content.items.toList

/-- The array has been started. -/
def hasArray (content : Content) (name : String) : Bool :=
  match content.properties.get? name with
  | some (.array _) => true
  | _ => false

/-- The number that is bound to a target. -/
def bound? (content : Content) (target : Target) : Option Nat := do
  let property ← content.properties.get? target.reference.name
  return (← property.binding? target.index).node

/-- The node with another item. -/
def push (content : Content) (item : Item Nat) : Content :=
  { content with items := content.items.push item }

/-- The node with an array that has no elements. -/
def startArray (content : Content) (name : String) : Content :=
  let content := content.push .arrayStart
  { content with properties := content.properties.insert name (.array #[]) }

/-- A value is bound to a target, whose reference is marked if the value has a gap. -/
def attach (content : Content) (target : Target) (node : Nat) (hasGap : Bool) :
    Attempt Content Content :=
  let flags := { target.reference.flags with hasGap := hasGap }
  let content :=
    { content with items := Frame.markReference content.items target.position fun _ => flags }
  if target.reference.isArray && !content.hasArray target.reference.name then
    refuse (.uninitializedArray target.reference.name) content
  else
    let binding := ⟨{ target.reference with flags := flags }, node⟩
    .ok { content with properties := Frame.setProperty content.properties target binding }

end Content

/-- A cell of a store: a node with the number of the node above. -/
structure Cell extends Content where
  parent : Option Nat

/-- An open node, whose parts are in its cell. -/
structure OpenCell where
  id : Nat
  /-- Where the node is bound in its parent. -/
  destination : Option Target := none
  /-- The shifted value that the node has to take back. -/
  owed : Option Nat := none
  pending : Option Target := none
  lastBound : Option Target := none
  shifts : Nat := 0
  shifted : Option (Target × Nat) := none

/-- The innermost open node with its cell and its scope. -/
structure Top where
  node : OpenCell
  content : Content
  scope : Scope

namespace Top

/-- The node with another item. -/
def push (top : Top) (item : Item Nat) : Top :=
  { top with content := top.content.push item }

/-- The value of a reference may be bound. -/
def checkTarget (top : Top) (target : Target) : Except StructuralError Unit :=
  let name := target.reference.name
  if target.reference.isReserved then .error (.reservedReferenceMisuse name)
  else if target.reference.isArray && !top.content.hasArray name then
    .error (.uninitializedArray name)
  else .ok ()

/-- The node whose reference waits no longer. -/
def taken (top : Top) : Top :=
  { top with node := { top.node with pending := none } }

/-- The waiting reference, for a value of the given kind. -/
def takePending (top : Top) (kind : TagKind) : Attempt Top (Target × Top) :=
  match top.node.pending with
  | none => refuse (.valueWithoutReference kind) top
  | some target =>
    match top.checkTarget target with
    | .ok () => .ok (target, top.taken)
    | .error error => refuse error top.taken

/-- A reference starts to wait for its value. -/
def reference (top : Top) (edge : Reference) : Attempt Top Top :=
  match top.node.pending with
  | some first => refuse (.consecutiveReferences first.reference.name edge.name) top
  | none =>
    match top.scope.consume edge with
    | (scope, .error error) => refuse error { top with scope := scope }
    | (scope, .ok index) =>
      let edge := { edge with index := none, flags := { edge.flags with hasGap := false } }
      let target : Target := ⟨edge, index, top.content.items.size⟩
      .ok { top.push (.reference edge) with
        scope := scope
        node := { top.node with pending := some target, lastBound := none, shifts := 0 } }

/-- A shift detaches the last value. -/
def shift (top : Top) (index : Nat) : Attempt Top Top :=
  if top.node.pending.isSome then refuse .nothingToShift top
  else
    match top.node.lastBound with
    | none => refuse .nothingToShift top
    | some target =>
      let freed := { top with node := { top.node with lastBound := none } }
      if index ≠ freed.node.shifts + 1 then refuse (.shiftIndexMismatch index) freed
      else
        let counted := { freed with node := { freed.node with shifts := index } }
        if counted.content.items.size ≠ target.position + 2 * index then
          refuse (.shiftIndexMismatch index) counted
        else
          match counted.content.bound? target with
          | none => refuse .nothingToShift counted
          | some node =>
            .ok { counted.push (.shift index) with
              node := { counted.node with shifted := some (target, node) } }

/-- An array starts without elements. -/
def startArray (top : Top) : Attempt Top Top :=
  match top.node.pending with
  | none => refuse (.valueWithoutReference .arrayStart) top
  | some target =>
    let name := target.reference.name
    if !target.reference.isArray || target.reference.isReserved then
      refuse (.initializerForScalar name) top.taken
    else if top.content.properties.contains name then refuse (.arrayInitializedTwice name) top.taken
    else .ok { top.taken with
      content := top.content.startArray name
      scope := top.scope.startArray name }

/-- Where a node that opens here goes, and the shifted value that it takes back. -/
def opening (top : Top) (start : OpenTag) : Attempt Top ((Option Target × Option Nat) × Top) :=
  match top.node.shifted with
  | some (target, node) =>
    .ok ((some target, some node), { top with node := { top.node with shifted := none } })
  | none =>
    if start.flags.isEmbedded then
      match top.node.pending with
      | some target =>
        if target.reference.isReserved then .ok ((none, none), top.taken)
        else refuse (.embeddedUnderNamedReference target.reference.name) top.taken
      | none => .ok ((none, none), top.taken)
    else do
      let (target, top) ← top.takePending .opening
      return ((some target, none), top)

/-- The node may close. -/
def checkClose (top : Top) : Attempt Top (Unit × Top) :=
  match top.node.pending with
  | some target => refuse (.referencePendingAtClose target.reference.name) top
  | none =>
    if top.node.owed.isSome || top.node.shifted.isSome then refuse .shiftedValueNotReattached top
    else .ok ((), top)

/-- The value that the node has to take back. The next gap takes it. -/
def takeOwed (top : Top) : Option Nat × Top :=
  match top.node.owed with
  | some node =>
    (some node, { top with
      node := { top.node with owed := none }
      content := { top.content with held := some top.content.items.size } })
  | none => (none, top)

/-- The reference at the place of the target is marked as that of an expression. -/
def markExpression (top : Top) (target : Target) : Top :=
  let mark (flags : ReferenceFlags) : ReferenceFlags := { flags with expression := true }
  let items := Frame.markReference top.content.items target.position mark
  { top with content := { top.content with items := items } }

/-- The reference of the target is taken back. -/
def withdraw (top : Top) (target : Target) : Top :=
  { top with
    content := { top.content with items := top.content.items.take target.position }
    scope := top.scope.retract target.reference.name }

/-- A further reference to the same array. -/
def further (top : Top) (edge : Reference) : Attempt Top (Target × Top) :=
  let pushed := top.push (.reference edge)
  match pushed.scope.consume edge with
  | (scope, .error error) => refuse error { pushed with scope := scope }
  | (scope, .ok index) =>
    .ok (⟨edge, index, pushed.content.items.size - 1⟩, { pushed with scope := scope })

/-- The value that a shift may detach is the one of the target, or there is none. -/
def withLast (top : Top) (target : Option Target) : Top :=
  { top with node := { top.node with lastBound := target } }

end Top

/-- A finished tree as a store keeps it. -/
structure Arena where
  doctype : Option Doctype
  cells : Array Cell
  root : Nat

/-- A store in which a tree is being built, with its open nodes, innermost first. -/
@[ext] structure Store where
  expressions : Bool := false
  doctype : Option Doctype := none
  cells : Array Cell := #[]
  opened : List OpenCell := []
  scopes : ScopeStack := []
  root : Option Nat := none
  awaiting : Option Target := none

/-- A step of a store. It gives a result or is refused, and leaves a store in both cases; or it goes
wrong and leaves nothing. -/
def Action (α : Type) := Store → Option (Except StructuralError α × Store)

/-- One step after the other, unless the first one is refused or goes wrong. -/
def Action.bind {α β : Type} (action : Action α) (next : α → Action β) : Action β := fun store =>
  match action store with
  | none => none
  | some (.error error, left) => some (.error error, left)
  | some (.ok value, left) => next value left

instance : Monad Action where
  pure value := fun store => some (.ok value, store)
  bind := Action.bind

namespace Action

variable {α : Type}

/-- The step is refused. -/
def fail (error : StructuralError) : Action α := fun store => some (.error error, store)

/-- The store as it is. -/
def read : Action Store := fun store => some (.ok store, store)

/-- The store is changed. -/
def change (f : Store → Store) : Action Unit := fun store => some (.ok (), f store)

end Action

namespace Store

/-- The innermost open node. -/
def top? (store : Store) : Option Top :=
  match store.opened, store.scopes with
  | node :: _, scope :: _ => do
    let cell ← store.cells[node.id]?
    return ⟨node, cell.toContent, scope⟩
  | _, _ => none

/-- The store with other parts of a cell. -/
def setContent (store : Store) (id : Nat) (content : Content) : Store :=
  { store with cells := store.cells.modify id fun cell => { cell with toContent := content } }

/-- The store with another parent of a cell. -/
def setParent (store : Store) (id parent : Nat) : Store :=
  { store with cells := store.cells.modify id fun cell => { cell with parent := some parent } }

/-- The store with another innermost open node. -/
def putTop (store : Store) (top : Top) : Store :=
  { store.setContent top.node.id top.content with
    opened := top.node :: store.opened.tail
    scopes := store.scopes.setTop top.scope }

end Store

namespace Action

variable {α : Type}

/-- A step of the innermost open node as a step of the store. -/
def onTop (step : Top → Attempt Top (α × Top)) : Action α := fun store => do
  let top ← store.top?
  match step top with
  | .ok (value, top) => some (.ok value, store.putTop top)
  | .error refusal => some (.error refusal.error, store.putTop refusal.state)

/-- What the innermost open node is. -/
def readTop (f : Top → α) : Action α := fun store => do
  some (.ok (f (← store.top?)), store)

/-- The innermost open node is changed. -/
def changeTop (f : Top → Top) : Action Unit :=
  onTop fun top => .ok ((), f top)

/-- A new cell. -/
def alloc (cell : Cell) : Action Nat := fun store =>
  some (.ok store.cells.size, { store with cells := store.cells.push cell })

/-- A node is bound to a target of another one, which becomes the node above. -/
def attach (parent : Nat) (target : Target) (node : Nat) : Action Unit := fun store => do
  let cell ← store.cells[node]?
  let store := store.setParent node parent
  let holder ← store.cells[parent]?
  match holder.attach target node cell.hasGap with
  | .ok content => some (.ok (), store.setContent parent content)
  | .error refusal => some (.error refusal.error, store.setContent parent refusal.state)

/-- A node is bound to a target of the innermost open node and recorded as a gap. A shift may detach
it. -/
def bindValue (target : Target) (node : Nat) : Action Unit := do
  let parent ← onTop fun top => .ok (top.node.id, top.push .gap)
  attach parent target node
  changeTop fun top => top.withLast (some target)

/-- A stub is made and bound to a target. -/
def bindStub (target : Target) (head : Head) : Action Unit := do
  bindValue target (← alloc { head := head, label := head.label none, parent := none })

/-- What stands for a node that opens, until it closes. -/
def placeholder (destination : Option Target) (id : Nat) : Item Nat :=
  if destination.isSome then .gap else .embedded id

/-- A node is made within the innermost open node, and is open. -/
def enter (start : OpenTag) (destination : Option Target) (owed : Option Nat) : Action Unit := do
  let parent ← readTop fun top => top.node.id
  let id ← alloc { head := .opening start, label := start.label none, parent := some parent }
  changeTop fun top => top.push (placeholder destination id)
  change fun store => { store with
    opened := { id := id, destination := destination, owed := owed } :: store.opened
    scopes := store.scopes.enter }

/-- A node opens within the innermost open node. -/
def openChild (start : OpenTag) : Action Unit := do
  let (destination, owed) ← onTop fun top => top.opening start
  enter start destination owed

/-- The root opens. -/
def openRoot (start : OpenTag) : Action Unit := do
  let store ← read
  let label := start.label (store.doctype.bind Doctype.language)
  let id ← alloc { head := .opening start, label := label, parent := none }
  change fun store => { store with
    root := some id
    opened := { id := id } :: store.opened
    scopes := store.scopes.enter }

/-- A node opens. -/
def openNode (start : OpenTag) : Action Unit := do
  if Builder.isContradictory start then fail (.escapeAndTrivia (start.typeName.getD ""))
  else
    let start := start.plain
    let store ← read
    if store.opened.isEmpty then openRoot start else openChild start

/-- Some of the nodes has a gap. -/
def anyGap (ids : List Nat) : Action Bool := fun store => do
  let cells ← ids.mapM fun id => store.cells[id]?
  some (.ok (cells.any fun cell => cell.hasGap), store)

/-- The innermost open node is taken from the stack. -/
def pop : Action Top := fun store => do
  let top ← store.top?
  some (.ok top, { store with opened := store.opened.tail, scopes := store.scopes.exit })

/-- The innermost open node is left, if it may close. -/
def leave : Action Top := do
  onTop Top.checkClose
  let top ← pop
  let hasGap ← anyGap top.content.kids
  change fun store => store.setContent top.node.id (top.content.withGap hasGap)
  return top

/-- The innermost open node closes. -/
def close : Action Unit := do
  let top ← leave
  match top.node.destination with
  | none => return ()
  | some target => do
    let parent ← readTop fun outer => outer.node.id
    attach parent target top.node.id
    changeTop fun outer => outer.withLast (some target)

/-- A gap takes back the shifted value that the node is owed, or asks for an expression, or stays.
-/
def gap : Action Feed := do
  let target ← onTop fun top => top.takePending .gap
  let store ← read
  if store.opened.tail.any fun node => node.owed.isSome then fail .shiftedValueNotReattached
  else
    match ← onTop fun top => .ok top.takeOwed with
    | some node => do
      bindValue target node
      return .accepted
    | none =>
      if store.expressions then do
        change fun store => { store with awaiting := some target }
        return .needsExpression
      else do
        bindStub target .gap
        return .accepted

/-- The value `null`, which no shift may detach. -/
def null : Action Unit := do
  let target ← onTop fun top => top.takePending .null
  bindStub target .null
  changeTop fun top => top.withLast none

/-- A literal is the value of the waiting reference, or content if none waits. -/
def literal (text : String) : Action Unit := do
  let isContent ← readTop fun top => top.node.pending.isNone
  if isContent then changeTop fun top => top.push (.literal text)
  else
    let target ← onTop fun top => top.takePending .literal
    bindStub target (.literal text)

/-- A tag outside of every node. -/
def pushOutside (tag : Tag) : Action Unit := do
  let store ← read
  if store.root.isSome then fail (.trailingTag tag.kind)
  else
    match tag with
    | .opening start => openNode start
    | .closing => fail .unbalancedClose
    | tag => fail (.outsideNode tag.kind)

/-- A step of the innermost open node that has no result. -/
def stepTop (step : Top → Attempt Top Top) : Action Unit :=
  onTop fun top => (step top).map fun top => ((), top)

/-- A tag within the innermost open node. -/
def pushInside (tag : Tag) : Action Feed := do
  let shifted ← readTop fun top => top.node.shifted.isSome
  if shifted && !Builder.opensBound tag then fail .shiftedValueNotReattached
  else
    match tag with
    | .opening start => do
      openNode start
      return .accepted
    | .closing => do
      close
      return .accepted
    | .reference edge => do
      stepTop fun top => top.reference edge
      return .accepted
    | .shift index => do
      stepTop fun top => top.shift index
      return .accepted
    | .gap => gap
    | .null => do
      null
      return .accepted
    | .arrayStart => do
      stepTop Top.startArray
      return .accepted
    | .literal text => do
      literal text
      return .accepted
    | .embedded => fail (.valueWithoutReference .embedded)
    | .doctype _ | .effect _ => return .accepted

/-- The header comes before the root, once. -/
def pushDoctype (header : Doctype) : Action Unit := do
  let store ← read
  if store.root.isSome || store.doctype.isSome then fail .misplacedDoctype
  else change fun store => { store with doctype := some header }

end Action

namespace Store

/-- The store takes one tag. -/
def push (tag : Tag) : Action Feed := do
  let store ← Action.read
  if store.awaiting.isSome then Action.fail .expressionPending
  else
    match tag with
    | .effect _ => return .accepted
    | .doctype header => do
      Action.pushDoctype header
      return .accepted
    | tag =>
      if store.opened.isEmpty then do
        Action.pushOutside tag
        return .accepted
      else Action.pushInside tag

/-- The finished tree. -/
def finish (store : Store) : Except StructuralError Arena :=
  if store.awaiting.isSome then .error .expressionPending
  else if !store.opened.isEmpty then .error (.unclosedNodes store.opened.length)
  else
    match store.root with
    | some root => .ok ⟨store.doctype, store.cells, root⟩
    | none => .error .emptyStream

end Store

/-! ### Copies -/

section Renumber

variable {ν : Type}

/-- The items with numbers for the embedded nodes, the first of which is given. -/
def renumberItems (next : Nat) : List (Item ν) → List (Item Nat)
  | [] => []
  | .embedded _ :: rest => .embedded next :: renumberItems (next + 1) rest
  | .reference edge :: rest => .reference edge :: renumberItems next rest
  | .gap :: rest => .gap :: renumberItems next rest
  | .arrayStart :: rest => .arrayStart :: renumberItems next rest
  | .shift index :: rest => .shift index :: renumberItems next rest
  | .literal text :: rest => .literal text :: renumberItems next rest

/-- The bindings with numbers for their nodes, the first of which is given. -/
def renumberBindings (next : Nat) : List (Binding ν) → List (Binding Nat)
  | [] => []
  | binding :: rest => ⟨binding.reference, next⟩ :: renumberBindings (next + 1) rest

/-- The property with numbers for its nodes, the first of which is given. -/
def renumberProperty (next : Nat) : Property ν → Property Nat
  | .single binding => .single ⟨binding.reference, next⟩
  | .array bindings => .array (renumberBindings next bindings.toList).toArray

/-- The properties with numbers for their nodes, the first of which is given. -/
def renumberProperties (next : Nat) : Entries (Property ν) → Entries (Property Nat)
  | [] => []
  | (name, property) :: rest =>
    (name, renumberProperty next property) :: renumberProperties (next + property.nodes.length) rest

end Renumber

/-- The numbers of what the node embeds, and then of what it binds. -/
def Content.parts (content : Content) : List Nat :=
  embeddedNodes content.items.toList ++ boundNodes content.properties.toList

/-- The content with numbers from a given one on for its parts. -/
def Content.renumber (content : Content) (next : Nat) : Content :=
  let embedded := embeddedNodes content.items.toList
  { content with
    items := (renumberItems next content.items.toList).toArray
    properties := .ofPairs (renumberProperties (next + embedded.length) content.properties.toList) }

/-- A cell for a copy of the node with its label, but as yet without its tags and its parts. -/
def Cell.shell (cell : Cell) (parent : Option Nat) : Cell :=
  { head := .null, label := cell.label, held := cell.held, parent := parent }

namespace Arena

/-- Copies of nodes of a tree, in cells that have been reserved for them. -/
structure Copying where
  cells : Array Cell
  /-- The nodes whose parts have not been copied, each with its copy. -/
  stack : List (Nat × Nat)

/-- A cell is reserved for a copy of a node. -/
def reserve (arena : Arena) (parent : Option Nat) (state : Copying)
    (id : Nat) : Option Copying := do
  let cell ← arena.cells[id]?
  return {
    cells := state.cells.push (cell.shell parent)
    stack := (id, state.cells.size) :: state.stack }

/-- The tags and the parts of a copy are put in place, after cells have been reserved for these. -/
def copyParts (arena : Arena) (state : Copying) (id copy : Nat) : Option Copying := do
  let cell ← arena.cells[id]?
  let renumbered := cell.renumber state.cells.size
  let state ← cell.parts.foldlM (arena.reserve (some copy)) state
  let shell ← state.cells[copy]?
  return { state with
    cells := state.cells.setIfInBounds copy
      { shell with
        head := renumbered.head
        items := renumbered.items
        properties := renumbered.properties } }

/-- The next of the copies gets its parts. The cells are complete if there is none. -/
def copyNext (arena : Arena) (state : Copying) : Option (Copying ⊕ Array Cell) :=
  match state.stack with
  | [] => some (.inr state.cells)
  | (id, copy) :: rest => do
    return .inl (← arena.copyParts { state with stack := rest } id copy)

/-- All parts of the copies are put in place. -/
def copyAll (arena : Arena) (state : Copying) : Option (Array Cell) :=
  repeatM arena.copyNext state

@[simp] theorem copyAll_nil (arena : Arena) (cells : Array Cell) :
    arena.copyAll ⟨cells, []⟩ = some cells :=
  repeatM_eq_of_monadTail _

theorem copyAll_cons (arena : Arena) (cells : Array Cell) (id copy : Nat)
    (rest : List (Nat × Nat)) :
    arena.copyAll ⟨cells, (id, copy) :: rest⟩ =
      (arena.copyParts ⟨cells, rest⟩ id copy).bind arena.copyAll := by
  refine (repeatM_eq_of_monadTail _).trans ?_
  cases hparts : arena.copyParts ⟨cells, rest⟩ id copy with
  | none => simp [repeatM.body, copyNext, hparts]
  | some after => simp [repeatM.body, copyNext, hparts, copyAll]

/-- The cells with a copy of a node and of all beneath it. The copy is the first of the new cells.
-/
def graft (arena : Arena) (cells : Array Cell) (id : Nat) (parent : Option Nat) :
    Option (Array Cell) := do
  arena.copyAll (← arena.reserve parent ⟨cells, []⟩ id)

/-- The node is a fragment. -/
def isFragment (arena : Arena) : Option Bool := do
  return (← arena.cells[arena.root]?).isFragment

/-- The values of the root in the order of its items. -/
def values (arena : Arena) : Option (List Nat) := do
  let root ← arena.cells[arena.root]?
  return (Directory.of root.items root.properties.toList).values

end Arena

namespace Action

/-- A result that is there, or the step goes wrong. -/
def ofOption {α : Type} (result : Option α) : Action α := fun store => do
  some (.ok (← result), store)

/-- A node of another tree is copied. The shifts that it took part in stay behind. -/
def graft (arena : Arena) (id parent : Nat) : Action Nat := do
  let store ← read
  let cells ← ofOption (arena.graft store.cells id (some parent))
  let copy := store.cells.size
  change fun store =>
    { store with cells := cells.modify copy fun cell => { cell with held := none } }
  return copy

/-- The values after the first are bound to further references to the same array. -/
def splice (arena : Arena) (parent : Nat) (edge : Reference) : List Nat → Action Unit
  | [] => return ()
  | node :: rest => do
    let target ← onTop fun top => top.further edge
    bindValue target (← graft arena node parent)
    splice arena parent edge rest

/-- A tree fills the gap of a target. -/
def fill (target : Target) (arena : Arena) : Action Unit := do
  let edge :=
    { target.reference with flags := { target.reference.flags with expression := true } }
  let target := { target with reference := edge }
  let parent ← onTop fun top => .ok (top.node.id, top.markExpression target)
  if !(← ofOption arena.isFragment) then bindValue target (← graft arena arena.root parent)
  else
    let values ← ofOption arena.values
    if !edge.isArray && values.length ≠ 1 then fail (.fragmentArity edge.name values.length)
    else
      match values with
      | [] => changeTop fun top => top.withdraw target
      | first :: rest => do
        bindValue target (← graft arena first parent)
        splice arena parent edge rest

end Action

/-- The answer to the request for an expression: a tree, or nothing to leave the gap. -/
def Store.supply (expression : Option Arena) : Action Unit := do
  let store ← Action.read
  match store.awaiting with
  | none => Action.fail .unexpectedExpression
  | some target => do
    Action.change fun store => { store with awaiting := none }
    match expression with
    | none => Action.bindStub target .gap
    | some arena => Action.fill target arena

end TagTree
