import TagTree.Cursor.Trail

/-!
# Cursors

A cursor stands at a tag of a tree: at a slot of the node at the end of its trail. It steps to the
next tag in the order of the stream, replaying shifts, or in the order of the finished tree, where
shifts and their gaps are passed over.
-/

namespace TagTree

/-- The order of a traversal. -/
inductive Order where
  /-- The order of the stream. -/
  | replayed
  /-- The order of the finished tree. -/
  | final
  deriving DecidableEq, Repr

/-- A slot of a node, with the way to it. -/
structure Cursor where
  trail : Trail
  slot : Nat

/-- Where the next tag within a node is found: in a slot of the node itself, or at the start of a
child that a slot leads to. -/
inductive Stop where
  | here (slot : Nat)
  | enter (slot : Nat) (place : Place) (bare : Option Nat)

namespace Trail

/-- The child that the gap at a position leads to. In the order of the stream this is the value that
stood there before the shifts that follow. -/
def enterValue (trail : Trail) (order : Order) (position : Nat) : Except Error Stop := do
  let slot := position + 1
  match order with
  | .final => return .enter slot (← trail.survey.valueAt slot) none
  | .replayed =>
    let place ← (trail.arrivals[position]?).getD (.error (.lookup (.slot slot)))
    let isShifted := (trail.survey.itemBefore position).any Item.isShift
    return .enter slot place (if isShifted then place.node.heldSlot else none)

/-- The next tag among the items from a position on, or the closing tag. -/
def scan (trail : Trail) (order : Order) (position : Nat) : Except Error Stop :=
  let slot := position + 1
  match _h : trail.survey.directory.items[position]? with
  | some (.embedded place) => .ok (.enter slot place none)
  | some .gap =>
    let before := trail.survey.itemBefore position
    if trail.bareSlot = some slot || !before.any Item.introducesValue then .ok (.here slot)
    else if order = .final && before.any Item.isShift then trail.scan order (position + 1)
    else trail.enterValue order position
  | some (.shift _) => if order = .final then trail.scan order (position + 1) else .ok (.here slot)
  | _ => .ok (.here slot)
termination_by trail.survey.directory.items.size - position
decreasing_by all_goals exact Nat.sub_succ_lt_self _ _ (Array.getElem?_eq_some_iff.mp _h).1

/-- The cursor at a stop. -/
def cursorAt (trail : Trail) : Stop → Cursor
  | .here slot => ⟨trail, slot⟩
  | .enter slot place bare => ⟨trail.child place slot bare, 0⟩

/-- The next tag after a slot: in the node, or after it in the nodes above. -/
def seek (order : Order) : Trail → (slot : Nat) → Except Error (Option Cursor)
  | trail@⟨place, parent, parentSlot, _, _, _, _, _, _, _, _⟩, slot =>
    if slot + 1 < place.node.slotCount then do
      return some (trail.cursorAt (← trail.scan order slot))
    else
      match parent with
      | none => .ok none
      | some parent => seek order parent parentSlot

end Trail

namespace Cursor

/-- The cursor at the first tag of a trail's node. -/
def first (trail : Trail) : Cursor :=
  ⟨trail, 0⟩

/-- The cursor at the first tag of a place, where its traversal ends with the node. -/
def start (place : Place) : Cursor :=
  first (.start place {})

/-- The tag that the cursor stands at. -/
def tag (cursor : Cursor) : Tag :=
  cursor.trail.node.tagAt cursor.slot

/-- The next tag, if there is one. -/
def next (cursor : Cursor) (order : Order) : Except Error (Option Cursor) :=
  cursor.trail.seek order cursor.slot

/-- The two cursors stand at the same slot of the same node. -/
def same (left right : Cursor) : Bool :=
  left.trail.place.number == right.trail.place.number && left.slot == right.slot

end Cursor

end TagTree
