import TagTree.Node.Work
import TagTree.Run
import TagTree.Scope.Basic
import TagTree.Tree

/-!
# Replay

A tree is flattened to the tags that it was built from. A value stands in place of its gap. Where a
value was shifted, the history is replayed: first the value that stood there at the time, then each
node that took the value before it back, with a bare gap in place of what it took back.

The parts of a node say what each of its slots gives; they are worked out in one pass over the
items. To replay a node is to replay its parts in order.
-/

namespace TagTree

variable {due : List (Except LookupError Node)}

/-- What a slot of a node gives to its replay: a tag, the tags of a value whose bare slot holds a
gap that stands for itself, or a failure that ends the replay. -/
inductive Part where
  | tag (tag : Tag)
  | value (node : Node) (bare : Option Nat)
  | failure (error : Error)

namespace Part

/-- The work of a part. -/
def work : Part → Nat
  | value node _ => node.work
  | _ => 0

/-- The part that a value gives, the first of those that are due in a slot. -/
def ofDue (afterShift : Bool) (slot : Nat) : List (Except LookupError Node) → Part
  | [] => failure (.lookup (.slot slot))
  | .error error :: _ => failure (.lookup error)
  | .ok node :: _ => value node (if afterShift then node.heldSlot else none)

end Part

namespace Node

/-- The values due at a gap, oldest first, given the item before it: all values of a reference, with
the index that it stands for and what follows the gap, or else those that are still due. -/
def dueAt (properties : Std.TreeMap String (Property Node)) (index : Option Nat)
    (due : List (Except LookupError Node)) (before : Option (Item Node))
    (after : List (Item Node)) : List (Except LookupError Node) :=
  match before with
  | some (.reference edge) =>
    match (properties[edge.name]?).bind (Property.binding? index) with
    | some binding => binding.node.history (Item.shiftsAfter after)
    | none => []
  | _ => due

/-- The parts of the items of a node from a slot on, and of its closing tag. The scope and the index
of the last reference belong to the items before, of which the last is given. The values due are
those of the last reference that its shifts have yet to come to. -/
def partsFrom (properties : Std.TreeMap String (Property Node)) (bare : Option Nat) (scope : Scope)
    (index : Option Nat) (due : List (Except LookupError Node)) (before : Option (Item Node))
    (slot : Nat) : List (Item Node) → List Part
  | [] => [.tag .closing]
  | .embedded node :: rest =>
    .value node none ::
      partsFrom properties bare scope index due (some (.embedded node)) (slot + 1) rest
  | .gap :: rest =>
    if before.any Item.introducesValue then
      let due := dueAt properties index due before rest
      (if bare = some slot then .tag .gap else .ofDue (before.any Item.isShift) slot due) ::
        partsFrom properties bare scope index due.tail (some .gap) (slot + 1) rest
    else .tag .gap :: partsFrom properties bare scope index due (some .gap) (slot + 1) rest
  | .reference edge :: rest =>
    match scope.observe (.reference edge) with
    | (_, .error error) => [.failure (.structural error)]
    | (scope, .ok index) =>
      .tag (.reference edge) ::
        partsFrom properties bare scope index due (some (.reference edge)) (slot + 1) rest
  | item :: rest =>
    let scope := (scope.observe item.toTag).1
    .tag item.toTag :: partsFrom properties bare scope index due (some item) (slot + 1) rest

/-- The parts of a node, one for each slot. -/
def parts (bare : Option Nat) : Node → List Part
  | gap => [.tag .gap]
  | null => [.tag .null]
  | literal text => [.tag (.literal text)]
  | element body =>
    .tag (.opening body.start) ::
      partsFrom (Entries.index body.properties) bare {} none [] none 1 body.items.toList

theorem work_ofDue_le {afterShift : Bool} {slot limit : Nat}
    (h : ∀ node, .ok node ∈ due → node.work ≤ limit) :
    (Part.ofDue afterShift slot due).work ≤ limit := by
  unfold Part.ofDue
  split
  · exact Nat.zero_le _
  · exact Nat.zero_le _
  · exact h _ (List.mem_cons_self ..)

/-- A part has no more work than what the items embed and the properties bind. -/
theorem work_le_of_mem_partsFrom {properties : Std.TreeMap String (Property Node)}
    {bare index : Option Nat} {scope : Scope} {before : Option (Item Node)} {slot limit : Nat}
    {items : List (Item Node)} {part : Part}
    (hbound : ∀ (name : String) (index : Option Nat) (binding : Binding Node),
      (properties[name]?).bind (Property.binding? index) = some binding →
        binding.node.work ≤ limit) (hitems : ∀ node, .embedded node ∈ items → node.work ≤ limit)
    (hdue : ∀ node, .ok node ∈ due → node.work ≤ limit)
    (h : part ∈ partsFrom properties bare scope index due before slot items) :
    part.work ≤ limit := by
  induction items generalizing scope index due before slot with
  | nil =>
    obtain rfl := List.mem_singleton.mp h
    exact Nat.zero_le _
  | cons item rest ih =>
    have hrest : ∀ node, .embedded node ∈ rest → node.work ≤ limit :=
      fun node hmem => hitems node (List.mem_cons_of_mem _ hmem)
    cases item with
    | embedded node =>
      rcases List.mem_cons.mp h with rfl | h
      · exact hitems node (List.mem_cons_self ..)
      · exact ih hrest hdue h
    | gap =>
      rw [partsFrom] at h
      split at h
      · have hnew : ∀ node, .ok node ∈ dueAt properties index due before rest →
            node.work ≤ limit := by
          intro node hmem
          unfold dueAt at hmem
          split at hmem
          · split at hmem
            · rename_i binding hb
              exact Nat.le_trans (work_le_of_history hmem) (hbound _ _ _ hb)
            · simp at hmem
          · exact hdue node hmem
        rcases List.mem_cons.mp h with rfl | h
        · split
          · exact Nat.zero_le _
          · exact work_ofDue_le hnew
        · exact ih hrest (fun node hmem => hnew node (List.mem_of_mem_tail hmem)) h
      · rcases List.mem_cons.mp h with rfl | h
        · exact Nat.zero_le _
        · exact ih hrest hdue h
    | reference edge =>
      rw [partsFrom] at h
      split at h
      · obtain rfl := List.mem_singleton.mp h
        exact Nat.zero_le _
      · rcases List.mem_cons.mp h with rfl | h
        · exact Nat.zero_le _
        · exact ih hrest hdue h
    | _ =>
      rcases List.mem_cons.mp h with rfl | h
      · exact Nat.zero_le _
      · exact ih hrest hdue h

/-- A value among the parts of a node has less work than the node. -/
theorem work_lt_of_mem_parts {node value : Node} {bare inner : Option Nat}
    (h : .value value inner ∈ node.parts bare) : value.work < node.work := by
  cases node with
  | element body =>
    rcases List.mem_cons.mp h with h | h
    · cases h
    · refine Nat.lt_of_le_of_lt ?_ (element body).childrenWork_lt
      refine work_le_of_mem_partsFrom ?_ ?_ (fun _ hmem => absurd hmem List.not_mem_nil) h
      · intro name index binding hb
        rw [Entries.getElem?_index] at hb
        have := work_le_of_property hb
        simp only [childrenWork, Node.properties]
        omega
      · intro node hmem
        have := work_le_itemsWork hmem
        simp only [childrenWork, Node.items]
        omega
  | _ => simp [parts] at h

/-- The tags of a node, whose bare slot holds a gap that stands for itself, and then those of a
later run. -/
def replay (bare : Option Nat) (node : Node) (later : Run Tag) : Run Tag :=
  (node.parts bare).attach.foldr (fun part later =>
    match part with
    | ⟨.tag tag, _⟩ => .cons tag later
    | ⟨.failure error, _⟩ => .fail error
    | ⟨.value value inner, _⟩ => value.replay inner later) later
termination_by node.work
decreasing_by exact work_lt_of_mem_parts (by assumption)

end Node

/-- The tags of a tree: the header of its document, and those of the root. -/
def Tree.replay (tree : Tree) : Run Tag :=
  match tree.doctype with
  | some header => .cons (.doctype header) (tree.root.replay none .done)
  | none => tree.root.replay none .done

/-- The tags of a tree, if they can all be replayed. -/
def Tree.tags (tree : Tree) : Except Error (List Tag) :=
  tree.replay.toExcept

end TagTree
