import TagTree.Proofs.Alike
import TagTree.Proofs.Store.Graft

/-!
# Comparison by numbers

Two nodes of finished trees are compared without recursion, with the pairs of numbers that are still
to be compared on a stack. The two cells of the pair on top are compared, but for the nodes that
they bind and embed, whose numbers are put on the stack (`Arena.compareNext`). The nodes differ as
soon as two cells do, and agree when the stack is empty.

The comparison ends, and its result is that of comparing the two nodes that the numbers unfold to
(`Arena.Holds.compare_eq`). Hence it is an equivalence (`FinishedNode.equivalence_same`).
-/

namespace TagTree

variable {source source' : Nat → Node} {node node' : Node}

deriving instance DecidableEq for Item

/-! ### The comparison -/

/-- Two lists of one length are compared member by member. The pairs left to compare stand in the
order of the members. -/
def pairAll {α : Type} (pairs : α → α → Option (List (Nat × Nat))) :
    List α → List α → Option (List (Nat × Nat))
  | [], [] => some []
  | a :: first, b :: second => do
    let left ← pairs a b
    return left ++ (← pairAll pairs first second)
  | _, _ => none

/-- The pairs left to compare after two items, unless these differ. -/
def Item.pairs : Item Nat → Item Nat → Option (List (Nat × Nat))
  | embedded id, embedded id' => some [(id, id')]
  | item, other => if item = other then some [] else none

/-- The pairs left to compare after two bindings, unless these differ. -/
def Binding.pairs (binding other : Binding Nat) : Option (List (Nat × Nat)) :=
  if binding.reference = other.reference then some [(binding.node, other.node)] else none

/-- The pairs left to compare after two properties, unless these differ. -/
def Property.pairs : Property Nat → Property Nat → Option (List (Nat × Nat))
  | single binding, single other => binding.pairs other
  | array bindings, array others => pairAll Binding.pairs bindings.toList others.toList
  | _, _ => none

/-- The pairs left to compare after two properties with their names, unless these differ. -/
def Property.pairsNamed (entry other : String × Property Nat) : Option (List (Nat × Nat)) :=
  if entry.1 = other.1 then entry.2.pairs other.2 else none

/-- The pairs left to compare after the items and properties of two cells, unless these differ. -/
def Content.pairsWithin (content other : Content) : Option (List (Nat × Nat)) := do
  let embedded ← pairAll Item.pairs content.items.toList other.items.toList
  let bound ← pairAll Property.pairsNamed content.properties.toList other.properties.toList
  return embedded ++ bound

/-- The pairs left to compare after two cells, unless these differ. A stub is no more than its one
tag. -/
def Content.pairs (content other : Content) : Option (List (Nat × Nat)) :=
  match content.head, other.head with
  | .opening start, .opening start' =>
    if start.same start' && content.label.same other.label && content.held == other.held then
      content.pairsWithin other
    else none
  | .gap, .gap => some []
  | .null, .null => some []
  | .literal text, .literal text' => if text = text' then some [] else none
  | _, _ => none

namespace Arena

/-- The pair on top of the stack is compared, and what it leaves to compare is put on the stack. The
result is known if the pair differs or the stack is empty. -/
def compareNext (left right : Arena) (pending : List (Nat × Nat)) :
    Option (List (Nat × Nat) ⊕ Bool) :=
  match pending with
  | [] => some (.inr true)
  | (id, id') :: rest => do
    let cell ← left.cells[id]?
    let other ← right.cells[id']?
    match cell.pairs other.toContent with
    | some pairs => some (.inl (pairs.reverse ++ rest))
    | none => some (.inr false)

/-- All pairs agree. -/
def compare (left right : Arena) (pending : List (Nat × Nat)) : Option Bool :=
  repeatM (left.compareNext right) pending

@[simp] theorem compare_nil (left right : Arena) : left.compare right [] = some true :=
  repeatM_eq_of_monadTail _

theorem compare_cons {left right : Arena} {id id' : Nat} {cell other : Cell}
    (hcell : left.cells[id]? = some cell) (hother : right.cells[id']? = some other)
    (rest : List (Nat × Nat)) :
    left.compare right ((id, id') :: rest) =
      (cell.pairs other.toContent).elim (some false) fun pairs =>
        left.compare right (pairs.reverse ++ rest) := by
  refine (repeatM_eq_of_monadTail _).trans ?_
  cases hpairs : cell.pairs other.toContent with
  | none => simp [repeatM.body, compareNext, hcell, hother, hpairs]
  | some pairs => simp [repeatM.body, compareNext, hcell, hother, hpairs, compare]

end Arena

/-! ### What two cells leave to compare -/

/-- The pairs left to compare, if there are any, are all of nodes that are the same. -/
def verdict (source source' : Nat → Node) (pairs : Option (List (Nat × Nat))) : Bool :=
  pairs.elim false fun pairs => pairs.all fun pair => (source pair.1).same (source' pair.2)

theorem Node.same_element (body other : Element Node) : (element body).same (element other) =
    (body.start.same other.start && body.label.same other.label && body.held == other.held &&
      sameItems body.items.toList other.items.toList &&
        sameProperties body.properties other.properties) := by
  obtain ⟨_, _, ⟨_⟩, _, _, _⟩ := body
  obtain ⟨_, _, ⟨_⟩, _, _, _⟩ := other
  rw [same]

section Verdict

@[simp] theorem verdict_none : verdict source source' none = false := rfl

@[simp] theorem verdict_nil : verdict source source' (some []) = true := rfl

@[simp] theorem verdict_singleton (id id' : Nat) :
    verdict source source' (some [(id, id')]) = (source id).same (source' id') :=
  Bool.and_true _

@[simp] theorem verdict_ite {p : Prop} [Decidable p] (pairs : Option (List (Nat × Nat))) :
    verdict source source' (if p then pairs else none) =
      (decide p && verdict source source' pairs) := by
  by_cases hp : p <;> simp [hp]

theorem verdict_append (first second : Option (List (Nat × Nat))) :
    verdict source source' (do return (← first) ++ (← second)) =
      (verdict source source' first && verdict source source' second) := by
  cases first with
  | none => rfl
  | some first =>
    cases second with
    | none => exact (Bool.and_false _).symm
    | some second => exact List.all_append

theorem verdict_items (items others : List (Item Nat)) :
    verdict source source' (pairAll Item.pairs items others) =
      Node.sameItems (items.map (Item.map source)) (others.map (Item.map source')) := by
  induction items generalizing others with
  | nil => cases others <;> simp [pairAll, Node.sameItems]
  | cons item rest ih =>
    cases others with
    | nil => cases item <;> simp [pairAll, Node.sameItems, Item.map]
    | cons other rest' =>
      rw [pairAll, verdict_append, ih, List.map_cons, List.map_cons]
      cases item <;> cases other <;> simp [Item.pairs, Item.map, Node.sameItems, beq_eq_decide]

theorem verdict_bindings (bindings others : List (Binding Nat)) :
    verdict source source' (pairAll Binding.pairs bindings others) =
      Node.sameBindings (bindings.map (Binding.map source)) (others.map (Binding.map source')) := by
  induction bindings generalizing others with
  | nil => cases others <;> simp [pairAll, Node.sameBindings]
  | cons binding rest ih =>
    cases others with
    | nil => simp [pairAll, Node.sameBindings, Binding.map]
    | cons other rest' =>
      rw [pairAll, verdict_append, ih]
      simp [Binding.pairs, Binding.map, Node.sameBindings, beq_eq_decide]

theorem verdict_properties (properties others : Entries (Property Nat)) :
    verdict source source' (pairAll Property.pairsNamed properties others) =
      Node.sameProperties (properties.map fun entry => (entry.1, entry.2.map source))
        (others.map fun entry => (entry.1, entry.2.map source')) := by
  induction properties generalizing others with
  | nil => cases others <;> simp [pairAll, Node.sameProperties]
  | cons entry rest ih =>
    obtain ⟨name, property⟩ := entry
    cases others with
    | nil => cases property <;> simp [pairAll, Node.sameProperties, Property.map, Binding.map]
    | cons other rest' =>
      obtain ⟨name', property'⟩ := other
      rw [pairAll, verdict_append, ih, Property.pairsNamed, verdict_ite, List.map_cons,
        List.map_cons]
      -- A single property and an array differ, whatever they bind.
      obtain _ | ⟨⟨bindings⟩⟩ := property <;> obtain _ | ⟨⟨bindings'⟩⟩ := property'
      · simp [Property.pairs, Binding.pairs, Property.map, Binding.map, Node.sameProperties,
          beq_eq_decide, Bool.and_assoc]
      · simp [Property.pairs, Property.map, Node.sameProperties]
      · simp [Property.pairs, Property.map, Node.sameProperties]
      · simp [Property.pairs, Property.map, Node.sameProperties, verdict_bindings, beq_eq_decide]

end Verdict

/-- The pairs of lists are those of their members, one after the other. -/
theorem pairAll_split {α : Type} {nodes : α → List Nat} {pairs : α → α → Option (List (Nat × Nat))}
    (hmember : ∀ a b new, pairs a b = some new →
      new.map Prod.fst = nodes a ∧ new.map Prod.snd = nodes b)
    {first second : List α} {new : List (Nat × Nat)} (h : pairAll pairs first second = some new) :
    new.map Prod.fst = first.flatMap nodes ∧ new.map Prod.snd = second.flatMap nodes := by
  induction first generalizing second new with
  | nil =>
    cases second with
    | nil =>
      cases h
      exact ⟨rfl, rfl⟩
    | cons b rest => cases h
  | cons a rest ih =>
    cases second with
    | nil => cases h
    | cons b rest' =>
      obtain ⟨left, hleft, h⟩ := Option.bind_eq_some_iff.mp h
      obtain ⟨later, hlater, h⟩ := Option.bind_eq_some_iff.mp h
      obtain rfl := Option.some.inj h
      obtain ⟨hfirst, hsecond⟩ := hmember a b left hleft
      obtain ⟨hfirst', hsecond'⟩ := ih hlater
      rw [List.map_append, List.map_append, hfirst, hsecond, hfirst', hsecond']
      exact ⟨List.flatMap_cons.symm, List.flatMap_cons.symm⟩

theorem Item.pairs_split (item other : Item Nat) (new : List (Nat × Nat))
    (h : item.pairs other = some new) : new.map Prod.fst = item.node?.toList ∧
    new.map Prod.snd = other.node?.toList := by
  cases item <;> cases other <;> simp_all [pairs, node?]
  case embedded.embedded => exact h ▸ ⟨⟨_, rfl⟩, _, rfl⟩

theorem Binding.pairs_split (binding other : Binding Nat) (new : List (Nat × Nat))
    (h : binding.pairs other = some new) :
    new.map Prod.fst = [binding.node] ∧ new.map Prod.snd = [other.node] := by
  unfold pairs at h
  split at h <;> cases h
  exact ⟨rfl, rfl⟩

theorem Property.pairsNamed_split (entry other : String × Property Nat) (new : List (Nat × Nat))
    (h : pairsNamed entry other = some new) :
    new.map Prod.fst = entry.2.nodes ∧ new.map Prod.snd = other.2.nodes := by
  unfold pairsNamed at h
  split at h
  · obtain ⟨name, _ | bindings⟩ := entry <;> obtain ⟨name', _ | bindings'⟩ := other
    · exact Binding.pairs_split _ _ new h
    · cases h
    · cases h
    · have hsplit := pairAll_split Binding.pairs_split h
      rwa [← List.map_eq_flatMap, ← List.map_eq_flatMap] at hsplit
  · cases h

namespace Content

variable {content other : Content} {new : List (Nat × Nat)}

theorem pairsWithin_split (h : content.pairsWithin other = some new) :
    new.map Prod.fst = content.parts ∧ new.map Prod.snd = other.parts := by
  obtain ⟨embedded, hembedded, h⟩ := Option.bind_eq_some_iff.mp h
  obtain ⟨bound, hbound, h⟩ := Option.bind_eq_some_iff.mp h
  obtain rfl := Option.some.inj h
  obtain ⟨hfirst, hsecond⟩ := pairAll_split Item.pairs_split hembedded
  obtain ⟨hfirst', hsecond'⟩ := pairAll_split Property.pairsNamed_split hbound
  rw [← List.filterMap_eq_flatMap_toList] at hfirst hsecond
  rw [List.map_append, List.map_append, hfirst, hsecond, hfirst', hsecond']
  exact ⟨rfl, rfl⟩

namespace Denotes

theorem parts_of_stub (leaf : content.kids = []) : content.parts = [] :=
  (content.parts_perm.trans (.of_eq leaf)).eq_nil

/-- Two cells leave all that they bind and embed to compare, unless they differ, and the verdict on
what is left is that on the nodes that they denote. -/
theorem pairs_spec (h : content.Denotes source node) (h' : other.Denotes source' node') :
    verdict source source' (content.pairs other) = node.same node' ∧
    ∀ new, content.pairs other = some new →
      new.map Prod.fst = content.parts ∧ new.map Prod.snd = other.parts := by
  unfold pairs
  -- Only two elements leave anything to compare, all else is decided by the heads.
  cases h with
  | stub head _ leaf =>
    rw [parts_of_stub leaf]
    generalize content.head = first at head
    cases h' with
    | stub head' _ leaf' =>
      rw [parts_of_stub leaf']
      generalize other.head = second at head'
      cases first <;> cases head <;> cases second <;> cases head' <;>
        simp [Node.same, beq_eq_decide]
    | element head' =>
      rw [head']
      cases first <;> cases head <;> simp [Node.same]
  | element head =>
    rw [head]
    cases h' with
    | stub head' =>
      generalize other.head = second at head'
      cases second <;> cases head' <;> simp [Node.same]
    | element head' =>
      rw [head']
      dsimp only
      constructor
      · rw [verdict_ite, pairsWithin, verdict_append, verdict_items, verdict_properties,
          Node.same_element, Bool.decide_eq_true, Bool.and_assoc _ (Node.sameItems ..)]
        simp only [toElement, itemsOf, propertiesOf, Array.toList_map]
      · intro new hpairs
        exact pairsWithin_split (Option.ite_none_right_eq_some.mp hpairs).2

end Denotes

end Content

/-! ### Runs -/

namespace Arena.Holds

variable {left right : Arena} {id id' : Nat} {cell other : Cell}

/-- What two cells leave to compare has cells, and is smaller than the nodes. -/
theorem pairs_smaller (h : left.Holds source) (h' : right.Holds source')
    (hcell : left.cells[id]? = some cell) (hother : right.cells[id']? = some other)
    {pairs : List (Nat × Nat)} (hpairs : cell.pairs other.toContent = some pairs) :
    (∀ pair ∈ pairs, pair.1 < left.cells.size ∧ pair.2 < right.cells.size) ∧
    (pairs.map fun pair => (source pair.1).size).sum < (source id).size := by
  have hdenotes := h.denotes id cell hcell
  obtain ⟨hfirst, hsecond⟩ := (hdenotes.pairs_spec (h'.denotes id' other hother)).2 pairs hpairs
  constructor
  · intro pair hmem
    have hpart : pair.1 ∈ cell.parts := hfirst ▸ List.mem_map_of_mem hmem
    have hpart' : pair.2 ∈ other.parts := hsecond ▸ List.mem_map_of_mem hmem
    exact ⟨h.kids id cell hcell _ (cell.parts_perm.mem_iff.mp hpart),
      h'.kids id' other hother _ (other.parts_perm.mem_iff.mp hpart')⟩
  · have hparts : pairs.map (fun pair => (source pair.1).size) =
        cell.parts.map fun part => (source part).size := by
      rw [← hfirst, List.map_map]
      rfl
    rw [hparts, (cell.parts_perm.map _).sum_eq, hdenotes.size_eq]
    omega

/-- The comparison ends, and finds out whether the nodes that the pairs stand for are the same. -/
theorem compare_eq (h : left.Holds source) (h' : right.Holds source') {pending : List (Nat × Nat)}
    (hpending : ∀ pair ∈ pending, pair.1 < left.cells.size ∧ pair.2 < right.cells.size) :
    left.compare right pending =
      some (pending.all fun pair => (source pair.1).same (source' pair.2)) := by
  -- Each turn takes one pair away and adds the pairs of its parts, which weigh less together.
  induction hweight : (pending.map fun pair => (source pair.1).size).sum using
    Nat.strong_induction_on generalizing pending with
  | _ weight ih =>
    subst hweight
    cases pending with
    | nil => exact compare_nil left right
    | cons pair rest =>
      obtain ⟨id, id'⟩ := pair
      obtain ⟨⟨hid, hid'⟩, hrest⟩ := List.forall_mem_cons.mp hpending
      have hcell : left.cells[id]? = some left.cells[id] := Array.getElem?_eq_getElem hid
      have hother : right.cells[id']? = some right.cells[id'] := Array.getElem?_eq_getElem hid'
      rw [compare_cons hcell hother, List.all_cons,
        ← ((h.denotes id _ hcell).pairs_spec (h'.denotes id' _ hother)).1]
      cases hpairs : (left.cells[id]).pairs (right.cells[id']).toContent with
      | none => rfl
      | some pairs =>
        obtain ⟨hrange, hless⟩ := h.pairs_smaller h' hcell hother hpairs
        rw [Option.elim_some, verdict, Option.elim_some, ih _ ?_ ?_ rfl, List.all_append,
          List.all_reverse]
        · simp only [List.map_append, List.map_reverse, List.sum_append, List.sum_reverse,
            List.map_cons, List.sum_cons]
          omega
        · intro pair hmem
          rcases List.mem_append.mp hmem with hnew | hold
          · exact hrange pair (List.mem_reverse.mp hnew)
          · exact hrest pair hold

end Arena.Holds

/-! ### Unfolded nodes -/

/-- The node that a number unfolds to: what its cell is, where each number within stands for what
that number unfolds to. -/
inductive Arena.Unfolds (arena : Arena) : Nat → Node → Prop where
  | of {id : Nat} {cell : Cell} {node : Node} (value : Nat → Node)
    (holder : arena.cells[id]? = some cell)
    (kids : ∀ kid ∈ cell.kids, Unfolds arena kid (value kid)) (denotes : cell.Denotes value node) :
    Unfolds arena id node

/-- A content denotes one node. -/
theorem Content.Denotes.unique {content : Content} {value : Nat → Node}
    (h : content.Denotes value node) (h' : content.Denotes value node') : node = node' := by
  cases h with
  | stub head leaf =>
    cases h' with
    | stub head' leaf' => exact Option.some.inj (head.symm.trans head')
    | element head' =>
      rw [head'] at head
      cases head
  | element head =>
    cases h' with
    | stub head' leaf' =>
      rw [head] at head'
      cases head'
    | element head' =>
      cases head.symm.trans head'
      rfl

namespace Arena.Holds

variable {arena : Arena} {id : Nat}

theorem unfolds (h : arena.Holds source) (hid : id < arena.cells.size) :
    arena.Unfolds id (source id) := by
  induction hsize : (source id).size using Nat.strong_induction_on generalizing id with
  | _ size ih =>
    subst hsize
    have hcell : arena.cells[id]? = some arena.cells[id] := Array.getElem?_eq_getElem hid
    have hdenotes := h.denotes id _ hcell
    exact .of source hcell (fun kid hkid => ih _ (hdenotes.size_lt hkid)
      (h.kids id _ hcell kid hkid) rfl) hdenotes

theorem eq_of_unfolds (h : arena.Holds source) (hunfolds : arena.Unfolds id node) :
    node = source id := by
  induction hunfolds with
  | of value holder _ denotes ih => exact (denotes.congr ih).unique (h.denotes _ _ holder)

end Arena.Holds

/-- A node of a finished tree, by its number. In the attributes of the node and of all beneath it no
key stands twice. -/
structure FinishedNode where
  arena : Arena
  tree : Tree
  finished : Finished arena tree
  id : Nat
  made : id < arena.cells.size
  distinct : ∀ node, arena.Unfolds id node → node.all Node.isDistinct = true

namespace FinishedNode

/-- What the node is, with all that it binds and embeds in place of numbers. -/
def Unfolds (x : FinishedNode) (node : Node) : Prop :=
  x.arena.Unfolds x.id node

/-- The two nodes agree. -/
def same (x y : FinishedNode) : Option Bool :=
  x.arena.compare y.arena [(x.id, y.id)]

/-- The root of a finished tree. -/
def ofRoot {arena : Arena} {tree : Tree} (h : Finished arena tree)
    (hdistinct : tree.root.all Node.isDistinct = true) : FinishedNode where
  arena := arena
  tree := tree
  finished := h
  id := arena.root
  made := by
    obtain ⟨source, hshows⟩ := h.exists_shows
    exact hshows.made
  distinct := by
    obtain ⟨source, hshows⟩ := h.exists_shows
    intro node hunfolds
    rw [hshows.holds.eq_of_unfolds hunfolds, ← hshows.root]
    exact hdistinct

variable {x y : FinishedNode}

/-- A node of a finished tree unfolds to one node. -/
theorem existsUnique_unfolds (x : FinishedNode) : ∃! node, x.Unfolds node := by
  obtain ⟨source, hshows⟩ := x.finished.exists_shows
  exact ⟨source x.id, hshows.holds.unfolds x.made, fun node => hshows.holds.eq_of_unfolds⟩

theorem unfolds_root (h : x.id = x.arena.root) : x.Unfolds x.tree.root := by
  obtain ⟨source, hshows⟩ := x.finished.exists_shows
  rw [hshows.root, ← h]
  exact hshows.holds.unfolds x.made

/-- Nodes are compared as what they unfold to. -/
theorem same_eq (h : x.Unfolds node) (h' : y.Unfolds node') :
    x.same y = some (node.same node') := by
  obtain ⟨source, hshows⟩ := x.finished.exists_shows
  obtain ⟨source', hshows'⟩ := y.finished.exists_shows
  rw [same, hshows.holds.compare_eq hshows'.holds (List.forall_mem_singleton.mpr ⟨x.made, y.made⟩),
    hshows.holds.eq_of_unfolds h, hshows'.holds.eq_of_unfolds h']
  simp

theorem same_iff_unfolded (h : x.Unfolds node) (h' : y.Unfolds node') :
    x.same y = some true ↔ node.Alike node' := by
  rw [same_eq h h', Option.some_inj, Node.same_iff_alike (x.distinct node h) (y.distinct node' h')]

/-- Every node of a finished tree unfolds to one node, the root to that of the tree. Nodes, also of
different trees, are compared as what they unfold to. They agree if and only if they unfold to nodes
that are equal where attributes are maps, which is an equivalence. -/
theorem equivalence_same :
    (∀ x : FinishedNode, (∃! node, x.Unfolds node) ∧
      (x.id = x.arena.root → x.Unfolds x.tree.root)) ∧
    (∀ (x y : FinishedNode) (node node' : Node), x.Unfolds node → y.Unfolds node' →
      x.same y = some (node.same node') ∧ (x.same y = some true ↔ node.Alike node')) ∧
    Equivalence fun x y : FinishedNode => x.same y = some true := by
  refine ⟨fun x => ⟨x.existsUnique_unfolds, unfolds_root⟩,
    fun x y node node' h h' => ⟨same_eq h h', same_iff_unfolded h h'⟩,
    equivalence_of_euclid ?_ ?_⟩
  · intro x
    obtain ⟨node, hnode, -⟩ := x.existsUnique_unfolds
    exact (same_iff_unfolded hnode hnode).mpr (Node.equivalence_alike.refl node)
  · intro x y z hy hz
    obtain ⟨first, hfirst, -⟩ := x.existsUnique_unfolds
    obtain ⟨second, hsecond, -⟩ := y.existsUnique_unfolds
    obtain ⟨third, hthird, -⟩ := z.existsUnique_unfolds
    rw [same_iff_unfolded hfirst hsecond] at hy
    rw [same_iff_unfolded hfirst hthird] at hz
    exact (same_iff_unfolded hsecond hthird).mpr
      (Node.equivalence_alike.trans (Node.equivalence_alike.symm hy) hz)

/-- The outcome of building a document in which the header and the root have the given attributes.
-/
def attributed (attributes : Attributes) : Except StructuralError Tree :=
  (Session.pushes {} (Tree.attributedTags attributes)).finish

theorem exists_attributed {attributes : Attributes} {tree : Tree}
    (h : attributed attributes = .ok tree) (hdistinct : tree.root.all Node.isDistinct = true) :
    ∃ x : FinishedNode, x.tree = tree ∧ x.Unfolds tree.root := by
  obtain ⟨store, hstore⟩ := (Session.start false).exists_pushes (Tree.attributedTags attributes)
  obtain ⟨arena, -, hfinished⟩ := hstore.exists_finished h
  have hroot : (ofRoot hfinished hdistinct).Unfolds tree.root := unfolds_root rfl
  exact ⟨ofRoot hfinished hdistinct, rfl, hroot⟩

/-- Attributes count, but not their order. -/
theorem equivalence_same_of_attributes :
    ∃ x y z : FinishedNode,
      Entries.keys x.tree.root.attributes ≠ Entries.keys y.tree.root.attributes ∧
      x.same y = some true ∧ y.same x = some true ∧ x.same z = some false := by
  obtain ⟨tree, htree, hx, tree', htree', hy, hsame, hkeys, other, hother, hz, hdiffer⟩ :
      ∃ tree, attributed [("language", .text "js"),
          ("options", .object [("strict", .null), ("level", .integer 2)])] = .ok tree ∧
        tree.root.all Node.isDistinct = true ∧
      ∃ tree', attributed [("options", .object [("level", .integer 2), ("strict", .null)]),
          ("language", .text "js")] = .ok tree' ∧
        tree'.root.all Node.isDistinct = true ∧ tree.root.same tree'.root = true ∧
        Entries.keys tree.root.attributes ≠ Entries.keys tree'.root.attributes ∧
      ∃ other, attributed [("language", .text "js"),
          ("options", .object [("strict", .null), ("level", .integer 3)])] = .ok other ∧
        other.root.all Node.isDistinct = true ∧ tree.root.same other.root = false := by
    decide +kernel
  obtain ⟨x, rfl, hx⟩ := exists_attributed htree hx
  obtain ⟨y, rfl, hy⟩ := exists_attributed htree' hy
  obtain ⟨z, rfl, hz⟩ := exists_attributed hother hz
  obtain ⟨-, hcompared, hequivalence⟩ := equivalence_same
  have hxy : x.same y = some true := by
    rw [(hcompared x y _ _ hx hy).1, hsame]
  have hxz : x.same z = some false := by
    rw [(hcompared x z _ _ hx hz).1, hdiffer]
  exact ⟨x, y, z, hkeys, hxy, hequivalence.symm hxy, hxz⟩

end FinishedNode

end TagTree
