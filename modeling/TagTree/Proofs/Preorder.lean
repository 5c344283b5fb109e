import Mathlib.Data.List.Basic
import TagTree.Proofs.Located
import TagTree.Proofs.Sound

/-!
# Places in preorder

The places from a place down are the place and those from its parts down (`Place.all`). In a node
whose counts are right they have consecutive numbers (`Place.map_number_all`), and those from the
root down are all places of the tree (`Node.places_eq`).
-/

namespace TagTree

namespace Node

theorem work_lt_of_mem_kids {node kid : Node} (h : kid ∈ node.kids) : kid.work < node.work := by
  refine Nat.lt_of_le_of_lt ?_ node.childrenWork_lt
  rw [childrenWork]
  rcases List.mem_append.mp h with hbound | hembedded
  · obtain ⟨⟨name, property⟩, hproperty, hkid⟩ := List.mem_flatMap.mp hbound
    obtain ⟨binding, hbinding, rfl⟩ := List.mem_map.mp hkid
    have := work_le_propertiesWork hproperty hbinding
    omega
  · obtain ⟨item, hitem, hkid⟩ := List.mem_filterMap.mp hembedded
    cases item with
    | embedded node =>
      cases hkid
      have := work_le_itemsWork hitem
      omega
    | _ => cases hkid

/-- The node counts itself and what it binds and embeds. -/
def isCounted (node : Node) : Bool :=
  node.size == 1 + (node.kids.map size).sum

end Node

namespace Place

variable {place : Place}

theorem node_mem_kids {kid : Place} (h : kid ∈ place.kids) : kid.node ∈ place.node.kids :=
  place.map_kids ▸ List.mem_map_of_mem h

theorem work_lt_of_mem_kids {kid : Place} (h : kid ∈ place.kids) :
    kid.node.work < place.node.work :=
  Node.work_lt_of_mem_kids (node_mem_kids h)

/-- The places from a place down, in preorder. -/
def all (place : Place) : List Place :=
  place :: place.kids.attach.flatMap fun kid => kid.1.all
termination_by place.node.work
decreasing_by exact place.work_lt_of_mem_kids kid.2

theorem all_eq (place : Place) : place.all = place :: place.kids.flatMap all := by
  rw [all]
  congr 1
  conv => rhs; rw [← List.attach_map_subtype_val place.kids, List.flatMap_map]

/-- What holds of a node, and passes from each node to its parts, holds from the place down. -/
theorem of_mem_all {holds : Node → Prop}
    (hkids : ∀ node kid : Node, holds node → kid ∈ node.kids → holds kid) {place inner : Place}
    (h : holds place.node) (hmem : inner ∈ place.all) : holds inner.node := by
  rw [all_eq] at hmem
  rcases List.mem_cons.mp hmem with rfl | hmem
  · exact h
  · obtain ⟨kid, hkid, hinner⟩ := List.mem_flatMap.mp hmem
    exact of_mem_all hkids (hkids _ _ h (node_mem_kids hkid)) hinner
termination_by place.node.work
decreasing_by exact place.work_lt_of_mem_kids hkid

/-- From a stub down there is the stub alone. -/
theorem all_of_isStub (h : place.node.isStub = true) : place.all = [place] := by
  have hnone : place.kids = [] := by
    have hmap := place.map_kids
    cases hnode : place.node with
    | gap | null | literal =>
      rw [hnode] at hmap
      exact List.map_eq_nil_iff.mp hmap
    | element body =>
      rw [hnode] at h
      cases h
  rw [all_eq, hnone]
  rfl

/-! ### Numbers -/

/-- The numbers from a place down, as its node counts them. -/
def numbers (place : Place) : List Nat :=
  List.range' place.number place.node.size

theorem flatMap_numbers_locateBindings (place : Place) (number : Nat)
    (bindings : List (Binding Node)) :
    ((place.locateBindings number bindings).map Binding.node).flatMap numbers =
      List.range' number (Node.bindingsSize bindings) := by
  induction bindings generalizing number with
  | nil => rfl
  | cons binding rest ih =>
    rw [locateBindings, List.map_cons, List.flatMap_cons, ih, Node.bindingsSize,
      ← List.range'_append_1]
    rfl

theorem flatMap_numbers_locateProperties (place : Place) (number : Nat)
    (properties : Entries (Property Node)) :
    (boundNodes (place.locateProperties number properties)).flatMap numbers =
      List.range' number (Node.propertiesSize properties) := by
  induction properties generalizing number with
  | nil => rfl
  | cons entry rest ih =>
    obtain ⟨name, property⟩ := entry
    have hproperty : (place.locateProperty number property).nodes.flatMap numbers =
        List.range' number (Node.bindingsSize property.bindings) := by
      rw [← flatMap_numbers_locateBindings place]
      cases property <;> rfl
    rw [locateProperties, boundNodes_cons, List.flatMap_append, ih, hproperty, Node.propertiesSize,
      List.range'_append_1]

theorem flatMap_numbers_locateItems (place : Place) (number : Nat) (items : List (Item Node)) :
    (embeddedNodes (place.locateItems number items)).flatMap numbers =
      List.range' number (Node.itemsSize items) := by
  induction items generalizing number with
  | nil => rfl
  | cons item rest ih =>
    cases item with
    | embedded node =>
      have hrest := ih (number + node.size)
      rw [locateItems, Node.itemsSize, ← List.range'_append_1, ← hrest]
      rfl
    | _ => exact ih number

/-- The parts of a node have the numbers after its own. -/
theorem flatMap_numbers_kids (place : Place) :
    place.kids.flatMap numbers =
      List.range' (place.number + 1) ((place.node.kids.map Node.size).sum) := by
  have hitems : place.items.toList = place.locateItems
      (place.number + 1 + Node.propertiesSize place.node.properties) place.node.items.toList := rfl
  rw [kids, List.flatMap_append, properties, flatMap_numbers_locateProperties, hitems,
    flatMap_numbers_locateItems, List.range'_append_1, Node.propertiesSize_eq, Node.itemsSize_eq,
    Node.kids, List.map_append, List.sum_append]

/-- Where all counts are right, the places from a place down have consecutive numbers. -/
theorem map_number_all (place : Place) (h : place.node.all Node.isCounted = true) :
    place.all.map number = place.numbers := by
  -- A node starts where those before it end, since it counts all of them.
  have hkids : ∀ kid ∈ place.kids, kid.all.map number = kid.numbers := fun kid hmem =>
    map_number_all kid ((Node.all_iff.mp h).2 kid.node (node_mem_kids hmem))
  have hsize : place.node.size = 1 + (place.node.kids.map Node.size).sum :=
    beq_iff_eq.mp (Node.all_iff.mp h).1
  rw [all_eq, List.map_cons, List.map_flatMap, List.flatMap_congr hkids, flatMap_numbers_kids,
    numbers, hsize, Nat.add_comm 1, List.range'_succ]
termination_by place.node.work
decreasing_by exact place.work_lt_of_mem_kids hmem

/-- The places from a counted place down are as many as its node says. -/
theorem length_all (place : Place) (h : place.node.all Node.isCounted = true) :
    place.all.length = place.node.size := by
  rw [← List.length_map (f := number), map_number_all place h, numbers, List.length_range']

end Place

/-! ### The list of all places -/

namespace Node

/-- The node is counted, and a list of places that comes to it goes on with those from it down. -/
structure IsListed (node : Node) : Prop where
  counted : node.all isCounted = true
  places : ∀ (met : Array Place) (parent : Option Nat),
    (node.listPlaces met parent).toList = met.toList ++ (Place.mk met.size parent node).all

/-- After a node the list has as many places more as the node says. -/
theorem IsListed.size_listPlaces {node : Node} (h : node.IsListed) (met : Array Place)
    (parent : Option Nat) : (node.listPlaces met parent).size = met.size + node.size := by
  have hlength : (Place.mk met.size parent node).all.length = node.size :=
    Place.length_all ⟨met.size, parent, node⟩ h.counted
  rw [← Array.length_toList, h.places, List.length_append, Array.length_toList, hlength]

theorem toList_listBindings {bindings : List (Binding Node)} (place : Place)
    (h : ∀ node ∈ bindings.map Binding.node, node.IsListed) (met : Array Place) :
    (listBindings met place.number bindings).toList =
        met.toList ++ ((place.locateBindings met.size bindings).map Binding.node).flatMap
          Place.all ∧
      (listBindings met place.number bindings).size = met.size + bindingsSize bindings := by
  induction bindings generalizing met with
  | nil => exact ⟨(List.append_nil _).symm, rfl⟩
  | cons binding rest ih =>
    rw [List.map_cons, List.forall_mem_cons] at h
    obtain ⟨hplaces, hsize⟩ := ih h.2 (listPlaces met (some place.number) binding.node)
    rw [h.1.size_listPlaces] at hplaces hsize
    rw [listBindings, bindingsSize, ← Nat.add_assoc]
    refine ⟨?_, hsize⟩
    rw [hplaces, h.1.places, List.append_assoc]
    rfl

theorem toList_listProperties {properties : Entries (Property Node)} (place : Place)
    (h : ∀ node ∈ boundNodes properties, node.IsListed) (met : Array Place) :
    (listProperties met place.number properties).toList =
        met.toList ++ (boundNodes (place.locateProperties met.size properties)).flatMap Place.all ∧
      (listProperties met place.number properties).size = met.size + propertiesSize properties := by
  induction properties generalizing met with
  | nil => exact ⟨(List.append_nil _).symm, rfl⟩
  | cons entry rest ih =>
    obtain ⟨name, property⟩ := entry
    rw [boundNodes_cons, List.forall_mem_append] at h
    obtain ⟨hplaces, hsize⟩ := toList_listBindings place h.1 met
    obtain ⟨hrest, hrestSize⟩ := ih h.2 (listBindings met place.number property.bindings)
    have hlist : listProperties met place.number ((name, property) :: rest) =
        listProperties (listBindings met place.number property.bindings) place.number rest := by
      cases property <;> rfl
    have hlocated : (place.locateProperty met.size property).nodes =
        (place.locateBindings met.size property.bindings).map Binding.node := by
      cases property <;> rfl
    rw [hsize] at hrest hrestSize
    rw [hlist, propertiesSize, ← Nat.add_assoc]
    refine ⟨?_, hrestSize⟩
    rw [hrest, hplaces, Place.locateProperties, boundNodes_cons, List.flatMap_append, hlocated,
      List.append_assoc]

theorem toList_listItems {items : List (Item Node)} (place : Place)
    (h : ∀ node ∈ embeddedNodes items, node.IsListed) (met : Array Place) :
    (listItems met place.number items).toList =
      met.toList ++ (embeddedNodes (place.locateItems met.size items)).flatMap Place.all := by
  induction items generalizing met with
  | nil => exact (List.append_nil _).symm
  | cons item rest ih =>
    cases item with
    | embedded node =>
      have h : ∀ inner ∈ node :: embeddedNodes rest, inner.IsListed := h
      rw [List.forall_mem_cons] at h
      have hrest := ih h.2 (listPlaces met (some place.number) node)
      rw [h.1.size_listPlaces, h.1.places, List.append_assoc] at hrest
      rw [listItems, hrest]
      rfl
    | _ => exact ih h met

/-- A list of places goes on with those from a counted node down. -/
theorem isListed {node : Node} (h : node.all isCounted = true) : node.IsListed := by
  refine ⟨h, fun met parent => ?_⟩
  have hkids : ∀ kid ∈ node.kids, kid.IsListed := fun kid hmem =>
    isListed ((all_iff.mp h).2 kid hmem)
  cases node with
  | gap | null | literal =>
    rw [Place.all_of_isStub rfl]
    exact Array.toList_push
  | element body =>
    let place : Place := ⟨met.size, parent, .element body⟩
    obtain ⟨hbound, hembedded⟩ := List.forall_mem_append.mp hkids
    obtain ⟨hproperties, hsize⟩ := toList_listProperties place hbound (met.push place)
    have hitems := toList_listItems place hembedded
      (listProperties (met.push place) place.number (element body).properties)
    rw [hproperties, hsize, Array.size_push, Array.toList_push] at hitems
    rw [Place.all_eq, Place.kids, List.flatMap_append]
    refine hitems.trans ?_
    simp only [List.append_assoc, List.cons_append, List.nil_append]
    rfl
termination_by node.work
decreasing_by exact work_lt_of_mem_kids hmem

/-- The places of a tree are those from its root down. -/
theorem places_eq {root : Node} (h : root.all isCounted = true) :
    root.places.toList = (Place.root root).all :=
  (isListed h).places #[] none

/-- A sound node is counted. -/
theorem Sound.isCounted {node : Node} {depth : Nat} (h : node.Sound depth) :
    node.all Node.isCounted = true := by
  have houtline : ∀ outline : Outline, outline.Laid →
      (∀ edge node, .embedded edge node ∈ outline.segments → node.all Node.isCounted = true) →
      (∀ edge node shifts, .value edge node shifts ∈ outline.segments →
        node.all Node.isCounted = true) → outline.toNode.all Node.isCounted = true := by
    intro outline hl hembedded hvalue
    refine all_iff.mpr ⟨beq_iff_eq.mpr Outline.size_toNode, fun kid hmem => ?_⟩
    have hnode := (Outline.perm_kids hl.orderly).subset (List.mem_append_left _ hmem)
    obtain ⟨segment, hsegment, hkid⟩ := List.mem_filterMap.mp hnode
    cases segment with
    | content | arrayStart => cases hkid
    | embedded edge node =>
      cases hkid
      exact hembedded edge _ hsegment
    | value edge node shifts =>
      cases hkid
      exact hvalue edge _ shifts hsegment
  induction h with
  | gap | null | literal => rfl
  | element hl _ _ ihembedded ihvalue => exact houtline _ hl ihembedded ihvalue
  | holding hl _ _ _ _ _ ihembedded ihvalue _ => exact houtline _ hl ihembedded ihvalue

end Node

namespace Tree.Built

variable {tree : Tree}

theorem root_mem (h : tree.Built) : Place.root tree.root ∈ tree.root.places := by
  rw [← Array.mem_toList_iff, Node.places_eq h.sound.isCounted, Place.all_eq]
  exact List.mem_cons_self ..

/-- What holds of the root, and passes from each node to its parts, holds in the whole tree. -/
theorem of_mem_places {holds : Node → Prop} (h : tree.Built)
    (hkids : ∀ node kid : Node, holds node → kid ∈ node.kids → holds kid)
    (hroot : holds tree.root) {place : Place} (hmem : place ∈ tree.root.places) :
    holds place.node := by
  rw [← Array.mem_toList_iff, Node.places_eq h.sound.isCounted] at hmem
  exact Place.of_mem_all hkids hroot hmem

/-- All nodes of a tree that was built are sound. -/
theorem sound_of_mem {place : Place} (h : tree.Built) (hmem : place ∈ tree.root.places) :
    place.node.Sound 0 :=
  h.of_mem_places (fun _ _ => Node.Sound.of_mem_kids) h.sound hmem

end Tree.Built

end TagTree
