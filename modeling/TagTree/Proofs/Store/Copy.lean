import Mathlib.Data.List.Nodup
import TagTree.Proofs.Store.Nesting

/-!
# Copies of nodes

A node of a finished tree is copied with all beneath it. The copies have the numbers from the next
one on; the parts of a copy are put in place after cells have been reserved for them. At each moment
the copies are complete but for those that are still on the stack (`Arena.Copied`). The copying
ends, and the first copy denotes the node that was to be copied (`Arena.Copied.grafted`).
-/

namespace TagTree

open Function (update update_self update_of_ne)

variable {id part : Nat} {next number : Nat} {node : Node}

theorem Node.size_withoutHold (node : Node) : node.withoutHold.size = node.size := by
  cases node <;> rfl

section Renumber

variable {ν μ : Type} {f : Nat → μ} {g : ν → μ}

theorem embeddedNodes_renumberItems (next : Nat) (items : List (Item ν)) :
    embeddedNodes (renumberItems next items) = List.range' next (embeddedNodes items).length := by
  induction items generalizing next with
  | nil => rfl
  | cons item rest ih =>
    cases item with
    | embedded node => exact congrArg (next :: ·) (ih (next + 1))
    | _ => exact ih next

theorem map_renumberItems {items : List (Item ν)}
    (h : (List.range' next (embeddedNodes items).length).map f = (embeddedNodes items).map g) :
    (renumberItems next items).map (Item.map f) = items.map (Item.map g) := by
  induction items generalizing next with
  | nil => rfl
  | cons item rest ih =>
    cases item with
    | embedded node =>
      obtain ⟨hnode, hrest⟩ := List.cons.inj h
      exact List.cons_eq_cons.mpr ⟨congrArg Item.embedded hnode, ih hrest⟩
    | _ => exact congrArg (List.cons _) (ih h)

theorem nodes_renumberBindings (next : Nat) (bindings : List (Binding ν)) :
    (renumberBindings next bindings).map Binding.node = List.range' next bindings.length := by
  induction bindings generalizing next with
  | nil => rfl
  | cons binding rest ih => exact congrArg (next :: ·) (ih (next + 1))

theorem map_renumberBindings {bindings : List (Binding ν)}
    (h : (List.range' next bindings.length).map f = (bindings.map Binding.node).map g) :
    (renumberBindings next bindings).map (Binding.map f) = bindings.map (Binding.map g) := by
  induction bindings generalizing next with
  | nil => rfl
  | cons binding rest ih =>
    obtain ⟨hnode, hrest⟩ := List.cons.inj h
    exact List.cons_eq_cons.mpr ⟨congrArg (Binding.mk _) hnode, ih hrest⟩

theorem nodes_renumberProperty (next : Nat) (property : Property ν) :
    (renumberProperty next property).nodes = List.range' next property.nodes.length := by
  cases property with
  | single binding => rfl
  | array bindings =>
    refine (nodes_renumberBindings next bindings.toList).trans ?_
    simp [Property.nodes, Property.bindings]

theorem map_renumberProperty {property : Property ν}
    (h : (List.range' next property.nodes.length).map f = property.nodes.map g) :
    (renumberProperty next property).map f = property.map g := by
  cases property with
  | single binding => exact congrArg (Property.single ⟨binding.reference, ·⟩) (List.cons.inj h).1
  | array bindings =>
    have hlength : (Property.array bindings).nodes.length = bindings.toList.length := by
      simp [Property.nodes, Property.bindings]
    rw [hlength] at h
    have hbindings := map_renumberBindings h
    simp only [renumberProperty, Property.map, List.map_toArray, hbindings]
    rw [← Array.toList_map, Array.toArray_toList]

theorem boundNodes_renumberProperties (next : Nat) (properties : Entries (Property ν)) :
    boundNodes (renumberProperties next properties) =
      List.range' next (boundNodes properties).length := by
  induction properties generalizing next with
  | nil => rfl
  | cons entry rest ih =>
    obtain ⟨name, property⟩ := entry
    rw [renumberProperties, boundNodes_cons, boundNodes_cons, ih, nodes_renumberProperty,
      List.length_append]
    exact List.range'_append_1 ..

theorem map_renumberProperties {properties : Entries (Property ν)}
    (h : (List.range' next (boundNodes properties).length).map f = (boundNodes properties).map g) :
    (renumberProperties next properties).map (fun entry => (entry.1, entry.2.map f)) =
      properties.map fun entry => (entry.1, entry.2.map g) := by
  induction properties generalizing next with
  | nil => rfl
  | cons entry rest ih =>
    obtain ⟨name, property⟩ := entry
    rw [boundNodes_cons, List.length_append, ← List.range'_append_1, List.map_append,
      List.map_append] at h
    obtain ⟨hnodes, hrest⟩ := List.append_inj h (by simp)
    exact List.cons_eq_cons.mpr ⟨congrArg (Prod.mk name) (map_renumberProperty hnodes), ih hrest⟩

theorem keys_renumberProperties (next : Nat) (properties : Entries (Property ν)) :
    (renumberProperties next properties).keys = properties.keys := by
  induction properties generalizing next with
  | nil => rfl
  | cons entry rest ih => exact congrArg (entry.1 :: ·) (ih _)

end Renumber

namespace Content

theorem toList_renumber (content : Content) (next : Nat) :
    (content.renumber next).properties.toList = renumberProperties
      (next + (embeddedNodes content.items.toList).length) content.properties.toList := by
  refine Entries.ofPairs_of_nodup ?_
  rw [keys_renumberProperties]
  exact content.properties.nodup_keys

theorem parts_perm (content : Content) : content.parts.Perm content.kids :=
  List.perm_append_comm

theorem parts_renumber (content : Content) (next : Nat) :
    (content.renumber next).parts = List.range' next content.parts.length := by
  rw [parts, toList_renumber, boundNodes_renumberProperties]
  show embeddedNodes (renumberItems next content.items.toList) ++ _ = _
  rw [embeddedNodes_renumberItems, parts, List.length_append]
  exact List.range'_append_1 ..

variable {value source : Nat → Node}

/-- A content with other numbers for its parts denotes the same node if they stand for the same. -/
theorem Denotes.renumber {content : Content} (h : content.Denotes source node)
    (hvalue : (List.range' next content.parts.length).map value = content.parts.map source) :
    (content.renumber next).Denotes value node := by
  rw [parts, List.length_append, ← List.range'_append_1, List.map_append, List.map_append] at hvalue
  obtain ⟨hembedded, hbound⟩ := List.append_inj hvalue (by simp)
  refine h.transfer rfl rfl rfl ?_ ?_
  · refine Array.toList_inj.mp ?_
    rw [itemsOf, itemsOf, Array.toList_map, Array.toList_map]
    exact map_renumberItems hembedded
  · rw [propertiesOf, propertiesOf, toList_renumber]
    exact map_renumberProperties hbound

end Content

/-- The nodes that numbers stand for, with the numbers from a given one on for further nodes. -/
def assignAll (value : Nat → Node) (next : Nat) (nodes : List Node) (id : Nat) : Node :=
  if id < next then value id else nodes.getD (id - next) .gap

theorem assignAll_of_le {nodes : List Node} (h : next ≤ id) (hnode : nodes[id - next]? = some node)
    (value : Nat → Node) : assignAll value next nodes id = node := by
  rw [assignAll, if_neg (by omega), List.getD_eq_getElem?_getD, hnode]
  rfl

/-- Nodes among the further ones are what the numbers of their places stand for. -/
theorem map_assignAll {nodes parts : List Node} {start : Nat} (h : parts <+: nodes.drop start)
    (value : Nat → Node) (next : Nat) :
    (List.range' (next + start) parts.length).map (assignAll value next nodes) = parts := by
  obtain ⟨rest, hrest⟩ := h
  refine List.ext_getElem (by simp) fun place hplace hpart => ?_
  rw [List.getElem_map, List.getElem_range', Nat.one_mul]
  refine assignAll_of_le (by omega) ?_ value
  rw [Nat.add_assoc, Nat.add_sub_cancel_left, ← List.getElem?_drop, ← hrest,
    List.getElem?_append_left hpart]
  exact List.getElem?_eq_getElem hpart

namespace Arena

/-- The cells denote the nodes that the numbers stand for, and no number is without a cell. -/
structure Holds (source : Nat → Node) (arena : Arena) : Prop where
  denotes : ∀ (id : Nat) (cell : Cell), arena.cells[id]? = some cell →
    cell.Denotes source (source id)
  kids : ∀ (id : Nat) (cell : Cell), arena.cells[id]? = some cell →
    ∀ kid ∈ cell.kids, kid < arena.cells.size

/-- Cells are reserved for copies of nodes, one after the other. -/
structure Reserved (arena : Arena) (parent : Option Nat) (ids : List Nat) (state after : Copying) :
    Prop where
  size : after.cells.size = state.cells.size + ids.length
  old : ∀ id, id < state.cells.size → after.cells[id]? = state.cells[id]?
  shells : ∀ id copy, (id, copy) ∈ ids.zipIdx state.cells.size →
    ∃ cell, arena.cells[id]? = some cell ∧ after.cells[copy]? = some (cell.shell parent)
  stack : after.stack = (ids.zipIdx state.cells.size).reverse ++ state.stack

/-- Cells can be reserved for all parts. -/
theorem reserve_all {arena : Arena} {ids : List Nat} (h : ∀ id ∈ ids, id < arena.cells.size)
    (parent : Option Nat) (state : Copying) :
    ∃ after, ids.foldlM (arena.reserve parent) state = some after ∧
      arena.Reserved parent ids state after := by
  induction ids generalizing state with
  | nil =>
    refine ⟨state, rfl, rfl, fun id _ => rfl, ?_, rfl⟩
    intro id copy hmem
    cases hmem
  | cons id rest ih =>
    obtain ⟨cell, hcell⟩ : ∃ cell, arena.cells[id]? = some cell :=
      ⟨_, Array.getElem?_eq_getElem (h id List.mem_cons_self)⟩
    generalize hnext : (⟨state.cells.push (cell.shell parent),
      (id, state.cells.size) :: state.stack⟩ :
      Copying) = next
    have hreserve : arena.reserve parent state id = some next := by
      rw [reserve, hcell, ← hnext]
      rfl
    have hsize : next.cells.size = state.cells.size + 1 := by
      rw [← hnext]
      exact Array.size_push ..
    obtain ⟨after, hafter, hreserved⟩ := ih (List.forall_mem_cons.mp h).2 next
    refine ⟨after, ?_, ?_, ?_, ?_, ?_⟩
    · rw [List.foldlM_cons, hreserve]
      exact hafter
    · rw [hreserved.size, hsize, List.length_cons]
      omega
    · intro other hlt
      rw [hreserved.old other (by omega), ← hnext]
      exact (Array.getElem?_push ..).trans (if_neg (by omega))
    · intro other copy hmem
      rw [List.zipIdx_cons, List.mem_cons, ← hsize] at hmem
      rcases hmem with hfirst | hrest
      · obtain ⟨rfl, rfl⟩ := Prod.mk.inj hfirst
        refine ⟨cell, hcell, ?_⟩
        rw [hreserved.old _ (by omega), ← hnext]
        exact Array.getElem?_push_size
      · exact hreserved.shells other copy hrest
    · rw [hreserved.stack, hsize, ← hnext, List.zipIdx_cons, List.reverse_cons, List.append_assoc]
      rfl

/-- The parts of a copy are put in place, in cells that have been reserved for them. -/
structure Parted (arena : Arena) (cell : Cell) (copy : Nat) (state after : Copying) : Prop where
  size : after.cells.size = state.cells.size + cell.parts.length
  self : after.cells[copy]? = (state.cells[copy]?).map fun shell =>
    ⟨cell.renumber state.cells.size, shell.parent⟩
  old : ∀ id, id < state.cells.size → id ≠ copy → after.cells[id]? = state.cells[id]?
  shells : ∀ part number, (part, number) ∈ cell.parts.zipIdx state.cells.size →
    ∃ source, arena.cells[part]? = some source ∧
      after.cells[number]? = some (source.shell (some copy))
  stack : after.stack = (cell.parts.zipIdx state.cells.size).reverse ++ state.stack

variable {arena : Arena} {cell : Cell} {state after : Copying} {copy : Nat}

/-- The parts of a reserved copy can be put in place. -/
theorem copyParts_of_shell {parent : Option Nat} (hcell : arena.cells[id]? = some cell)
    (hparts : ∀ part ∈ cell.parts, part < arena.cells.size)
    (hshell : state.cells[copy]? = some (cell.shell parent)) :
    ∃ after, arena.copyParts state id copy = some after ∧ arena.Parted cell copy state after := by
  have hlt : copy < state.cells.size := (Array.getElem?_eq_some_iff.mp hshell).1
  obtain ⟨reserved, hreserve, hreserved⟩ := reserve_all hparts (some copy) state
  have hkept : reserved.cells[copy]? = some (cell.shell parent) :=
    (hreserved.old copy hlt).trans hshell
  generalize hfilled : reserved.cells.setIfInBounds copy
    ⟨cell.renumber state.cells.size, parent⟩ = filled
  have hother : ∀ other, other ≠ copy → filled[other]? = reserved.cells[other]? := by
    intro other hne
    rw [← hfilled]
    exact Array.getElem?_setIfInBounds_ne hne.symm
  refine ⟨⟨filled, reserved.stack⟩, ?_, ?_, ?_, ?_, ?_, hreserved.stack⟩
  · rw [copyParts, hcell]
    simp only [Option.bind_eq_bind, Option.bind_some, hreserve, hkept, ← hfilled]
    rfl
  · rw [← hreserved.size, ← hfilled]
    exact Array.size_setIfInBounds
  · rw [hshell, ← hfilled]
    exact Array.getElem?_setIfInBounds_self_of_lt (Array.getElem?_eq_some_iff.mp hkept).1
  · intro other hbelow hne
    exact (hother other hne).trans (hreserved.old other hbelow)
  · intro part number hmem
    obtain ⟨source, hsource, hpart⟩ := hreserved.shells part number hmem
    have hle := (List.mem_zipIdx_iff_le_and_getElem?_sub.mp hmem).1
    exact ⟨source, hsource, (hother number (by omega)).trans hpart⟩

/-- How many nodes are not copied yet, with those that a cell is reserved for. -/
def Copying.weight (source : Nat → Node) (state : Copying) : Nat :=
  (state.stack.map fun entry => (source entry.1).size).sum

/-- The copy of a cell at a place behind the first copy, which has number `next`. The copies of the
parts follow one another beneath it. -/
structure Placed (next : Nat) (origins : List Nat) (cells : Array Cell) (cell : Cell)
    (place start : Nat) (copy : Cell) : Prop where
  made : cells[next + place]? = some copy
  content : copy.toContent = cell.renumber (next + start)
  later : place < start
  parts : cell.parts <+: origins.drop start
  beneath : ∀ number ∈ List.range' (next + start) cell.parts.length,
    (cells[number]?).map Cell.parent = some (some (next + place))

/-- The copies that have been made behind the cells of a base, with the numbers that they are copies
of. A copy that does not wait has its parts in place. -/
structure Copied (arena : Arena) (source : Nat → Node) (base : Array Cell) (id : Nat)
    (parent : Option Nat) (origins : List Nat) (state : Copying) : Prop where
  old : ∀ id, id < base.size → state.cells[id]? = base[id]?
  size : state.cells.size = base.size + origins.length
  head : origins.head? = some id
  first : (state.cells[base.size]?).map Cell.parent = some parent
  pending : ∀ id copy, (id, copy) ∈ state.stack → ∃ place cell above,
    copy = base.size + place ∧ origins[place]? = some id ∧ arena.cells[id]? = some cell ∧
    state.cells[copy]? = some (cell.shell above)
  once : (state.stack.map Prod.snd).Nodup
  complete : ∀ place id, origins[place]? = some id →
    base.size + place ∉ state.stack.map Prod.snd → ∃ cell start made,
      arena.cells[id]? = some cell ∧ Placed base.size origins state.cells cell place start made
  total : origins.length + state.weight source = (source id).size + state.stack.length

variable {source value : Nat → Node} {base : Array Cell} {origins : List Nat} {parent : Option Nat}
  {first : Nat}

namespace Parted

variable (h : arena.Parted cell copy state after)

include h

theorem weight (hdenotes : cell.Denotes source (source id)) :
    after.weight source + 1 = (source id).size + state.weight source := by
  have hparts : ((cell.parts.zipIdx state.cells.size).map fun entry => (source entry.1).size) =
      cell.parts.map fun part => (source part).size := by
    refine Eq.trans ?_ (congrArg (List.map _) (List.zipIdx_map_fst state.cells.size cell.parts))
    rw [List.map_map]
    rfl
  have hsize : (source id).size = 1 + (cell.parts.map fun part => (source part).size).sum := by
    rw [hdenotes.size_eq, (cell.parts_perm.map _).sum_eq]
  rw [Copying.weight, Copying.weight, h.stack, List.map_append, List.map_reverse, hparts,
    List.sum_append_nat, List.sum_reverse, hsize]
  omega

/-- The parents of the cells that there were stay. -/
theorem parent_old (hlt : number < state.cells.size) :
    (after.cells[number]?).map Cell.parent = (state.cells[number]?).map Cell.parent := by
  by_cases hsame : number = copy
  · rw [hsame, h.self, Option.map_map]
    rfl
  · rw [h.old number hlt hsame]

/-- The new cells are beneath the copy. -/
theorem parent_new (hnumber : number ∈ List.range' state.cells.size cell.parts.length) :
    (after.cells[number]?).map Cell.parent = some (some copy) := by
  rw [← List.zipIdx_map_snd] at hnumber
  obtain ⟨⟨part, number⟩, hmem, rfl⟩ := List.mem_map.mp hnumber
  obtain ⟨partCell, -, hpart⟩ := h.shells part number hmem
  rw [hpart]
  rfl

/-- The copies that wait are the new ones, before those that waited already. -/
theorem map_snd_stack : after.stack.map Prod.snd =
    (List.range' state.cells.size cell.parts.length).reverse ++ state.stack.map Prod.snd := by
  rw [h.stack, List.map_append, List.map_reverse, List.zipIdx_map_snd]

end Parted

variable {cells : Array Cell} {rest : List (Nat × Nat)}

/-- What is in place stays so when the parts of another copy are put in place. -/
theorem Placed.parted {holder made : Cell} {place start : Nat}
    (h : Placed base.size origins cells holder place start made)
    (hparted : arena.Parted cell copy ⟨cells, rest⟩ after)
    (hsize : cells.size = base.size + origins.length) (hne : base.size + place ≠ copy) :
    Placed base.size (origins ++ cell.parts) after.cells holder place start made := by
  have hbelow := (Array.getElem?_eq_some_iff.mp h.made).1
  have hlength := h.parts.length_le
  rw [List.length_drop] at hlength
  refine ⟨(hparted.old _ hbelow hne).trans h.made, h.content, h.later, h.parts.trans ?_, ?_⟩
  · rw [List.drop_append]
    exact List.prefix_append ..
  · intro number hmem
    obtain ⟨hge, hlt⟩ := List.mem_range'_1.mp hmem
    refine (hparted.parent_old ?_).trans (h.beneath number hmem)
    show number < cells.size
    omega

namespace Copied

/-- A copy that waits later is another one, and its cell is reserved. -/
theorem lt_of_mem (h : Copied arena source base first parent origins ⟨cells, (id, copy) :: rest⟩)
    (hmem : (part, number) ∈ rest) : number < cells.size ∧ number ≠ copy := by
  obtain ⟨-, cell, above, -, -, -, hshell⟩ := h.pending part number (List.mem_cons_of_mem _ hmem)
  refine ⟨(Array.getElem?_eq_some_iff.mp hshell).1, ?_⟩
  rintro rfl
  exact (List.nodup_cons.mp h.once).1 (List.mem_map.mpr ⟨_, hmem, rfl⟩)

/-- The new copies wait, and those that waited already. -/
theorem pending_parted
    (h : Copied arena source base first parent origins ⟨cells, (id, copy) :: rest⟩)
    (hparted : arena.Parted cell copy ⟨cells, rest⟩ after) (hmem : (part, number) ∈ after.stack) :
    ∃ place partCell above, number = base.size + place ∧
      (origins ++ cell.parts)[place]? = some part ∧ arena.cells[part]? = some partCell ∧
      after.cells[number]? = some (partCell.shell above) := by
  have hsize : cells.size = base.size + origins.length := h.size
  rw [hparted.stack, List.mem_append, List.mem_reverse] at hmem
  rcases hmem with hnew | hold
  · obtain ⟨hle, hpart⟩ := List.mem_zipIdx_iff_le_and_getElem?_sub.mp hnew
    have hle : cells.size ≤ number := hle
    obtain ⟨partCell, hpartCell, hpartShell⟩ := hparted.shells part number hnew
    refine ⟨number - base.size, partCell, _, by omega, ?_, hpartCell, hpartShell⟩
    rw [List.getElem?_append_right (by omega), ← hpart]
    exact congrArg (cell.parts[·]?) (by show _ = number - cells.size; omega)
  · obtain ⟨hbelow, hne⟩ := h.lt_of_mem hold
    obtain ⟨place, partCell, above, hplace, horigin, hpartCell, hpartShell⟩ :=
      h.pending part number (List.mem_cons_of_mem _ hold)
    have hlt := (List.getElem?_eq_some_iff.mp horigin).1
    exact ⟨place, partCell, above, hplace, (List.getElem?_append_left hlt).trans horigin,
      hpartCell, (hparted.old number hbelow hne).trans hpartShell⟩

/-- The parts of one more copy are put in place, and their numbers are recorded. -/
theorem step (harena : arena.Holds source)
    (h : Copied arena source base first parent origins ⟨cells, (id, copy) :: rest⟩) :
    ∃ after origins', arena.copyParts ⟨cells, rest⟩ id copy = some after ∧
      Copied arena source base first parent origins' after ∧
      after.weight source < Copying.weight source ⟨cells, (id, copy) :: rest⟩ := by
  obtain ⟨here, cell, above, hcopy, hid, hcell, hshell⟩ := h.pending id copy List.mem_cons_self
  have hparts : ∀ part ∈ cell.parts, part < arena.cells.size := fun part hpart =>
    harena.kids id cell hcell part (cell.parts_perm.mem_iff.mp hpart)
  have hwaits : (⟨cells, rest⟩ : Copying).cells[copy]? = some (cell.shell above) := hshell
  obtain ⟨after, hafter, hparted⟩ := copyParts_of_shell hcell hparts hwaits
  have hsize : cells.size = base.size + origins.length := h.size
  have hhere : here < origins.length := (List.getElem?_eq_some_iff.mp hid).1
  have hweight := hparted.weight (harena.denotes id cell hcell)
  have hnumbers : after.stack.map Prod.snd =
      (List.range' cells.size cell.parts.length).reverse ++ rest.map Prod.snd :=
    hparted.map_snd_stack
  refine ⟨after, origins ++ cell.parts, hafter,
    { old := ?old, size := ?size, head := ?head, first := ?first, pending := ?pending,
      once := ?once, complete := ?complete, total := ?total }, ?less⟩
  case old =>
    intro other hbase
    rw [← h.old other hbase]
    exact hparted.old other (by show other < cells.size; omega) (by omega)
  case size =>
    rw [hparted.size, List.length_append, hsize, Nat.add_assoc]
  case head =>
    rw [List.head?_append, h.head]
    rfl
  case first => exact (hparted.parent_old (by show _ < cells.size; omega)).trans h.first
  case pending => exact fun part number hmem => h.pending_parted hparted hmem
  case once =>
    rw [hnumbers]
    refine List.nodup_append.mpr ⟨List.nodup_reverse.mpr List.nodup_range',
      (List.nodup_cons.mp h.once).2, ?_⟩
    intro number hnew other hold hsame
    obtain ⟨⟨part, other⟩, hmem, rfl⟩ := List.mem_map.mp hold
    have hle := (List.mem_range'_1.mp (List.mem_reverse.mp hnew)).1
    have hbelow := (h.lt_of_mem hmem).1
    omega
  case complete =>
    intro place other horigin hdone
    rw [hnumbers, List.mem_append, List.mem_reverse, List.mem_range'_1, not_or] at hdone
    have hbelow : place < origins.length := by
      have hlt := (List.getElem?_eq_some_iff.mp horigin).1
      rw [List.length_append] at hlt
      omega
    rw [List.getElem?_append_left hbelow] at horigin
    -- A copy that does not wait is the one whose parts were put in place, or was complete before.
    by_cases hsame : place = here
    · subst hsame
      cases horigin.symm.trans hid
      have hself : after.cells[copy]? = some ⟨cell.renumber cells.size, above⟩ :=
        hparted.self.trans (congrArg (Option.map _) hshell)
      refine ⟨cell, origins.length, _, hcell, hcopy ▸ hself, congrArg cell.renumber hsize, hhere,
        ⟨[], (List.append_nil _).trans List.drop_left.symm⟩, ?_⟩
      rw [← hsize, ← hcopy]
      exact fun number => hparted.parent_new
    · have hold : base.size + place ∉ ((id, copy) :: rest).map Prod.snd := by
        rw [List.map_cons, List.mem_cons, not_or]
        exact ⟨by show base.size + place ≠ copy; omega, hdone.2⟩
      obtain ⟨holder, start, made, hholder, hplaced⟩ := h.complete place other horigin hold
      exact ⟨holder, start, made, hholder, hplaced.parted hparted hsize (by omega)⟩
  case total =>
    have htotal := h.total
    have hlength := congrArg List.length hnumbers
    simp only [Copying.weight, List.map_cons, List.sum_cons, List.length_cons, List.length_append,
      List.length_reverse, List.length_map, List.length_range'] at htotal hlength hweight ⊢
    omega
  case less =>
    show _ < (source id).size + Copying.weight source ⟨cells, rest⟩
    omega

/-- All copies are made. -/
theorem run (harena : arena.Holds source)
    (h : Copied arena source base first parent origins state) :
    ∃ cells origins', arena.copyAll state = some cells ∧
      Copied arena source base first parent origins' ⟨cells, []⟩ := by
  induction hweight : state.weight source using Nat.strong_induction_on
    generalizing state origins with
  | _ weight ih =>
    subst hweight
    obtain ⟨cells, stack⟩ := state
    cases stack with
    | nil => exact ⟨cells, origins, copyAll_nil .., h⟩
    | cons entry rest =>
      obtain ⟨id, copy⟩ := entry
      obtain ⟨after, origins', hafter, hcopied, hless⟩ := h.step harena
      obtain ⟨last, origins'', hall, hdone⟩ := ih _ hless hcopied rfl
      refine ⟨last, origins'', ?_, hdone⟩
      rw [copyAll_cons, hafter]
      exact hall

/-- A cell is reserved for the first copy. -/
theorem start (hcell : arena.cells[id]? = some cell) (source : Nat → Node) (base : Array Cell)
    (parent : Option Nat) :
    Copied arena source base id parent [id]
      ⟨base.push (cell.shell parent), [(id, base.size)]⟩ := by
  refine ⟨?_, Array.size_push .., rfl, ?_, ?_, List.pairwise_singleton .., ?_, ?_⟩
  · intro other hlt
    exact (Array.getElem?_push ..).trans (if_neg (by omega))
  · rw [Array.getElem?_push_size]
    rfl
  · intro other copy hmem
    obtain ⟨rfl, rfl⟩ := Prod.mk.inj (List.mem_singleton.mp hmem)
    exact ⟨0, cell, parent, rfl, rfl, hcell, Array.getElem?_push_size⟩
  · intro place other horigin hdone
    have hlt : place < 1 := (List.getElem?_eq_some_iff.mp horigin).1
    refine absurd (List.mem_singleton.mpr ?_) hdone
    omega
  · show 1 + ((source id).size + 0) = (source id).size + 1
    omega

end Copied

theorem graft_eq_copyAll (hcell : arena.cells[id]? = some cell) (base : Array Cell)
    (parent : Option Nat) :
    arena.graft base id parent =
      arena.copyAll ⟨base.push (cell.shell parent), [(id, base.size)]⟩ := by
  rw [Arena.graft, reserve, hcell]
  rfl

/-- Copies that are complete: the first one stands for the given node, and the cells before it are
as they were. -/
structure Grafted (base cells : Array Cell) (value value' : Nat → Node) (node : Node) : Prop where
  size : cells.size = base.size + node.size
  made : base.size < cells.size
  old : ∀ id, id < base.size → cells[id]? = base[id]?
  values : ∀ id, id < base.size → value' id = value id
  first : value' base.size = node
  complete : ∀ id cell, base.size ≤ id → cells[id]? = some cell →
    Store.Complete base.size cells value' id cell

/-- When no copy waits, each stands for what the number that it is of stands for. -/
theorem Copied.grafted (harena : arena.Holds source)
    (h : Copied arena source base id parent origins ⟨cells, []⟩) (value : Nat → Node) :
    Grafted base cells value (assignAll value base.size (origins.map source)) (source id) := by
  have hvalue : ∀ {place number}, origins[place]? = some number →
      assignAll value base.size (origins.map source) (base.size + place) = source number := by
    intro place number horigin
    refine assignAll_of_le (Nat.le_add_right ..) ?_ value
    rw [Nat.add_sub_cancel_left, List.getElem?_map, horigin]
    rfl
  have hsize : cells.size = base.size + origins.length := h.size
  have hfirst : origins[0]? = some id := List.head?_eq_getElem? ▸ h.head
  have htotal : origins.length = (source id).size := h.total
  have hmade := (List.getElem?_eq_some_iff.mp hfirst).1
  refine ⟨by omega, by omega, h.old, fun other hlt => if_pos hlt, hvalue hfirst, ?_⟩
  intro other copy hge hcopy
  obtain ⟨place, rfl⟩ := Nat.exists_eq_add_of_le hge
  have hlt : base.size + place < cells.size := (Array.getElem?_eq_some_iff.mp hcopy).1
  have horigin : origins[place]? = some origins[place] := List.getElem?_eq_getElem (by omega)
  obtain ⟨cell, start, made, hcell, hplaced⟩ := h.complete place _ horigin List.not_mem_nil
  cases hcopy.symm.trans hplaced.made
  have hperm := copy.parts_perm
  rw [hplaced.content, cell.parts_renumber] at hperm
  refine ⟨?_, ?_, ?_⟩
  · intro kid
    rw [hplaced.content, ← hperm.count_eq]
    exact List.nodup_iff_count_le_one.mp List.nodup_range' kid
  · intro kid hkid
    rw [hplaced.content] at hkid
    have hrange := hperm.mem_iff.mpr hkid
    have hle := (List.mem_range'_1.mp hrange).1
    have hlater := hplaced.later
    exact ⟨by omega, hplaced.beneath kid hrange⟩
  · rw [hplaced.content, hvalue horigin]
    refine (harena.denotes _ cell hcell).renumber ?_
    have hnodes : cell.parts.map source <+: (origins.map source).drop start := by
      rw [← List.map_drop]
      exact hplaced.parts.map source
    have := map_assignAll hnodes value base.size
    rwa [List.length_map] at this

/-- A node can be copied with all beneath it. -/
theorem Holds.graft (harena : arena.Holds source) (hid : id < arena.cells.size) (base : Array Cell)
    (parent : Option Nat) :
    ∃ cells origins, arena.graft base id parent = some cells ∧
      Copied arena source base id parent origins ⟨cells, []⟩ := by
  obtain ⟨cell, hcell⟩ : ∃ cell, arena.cells[id]? = some cell := ⟨_, Array.getElem?_eq_getElem hid⟩
  obtain ⟨cells, origins, hall, hdone⟩ := (Copied.start hcell source base parent).run harena
  exact ⟨cells, origins, (graft_eq_copyAll hcell base parent).trans hall, hdone⟩

/-- The copy without the shifts that the node took part in. -/
theorem Grafted.withoutHold {value' : Nat → Node} (h : Grafted base cells value value' node) :
    Grafted base (cells.modify base.size fun cell => { cell with held := none }) value
      (update value' base.size node.withoutHold) node.withoutHold := by
  generalize hcleared : (cells.modify base.size fun cell => { cell with held := none }) = cleared
  have hother : ∀ other, other ≠ base.size → cleared[other]? = cells[other]? := by
    intro other hne
    rw [← hcleared, Array.getElem?_modify, if_neg (Ne.symm hne)]
  have hkids : ∀ id cell, Store.Complete base.size cells value' id cell → ∀ kid ∈ cell.kids,
      base.size < kid ∧ (cleared[kid]?).map Cell.parent = some (some id) := by
    intro id cell hcomplete kid hkid
    obtain ⟨hlt, hparent⟩ := hcomplete.kids kid hkid
    exact ⟨hlt, (hother kid (by omega)).symm ▸ hparent⟩
  -- The first copy is a part of none, so nothing else depends on what it stands for.
  have hvalue : ∀ id cell, Store.Complete base.size cells value' id cell → ∀ kid ∈ cell.kids,
      value' kid = update value' base.size node.withoutHold kid := by
    intro id cell hcomplete kid hkid
    have hlt := (hcomplete.kids kid hkid).1
    exact (update_of_ne (by omega) ..).symm
  have hsize : cleared.size = cells.size := by
    rw [← hcleared]
    exact Array.size_modify
  refine ⟨?_, hsize ▸ h.made, ?_, ?_, update_self .., ?_⟩
  · rw [Node.size_withoutHold, hsize, h.size]
  · intro id hlt
    exact (hother id (by omega)).trans (h.old id hlt)
  · intro id hlt
    exact (update_of_ne (by omega) ..).trans (h.values id hlt)
  · intro id cell hge hcell
    by_cases hid : id = base.size
    · rw [hid, ← hcleared, Array.getElem?_modify, if_pos rfl] at hcell
      obtain ⟨first, hfirst, rfl⟩ := Option.map_eq_some_iff.mp hcell
      have hcomplete := h.complete base.size first (Nat.le_refl _) hfirst
      have hdenotes := hcomplete.denotes
      rw [h.first] at hdenotes
      rw [hid]
      refine ⟨hcomplete.once, hkids _ first hcomplete, ?_⟩
      rw [update_self]
      exact hdenotes.withoutHold.congr (hvalue _ first hcomplete)
    · have hcomplete := h.complete id cell hge ((hother id hid).symm.trans hcell)
      refine ⟨hcomplete.once, hkids id cell hcomplete, ?_⟩
      rw [update_of_ne hid]
      exact hcomplete.denotes.congr (hvalue id cell hcomplete)

end Arena

end TagTree
