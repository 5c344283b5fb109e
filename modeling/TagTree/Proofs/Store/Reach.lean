import Mathlib.Data.List.Perm.Subperm
import TagTree.Proofs.Preorder
import TagTree.Proofs.RoundTrip
import TagTree.Proofs.Store.Session
import TagTree.Proofs.Totals

/-!
# What can be reached

In a finished arena the numbers that can be reached from a node are as many as the node has nodes
(`Arena.IsForest.exists_numbers`). All numbers that were given can be reached exactly if no array
gave way to a single value of the same name (`Tree.reaches_all_iff`).
-/

namespace TagTree

namespace Arena

variable {arena : Arena} {id kid other number : Nat}

/-! ### One parent -/

namespace IsForest

/-- What a node has is beneath it. -/
theorem parent_eq (h : arena.IsForest) (hhas : arena.Has id kid) {cell : Cell}
    (hcell : arena.cells[kid]? = some cell) : cell.parent = some id := by
  have hparent := h.parent id kid hhas
  rw [parent?, hcell] at hparent
  exact hparent

/-- A node has one parent. -/
theorem parent_unique (h : arena.IsForest) (hhas : arena.Has id kid)
    (hother : arena.Has other kid) :
    id = other :=
  Option.some.inj ((h.parent id kid hhas).symm.trans (h.parent other kid hother))

/-- A parent binds or embeds a node once. -/
theorem nodup_kids (h : arena.IsForest) {cell : Cell} (hcell : arena.cells[id]? = some cell) :
    cell.kids.Nodup := by
  rw [List.nodup_iff_count_le_one]
  intro kid
  have hcount := h.once id kid
  rwa [occurrences, hcell] at hcount

/-- No node is beneath what it binds or embeds. -/
theorem not_above (h : arena.IsForest) (hhas : arena.Has id kid) :
    ¬ Relation.ReflTransGen arena.Has kid id := by
  obtain ⟨rank, hrank⟩ := h.acyclic
  -- The rank falls along a path, and falls from a node to its part.
  have hle : ∀ {number}, Relation.ReflTransGen arena.Has kid number → rank number ≤ rank kid := by
    intro number hbeneath
    induction hbeneath with
    | refl => exact Nat.le_refl _
    | tail _ hstep ih => exact Nat.le_of_lt (Nat.lt_of_lt_of_le (hrank _ _ hstep) ih)
  intro hback
  exact Nat.not_lt.mpr (hle hback) (hrank id kid hhas)

/-- Of two nodes above the same one, one is above the other. -/
theorem above_or_above (h : arena.IsForest) (hfirst : Relation.ReflTransGen arena.Has id number)
    (hsecond : Relation.ReflTransGen arena.Has other number) :
    Relation.ReflTransGen arena.Has id other ∨ Relation.ReflTransGen arena.Has other id := by
  -- The two paths are followed back from their common end, until one of them is at its start.
  induction hfirst with
  | refl => exact .inr hsecond
  | @tail parent number hbeneath hhas ih =>
    rcases Relation.ReflTransGen.cases_tail hsecond with rfl | ⟨holder, hholder, hlast⟩
    · exact .inl (hbeneath.tail hhas)
    · obtain rfl := h.parent_unique hhas hlast
      exact ih hholder

/-- Nothing is beneath two nodes of the same parent. -/
theorem disjoint_kids (h : arena.IsForest) (hkid : arena.Has id kid) (hother : arena.Has id other)
    (hne : kid ≠ other) (hfirst : Relation.ReflTransGen arena.Has kid number) :
    ¬ Relation.ReflTransGen arena.Has other number := by
  -- Neither of two siblings is above the other: a path between them would lead back to the parent.
  have hapart : ∀ {first second}, arena.Has id first → arena.Has id second → first ≠ second →
      ¬ Relation.ReflTransGen arena.Has first second := by
    intro first second hone htwo hne hpath
    rcases Relation.ReflTransGen.cases_tail hpath with rfl | ⟨holder, hholder, hlast⟩
    · exact hne rfl
    · obtain rfl := h.parent_unique htwo hlast
      exact h.not_above hone hholder
  intro hsecond
  rcases h.above_or_above hfirst hsecond with hpath | hpath
  · exact hapart hkid hother hne hpath
  · exact hapart hother hkid hne.symm hpath

end IsForest

/-! ### Numbers beneath a node -/

/-- The numbers that can be reached from a node, each once. -/
structure Numbers (arena : Arena) (id : Nat) (numbers : List Nat) : Prop where
  nodup : numbers.Nodup
  mem_iff : ∀ number, number ∈ numbers ↔ Relation.ReflTransGen arena.Has id number

/-- The numbers beneath a node are those beneath what it binds and embeds. -/
theorem IsForest.numbers_cons (h : arena.IsForest) {cell : Cell}
    (hcell : arena.cells[id]? = some cell) {beneath : Nat → List Nat}
    (hbeneath : ∀ kid ∈ cell.kids, arena.Numbers kid (beneath kid)) :
    arena.Numbers id (id :: cell.kids.flatMap beneath) := by
  have hhas : ∀ {kid}, arena.Has id kid ↔ kid ∈ cell.kids := by
    intro kid
    refine ⟨?_, fun hmem => ⟨cell, hcell, hmem⟩⟩
    rintro ⟨same, hsame, hmem⟩
    cases hcell.symm.trans hsame
    exact hmem
  constructor
  · rw [List.nodup_cons, List.nodup_flatMap]
    refine ⟨?_, fun kid hmem => (hbeneath kid hmem).nodup, ?_⟩
    · intro hmem
      obtain ⟨kid, hkid, hmem⟩ := List.mem_flatMap.mp hmem
      exact h.not_above (hhas.mpr hkid) (((hbeneath kid hkid).mem_iff id).mp hmem)
    · refine (h.nodup_kids hcell).imp_of_mem fun hkid hother hne number hfirst hsecond => ?_
      exact h.disjoint_kids (hhas.mpr hkid) (hhas.mpr hother) hne
        (((hbeneath _ hkid).mem_iff number).mp hfirst)
        (((hbeneath _ hother).mem_iff number).mp hsecond)
  · intro number
    rw [List.mem_cons, List.mem_flatMap, Relation.ReflTransGen.cases_head_iff]
    refine or_congr eq_comm (exists_congr fun kid => ?_)
    rw [hhas]
    exact and_congr_right fun hkid => (hbeneath kid hkid).mem_iff number

/-- The numbers that can be reached from a node are as many as the node has nodes. -/
theorem IsForest.exists_numbers (h : arena.IsForest) {value : Nat → Node}
    (hholds : arena.Holds value) {id : Nat} (hid : id < arena.cells.size) :
    ∃ numbers, arena.Numbers id numbers ∧ numbers.length = (value id).size := by
  obtain ⟨cell, hcell⟩ : ∃ cell, arena.cells[id]? = some cell := ⟨_, Array.getElem?_eq_getElem hid⟩
  have hdenotes := hholds.denotes id cell hcell
  have hkids : ∀ kid, kid ∈ cell.kids →
      ∃ numbers, arena.Numbers kid numbers ∧ numbers.length = (value kid).size := by
    intro kid hmem
    have hsmaller : (value kid).size < (value id).size := hdenotes.size_lt hmem
    exact exists_numbers h hholds (hholds.kids id cell hcell kid hmem)
  choose! beneath hbeneath using hkids
  refine ⟨_, h.numbers_cons hcell fun kid hmem => (hbeneath kid hmem).1, ?_⟩
  have hlengths : cell.kids.map (fun kid => (beneath kid).length) =
      cell.kids.map fun kid => (value kid).size :=
    List.map_congr_left fun kid hmem => (hbeneath kid hmem).2
  rw [List.length_cons, List.length_flatMap, hlengths, hdenotes.size_eq, Nat.add_comm]
termination_by (value id).size

/-- All numbers can be reached exactly if as many can be reached as there are. -/
theorem IsTree.reaches_all_iff_length (h : arena.IsTree) {numbers : List Nat}
    (hnumbers : arena.Numbers arena.root numbers) :
    (∀ id < arena.cells.size, arena.Reaches id) ↔ numbers.length = arena.cells.size := by
  have hsubset : numbers ⊆ List.range arena.cells.size := by
    intro number hmem
    exact List.mem_range.mpr (h.inRange number ((hnumbers.mem_iff number).mp hmem))
  constructor
  · intro hall
    have hreached : List.range arena.cells.size ⊆ numbers := by
      intro number hmem
      exact (hnumbers.mem_iff number).mpr (hall number (List.mem_range.mp hmem))
    refine Nat.le_antisymm ?_ ?_
    · exact (hnumbers.nodup.length_le_of_subset hsubset).trans_eq List.length_range
    · exact List.length_range.symm.trans_le (List.nodup_range.length_le_of_subset hreached)
  · intro hlength id hlt
    have hperm := (hnumbers.nodup.subperm hsubset).perm_of_length_le
      (List.length_range.trans_le hlength.ge)
    exact (hnumbers.mem_iff id).mp (hperm.symm.subset (List.mem_range.mpr hlt))

end Arena

/-! ### The arena of a sequence of tags -/

namespace Store

/-- The store after all tags, if none of them goes wrong, is refused or asks for an expression. -/
def pushAll (store : Store) : List Tag → Option Store
  | [] => some store
  | tag :: rest =>
    match Store.push tag store with
    | some (.ok .accepted, after) => after.pushAll rest
    | _ => none

/-- A store that shows a builder takes the tags that the builder takes. -/
theorem Shown.pushAll {store : Store} {builder next : Builder} {phase : Phase} {tags : List Tag}
    (h : store.Shown builder) (hb : builder.In phase) (he : builder.expressions = false)
    (hnext : builder.pushAll tags [] = .ok next) :
    ∃ after, store.pushAll tags = some after ∧ after.Shown next := by
  induction tags generalizing store builder phase with
  | nil =>
    cases hnext
    exact ⟨store, rfl, h⟩
  | cons tag rest ih =>
    obtain ⟨middle, after, hpush, -, htook, hexpr, hnext⟩ := Builder.cons_of_pushAll hb he hnext
    obtain ⟨reached, hstep, hshown⟩ := h.push tag
    rw [hpush] at hstep hshown
    have hstep : Store.push tag store = some (.ok .accepted, reached) := hstep
    rw [Store.pushAll, hstep]
    exact ih hshown htook.inPhase hexpr hnext

end Store

/-- The arena of a whole sequence of tags. -/
def Arena.ofTags (tags : List Tag) : Option Arena := do
  (← ({} : Store).pushAll tags).finish.toOption

namespace Tree

variable {tags : List Tag} {tree : Tree}

/-- The arena of tags that make a tree shows the tree. -/
theorem exists_arena (h : ofTags tags = .ok tree) :
    ∃ arena value, Arena.ofTags tags = some arena ∧ arena.IsTree ∧ arena.IsForest ∧
      arena.Shows value tree := by
  obtain ⟨builder, hpush, hfinish⟩ := bind_eq_ok.mp h
  obtain ⟨store, hstore, hshown⟩ :=
    (Store.shown_start false).pushAll (Builder.in_before false) rfl hpush
  obtain ⟨arena, harena, -, hforest, htree, value, hshows⟩ := hshown.finish.exists_first hfinish
  refine ⟨arena, value, ?_, htree, hforest, hshows⟩
  rw [Arena.ofTags, hstore]
  exact congrArg Except.toOption harena

/-- A tree has as many places as its root says. -/
theorem size_places (h : ofTags tags = .ok tree) : tree.root.places.size = tree.root.size := by
  have hcounted := (Built.ofTags h).sound.isCounted
  rw [← Array.length_toList, Node.places_eq hcounted]
  exact Place.length_all (.root tree.root) hcounted

/-- The numbers that can be reached from the root are as many as the tree has places. -/
theorem exists_numbers (h : ofTags tags = .ok tree) :
    ∃ arena value numbers, Arena.ofTags tags = some arena ∧ arena.IsTree ∧
      arena.Shows value tree ∧ arena.Numbers arena.root numbers ∧
      numbers.length = tree.root.places.size := by
  obtain ⟨arena, value, harena, htree, hforest, hshows⟩ := exists_arena h
  obtain ⟨numbers, hnumbers, hlength⟩ := hforest.exists_numbers hshows.holds hshows.made
  refine ⟨arena, value, numbers, harena, htree, hshows, hnumbers, ?_⟩
  rw [hlength, ← hshows.root, size_places h]

/-- The places of a tree are at most as many as the nodes that were made for it, and as many exactly
if nothing was replaced. -/
theorem size_places_eq_iff (h : ofTags tags = .ok tree) :
    tree.root.places.size ≤ tree.created ∧
    (tree.root.places.size = tree.created ↔ tree.root.all Node.replacesNothing = true) := by
  rw [size_places h]
  exact ⟨(weighs h).le, (weighs h).exact⟩

/-- A number is given for every opening tag, every `null`, every literal that is a value, and every
gap that takes back no shifted value. All of them can be reached from the root, which then are as
many as the places of the tree, exactly if no single value came after an element of the same name.
-/
theorem reaches_all_iff (h : ofTags tags = .ok tree) :
    ∃ arena value numbers, Arena.ofTags tags = some arena ∧ arena.Shows value tree ∧
      arena.Numbers arena.root numbers ∧ numbers.length = tree.root.places.size ∧
      arena.cells.size + ({} : Builder).heldGaps tags =
        (tags.map Tag.kind).count .opening + (tags.map Tag.kind).count .null +
          Tag.boundLiterals false tags + (tags.map Tag.kind).count .gap ∧
      numbers.length ≤ arena.cells.size ∧
      ((∀ id < arena.cells.size, arena.Reaches id) ↔ tree.root.all Node.replacesNothing = true) ∧
      (numbers.length = arena.cells.size ↔ tree.root.all Node.replacesNothing = true) := by
  obtain ⟨arena, value, numbers, harena, htree, hshows, hnumbers, hlength⟩ := exists_numbers h
  obtain ⟨hle, hexact⟩ := size_places_eq_iff h
  have hcreated := created_eq h
  rw [hshows.created] at hle hexact hcreated
  rw [← hlength] at hle hexact
  refine ⟨arena, value, numbers, harena, hshows, hnumbers, hlength, hcreated, hle, ?_, hexact⟩
  exact (htree.reaches_all_iff_length hnumbers).trans hexact

theorem reaches_all_of_shift :
    ∃ tree arena, ofTags shiftedTags = .ok tree ∧ tree.root.all Node.replacesNothing = true ∧
      Arena.ofTags shiftedTags = some arena ∧ arena.cells.size = 4 ∧
      tree.root.places.size = arena.cells.size ∧ ∀ id < arena.cells.size, arena.Reaches id := by
  obtain ⟨tree, htree, hkeeps, hcreated⟩ : ∃ tree, ofTags shiftedTags = .ok tree ∧
      tree.root.all Node.replacesNothing = true ∧ tree.created = 4 := by decide +kernel
  obtain ⟨arena, value, numbers, harena, hshows, -, hlength, -, -, hall, hexact⟩ :=
    reaches_all_iff htree
  exact ⟨tree, arena, htree, hkeeps, harena, hshows.created.symm.trans hcreated,
    hlength.symm.trans (hexact.mpr hkeeps), hall.mpr hkeeps⟩

/-- Tags in which a single value comes after an element of the same name. -/
def replacingTags : List Tag :=
  let start (name : String) : Tag := .opening ⟨{}, none, some name, []⟩
  let edge (isArray : Bool) : Tag := .reference ⟨"a", isArray, none, {}⟩
  [start "P", edge true, .arrayStart, edge true, start "X", .closing, edge false,
    start "Y", .closing,
    .closing]

/-- The element is lost. -/
theorem unreachable_of_replaced :
    ∃ tree arena, ofTags replacingTags = .ok tree ∧ Arena.ofTags replacingTags = some arena ∧
      arena.cells.size = 3 ∧ tree.root.places.size = 2 ∧
      ¬ ∀ id < arena.cells.size, arena.Reaches id := by
  obtain ⟨tree, htree, hcreated, hplaces⟩ : ∃ tree, ofTags replacingTags = .ok tree ∧
      tree.created = 3 ∧ tree.root.places.size = 2 := by decide +kernel
  obtain ⟨arena, value, numbers, harena, hisTree, hshows, hnumbers, hlength⟩ := exists_numbers htree
  have hcells : arena.cells.size = 3 := hshows.created.symm.trans hcreated
  refine ⟨tree, arena, htree, harena, hcells, hplaces, ?_⟩
  rw [hisTree.reaches_all_iff_length hnumbers]
  omega

end Tree

end TagTree
