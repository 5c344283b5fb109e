import Mathlib.Data.Set.Function
import TagTree.Proofs.Store.Reach

/-!
# Copies, cell by cell

A copy of a node has, for each number that can be reached from the node, one cell: the cell of that
number with all numbers in it exchanged for those of their copies. The order in which cells were
reserved for them (`Arena.Copied`) is a numbering of what can be reached. So a copy is exact
(`Finished.graft_exact`).
-/

namespace TagTree

variable {copy : Nat → Nat} {numbers : List Nat}

section Map

variable {ν : Type}

theorem Item.map_id : Item.map (id : ν → ν) = id := by
  funext item
  cases item <;> rfl

theorem Property.map_id : Property.map (id : ν → ν) = id := by
  funext property
  cases property with
  | single binding => rfl
  | array bindings => exact congrArg array (Array.map_id bindings)

end Map

namespace Content

variable {number : Nat → Nat} {content copy : Content}

/-- The content with other numbers for its parts, and otherwise the same. -/
structure Renumbered (number : Nat → Nat) (content copy : Content) : Prop where
  head : copy.head = content.head
  label : copy.label = content.label
  held : copy.held = content.held
  items : copy.items = content.items.map (Item.map number)
  properties : copy.properties.toList =
    content.properties.toList.map fun entry => (entry.1, entry.2.map number)

namespace Renumbered

theorem kids (h : content.Renumbered number copy) : copy.kids = content.kids.map number := by
  rw [Content.kids, h.items, h.properties, boundNodes_map, Array.toList_map, embeddedNodes_map,
    ← List.map_append]
  rfl

end Renumbered

/-- Numbers from a given one on are other numbers for the parts. -/
theorem renumbered_renumber {next : Nat}
    (h : content.parts.map number = List.range' next content.parts.length) :
    content.Renumbered number (content.renumber next) := by
  have hsame : (List.range' next content.parts.length).map id = content.parts.map number := by
    rw [List.map_id, h]
  rw [parts, List.length_append, ← List.range'_append_1, List.map_append, List.map_append] at hsame
  obtain ⟨hembedded, hbound⟩ := List.append_inj hsame (by simp)
  refine ⟨rfl, rfl, rfl, ?_, ?_⟩
  · have hitems := map_renumberItems hembedded
    rw [Item.map_id, List.map_id, ← Array.toList_map] at hitems
    exact Array.toList_inj.mp hitems
  · have hproperties := map_renumberProperties hbound
    rw [Property.map_id] at hproperties
    rw [toList_renumber, ← hproperties]
    exact (List.map_id _).symm

end Content

namespace Arena

variable {arena : Arena} {base cells : Array Cell} {parent : Option Nat} {origins : List Nat}
  {id number place : Nat} {source : Nat → Node}

/-- The number of the copy of a node. -/
def copyOf (base : Array Cell) (origins : List Nat) (id : Nat) : Nat :=
  base.size + origins.idxOf id

theorem copyOf_eq (hnodup : origins.Nodup) (horigin : origins[place]? = some id)
    (base : Array Cell) : copyOf base origins id = base.size + place := by
  obtain ⟨hlt, rfl⟩ := List.getElem?_eq_some_iff.mp horigin
  rw [copyOf, hnodup.idxOf_getElem]

/-- The numbers of the parts of a copy are those of the copies of the parts. -/
theorem map_copyOf {parts : List Nat} {start : Nat} (hnodup : origins.Nodup)
    (hparts : parts <+: origins.drop start) (base : Array Cell) :
    parts.map (copyOf base origins) = List.range' (base.size + start) parts.length := by
  obtain ⟨rest, hrest⟩ := hparts
  refine List.ext_getElem (by simp) fun place hplace _ => ?_
  rw [List.length_map] at hplace
  have horigin : origins[start + place]? = some parts[place] := by
    rw [← List.getElem?_drop, ← hrest, List.getElem?_append_left hplace]
    exact List.getElem?_eq_getElem hplace
  rw [List.getElem_map, copyOf_eq hnodup horigin, List.getElem_range', Nat.one_mul, Nat.add_assoc]

namespace Copied

variable (h : Copied arena source base id parent origins ⟨cells, []⟩)

include h

/-- All that can be reached has been copied. -/
theorem mem_of_beneath (hbeneath : Relation.ReflTransGen arena.Has id number) :
    number ∈ origins := by
  induction hbeneath with
  | refl => exact List.mem_of_mem_head? h.head
  | tail _ hhas ih =>
    obtain ⟨holder, hholder, hkid⟩ := hhas
    obtain ⟨place, horigin⟩ := List.mem_iff_getElem?.mp ih
    obtain ⟨same, start, _, hsame, hplaced⟩ := h.complete place _ horigin List.not_mem_nil
    cases hholder.symm.trans hsame
    exact List.mem_of_mem_drop (hplaced.parts.subset (holder.parts_perm.mem_iff.mpr hkid))

/-- The copies are of what can be reached, one of each. -/
theorem perm (hnumbers : arena.Numbers id numbers) (hlength : numbers.length = (source id).size) :
    numbers.Perm origins := by
  have htotal : origins.length = (source id).size := h.total
  refine (hnumbers.nodup.subperm fun number hmem => ?_).perm_of_length_le (by omega)
  exact h.mem_of_beneath ((hnumbers.mem_iff number).mp hmem)

variable (hnodup : origins.Nodup)

include hnodup

/-- Each copy is the cell that it is of, with the numbers of copies in it, and the copies of its
parts are beneath it. -/
theorem renumbered (hbeneath : Relation.ReflTransGen arena.Has id number) :
    ∃ cell made, arena.cells[number]? = some cell ∧ cells[copyOf base origins number]? = some made ∧
      cell.Renumbered (copyOf base origins) made.toContent ∧
      ∀ kid ∈ cell.kids, (cells[copyOf base origins kid]?).map Cell.parent =
        some (some (copyOf base origins number)) := by
  obtain ⟨place, horigin⟩ := List.mem_iff_getElem?.mp (h.mem_of_beneath hbeneath)
  obtain ⟨cell, start, made, hcell, hplaced⟩ := h.complete place number horigin List.not_mem_nil
  have hnumbers := map_copyOf hnodup hplaced.parts base
  rw [copyOf_eq hnodup horigin]
  refine ⟨cell, made, hcell, hplaced.made, ?_, fun kid hkid => hplaced.beneath _ ?_⟩
  · rw [hplaced.content]
    exact Content.renumbered_renumber hnumbers
  · rw [← hnumbers]
    exact List.mem_map_of_mem (cell.parts_perm.mem_iff.mpr hkid)

/-- The copies have the numbers behind the base, one for each number that can be reached. -/
theorem bijOn (hnumbers : arena.Numbers id numbers) (hperm : numbers.Perm origins) :
    Set.BijOn (copyOf base origins) {number | Relation.ReflTransGen arena.Has id number}
      (Set.Ico base.size cells.size) := by
  have hcount : cells.size = base.size + origins.length := h.size
  refine ⟨?_, ?_, ?_⟩
  · intro number hbeneath
    have hlt := List.idxOf_lt_length_iff.mpr (h.mem_of_beneath hbeneath)
    rw [copyOf, Set.mem_Ico]
    omega
  · intro number hnumber other _ hsame
    exact (List.idxOf_inj (h.mem_of_beneath hnumber)).mp (Nat.add_left_cancel hsame)
  · intro number hrange
    rw [Set.mem_Ico] at hrange
    have hplace : origins[number - base.size]? = some (origins[number - base.size]) :=
      List.getElem?_eq_getElem (by omega)
    refine ⟨_, (hnumbers.mem_iff _).mp (hperm.mem_iff.mpr (List.mem_of_getElem? hplace)), ?_⟩
    rw [copyOf_eq hnodup hplace]
    omega

end Copied

/-- The cells behind those of a base are a copy of a node and of all beneath it. Each number that
can be reached from the node has one copy. A copy is the cell of its number, with the numbers of
copies for what it binds and embeds and for the node above; only the first copy has another parent.
-/
structure Copies (arena : Arena) (id : Nat) (parent : Option Nat) (base cells : Array Cell)
    (copy : Nat → Nat) : Prop where
  old : ∀ number, number < base.size → cells[number]? = base[number]?
  first : copy id = base.size
  numbering : Set.BijOn copy {number | Relation.ReflTransGen arena.Has id number}
    (Set.Ico base.size cells.size)
  made : ∀ number, Relation.ReflTransGen arena.Has id number →
    ∃ cell made, arena.cells[number]? = some cell ∧ cells[copy number]? = some made ∧
      cell.Renumbered copy made.toContent ∧
      made.parent = if number = id then parent else cell.parent.map copy

/-- A copy is exact. -/
theorem Holds.exists_copies (harena : arena.Holds source) (hforest : arena.IsForest)
    (hid : id < arena.cells.size) (base : Array Cell) (parent : Option Nat) :
    ∃ cells numbers copy value, arena.graft base id parent = some cells ∧
      arena.Numbers id numbers ∧ Grafted base cells source value (source id) ∧
      cells.size = base.size + numbers.length ∧ arena.Copies id parent base cells copy := by
  obtain ⟨cells, origins, hgraft, hcopied⟩ := harena.graft hid base parent
  obtain ⟨numbers, hnumbers, hlength⟩ := hforest.exists_numbers harena hid
  have hperm := hcopied.perm hnumbers hlength
  have hnodup : origins.Nodup := hperm.nodup_iff.mp hnumbers.nodup
  have hgrafted := hcopied.grafted harena source
  have hfirst : copyOf base origins id = base.size :=
    copyOf_eq hnodup (List.head?_eq_getElem? ▸ hcopied.head) base
  refine ⟨cells, numbers, copyOf base origins, _, hgraft, hnumbers, hgrafted, ?_,
    hcopied.old, hfirst,
    hcopied.bijOn hnodup hnumbers hperm, ?_⟩
  · rw [hgrafted.size, hlength]
  intro number hbeneath
  obtain ⟨cell, made, hcell, hmade, hrenumbered, -⟩ := hcopied.renumbered hnodup hbeneath
  refine ⟨cell, made, hcell, hmade, hrenumbered, ?_⟩
  split
  · rename_i hsame
    have hparent : (cells[base.size]?).map Cell.parent = some parent := hcopied.first
    rw [← hfirst, ← hsame, hmade] at hparent
    exact Option.some.inj hparent
  · rename_i hne
    -- The copy of the holder is the parent of the copies of what the holder has.
    obtain heq | ⟨holder, habove, hhas⟩ := Relation.ReflTransGen.cases_tail hbeneath
    · exact absurd heq hne
    obtain ⟨holderCell, -, hholder, -, -, hkids⟩ := hcopied.renumbered hnodup habove
    have hsource := hforest.parent_eq hhas hcell
    obtain ⟨same, hsame, hkid⟩ := hhas
    cases hholder.symm.trans hsame
    have hparent := hkids number hkid
    rw [hmade] at hparent
    rw [hsource, Option.map_some]
    exact Option.some.inj hparent

namespace Copies

variable {made : Cell}

/-- A cell behind the base is the copy of a number. -/
theorem exists_origin (h : arena.Copies id parent base cells copy) (hge : base.size ≤ number)
    (hmade : cells[number]? = some made) :
    ∃ origin cell, Relation.ReflTransGen arena.Has id origin ∧ copy origin = number ∧
      arena.cells[origin]? = some cell ∧ cell.Renumbered copy made.toContent ∧
      made.parent = if origin = id then parent else cell.parent.map copy := by
  have hlt := (Array.getElem?_eq_some_iff.mp hmade).1
  obtain ⟨origin, hbeneath, rfl⟩ := h.numbering.surjOn (Set.mem_Ico.mpr ⟨hge, hlt⟩)
  obtain ⟨cell, same, hcell, hsame, hrenumbered, hparent⟩ := h.made origin hbeneath
  cases hmade.symm.trans hsame
  exact ⟨origin, cell, hbeneath, rfl, hcell, hrenumbered, hparent⟩

/-- The numbers in copies are numbers of copies, but for the parent of the first one. -/
theorem inRange (h : arena.Copies id parent base cells copy) (hforest : arena.IsForest)
    (hge : base.size ≤ number) (hmade : cells[number]? = some made) :
    (∀ kid ∈ made.kids, kid ∈ Set.Ico base.size cells.size) ∧
    (number ≠ base.size → ∃ above ∈ Set.Ico base.size cells.size, made.parent = some above) := by
  obtain ⟨origin, cell, hbeneath, rfl, hcell, hrenumbered, hparent⟩ := h.exists_origin hge hmade
  constructor
  · intro kid hkid
    rw [hrenumbered.kids] at hkid
    obtain ⟨part, hpart, rfl⟩ := List.mem_map.mp hkid
    exact h.numbering.mapsTo (hbeneath.tail ⟨cell, hcell, hpart⟩)
  · intro hne
    obtain rfl | ⟨holder, habove, hhas⟩ := Relation.ReflTransGen.cases_tail hbeneath
    · exact absurd h.first hne
    have hother : origin ≠ id := by
      rintro rfl
      exact hne h.first
    rw [if_neg hother, hforest.parent_eq hhas hcell] at hparent
    exact ⟨copy holder, h.numbering.mapsTo habove, hparent⟩

end Copies

end Arena

namespace Finished

variable {arena : Arena} {tree : Tree}

/-- Any node of a finished tree can be copied behind any cells and beneath any parent. The cells
stay, and as many are added as can be reached from the node. They are an exact copy, whose numbers
are all numbers of copies, and the first of them denotes the same node. -/
theorem graft_exact (h : Finished arena tree) {id : Nat} (hid : id < arena.cells.size)
    (base : Array Cell) (parent : Option Nat) :
    ∃ cells numbers copy, arena.graft base id parent = some cells ∧ arena.Numbers id numbers ∧
      cells.size = base.size + numbers.length ∧ arena.Copies id parent base cells copy ∧
      (∀ number made, base.size ≤ number → cells[number]? = some made →
        (∀ kid ∈ made.kids, kid ∈ Set.Ico base.size cells.size) ∧
        (number ≠ base.size → ∃ above ∈ Set.Ico base.size cells.size, made.parent = some above)) ∧
        ∃ source value, arena.Shows source tree ∧ value base.size = source id ∧
          ∀ number made, base.size ≤ number → cells[number]? = some made →
            made.Denotes value (value number) := by
  obtain ⟨source, hshows⟩ := h.exists_shows
  obtain ⟨cells, numbers, copy, value, hgraft, hnumbers, hgrafted, hsize, hcopies⟩ :=
    hshows.holds.exists_copies h.isForest hid base parent
  exact ⟨cells, numbers, copy, hgraft, hnumbers, hsize, hcopies,
    fun number made => hcopies.inRange h.isForest, source, value, hshows, hgrafted.first,
    fun number made hge hmade => (hgrafted.complete number made hge hmade).denotes⟩

/-- The last node of the fragment, which took back the one before it. -/
theorem graft_exact_of_shift :
    ∃ arena tree, Finished arena tree ∧ 2 < arena.cells.size ∧
      ∃ cells numbers copy, arena.graft arena.cells 2 (some 0) = some cells ∧
        arena.Numbers 2 numbers ∧ cells.size = arena.cells.size + numbers.length ∧
        arena.Copies 2 (some 0) arena.cells cells copy := by
  obtain ⟨tree, htree, hcreated⟩ : ∃ fragment,
      (Session.pushes {} Session.shiftingFragment).finish = .ok fragment ∧
        fragment.created = 3 := by
    decide +kernel
  obtain ⟨store, hstore⟩ := (Session.start false).exists_pushes Session.shiftingFragment
  obtain ⟨arena, -, hfinished⟩ := hstore.exists_finished htree
  obtain ⟨source, hshows⟩ := hfinished.exists_shows
  have hid : 2 < arena.cells.size := by
    rw [← hshows.created, hcreated]
    decide
  obtain ⟨cells, numbers, copy, hgraft, hnumbers, hsize, hcopies, -⟩ :=
    graft_exact hfinished hid arena.cells (some 0)
  exact ⟨arena, tree, hfinished, hid, cells, numbers, copy, hgraft, hnumbers, hsize, hcopies⟩

end Finished

end TagTree
