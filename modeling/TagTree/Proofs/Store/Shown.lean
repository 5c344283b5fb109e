import TagTree.Proofs.Store.Sound

/-!
# Stores and builders

A store shows a builder if it is sound, its closed cells denote nodes, and its open cells show the
builder's frames (`Store.Shows`). That stays so if the innermost open node is changed without
anything new in it (`Shows.move`), if complete nodes are added (`Shows.extend`), and if the
innermost open node binds one of those (`Shows.bind`).
-/

namespace TagTree

variable {value value' : Nat → Node} {outer opened : List OpenCell} {frame frame' : Frame}
  {number : Option Nat} {root : Option Node} {after : OpenCell}

/-- The open cells around an open one. Each waits for the one within it, for which an item stands
already, and shows a frame without that item. -/
inductive Awaits (cells : Nat → Option Cell) (value : Nat → Node) :
    OpenCell → List OpenCell → ScopeStack → List Frame → Prop where
  | root {child : OpenCell} (parent : (cells child.id).map Cell.parent = some none)
    (destination : child.destination = none) : Awaits cells value child [] [] []
  | within {child node : OpenCell} {cell : Cell} {outer : List OpenCell} {scope : Scope}
    {scopes : ScopeStack} {frame : Frame} {frames : List Frame}
    (parent : (cells child.id).map Cell.parent = some (some node.id))
    (holder : cells node.id = some cell)
    (last : cell.items.back? = some (Action.placeholder child.destination child.id))
    (ready : ∀ target, child.destination = some target → cell.Ready target)
    (unshifted : node.shifted = none)
    (steady : (Top.mk node cell.toContent scope).Steady)
    (shows : (Top.mk node cell.suspend scope).Shows value outer frame)
    (rest : Awaits cells value node outer scopes frames) :
    Awaits cells value child (node :: outer) (scope :: scopes) (frame :: frames)

/-- The open cells with their scopes show the frames. -/
inductive Stack (cells : Nat → Option Cell) (value : Nat → Node) :
    List OpenCell → ScopeStack → List Frame → Prop where
  | empty : Stack cells value [] [] []
  | top {node : OpenCell} {cell : Cell} {outer : List OpenCell} {scope : Scope}
    {scopes : ScopeStack} {frame : Frame} {frames : List Frame}
    (holder : cells node.id = some cell) (steady : (Top.mk node cell.toContent scope).Steady)
    (shows : (Top.mk node cell.toContent scope).Shows value outer frame)
    (rest : Awaits cells value node outer scopes frames) :
    Stack cells value (node :: outer) (scope :: scopes) (frame :: frames)

/-- The root is the outermost open node, or the finished one once it is closed. -/
def Rooted (value : Nat → Node) (opened : List OpenCell) (number : Option Nat)
    (root : Option Node) :
    Prop :=
  match opened.getLast? with
  | some node => number = some node.id ∧ root = none
  | none => root = number.map value

/-- While a node is open, the root stands for nothing yet. -/
theorem Rooted.congr {node : OpenCell} (h : Rooted value (node :: outer) number root)
    (hid : after.id = node.id) : Rooted value' (after :: outer) number root := by
  cases outer with
  | nil =>
    obtain ⟨hnumber, hroot⟩ := h
    exact ⟨hnumber.trans (congrArg some hid.symm), hroot⟩
  | cons next rest => exact h

theorem Rooted.of_eq (h : Rooted value opened number root)
    (hvalue : ∀ id, number = some id → value id = value' id) :
    Rooted value' opened number root := by
  unfold Rooted at h ⊢
  generalize opened.getLast? = outermost at h ⊢
  cases outermost with
  | some node => exact h
  | none =>
    cases number with
    | none => exact h
    | some id => exact h.trans (congrArg some (hvalue id rfl))

/-- The cells of a store by their numbers. -/
def Store.cell? (store : Store) (id : Nat) : Option Cell :=
  store.cells[id]?

/-- The builder that a store is, given the nodes that the numbers stand for. -/
structure Store.Shows (value : Nat → Node) (store : Store) (builder : Builder) : Prop where
  expressions : builder.expressions = store.expressions
  doctype : builder.doctype = store.doctype
  awaiting : builder.awaiting = store.awaiting
  created : builder.created = store.cells.size
  sound : Sound store.cell? store.opened
  closed : ∀ id cell, store.cell? id = some cell → id ∉ openIds store.opened →
    cell.Denotes value (value id)
  stack : Stack store.cell? value store.opened store.scopes builder.frames
  rooted : Rooted value store.opened store.root builder.root
  orphan : ∀ id, store.root = some id → (store.cell? id).map Cell.parent = some none
  ready : ∀ target, store.awaiting = some target → ∃ top, store.top? = some top ∧
    top.content.Ready target ∧ top.node.shifted = none

variable {cells cells' : Nat → Option Cell} {node child : OpenCell} {cell : Cell}
  {scopes : ScopeStack} {frames : List Frame} {id : Nat} {parent : Option Nat}

theorem Awaits.length_scopes (h : Awaits cells value node outer scopes frames) :
    scopes.length = outer.length := by
  induction h with
  | root => rfl
  | within _ _ _ _ _ _ _ _ ih => exact congrArg (· + 1) ih

/-- Every open node has its own counters. -/
theorem Stack.length_scopes (h : Stack cells value opened scopes frames) :
    scopes.length = opened.length := by
  cases h with
  | empty => rfl
  | top _ _ _ rest => exact congrArg (· + 1) rest.length_scopes

theorem Stack.isEmpty_opened (h : Stack cells value opened scopes frames) :
    opened.isEmpty = frames.isEmpty := by
  cases h <;> rfl

/-- Nothing but the innermost cells changes for the open cells around them. -/
theorem Awaits.congr (h : Awaits cells value node outer scopes frames)
    (hid : after.id = node.id) (hdestination : after.destination = node.destination)
    (hcells : ∀ id ∈ openIds outer, cells' id = cells id)
    (hparent : (cells' node.id).map Cell.parent = (cells node.id).map Cell.parent)
    (hkids : ∀ id ∈ openIds outer, ∀ cell, cells id = some cell →
      ∀ kid ∈ cell.suspend.kids, value kid = value' kid)
    (howed : ∀ id ∈ owedIds outer, value id = value' id) :
    Awaits cells' value' after outer scopes frames := by
  induction h generalizing after with
  | root parent destination =>
    refine .root ?_ (hdestination.trans destination)
    rw [hid, hparent]
    exact parent
  | @within child node cell outer scope scopes frame frames parent holder last ready
    unshifted steady
      shows rest ih =>
    have hnode := hcells node.id (mem_openIds_head ..)
    refine .within ?_ (hnode.trans holder) ?_ ?_ unshifted steady ?_ ?_
    · rw [hid, hparent]
      exact parent
    · rw [hid, hdestination]
      exact last
    · rw [hdestination]
      exact ready
    · refine shows.congr (hkids node.id (mem_openIds_head ..) cell holder) ?_ ?_
      · intro id hid
        exact howed id (List.mem_filterMap.mpr ⟨node, List.mem_cons_self .., hid⟩)
      · intro target id hshifted
        rw [unshifted] at hshifted
        cases hshifted
    · refine ih rfl rfl ?_ (by rw [hnode]) ?_ ?_
      · exact (List.forall_mem_cons.mp hcells).2
      · exact (List.forall_mem_cons.mp hkids).2
      · intro id hmem
        exact howed id (((List.sublist_cons_self node outer).filterMap _).subset hmem)

/-- The outermost open node has no parent. -/
theorem Awaits.orphan (h : Awaits cells value node outer scopes frames) :
    ∀ last, (node :: outer).getLast? = some last → (cells last.id).map Cell.parent = some none := by
  induction h with
  | root parent destination =>
    intro last hlast
    cases hlast
    exact parent
  | within parent holder last ready unshifted steady shows rest ih => exact ih

theorem Rooted.orphan (h : Rooted value (node :: outer) number root)
    (hwaits : Awaits cells value node outer scopes frames) :
    ∀ id, number = some id → (cells id).map Cell.parent = some none := by
  intro id hid
  have hlast : (node :: outer).getLast? = some ((node :: outer).getLast (List.cons_ne_nil _ _)) :=
    List.getLast?_eq_some_getLast _
  rw [Rooted, hlast] at h
  obtain ⟨hnumber, -⟩ := h
  rw [hid] at hnumber
  cases hnumber
  exact hwaits.orphan _ hlast

/-- The node that a number stands for stays the same if the cell is closed. -/
def Agrees (cells : Nat → Option Cell) (opened : List OpenCell)
    (value value' : Nat → Node) : Prop :=
  ∀ id, (cells id).isSome = true → id ∉ openIds opened → value id = value' id

namespace Sound

theorem agrees_own (h : Sound cells opened) (hagrees : Agrees cells opened value value')
    (id : Nat) :
    ∀ kid ∈ own cells opened id, value kid = value' kid := by
  intro kid hkid
  obtain ⟨hmade, hclosed⟩ := h.apart id kid hkid
  exact hagrees kid hmade hclosed

theorem agrees_owed (h : Sound cells opened) (hagrees : Agrees cells opened value value') :
    ∀ id ∈ owedIds opened, value id = value' id := by
  intro id hid
  have hloose := h.loose id hid
  exact hagrees id hloose.made hloose.closed

/-- What the open cells around the innermost one show does not depend on what is open. -/
theorem awaits_congr (h : Sound cells (node :: outer))
    (hagrees : Agrees cells (node :: outer) value value')
    (hwaits : Awaits cells value node outer scopes frames) (hid : after.id = node.id)
    (hdestination : after.destination = node.destination)
    (hcells : ∀ id ∈ openIds outer, cells' id = cells id)
    (hparent : (cells' node.id).map Cell.parent = (cells node.id).map Cell.parent) :
    Awaits cells' value' after outer scopes frames := by
  refine hwaits.congr hid hdestination hcells hparent ?_ ?_
  · intro id hmem cell hcell kid hkid
    refine h.agrees_own hagrees id kid ?_
    rw [own_of_some hcell, List.tail_cons, if_pos hmem]
    exact hkid
  · intro id hmem
    exact h.agrees_owed hagrees id (((List.sublist_cons_self node outer).filterMap _).subset hmem)

/-- What the innermost open cell shows does not depend on what is open. -/
theorem shows_congr {scope : Scope} (h : Sound cells (node :: outer))
    (hagrees : Agrees cells (node :: outer) value value') (hcell : cells node.id = some cell)
    (hsteady : (Top.mk node cell.toContent scope).Steady)
    (hshows : (Top.mk node cell.toContent scope).Shows value outer frame) :
    (Top.mk node cell.toContent scope).Shows value' outer frame := by
  have hown := h.agrees_own hagrees node.id
  rw [h.own_head hcell] at hown
  refine hshows.congr hown ?_ ?_
  · intro id hid
    exact h.agrees_owed hagrees id (List.mem_filterMap.mpr ⟨node, List.mem_cons_self .., hid⟩)
  · intro target id hshifted
    exact hown id (Content.mem_kids_of_bound? (hsteady.shifted target id hshifted).2)

theorem stack_congr (h : Sound cells opened) (hagrees : Agrees cells opened value value')
    (hstack : Stack cells value opened scopes frames)
    (hcells : ∀ id ∈ openIds opened, cells' id = cells id) :
    Stack cells' value' opened scopes frames := by
  cases hstack with
  | empty => exact .empty
  | @top node cell outer scope scopes frame frames holder steady shows rest =>
    have hnode := hcells node.id (mem_openIds_head ..)
    refine .top (hnode.trans holder) steady (h.shows_congr hagrees holder steady shows) ?_
    refine h.awaits_congr hagrees rest rfl rfl ?_ (by rw [hnode])
    exact (List.forall_mem_cons.mp hcells).2

/-- What a closed cell denotes does not depend on what is open. -/
theorem denotes_congr {result : Node} (h : Sound cells opened)
    (hagrees : Agrees cells opened value value') (hcell : cells id = some cell)
    (hclosed : id ∉ openIds opened) (hdenotes : cell.Denotes value result) :
    cell.Denotes value' result := by
  refine hdenotes.congr ?_
  rw [← (due_of_closed hcell hclosed).2]
  exact h.agrees_own hagrees id

end Sound

/-! ### Changes of a store -/

namespace Store

variable {store : Store} {builder : Builder} {below : List Frame} {top after : Top}

theorem cell?_isSome : (store.cell? id).isSome = true ↔ id < store.cells.size := by
  simp [cell?]

theorem cell?_setContent (store : Store) (changed : Nat) (content : Content) (id : Nat) :
    (store.setContent changed content).cell? id = if id = changed
      then (store.cell? id).map fun cell => ⟨content, cell.parent⟩ else store.cell? id := by
  simp only [cell?, setContent, Array.getElem?_modify, eq_comm]

theorem cell?_putTop (store : Store) (after : Top) (id : Nat) :
    (store.putTop after).cell? id = if id = after.node.id
      then (store.cell? id).map fun cell => ⟨after.content, cell.parent⟩ else store.cell? id :=
  cell?_setContent store after.node.id after.content id

/-- What the innermost open node of a store is. -/
structure Topmost (value : Nat → Node) (store : Store) (top : Top) (parent : Option Nat)
    (frame : Frame) (below : List Frame) : Prop where
  opened : store.opened = top.node :: store.opened.tail
  scopes : store.scopes = top.scope :: store.scopes.tail
  holder : store.cell? top.node.id = some ⟨top.content, parent⟩
  steady : top.Steady
  shows : top.Shows value store.opened.tail frame
  rest : Awaits store.cell? value top.node store.opened.tail store.scopes.tail below

/-- Of the cells, only that of the innermost open node changes with it. -/
theorem Topmost.cell?_putTop (ht : store.Topmost value top parent frame below)
    (hid : after.node.id = top.node.id) :
    (store.putTop after).cell? top.node.id = some ⟨after.content, parent⟩ ∧
    ∀ other, other ≠ top.node.id → (store.putTop after).cell? other = store.cell? other := by
  refine ⟨?_, fun other hne => ?_⟩
  · rw [Store.cell?_putTop, if_pos hid.symm, ht.holder]
    rfl
  · rw [Store.cell?_putTop, if_neg (hid ▸ hne)]

/-- A store that shows an open node has one. -/
theorem Shows.topmost (h : store.Shows value (builder.withTop below frame)) :
    ∃ top parent, store.top? = some top ∧ store.Topmost value top parent frame below := by
  have hstack : Stack store.cell? value store.opened store.scopes (frame :: below) := h.stack
  generalize hopened : store.opened = opened at hstack
  generalize hscopes : store.scopes = scopes at hstack
  cases hstack with
  | @top node cell outer scope scopes _ _ holder steady shows rest =>
    refine ⟨⟨node, cell.toContent, scope⟩, cell.parent, ?_, ?_⟩
    · have hcell : store.cells[node.id]? = some cell := holder
      simp [top?, hopened, hscopes, hcell]
    · constructor
      case opened => simp [hopened]
      case scopes => simp [hscopes]
      case holder => exact holder
      case steady => exact steady
      case shows => simpa [hopened] using shows
      case rest => simpa [hopened, hscopes] using rest

theorem Shows.topmost_of_top? (h : store.Shows value (builder.withTop below frame))
    (htop : store.top? = some top) : ∃ parent, store.Topmost value top parent frame below := by
  obtain ⟨same, parent, hsame, ht⟩ := h.topmost
  rw [htop] at hsame
  cases hsame
  exact ⟨parent, ht⟩

theorem exists_of_top? (htop : store.top? = some top) :
    ∃ parent, store.cell? top.node.id = some ⟨top.content, parent⟩ := by
  unfold top? at htop
  split at htop
  · obtain ⟨cell, hcell, htop⟩ := Option.bind_eq_some_iff.mp htop
    cases htop
    exact ⟨cell.parent, hcell⟩
  · cases htop

theorem top?_of_cell {store' : Store} {content : Content}
    (htop : store.top? = some top) (hopened : store'.opened = store.opened)
    (hscopes : store'.scopes = store.scopes)
    (hcell : store'.cell? top.node.id = some ⟨content, parent⟩) :
    store'.top? = some { top with content := content } := by
  unfold top? at htop ⊢
  rw [hopened, hscopes]
  split at htop
  · obtain ⟨cell, hnode, htop⟩ := Option.bind_eq_some_iff.mp htop
    cases htop
    exact Option.bind_eq_some_iff.mpr ⟨⟨content, parent⟩, hcell, rfl⟩
  · cases htop

theorem top?_putTop (htop : store.top? = some top) (hid : after.node.id = top.node.id) :
    (store.putTop after).top? = some after := by
  have hscopes : (store.putTop after).scopes = after.scope :: store.scopes.tail := rfl
  have hopened : (store.putTop after).opened = after.node :: store.opened.tail := rfl
  obtain ⟨parent, hcell⟩ := exists_of_top? htop
  have hhead : (store.putTop after).cells[after.node.id]? = some ⟨after.content, parent⟩ := by
    rw [← cell?, cell?_putTop, if_pos rfl, hid, hcell]
    rfl
  rw [top?, hopened, hscopes]
  simp only [hhead]
  rfl

theorem cell?_setParent (store : Store) (id parent other : Nat) :
    (store.setParent id parent).cell? other = if other = id
      then (store.cell? other).map fun cell => ⟨cell.toContent, some parent⟩
      else store.cell? other := by
  simp only [cell?, setParent, Array.getElem?_modify, eq_comm]

/-- To set the parent that a cell has changes nothing. -/
theorem cell?_setParent_of_eq {parent : Nat}
    (h : (store.cell? id).map Cell.parent = some (some parent)) (other : Nat) :
    (store.setParent id parent).cell? other = store.cell? other := by
  rw [cell?_setParent]
  by_cases hid : other = id
  · obtain ⟨cell, hcell, hparent⟩ := Option.map_eq_some_iff.mp h
    rw [if_pos hid, hid, hcell, ← hparent]
    rfl
  · exact if_neg hid

/-- The innermost open node has another content, and another node has it as its parent. -/
theorem cell?_setParent_putTop {cell : Cell}
    (hholder : store.cell? top.node.id = some ⟨top.content, parent⟩)
    (hcell : store.cell? id = some cell) (hne : id ≠ top.node.id)
    (hid : after.node.id = top.node.id) (other : Nat) :
    ((store.setParent id top.node.id).putTop after).cell? other =
      if other = top.node.id then some ⟨after.content, parent⟩
      else if other = id then some ⟨cell.toContent, some top.node.id⟩ else store.cell? other := by
  rw [cell?_putTop, cell?_setParent, hid]
  by_cases hnode : other = top.node.id
  · rw [if_pos hnode, if_pos hnode, hnode, if_neg (Ne.symm hne), hholder]
    rfl
  · rw [if_neg hnode, if_neg hnode]
    by_cases hsame : other = id
    · rw [if_pos hsame, if_pos hsame, hsame, hcell]
      rfl
    · rw [if_neg hsame, if_neg hsame]

/-- The parts of a new cell are in place: each of them once, behind the first new cell, beneath its
parent. -/
structure Complete (first : Nat) (cells : Array Cell) (value : Nat → Node) (id : Nat)
    (cell : Cell) :
    Prop where
  once : ∀ kid, cell.kids.count kid ≤ 1
  kids : ∀ kid ∈ cell.kids, first < kid ∧ (cells[kid]?).map Cell.parent = some (some id)
  denotes : cell.Denotes value (value id)

namespace Shows

/-- Where the builder asks for no expression, the store asks for none. -/
theorem idle (h : store.Shows value builder) (hawaiting : builder.awaiting = none)
    {P : Target → Prop} : ∀ target, store.awaiting = some target → P target := by
  rw [← h.awaiting, hawaiting]
  rintro _ ⟨⟩

section Top

variable (h : store.Shows value (builder.withTop below frame)) (hawaiting : builder.awaiting = none)

include h hawaiting

/-- The innermost open node has another content, and of the other cells only closed ones have
another parent. -/
theorem replaceTop {cells : Array Cell} (ht : store.Topmost value top parent frame below)
    (hid : after.node.id = top.node.id)
    (hdestination : after.node.destination = top.node.destination) (hsteady : after.Steady)
    (hshows : after.Shows value store.opened.tail frame') (hsize : cells.size = store.cells.size)
    (hhead : cells[top.node.id]? = some ⟨after.content, parent⟩)
    (houter : ∀ id ∈ openIds store.opened.tail, cells[id]? = store.cell? id)
    (hclosed : ∀ id, id ∉ openIds store.opened →
      (cells[id]?).map Cell.toContent = (store.cell? id).map Cell.toContent)
    (hsound : Sound (cells[·]?) (after.node :: store.opened.tail)) :
    Shows value { store with
      cells := cells
      opened := after.node :: store.opened.tail
      scopes := after.scope :: store.scopes.tail } (builder.withTop below frame') := by
  have hids : openIds (after.node :: store.opened.tail) = openIds store.opened := by
    rw [ht.opened]
    simp [openIds, hid]
  have hold := h.sound
  have hrooted := h.rooted
  rw [ht.opened] at hold hrooted
  have hrest : Awaits (cells[·]?) value after.node store.opened.tail store.scopes.tail below :=
    hold.awaits_congr (fun _ _ _ => rfl) ht.rest hid hdestination houter
      (by rw [hhead, ht.holder]; rfl)
  exact { h with
    created := h.created.trans hsize.symm
    sound := hsound
    closed := by
      intro id cell hcell hopen
      rw [hids] at hopen
      have hsame := hclosed id hopen
      rw [show cells[id]? = some cell from hcell] at hsame
      obtain ⟨old, holdCell, hcontent⟩ := Option.map_eq_some_iff.mp hsame.symm
      rw [← hcontent]
      exact h.closed id old holdCell hopen
    stack := .top (hid ▸ hhead) hsteady hshows hrest
    rooted := hrooted.congr hid
    orphan := (hrooted.congr hid).orphan hrest
    ready := h.idle hawaiting }

/-- A step of the innermost open node that adds nothing. -/
theorem move (htop : store.top? = some top)
    (hmoves : top.Moves value store.opened.tail after frame') :
    (store.putTop after).Shows value (builder.withTop below frame') := by
  obtain ⟨parent, ht⟩ := h.topmost_of_top? htop
  have hid := hmoves.keeps.id
  obtain ⟨hhead, hother⟩ := ht.cell?_putTop hid
  have hsound := h.sound
  rw [ht.opened] at hsound
  refine h.replaceTop hawaiting ht hid hmoves.keeps.destination (hmoves.keeps.steady ht.steady)
    hmoves.shows (by simp [setContent]) hhead ?_ ?_
      (hsound.keep ht.holder hmoves.keeps hhead hother)
  · intro id hmem
    exact hother id fun heq => (List.nodup_cons.mp hsound.openedOnce).1 (heq ▸ hmem)
  · intro id hclosed
    refine congrArg _ (hother id fun heq => hclosed ?_)
    rw [ht.opened, heq]
    exact mem_openIds_head ..

/-- The innermost open node takes what it is owed, which is bound nowhere. -/
theorem takeOwed (htop : store.top? = some top) (howed : top.node.owed = some id) :
    top.takeOwed.1 = some id ∧ (store.putTop top.takeOwed.2).Shows value (builder.withTop below
        { frame with owed := none, held := some frame.items.size }) ∧
      Loose (store.putTop top.takeOwed.2).cell? (store.putTop top.takeOwed.2).opened id ∧
      id ∉ owedIds (store.putTop top.takeOwed.2).opened := by
  obtain ⟨parent, ht⟩ := h.topmost_of_top? htop
  obtain ⟨hid, hmoves⟩ := ht.shows.takeOwed howed
  refine ⟨hid, h.move hawaiting htop hmoves, ?_, ?_⟩
  · have hsound := h.sound
    rw [ht.opened] at hsound
    have hnode := hmoves.keeps.id
    obtain ⟨hhead, hother⟩ := ht.cell?_putTop hnode
    have hloose := hsound.loose id (List.mem_filterMap.mpr ⟨top.node, List.mem_cons_self .., howed⟩)
    refine hloose.of_le ?_ ?_ (hsound.due_keep ht.holder hmoves.keeps hhead hother)
    · have hids : openIds (store.putTop top.takeOwed.2).opened =
          openIds (top.node :: store.opened.tail) := congrArg (· :: openIds store.opened.tail) hnode
      exact fun other hmem => hids ▸ hmem
    · rw [hother id]
      rintro rfl
      exact hloose.closed (mem_openIds_head ..)
  · have honce := h.sound.owedOnce
    rw [ht.opened] at honce
    have hnone : top.takeOwed.2.node.owed = none := by rw [Top.takeOwed, howed]
    simp only [owedIds, List.filterMap_cons, howed] at honce
    show id ∉ owedIds (top.takeOwed.2.node :: store.opened.tail)
    simp only [owedIds, List.filterMap_cons, hnone]
    exact (List.nodup_cons.mp honce).1

/-- The innermost open node binds what is bound nowhere. -/
theorem bind {target : Target} (htop : store.top? = some top)
    (hshifted : top.node.shifted = none) (hready : top.content.Ready target)
    (hloose : Loose store.cell? store.opened id) (howed : id ∉ owedIds store.opened) :
    ∃ bound, frame.bind target (value id) = .ok bound ∧
      ((store.setParent id top.node.id).putTop (top.bind target id (value id).hasGap)).Shows value
        (builder.withTop below bound) := by
  obtain ⟨parent, ht⟩ := h.topmost_of_top? htop
  obtain ⟨bound, hbound, hshows⟩ := ht.shows.bind hready id
  refine ⟨bound, hbound, ?_⟩
  generalize hafter : top.bind target id (value id).hasGap = after at hshows
  have hid : after.node.id = top.node.id := by rw [← hafter]; rfl
  have hcontent : after.content =
      (top.content.push .gap).attached target id (value id).hasGap := by rw [← hafter]; rfl
  have hsound := h.sound
  rw [ht.opened] at hsound hloose howed
  -- Two cells change: that of the open node, and the parent in that of the value.
  have hne : id ≠ top.node.id := by
    rintro rfl
    exact hloose.closed (mem_openIds_head ..)
  obtain ⟨cell, hcell⟩ := Option.isSome_iff_exists.mp hloose.made
  have hcells := cell?_setParent_putTop ht.holder hcell hne hid
  have hkids : ∀ kid, after.content.kids.count kid ≤
      top.content.kids.count kid + [id].count kid := by
    intro kid
    rw [hcontent]
    exact Content.count_attached_push hready id (value id).hasGap kid
  have hhead := hcells top.node.id
  rw [if_pos rfl] at hhead
  have hkid := hcells id
  rw [if_neg hne, if_pos rfl] at hkid
  have hother : ∀ other, other ≠ top.node.id → other ≠ id →
      ((store.setParent id top.node.id).putTop after).cell? other = store.cell? other := by
    intro other hnode hsame
    rw [hcells other, if_neg hnode, if_neg hsame]
  have htail : ∀ other ∈ openIds store.opened.tail, other ≠ top.node.id ∧ other ≠ id := by
    refine fun other hmem => ⟨?_, ?_⟩
    · rintro rfl
      exact (List.nodup_cons.mp hsound.openedOnce).1 hmem
    · rintro rfl
      exact hloose.closed (List.mem_cons_of_mem _ hmem)
  have hpushed : (top.push .gap).content.Ready target := hready
  have hsteady : after.Steady := hafter ▸ Top.steady_attached hpushed hshifted id _
  refine h.replaceTop hawaiting ht hid (by rw [← hafter]; rfl) hsteady hshows
    (by simp [setParent, setContent]) hhead ?_ ?_ ?_
  · exact fun other hmem => hother other (htail other hmem).1 (htail other hmem).2
  · intro other hclosed
    have hnode : other ≠ top.node.id := by
      rintro rfl
      exact hclosed (ht.opened ▸ mem_openIds_head ..)
    by_cases hsame : other = id
    · have hcontent := congrArg (Option.map Cell.toContent) hkid
      rw [hsame, hcell]
      exact hcontent
    · exact congrArg _ (hother other hnode hsame)
  · refine (hsound.bind ht.holder hcell hloose howed hkids hhead hkid hother).congr_head hid ?_ ?_
    all_goals rw [← hafter]; rfl

end Top

/-- A new cell that no new cell binds is bound nowhere. -/
theorem loose_fresh {cells : Array Cell} (h : store.Shows value builder)
    (hold : ∀ id, id < store.cells.size → cells[id]? = store.cells[id]?)
    (hnew : store.cells.size ≤ id) (hmade : (cells[id]?).isSome = true)
    (hkids : ∀ other cell, store.cells.size ≤ other → cells[other]? = some cell → id ∉ cell.kids) :
    Loose (cells[·]?) store.opened id ∧ id ∉ owedIds store.opened := by
  have hopen : ∀ other ∈ openIds store.opened, other < store.cells.size := fun other hmem =>
    cell?_isSome.mp (h.sound.made other hmem)
  refine ⟨⟨hmade, fun hmem => ?_, fun other hmem => ?_⟩, fun hmem => ?_⟩
  · have := hopen id hmem
    omega
  · rcases Nat.lt_or_ge other store.cells.size with hlt | hge
    · have hdue : due (cells[·]?) store.opened other = due store.cell? store.opened other :=
        due_congr (hold other hlt) rfl
      have hparent := h.sound.parent other id (hdue ▸ hmem)
      have := cell?_isSome.mp (by simpa using congrArg Option.isSome hparent)
      omega
    · cases hcell : cells[other]? with
      | none => simp [due, hcell] at hmem
      | some cell =>
        have hclosed : other ∉ openIds store.opened := fun hin => by
          have := hopen other hin
          omega
        have hdue : due (cells[·]?) store.opened other = cell.kids :=
          (due_of_closed hcell hclosed).1
        exact hkids other cell hge hcell (hdue ▸ hmem)
  · have := cell?_isSome.mp (h.sound.loose id hmem).made
    omega

/-- New cells that are complete. -/
theorem extend {cells : Array Cell} (h : store.Shows value builder)
    (hold : ∀ id, id < store.cells.size → cells[id]? = store.cells[id]?)
    (hvalue : ∀ id, id < store.cells.size → value id = value' id)
    (hnew : ∀ id cell, store.cells.size ≤ id → cells[id]? = some cell →
      Complete store.cells.size cells value' id cell) :
    Shows value' { store with cells := cells } { builder with created := cells.size } := by
  generalize hstore : { store with cells := cells } = store'
  have hcells : ∀ id, store'.cell? id = cells[id]? := by
    intro id
    rw [← hstore]
    rfl
  have hopened : store'.opened = store.opened := by rw [← hstore]
  have hsame : ∀ id, (store.cell? id).isSome = true → store'.cell? id = store.cell? id := by
    intro id hsome
    rw [hcells]
    exact hold id (cell?_isSome.mp hsome)
  have hagrees : Agrees store.cell? store.opened value value' := fun id hsome _ =>
    hvalue id (cell?_isSome.mp hsome)
  have hnone : ∀ id, store.cell? id = none ↔ store.cells.size ≤ id := by
    intro id
    simp [cell?]
  -- The new cells bind new cells only, so what was bound before is bound as it was.
  have hsound : Sound store'.cell? store.opened := by
    refine h.sound.extend hsame ?_
    intro id cell hid hcell
    have hcomplete := hnew id cell ((hnone id).mp hid) (hcells id ▸ hcell)
    refine ⟨hcomplete.once, fun kid hkid => ?_⟩
    obtain ⟨hsize, hparent⟩ := hcomplete.kids kid hkid
    exact ⟨(hnone kid).mpr (Nat.le_of_lt hsize), hcells kid ▸ hparent⟩
  have hstack : Stack store'.cell? value' store.opened store.scopes builder.frames :=
    h.sound.stack_congr hagrees h.stack fun id hmem => hsame id (h.sound.made id hmem)
  subst hstore
  exact { h with
    created := rfl
    sound := hsound
    closed := by
      intro id cell hcell hclosed
      rcases Nat.lt_or_ge id store.cells.size with hlt | hge
      · have hcell' : store.cell? id = some cell := (hold id hlt).symm.trans hcell
        rw [← hvalue id hlt]
        exact h.sound.denotes_congr hagrees hcell' hclosed (h.closed id cell hcell' hclosed)
      · exact (hnew id cell hge hcell).denotes
    stack := hstack
    rooted := by
      refine h.rooted.of_eq fun id hroot => hvalue id (cell?_isSome.mp ?_)
      simpa using congrArg Option.isSome (h.orphan id hroot)
    orphan := by
      intro id hroot
      have horphan := h.orphan id hroot
      rw [hsame id (by simpa using congrArg Option.isSome horphan)]
      exact horphan
    ready := by
      intro target htarget
      obtain ⟨top, htop, hready⟩ := h.ready target htarget
      obtain ⟨parent, hcell⟩ := exists_of_top? htop
      have hmade : (store.cell? top.node.id).isSome = true := by rw [hcell]; rfl
      exact ⟨top, top?_of_cell htop rfl rfl ((hsame _ hmade).trans hcell), hready⟩ }

end Shows

end Store

end TagTree
