import TagTree.Proofs.Store.Shown

/-!
# Opening and closing

When a node opens, it is new in the store and stands for nothing yet; the node around it is left
with an item for it (`Shows.openRoot`, `Shows.openChild`). When it closes, its number begins to
stand for the finished node, and the node around it binds or embeds that number (`Shows.closeRoot`,
`Shows.closeChild`).
-/

namespace TagTree

open Function (update update_self update_of_ne)

namespace Store

variable {value : Nat → Node} {store : Store} {builder : Builder} {below : List Frame}
  {frame : Frame} {top : Top} {parent : Option Nat}

/-- The store after a node has opened within the innermost one. -/
def openWithin (store : Store) (top : Top) (child : OpenCell) (start : OpenTag) : Store :=
  let made : Store := { store with
    cells := store.cells.push
      { head := .opening start, label := start.label none, parent := some top.node.id } }
  let pushed := made.putTop (top.push (Action.placeholder child.destination child.id))
  { pushed with opened := child :: pushed.opened, scopes := pushed.scopes.enter }

theorem cell?_openWithin (child : OpenCell) (start : OpenTag)
    (hcell : store.cell? top.node.id = some ⟨top.content, parent⟩)
    (hid : child.id = store.cells.size) (other : Nat) :
    (store.openWithin top child start).cell? other = if other = top.node.id
      then some ⟨top.content.push (Action.placeholder child.destination child.id), parent⟩
      else if other = child.id then
        some { head := .opening start, label := start.label none, parent := some top.node.id }
      else store.cell? other := by
  have hlt : top.node.id < store.cells.size := cell?_isSome.mp (by rw [hcell]; rfl)
  have hmade : ∀ cells : Array Cell,
      ({ store with cells := cells } : Store).cell? other = cells[other]? := fun _ => rfl
  rw [openWithin]
  refine (cell?_putTop _ _ other).trans ?_
  have hpush : (top.push (Action.placeholder child.destination child.id)).node.id =
      top.node.id := rfl
  rw [hmade, Array.getElem?_push, ← hid, hpush]
  by_cases hnode : other = top.node.id
  · have hne : other ≠ child.id := by omega
    rw [if_pos hnode, if_neg hne, if_pos hnode, hnode, ← cell?, hcell]
    rfl
  · rw [if_neg hnode, if_neg hnode]
    rfl

namespace Shows

/-- The root opens. -/
theorem openRoot (h : store.Shows value builder) (hawaiting : builder.awaiting = none)
    (hframes : builder.frames = []) (hroot : builder.root = none) (start : OpenTag)
    (inherited : Option String) :
    Shows value { store with
      cells := store.cells.push {
        head := .opening start, label := start.label inherited, parent := none }
      root := some store.cells.size
      opened := { id := store.cells.size } :: store.opened
      scopes := store.scopes.enter } { builder.make with
      frames := [{
        start, label := start.label inherited, destination := none, owed := none }] } := by
  have hstack := h.stack
  have hsound := h.sound
  rw [hframes] at hstack
  generalize hopened : store.opened = opened at hstack hsound
  generalize hscopes : store.scopes = scopes at hstack
  cases hstack
  generalize hcells : store.cells.push
    { head := .opening start, label := start.label inherited, parent := none } = cells
  have hid : cells[store.cells.size]? =
      some { head := .opening start, label := start.label inherited, parent := none } := by
    simp [← hcells]
  have hother : ∀ other, other ≠ store.cells.size → cells[other]? = store.cell? other := by
    intro other hne
    rw [← hcells, Array.getElem?_push, if_neg hne]
    rfl
  have hparent : (cells[store.cells.size]?).map Cell.parent = some none := by
    rw [hid]
    rfl
  exact { h with
    created := by
      show builder.created + 1 = cells.size
      rw [h.created, ← hcells, Array.size_push]
    sound := hsound.openRoot (by simp [cell?]) rfl rfl hid hother
    closed := by
      intro id cell hcell hclosed
      have hne : id ≠ store.cells.size := fun heq => hclosed (heq ▸ mem_openIds_head ..)
      have hold : store.cell? id = some cell := (hother id hne).symm.trans hcell
      exact h.closed id cell hold (hopened ▸ List.not_mem_nil)
    stack := by
      refine .top hid ⟨by rintro _ ⟨⟩, by rintro _ _ ⟨⟩⟩ ?_ (.root hparent rfl)
      exact Top.shows_fresh value [] store.cells.size none none start inherited
    rooted := ⟨rfl, hroot⟩
    orphan := by
      rintro _ ⟨⟩
      exact hparent
    ready := h.idle hawaiting }

section OpenWithin

variable {child : OpenCell}
  (hready : ∀ target, child.destination = some target → top.content.Ready target)
  (howed : ∀ id, child.owed = some id →
    ∃ target, child.destination = some target ∧ top.content.bound? target = some id)

include hready howed

/-- The new cell and the innermost open one are all that changes. -/
theorem opening_openWithin (ht : store.Topmost value top parent frame below)
    (hid : child.id = store.cells.size) (start : OpenTag) :
    Opening store.cell? (store.openWithin top child start).cell? top.node child
      ⟨top.content, parent⟩
      { head := .opening start, label := start.label none, parent := some top.node.id } := by
  have hlt : top.node.id < store.cells.size := cell?_isSome.mp (by rw [ht.holder]; rfl)
  have hcells := cell?_openWithin child start ht.holder hid
  refine ⟨ht.holder, by simp [cell?, hid], rfl, rfl, hready, howed, ?_, ?_, ?_⟩
  · rw [hcells, if_pos rfl]
  · rw [hcells, if_neg (by omega), if_pos rfl]
  · intro other hnode hsame
    rw [hcells other, if_neg hnode, if_neg hsame]

/-- The nodes around the new one wait for it. -/
theorem awaits_openWithin (ht : store.Topmost value top parent frame below)
    (hid : child.id = store.cells.size) (hsound : Sound store.cell? (top.node :: store.opened.tail))
    (hshifted : top.node.shifted = none) (start : OpenTag) :
    Awaits (store.openWithin top child start).cell? value child
      (top.node :: store.opened.tail) (top.scope :: store.scopes.tail) (frame :: below) := by
  have hopen := opening_openWithin hready howed ht hid start
  have houter : ∀ id ∈ openIds store.opened.tail,
      (store.openWithin top child start).cell? id = store.cell? id := by
    intro id hmem
    refine hopen.other id ?_ ?_
    · rintro rfl
      exact (List.nodup_cons.mp hsound.openedOnce).1 hmem
    · exact hopen.ne_child (hsound.made id (List.mem_cons_of_mem _ hmem))
  have hsuspend : (top.content.push
      (Action.placeholder child.destination child.id)).suspend = top.content := by
    simp [Content.suspend, Content.push]
  refine .within (by rw [hopen.made]; rfl) hopen.head (by simp [Content.push]) hready hshifted
    ⟨ht.steady.lastBound, ht.steady.shifted⟩ ?_ ?_
  · rw [hsuspend]
    exact ht.shows
  · refine hsound.awaits_congr (fun _ _ _ => rfl) ht.rest rfl rfl houter ?_
    rw [hopen.head, ht.holder]
    rfl

/-- A node opens within the innermost one. -/
theorem openChild (h : store.Shows value (builder.withTop below frame))
    (hawaiting : builder.awaiting = none) (htop : store.top? = some top)
    (hshifted : top.node.shifted = none)
    (hchild : child = {
      id := store.cells.size, destination := child.destination, owed := child.owed })
    (start : OpenTag) :
    (store.openWithin top child start).Shows value { builder.make with
      frames := {
        depth := frame.depth + 1
        start := start
        label := start.label none
        destination := child.destination
        owed := child.owed.map value
        withinOwed := frame.withinOwed || frame.owed.isSome } :: frame :: below } := by
  obtain ⟨parent, ht⟩ := h.topmost_of_top? htop
  have hid : child.id = store.cells.size := by rw [hchild]
  have hsound := h.sound
  have hrooted := h.rooted
  rw [ht.opened] at hsound hrooted
  have hopen := opening_openWithin hready howed ht hid start
  have hrest := awaits_openWithin hready howed ht hid hsound hshifted start
  have hroot : Rooted value (child :: top.node :: store.opened.tail) store.root builder.root :=
    hrooted
  have hframe := Top.shows_fresh value (top.node :: store.opened.tail) child.id child.destination
    child.owed start none
  rw [List.any_cons, List.length_cons, ← ht.shows.depth, ← ht.shows.withinOwed, Bool.or_comm,
    ← Option.isSome_map (f := value), ← ht.shows.owed] at hframe
  exact { h with
    created := by
      have hcreated : builder.created = store.cells.size := h.created
      show builder.created + 1 = _
      simp [hcreated, openWithin, putTop, setContent]
    sound := hopen.sound hsound
    closed := by
      intro id cell hcell hclosed
      have hnode : id ≠ top.node.id := by
        rintro rfl
        exact hclosed (List.mem_cons_of_mem _ (mem_openIds_head ..))
      have hsame : id ≠ child.id := by
        rintro rfl
        exact hclosed (mem_openIds_head ..)
      rw [hopen.other id hnode hsame] at hcell
      refine h.closed id cell hcell ?_
      rw [ht.opened]
      exact fun hmem => hclosed (List.mem_cons_of_mem _ hmem)
    stack := by
      refine .top hopen.made ⟨by rw [hchild]; rintro _ ⟨⟩, by rw [hchild]; rintro _ _ ⟨⟩⟩ ?_ hrest
      rw [hchild] at hframe ⊢
      exact hframe
    rooted := hroot
    orphan := hroot.orphan hrest
    ready := h.idle hawaiting }

end OpenWithin

end Shows

/-! ### Closing -/

/-- The store after the innermost open node was left, before the node around it has it. -/
def leave (store : Store) (top : Top) (hasGap : Bool) : Store :=
  { store.setContent top.node.id (top.content.withGap hasGap) with
    opened := store.opened.tail
    scopes := store.scopes.exit }

theorem cell?_leave (hasGap : Bool)
    (hcell : store.cell? top.node.id = some ⟨top.content, parent⟩) (id : Nat) :
    (store.leave top hasGap).cell? id = if id = top.node.id
      then some ⟨top.content.withGap hasGap, parent⟩
      else store.cell? id := by
  have hset : (store.leave top hasGap).cell? id = (store.cells.modify top.node.id fun cell =>
      { cell with toContent := top.content.withGap hasGap })[id]? := rfl
  rw [hset, Array.getElem?_modify]
  by_cases hid : id = top.node.id
  · rw [if_pos hid.symm, if_pos hid, hid, ← cell?, hcell]
    rfl
  · rw [if_neg (Ne.symm hid), if_neg hid]
    rfl

theorem Topmost.agrees (ht : store.Topmost value top parent frame below) :
    Agrees store.cell? store.opened value (update value top.node.id frame.toNode) := by
  intro id _ hclosed
  refine (update_of_ne ?_ _ _).symm
  rintro rfl
  exact hclosed (ht.opened ▸ mem_openIds_head ..)

namespace Shows

section Leave

variable (h : store.Shows value (builder.withTop below frame))
  (ht : store.Topmost value top parent frame below)

include h ht

/-- The closed cells, and with them the node that was left, denote what they stand for. -/
theorem closed_leave {id : Nat} {cell : Cell}
    (hcell : (store.leave top frame.hasGap).cell? id = some cell)
    (hclosed : id ∉ openIds store.opened.tail) :
    cell.Denotes (update value top.node.id frame.toNode)
      (update value top.node.id frame.toNode id) := by
  have hagrees := ht.agrees
  rw [cell?_leave _ ht.holder] at hcell
  by_cases hid : id = top.node.id
  · rw [if_pos hid] at hcell
    cases hcell
    rw [hid, update_self]
    refine ht.shows.denotes.congr ?_
    have hsound := h.sound
    rw [ht.opened] at hsound hagrees
    have hown := hsound.agrees_own hagrees top.node.id
    rw [hsound.own_head ht.holder] at hown
    exact hown
  · rw [if_neg hid] at hcell
    rw [update_of_ne hid]
    have hopen : id ∉ openIds store.opened := by
      rw [ht.opened]
      exact fun hmem => (List.mem_cons.mp hmem).elim hid hclosed
    exact h.sound.denotes_congr hagrees hcell hopen (h.closed id cell hcell hopen)

/-- To mark the node that is left does not change what is bound where. -/
theorem sound_leave : Sound (store.leave top frame.hasGap).cell? store.opened := by
  have hsound := h.sound
  have hcells := cell?_leave frame.hasGap ht.holder
  have hhead := hcells top.node.id
  rw [if_pos rfl] at hhead
  rw [ht.opened] at hsound ⊢
  have hkeeps : top.Keeps { top with
      content := top.content.withGap frame.hasGap } :=
    .of_properties rfl rfl (.inl rfl) rfl (.refl _) (fun _ h => h) Top.Steady.shifted
  have hkept := hsound.keep ht.holder hkeeps hhead fun other hne => by rw [hcells, if_neg hne]
  exact hkept

theorem awaits_leave : Awaits (store.leave top frame.hasGap).cell?
    (update value top.node.id frame.toNode) top.node store.opened.tail store.scopes.tail below := by
  have hsound := h.sound
  have hagrees := ht.agrees
  have hcells := cell?_leave frame.hasGap ht.holder
  rw [ht.opened] at hsound hagrees
  refine hsound.awaits_congr hagrees ht.rest rfl rfl ?_ ?_
  · intro id hmem
    rw [hcells, if_neg]
    rintro rfl
    exact (List.nodup_cons.mp hsound.openedOnce).1 hmem
  · rw [hcells, if_pos rfl, ht.holder]
    rfl

end Leave

/-- The root closes. -/
theorem closeRoot (h : store.Shows value (builder.withTop [] frame))
    (hawaiting : builder.awaiting = none) (htop : store.top? = some top) :
    (store.leave top frame.hasGap).Shows (update value top.node.id frame.toNode)
      { builder with frames := [], root := some frame.toNode } := by
  obtain ⟨parent, ht⟩ := h.topmost_of_top? htop
  have hwaits := h.awaits_leave ht
  have hsound := h.sound_leave ht
  have hrooted := h.rooted
  rw [ht.opened] at hsound hrooted
  obtain ⟨hopened, hscopes, horphan⟩ : store.opened.tail = [] ∧ store.scopes.tail = [] ∧
      ((store.leave top frame.hasGap).cell? top.node.id).map Cell.parent = some none := by
    generalize store.opened.tail = opened at hwaits
    generalize store.scopes.tail = scopes at hwaits
    cases hwaits with
    | root parent destination => exact ⟨rfl, rfl, parent⟩
  rw [hopened] at hsound hrooted
  have hroot : store.root = some top.node.id := hrooted.1
  have hleft : (store.leave top frame.hasGap).opened = [] := hopened
  exact { h with
    created := by
      have hcreated : builder.created = store.cells.size := h.created
      simp [hcreated, leave, setContent]
    sound := by
      rw [hleft]
      exact hsound.closeRoot
    closed := fun id cell => h.closed_leave ht
    stack := by
      have hexit : (store.leave top frame.hasGap).scopes = [] := hscopes
      rw [hleft, hexit]
      exact .empty
    rooted := by
      rw [hleft]
      show some frame.toNode = store.root.map _
      rw [hroot, Option.map_some, update_self]
    orphan := by
      intro id hid
      have hsame : some id = some top.node.id := hid.symm.trans hroot
      cases hsame
      exact horphan
    ready := h.idle hawaiting }

section Into

variable {outerFrame : Frame} {node : OpenCell} {cell : Cell}
  {outer : List OpenCell} {scope : Scope} {scopes : ScopeStack}

variable (h : store.Shows value (builder.withTop (outerFrame :: below) frame))
  (hawaiting : builder.awaiting = none)

include h hawaiting

/-- A node closes, and the one around it becomes the innermost one, with what it was to have. -/
theorem closeInto {after : Top} {received : Frame} {cells : Array Cell}
    (ht : store.Topmost value top parent frame (outerFrame :: below))
    (hopened : store.opened.tail = node :: outer)
    (hcell : (store.leave top frame.hasGap).cell? node.id = some cell)
    (hlast : cell.items.back? = some (Action.placeholder top.node.destination top.node.id))
    (hready : ∀ target, top.node.destination = some target → cell.Ready target)
    (hrest : Awaits (store.leave top frame.hasGap).cell? (update value top.node.id frame.toNode)
      node outer scopes below) (hsteady : after.Steady)
    (hshows : after.Shows (update value top.node.id frame.toNode) outer received)
    (hid : after.node.id = node.id) (hdestination : after.node.destination = node.destination)
    (howed : after.node.owed = node.owed) (hkids : after.content.kids = (cell.settle
      (top.node.destination.map fun target => (target, top.node.id))).kids)
    (hsize : cells.size = store.cells.size)
    (hhead : cells[node.id]? = some ⟨after.content, cell.parent⟩)
    (hother : ∀ other, other ≠ node.id →
      cells[other]? = (store.leave top frame.hasGap).cell? other) :
    Shows (update value top.node.id frame.toNode) { store with
      cells := cells
      opened := after.node :: outer
      scopes := after.scope :: scopes } (builder.withTop below received) := by
  have hids : openIds (after.node :: outer) = openIds store.opened.tail := by
    rw [hopened]
    exact congrArg (· :: openIds outer) hid
  have hsound := h.sound_leave ht
  have hrooted := h.rooted
  rw [ht.opened, hopened] at hsound hrooted
  have hinner : Rooted value (node :: outer) store.root builder.root := hrooted
  have hroot : Rooted (update value top.node.id frame.toNode) (after.node :: outer) store.root
      builder.root := hinner.congr hid
  have houter : ∀ id ∈ openIds outer, cells[id]? = (store.leave top frame.hasGap).cell? id := by
    intro id hmem
    refine hother id ?_
    rintro rfl
    exact (List.nodup_cons.mp (List.nodup_cons.mp hsound.openedOnce).2).1 hmem
  -- The nodes further out see neither the new content nor the node that has closed.
  have hwaits : Awaits (cells[·]?) (update value top.node.id frame.toNode) after.node outer scopes
      below := by
    refine hrest.congr hid hdestination houter ?_ (fun _ _ _ _ _ _ => rfl) fun _ _ => rfl
    rw [hhead, hcell]
    rfl
  exact { h with
    created := h.created.trans hsize.symm
    sound := (hsound.closeChild hcell hlast hready
      (fun kid => by rw [hkids]) hhead hother).congr_head
      hid hdestination howed
    closed := by
      intro id cell hcell hclosed
      have hne : id ≠ node.id := by
        rintro rfl
        exact hclosed (hid ▸ mem_openIds_head ..)
      have hold : (store.leave top frame.hasGap).cell? id = some cell :=
        (hother id hne).symm.trans hcell
      exact h.closed_leave ht hold (hids ▸ hclosed)
    stack := .top (hid ▸ hhead) hsteady hshows hwaits
    rooted := hroot
    orphan := hroot.orphan hwaits
    ready := h.idle hawaiting }

/-- An embedded node closes. The item for it embeds it already. -/
theorem closeEmbedded (htop : store.top? = some top) (hdestination : top.node.destination = none) :
    (store.leave top frame.hasGap).Shows (update value top.node.id frame.toNode)
      (builder.withTop below (outerFrame.push (.embedded frame.toNode))) := by
  obtain ⟨parent, ht⟩ := h.topmost_of_top? htop
  have hwaits := h.awaits_leave ht
  generalize hopened : store.opened.tail = opened at hwaits
  generalize hscopes : store.scopes.tail = scopes at hwaits
  cases hwaits with
  | @within _ node cell outer scope scopes _ _ parent holder last ready unshifted steady
    shows rest =>
    have hpush := shows.push (.embedded top.node.id)
    have hitem : (Item.embedded top.node.id).map (update value top.node.id frame.toNode) =
        .embedded frame.toNode := congrArg Item.embedded (update_self ..)
    have hcontent : cell.suspend.push (.embedded top.node.id) = cell.toContent := by
      refine Content.push_suspend ?_
      rw [last, hdestination]
      rfl
    rw [hitem, Top.push, hcontent] at hpush
    have hleft : store.leave top frame.hasGap = { store with
        cells := (store.leave top frame.hasGap).cells
        opened := node :: outer
        scopes := scope :: scopes } := by
      rw [← hopened, ← hscopes]
      rfl
    rw [hleft]
    exact h.closeInto hawaiting ht hopened holder last ready rest steady hpush rfl rfl rfl
      (by rw [hdestination]; rfl) (by simp [leave, setContent]) holder fun _ _ => rfl

/-- A node that has a target closes, and the one around it binds it there. -/
theorem closeBound {target : Target} (htop : store.top? = some top)
    (hdestination : top.node.destination = some target) :
    ∃ around received, (store.leave top frame.hasGap).top? = some around ∧
      around.content.Ready target ∧ outerFrame.bind target frame.toNode = .ok received ∧
      (((store.leave top frame.hasGap).setParent top.node.id around.node.id).putTop
        (around.attached target top.node.id frame.toNode.hasGap)).Shows
          (update value top.node.id frame.toNode) (builder.withTop below received) := by
  obtain ⟨parent, ht⟩ := h.topmost_of_top? htop
  have hwaits := h.awaits_leave ht
  generalize hopened : store.opened.tail = opened at hwaits
  generalize hscopes : store.scopes.tail = scopes at hwaits
  cases hwaits with
  | @within _ node cell outer scope scopes _ _ parent holder last ready unshifted steady
    shows rest =>
    have hready := ready target hdestination
    have hsuspended : cell.suspend.Ready target := hready
    obtain ⟨received, hreceived, hbound⟩ := shows.bind hsuspended top.node.id
    have hcontent : cell.suspend.push .gap = cell.toContent := by
      refine Content.push_suspend ?_
      rw [last, hdestination]
      rfl
    rw [update_self] at hreceived hbound
    rw [Top.bind, Top.push, hcontent] at hbound
    refine ⟨⟨node, cell.toContent, scope⟩, received, ?_, hready, hreceived, ?_⟩
    · have hleft : (store.leave top frame.hasGap).opened = node :: outer := hopened
      have hexit : (store.leave top frame.hasGap).scopes = scope :: scopes := hscopes
      have hcell : (store.leave top frame.hasGap).cells[node.id]? = some cell := holder
      simp [top?, hleft, hexit, hcell]
    · generalize hafter : (Top.mk node cell.toContent scope).attached target top.node.id
        frame.toNode.hasGap = after at hbound
      have hid : after.node.id = node.id := by rw [← hafter]; rfl
      -- The node knows its parent since it was opened.
      have hcells : ∀ other, (((store.leave top frame.hasGap).setParent top.node.id node.id).putTop
          after).cell? other = if other = node.id then some ⟨after.content, cell.parent⟩
            else (store.leave top frame.hasGap).cell? other := by
        intro other
        rw [cell?_putTop, cell?_setParent_of_eq parent, hid]
        by_cases hnode : other = node.id
        · rw [if_pos hnode, if_pos hnode, hnode, holder]
          rfl
        · rw [if_neg hnode, if_neg hnode]
      have hstore : ((store.leave top frame.hasGap).setParent top.node.id node.id).putTop after =
          { store with
            cells := (((store.leave top frame.hasGap).setParent top.node.id node.id).putTop
              after).cells
            opened := after.node :: outer
            scopes := after.scope :: scopes } := by
        have hopens : store.opened.tail.tail = outer := by rw [hopened]; rfl
        have hexits : store.scopes.tail.tail = scopes := by rw [hscopes]; rfl
        rw [← hopens, ← hexits]
        rfl
      have hhead := hcells node.id
      rw [if_pos rfl] at hhead
      rw [hstore]
      refine h.closeInto hawaiting ht hopened holder last ready rest ?_ hbound hid
        ?_ ?_ ?_ ?_ hhead ?_
      · exact hafter ▸ Top.steady_attached hready unshifted ..
      · rw [← hafter]
        rfl
      · rw [← hafter]
        rfl
      · rw [← hafter, hdestination]
        exact Content.kids_attached ..
      · simp [putTop, setContent, setParent, leave]
      · intro other hne
        have hsame := hcells other
        rw [if_neg hne] at hsame
        exact hsame

end Into

end Shows

end Store

end TagTree
