import TagTree.Proofs.Store.View

/-!
# Sound stores

While a node is open, its parent has not bound it, and may still bind a shifted value that the node
has taken back. The cells form a tree once the open nodes are counted as bound already: then no node
has two parents, each node knows its parent, and what has been detached is bound nowhere (`Sound`).

A step can lose some of what a node binds and embeds (`Sound.of_le`), make nodes that are complete
(`Sound.extend`), bind a node that is bound nowhere (`Sound.bind`), open a node (`Sound.openRoot`,
`Opening.sound`) and close one (`Sound.closeRoot`, `Sound.closeChild`).
-/

namespace TagTree

variable {kid held : Nat} {destination : Option Target} {id : Nat}

/-- What an open node will bind when the node within it closes: the target and the number. -/
def promise : List OpenCell → Nat → Option (Target × Nat)
  | child :: parent :: outer, id =>
    if parent.id = id then child.destination.map fun target => (target, child.id)
    else promise (parent :: outer) id
  | _, _ => none

/-- The content with a promised value bound. -/
def Content.settle (content : Content) : Option (Target × Nat) → Content
  | some (target, id) =>
    { content with
      properties := Frame.setProperty content.properties target ⟨target.reference, id⟩ }
  | none => content

/-- The content without what stands for the node that is open within it. -/
def Content.suspend (content : Content) : Content :=
  { content with items := content.items.pop }

/-- The numbers of the open nodes. -/
def openIds (opened : List OpenCell) : List Nat :=
  opened.map OpenCell.id

/-- The numbers of what the open nodes have to take back. -/
def owedIds (opened : List OpenCell) : List Nat :=
  opened.filterMap OpenCell.owed

/-- What a cell will bind and embed, once the node that is open within it closes. -/
def due (cells : Nat → Option Cell) (opened : List OpenCell) (id : Nat) : List Nat :=
  match cells id with
  | some cell => (cell.settle (promise opened id)).kids
  | none => []

/-- What a cell binds and embeds, apart from the node that is open within it. -/
def own (cells : Nat → Option Cell) (opened : List OpenCell) (id : Nat) : List Nat :=
  match cells id with
  | some cell => if id ∈ openIds opened.tail then cell.suspend.kids else cell.kids
  | none => []

/-- The cell is closed, and neither bound nor embedded. -/
structure Loose (cells : Nat → Option Cell) (opened : List OpenCell) (id : Nat) : Prop where
  made : (cells id).isSome = true
  closed : id ∉ openIds opened
  unbound : ∀ other, id ∉ due cells opened other

/-- The cells form trees, once the open nodes are counted as closed. -/
structure Sound (cells : Nat → Option Cell) (opened : List OpenCell) : Prop where
  openedOnce : (openIds opened).Nodup
  made : ∀ id ∈ openIds opened, (cells id).isSome = true
  once : ∀ id kid, (due cells opened id).count kid ≤ 1
  parent : ∀ id, ∀ kid ∈ due cells opened id, (cells kid).map Cell.parent = some (some id)
  apart : ∀ id, ∀ kid ∈ own cells opened id, (cells kid).isSome = true ∧ kid ∉ openIds opened
  owedOnce : (owedIds opened).Nodup
  loose : ∀ id ∈ owedIds opened, Loose cells opened id

theorem mem_of_count_le {nodes others : List Nat} (hmem : kid ∈ nodes)
    (h : nodes.count kid ≤ others.count kid) : kid ∈ others :=
  List.count_pos_iff.mp (Nat.lt_of_lt_of_le (List.count_pos_iff.mpr hmem) h)

theorem mem_openIds_head (node : OpenCell) (outer : List OpenCell) :
    node.id ∈ openIds (node :: outer) :=
  List.mem_cons_self ..

section Promise

variable {node other child : OpenCell} {opened outer : List OpenCell}

theorem promise_eq_none (h : id ∉ openIds opened.tail) : promise opened id = none := by
  fun_induction promise opened id with
  | case1 child parent outer => exact absurd List.mem_cons_self h
  | case2 id child parent outer hne ih => exact ih fun hmem => h (List.mem_cons_of_mem _ hmem)
  | case3 => rfl

theorem promise_head (h : (openIds (node :: outer)).Nodup) :
    promise (node :: outer) node.id = none :=
  promise_eq_none (List.nodup_cons.mp h).1

theorem promise_congr (hid : other.id = node.id)
    (hdestination : other.destination = node.destination)
    (outer : List OpenCell) (id : Nat) :
    promise (other :: outer) id = promise (node :: outer) id := by
  cases outer <;> simp [promise, hid, hdestination]

end Promise

section Counts

variable {content : Content} {target : Target}

theorem Content.count_settle (h : content.Ready target) (id kid : Nat) :
    (content.settle (some (target, id))).kids.count kid + (content.bound? target).toList.count kid ≤
      content.kids.count kid + [id].count kid := by
  have := Content.count_setProperty h ⟨target.reference, id⟩ kid
  simp only [Content.settle, Content.kids, List.count_append] at this ⊢
  omega

theorem boundNodes_insert_congr {first second : Property Nat} (h : first.nodes = second.nodes)
    (name : String) (entries : Entries (Property Nat)) :
    boundNodes (entries.insert name first) = boundNodes (entries.insert name second) := by
  induction entries with
  | nil => simp [Entries.insert, boundNodes, h]
  | cons entry rest ih =>
    obtain ⟨present, old⟩ := entry
    by_cases hp : present = name <;>
      simp only [Entries.insert, hp, if_true, if_false, boundNodes_cons, h, ih]

/-- A value is promised with another mark on its reference than it is bound with. -/
theorem Content.kids_attached (content : Content) (target : Target) (id : Nat) (hasGap : Bool) :
    (content.attached target id hasGap).kids = (content.settle (some (target, id))).kids := by
  have hset : ∀ (bindings : Array (Binding Nat)) (first second : Binding Nat),
      first.node = second.node → (Property.array
        (Frame.setBinding bindings target.index first)).nodes = (Property.array
          (Frame.setBinding bindings target.index second)).nodes := by
    intro bindings first second h
    simp only [Property.nodes, Property.bindings, Frame.setBinding]
    split
    · split <;> simp [List.map_set, h]
    · simp [h]
  have hbound : ∀ first second : Binding Nat, first.node = second.node →
      boundNodes (Frame.setProperty content.properties target first).toList =
        boundNodes (Frame.setProperty content.properties target second).toList := by
    intro first second h
    simp only [Frame.setProperty]
    split
    · rw [Register.toList_modify, Register.toList_modify]
      cases content.properties.toList.get? target.reference.name with
      | none => rfl
      | some property =>
        refine boundNodes_insert_congr ?_ _ _
        cases property with
        | single present => rfl
        | array bindings => exact hset bindings first second h
    · rw [Register.toList_insert, Register.toList_insert]
      exact boundNodes_insert_congr (by simp [Property.nodes, Property.bindings, h]) _ _
  rw [Content.kids, Content.kids, Content.attached, Frame.embeddedNodes_markReference]
  exact congrArg (· ++ _) (hbound _ _ rfl)

/-- A gap that is bound adds at most its number to what a node binds. -/
theorem Content.count_attached_push (h : content.Ready target) (id : Nat) (hasGap : Bool)
    (kid : Nat) : ((content.push .gap).attached target id hasGap).kids.count kid ≤
      content.kids.count kid + [id].count kid := by
  have hpushed : (content.push .gap).Ready target := h
  have hsettle := count_settle hpushed id kid
  have hpush : (content.push .gap).kids = content.kids := by
    rw [kids_push]
    exact List.append_nil _
  rw [kids_attached]
  rw [hpush] at hsettle
  omega

/-- What a node will bind once a new one closes: what it has, with the new one in the place of what
that takes back. -/
theorem Content.count_settle_placeholder {owed : Option Nat}
    (hready : ∀ target, destination = some target → content.Ready target)
    (howed : ∀ held, owed = some held →
      ∃ target, destination = some target ∧ content.bound? target = some held) (kid : Nat) :
    ((content.push (Action.placeholder destination id)).settle
          (destination.map fun target => (target, id))).kids.count kid + owed.toList.count kid ≤
      content.kids.count kid + [id].count kid := by
  cases destination with
  | none =>
    have hnone : owed = none := by
      refine Option.eq_none_iff_forall_ne_some.mpr fun held hheld => ?_
      obtain ⟨target, htarget, -⟩ := howed held hheld
      cases htarget
    rw [hnone]
    show ((content.push (.embedded id)).kids).count kid + _ ≤ _
    rw [Content.kids_push, List.count_append]
    exact Nat.le_refl _
  | some target =>
    have hpushed : (content.push .gap).Ready target := hready target rfl
    have hsettle := Content.count_settle hpushed id kid
    have hbound : (content.push .gap).bound? target = content.bound? target := rfl
    have hgap : (Item.gap : Item Nat).node?.toList.count kid = 0 := rfl
    have hle : owed.toList.count kid ≤ (content.bound? target).toList.count kid := by
      cases owed with
      | none => exact Nat.zero_le _
      | some held =>
        obtain ⟨_, ⟨⟩, hheld⟩ := howed held rfl
        rw [hheld]
    rw [Content.kids_push, List.count_append, hbound] at hsettle
    show ((content.push .gap).settle (some (target, id))).kids.count kid + _ ≤ _
    omega

theorem Content.push_suspend {item : Item Nat} (h : content.items.back? = some item) :
    content.suspend.push item = content := by
  have hitems : content.items.pop.push item = content.items := by grind
  show ({ content with items := content.items.pop.push item } : Content) = content
  rw [hitems]

/-- What stands for the open node is the last item. -/
theorem Content.count_suspend (h : content.items.back? = some (Action.placeholder destination id))
    (hne : kid ≠ id) : content.suspend.kids.count kid = content.kids.count kid := by
  have hsplit : content.kids = content.suspend.kids ++
      (Action.placeholder destination id).node?.toList := by
    rw [← Content.kids_push, Content.push_suspend h]
  rw [hsplit, List.count_append]
  cases destination with
  | some target => rfl
  | none => simp [Action.placeholder, Item.node?, Ne.symm hne]

end Counts

variable {cells cells' : Nat → Option Cell} {opened opened' outer : List OpenCell}
  {node child : OpenCell} {cell : Cell}

theorem due_of_some (h : cells id = some cell) (opened : List OpenCell) :
    due cells opened id = (cell.settle (promise opened id)).kids := by
  rw [due, h]

theorem own_of_some (h : cells id = some cell) (opened : List OpenCell) :
    own cells opened id = if id ∈ openIds opened.tail then cell.suspend.kids else cell.kids := by
  rw [own, h]

/-- A closed cell binds and embeds what it shows. -/
theorem due_of_closed (h : cells id = some cell) (hclosed : id ∉ openIds opened) :
    due cells opened id = cell.kids ∧ own cells opened id = cell.kids := by
  have htail : id ∉ openIds opened.tail := fun hmem =>
    hclosed (((List.tail_sublist opened).map _).subset hmem)
  rw [due_of_some h, own_of_some h, promise_eq_none htail, if_neg htail]
  exact ⟨rfl, rfl⟩

theorem due_of_nodup (h : cells node.id = some cell) (hopened : (openIds (node :: outer)).Nodup) :
    due cells (node :: outer) node.id = cell.kids := by
  rw [due_of_some h, promise_head hopened]
  rfl

theorem own_of_nodup (h : cells node.id = some cell) (hopened : (openIds (node :: outer)).Nodup) :
    own cells (node :: outer) node.id = cell.kids := by
  have htail : node.id ∉ openIds outer := (List.nodup_cons.mp hopened).1
  rw [own_of_some h, List.tail_cons, if_neg htail]

theorem due_congr (h : cells' id = cells id) (hp : promise opened' id = promise opened id) :
    due cells' opened' id = due cells opened id := by
  rw [due, due, h, hp]

theorem own_congr (h : cells' id = cells id)
    (hmem : id ∈ openIds opened'.tail ↔ id ∈ openIds opened.tail) :
    own cells' opened' id = own cells opened id := by
  rw [own, own, h]
  cases cells id with
  | none => rfl
  | some cell => simp only [hmem]

namespace Loose

/-- A number that is bound nowhere stays so if nothing else becomes bound. -/
theorem of_le (h : Loose cells opened id) (hids : ∀ other ∈ openIds opened', other ∈ openIds opened)
    (hmade : (cells' id).isSome = (cells id).isSome)
    (hdue : ∀ other kid, (due cells' opened' other).count kid ≤
      (due cells opened other).count kid) : Loose cells' opened' id where
  made := hmade.trans h.made
  closed hmem := h.closed (hids id hmem)
  unbound other hmem := h.unbound other (mem_of_count_le hmem (hdue other id))

end Loose

namespace Sound

/-- A step that binds and embeds nothing new keeps a store sound. -/
theorem of_le (h : Sound cells opened) (hids : (openIds opened').Sublist (openIds opened))
    (howed : (owedIds opened').Sublist (owedIds opened))
    (hparent : ∀ id, (cells' id).map Cell.parent = (cells id).map Cell.parent)
    (hdue : ∀ id kid, (due cells' opened' id).count kid ≤ (due cells opened id).count kid)
    (hown : ∀ id, ∀ kid ∈ own cells' opened' id,
      kid ∈ own cells opened id ∨ (cells kid).isSome = true ∧ kid ∉ openIds opened') :
    Sound cells' opened' := by
  have hmade : ∀ id, (cells' id).isSome = (cells id).isSome := by
    intro id
    have := congrArg Option.isSome (hparent id)
    simpa using this
  exact {
    openedOnce := h.openedOnce.sublist hids
    made := fun id hid => (hmade id).trans (h.made id (hids.subset hid))
    once := fun id kid => Nat.le_trans (hdue id kid) (h.once id kid)
    parent := fun id kid hkid => (hparent kid).trans
      (h.parent id kid (mem_of_count_le hkid (hdue id kid)))
    apart := by
      intro id kid hkid
      rw [hmade kid]
      rcases hown id kid hkid with hold | hnew
      · exact (h.apart id kid hold).imp_right fun hnot hopen => hnot (hids.subset hopen)
      · exact hnew
    owedOnce := h.owedOnce.sublist howed
    loose := fun id hid =>
      (h.loose id (howed.subset hid)).of_le (fun _ hmem => hids.subset hmem) (hmade id) hdue }

/-- New cells that are complete keep a store sound. -/
theorem extend (h : Sound cells opened) (hold : ∀ id, (cells id).isSome = true →
    cells' id = cells id)
    (hnew : ∀ id cell, cells id = none → cells' id = some cell →
      (∀ kid, cell.kids.count kid ≤ 1) ∧
      ∀ kid ∈ cell.kids, cells kid = none ∧ (cells' kid).map Cell.parent = some (some id)) :
    Sound cells' opened := by
  have hclosed : ∀ id, cells id = none → id ∉ openIds opened := by
    intro id hnone hmem
    have := h.made id hmem
    rw [hnone] at this
    cases this
  -- A cell is an old one, or a new one with all its parts.
  have hcases : ∀ id, cells' id = cells id ∨ ∃ cell, cells id = none ∧ cells' id = some cell ∧
      due cells' opened id = cell.kids ∧ own cells' opened id = cell.kids := by
    intro id
    cases hid : cells id with
    | some cell => exact .inl (hid ▸ hold id (by rw [hid]; rfl))
    | none =>
      cases hid' : cells' id with
      | none => exact .inl rfl
      | some cell => exact .inr ⟨cell, rfl, rfl, due_of_closed hid' (hclosed id hid)⟩
  have hown : ∀ id, cells' id = cells id → own cells' opened id = own cells opened id := by
    intro id hsame
    rw [own, own, hsame]
  constructor
  case openedOnce => exact h.openedOnce
  case made =>
    intro id hid
    rw [hold id (h.made id hid)]
    exact h.made id hid
  case once =>
    intro id kid
    rcases hcases id with hsame | ⟨cell, hnone, hsome, hdue, -⟩
    · rw [due_congr hsame rfl]
      exact h.once id kid
    · rw [hdue]
      exact (hnew id cell hnone hsome).1 kid
  case parent =>
    intro id kid hkid
    rcases hcases id with hsame | ⟨cell, hnone, hsome, hdue, -⟩
    · rw [due_congr hsame rfl] at hkid
      have hparent := h.parent id kid hkid
      rw [hold kid (by simpa using congrArg Option.isSome hparent)]
      exact hparent
    · rw [hdue] at hkid
      exact ((hnew id cell hnone hsome).2 kid hkid).2
  case apart =>
    intro id kid hkid
    rcases hcases id with hsame | ⟨cell, hnone, hsome, -, hdue⟩
    · rw [hown id hsame] at hkid
      obtain ⟨hmade, hnot⟩ := h.apart id kid hkid
      rw [hold kid hmade]
      exact ⟨hmade, hnot⟩
    · rw [hdue] at hkid
      obtain ⟨hkidNone, hparent⟩ := (hnew id cell hnone hsome).2 kid hkid
      exact ⟨by simpa using congrArg Option.isSome hparent, hclosed kid hkidNone⟩
  case owedOnce => exact h.owedOnce
  case loose =>
    intro id hid
    obtain ⟨hmade, hnot, hunbound⟩ := h.loose id hid
    refine ⟨by rw [hold id hmade]; exact hmade, hnot, fun other hmem => ?_⟩
    rcases hcases other with hsame | ⟨cell, hnone, hsome, hdue, -⟩
    · rw [due_congr hsame rfl] at hmem
      exact hunbound other hmem
    · rw [hdue] at hmem
      rw [((hnew other cell hnone hsome).2 id hmem).1] at hmade
      cases hmade

section Gain

variable {holder fresh : Nat}
  (hparent : ∀ id, (cells' id).map Cell.parent =
    if id = fresh then some (some holder) else (cells id).map Cell.parent)
  (hdue : ∀ id kid, (due cells' opened' id).count kid ≤
    (due cells opened id).count kid + if id = holder then [fresh].count kid else 0)

include hparent in
theorem isSome_of_gain (h : (cells id).isSome = true) : (cells' id).isSome = true := by
  have hsome := congrArg Option.isSome (hparent id)
  rw [Option.isSome_map] at hsome
  rw [hsome]
  split
  · rfl
  · rw [Option.isSome_map, h]

include hdue in
theorem count_of_gain (hne : kid ≠ fresh) (id : Nat) :
    (due cells' opened' id).count kid ≤ (due cells opened id).count kid := by
  have hle := hdue id kid
  have hzero : [fresh].count kid = 0 := by simp [Ne.symm hne]
  split at hle <;> omega

include hparent hdue

/-- A node that binds or embeds one that was bound nowhere keeps a store sound. -/
theorem gain (h : Sound cells opened) (hfresh : ∀ id, fresh ∉ due cells opened id)
    (hopened : (openIds opened').Nodup) (hmade : ∀ id ∈ openIds opened', (cells' id).isSome = true)
    (hown : ∀ id, ∀ kid ∈ own cells' opened' id, (cells' kid).isSome = true ∧ kid ∉ openIds opened')
    (howed : (owedIds opened').Nodup) (hloose : ∀ id ∈ owedIds opened', Loose cells' opened' id) :
    Sound cells' opened' where
  openedOnce := hopened
  made := hmade
  once id kid := by
    by_cases hkid : kid = fresh
    · have hle := hdue id kid
      have hzero := List.count_eq_zero.mpr (hfresh id)
      subst hkid
      split at hle <;> simp at hle <;> omega
    · exact Nat.le_trans (count_of_gain hdue hkid id) (h.once id kid)
  parent id kid hkid := by
    rw [hparent kid]
    by_cases hfr : kid = fresh
    · have hle := hdue id kid
      have hpos := List.count_pos_iff.mpr hkid
      have hzero := List.count_eq_zero.mpr (hfresh id)
      subst hfr
      rw [if_pos rfl]
      by_cases hid : id = holder
      · rw [hid]
      · rw [if_neg hid] at hle
        omega
    · rw [if_neg hfr]
      exact h.parent id kid (mem_of_count_le hkid (count_of_gain hdue hfr id))
  apart := hown
  owedOnce := howed
  loose := hloose

/-- What was bound nowhere stays so if only another number becomes bound. -/
theorem loose_of_gain (h : Loose cells opened id) (hne : id ≠ fresh)
    (hclosed : id ∉ openIds opened') : Loose cells' opened' id where
  made := isSome_of_gain hparent h.made
  closed := hclosed
  unbound other hmem := h.unbound other (mem_of_count_le hmem (count_of_gain hdue hne other))

end Gain

/-- The innermost open node binds now what it shows. -/
theorem due_head (h : Sound cells (node :: outer)) (hcell : cells node.id = some cell) :
    due cells (node :: outer) node.id = cell.kids :=
  due_of_nodup hcell h.openedOnce

theorem own_head (h : Sound cells (node :: outer)) (hcell : cells node.id = some cell) :
    own cells (node :: outer) node.id = cell.kids :=
  own_of_nodup hcell h.openedOnce

/-- Only where an open node goes and what it owes counts. -/
theorem congr_head (h : Sound cells (node :: outer)) {after : OpenCell} (hid : after.id = node.id)
    (hdestination : after.destination = node.destination) (howed : after.owed = node.owed) :
    Sound cells (after :: outer) := by
  have hids : openIds (after :: outer) = openIds (node :: outer) :=
    congrArg (· :: openIds outer) hid
  have howes : owedIds (after :: outer) = owedIds (node :: outer) := by
    simp only [owedIds, List.filterMap_cons, howed]
  refine h.of_le (hids ▸ .refl _) (howes ▸ .refl _) (fun _ => rfl)
    (fun id kid => ?_) fun _ _ => .inl
  rw [due_congr rfl (promise_congr hid hdestination outer id)]

/-- The innermost open node can bind what is bound nowhere and owed to no node. -/
theorem bind (h : Sound cells (node :: outer)) {below : Cell} {content : Content}
    (hcell : cells node.id = some cell) (hbelow : cells id = some below)
    (hloose : Loose cells (node :: outer) id) (howed : id ∉ owedIds (node :: outer))
    (hkids : ∀ kid, content.kids.count kid ≤ cell.kids.count kid + [id].count kid)
    (hhead : cells' node.id = some ⟨content, cell.parent⟩)
    (hid : cells' id = some ⟨below.toContent, some node.id⟩)
    (hother : ∀ other, other ≠ node.id → other ≠ id → cells' other = cells other) :
    Sound cells' (node :: outer) := by
  have hne : node.id ≠ id := fun heq => hloose.closed (heq ▸ List.mem_cons_self ..)
  have hparent : ∀ other, (cells' other).map Cell.parent =
      if other = id then some (some node.id) else (cells other).map Cell.parent := by
    intro other
    by_cases hnode : other = node.id
    · rw [hnode, hhead, hcell, if_neg hne]
      rfl
    · by_cases hsame : other = id
      · rw [hsame, hid, if_pos rfl]
        rfl
      · rw [hother other hnode hsame, if_neg hsame]
  have hmade : ∀ other, (cells other).isSome = true → (cells' other).isSome = true :=
    fun _ => isSome_of_gain hparent
  -- The number is in nothing that another cell binds, also not in what it binds itself.
  have hsame : ∀ other, other ≠ node.id →
      due cells' (node :: outer) other = due cells (node :: outer) other ∧
      own cells' (node :: outer) other = own cells (node :: outer) other := by
    intro other hnode
    by_cases heq : other = id
    · rw [heq, due_of_some hid, due_of_some hbelow, own_of_some hid, own_of_some hbelow]
      exact ⟨rfl, rfl⟩
    · rw [own, own, due, due, hother other hnode heq]
      exact ⟨rfl, rfl⟩
  have hdue : ∀ other kid, (due cells' (node :: outer) other).count kid ≤
      (due cells (node :: outer) other).count kid +
        if other = node.id then [id].count kid else 0 := by
    intro other kid
    by_cases hnode : other = node.id
    · rw [hnode, due_of_nodup hhead h.openedOnce, h.due_head hcell, if_pos rfl]
      exact hkids kid
    · rw [(hsame other hnode).1, if_neg hnode]
      exact Nat.le_refl _
  refine gain hparent hdue h hloose.unbound h.openedOnce
    (fun other hopen => hmade other (h.made other hopen)) ?_ h.owedOnce ?_
  · intro other kid hkid
    by_cases hnode : other = node.id
    · rw [hnode, own_of_nodup hhead h.openedOnce, ← due_of_nodup hhead h.openedOnce] at hkid
      by_cases heq : kid = id
      · exact heq ▸ ⟨hmade id hloose.made, hloose.closed⟩
      · have hmem : kid ∈ own cells (node :: outer) node.id := by
          rw [h.own_head hcell, ← h.due_head hcell]
          exact mem_of_count_le hkid (count_of_gain hdue heq node.id)
        exact (h.apart node.id kid hmem).imp_left (hmade kid)
    · rw [(hsame other hnode).2] at hkid
      exact (h.apart other kid hkid).imp_left (hmade kid)
  · intro other howes
    have hl := h.loose other howes
    have hdistinct : other ≠ id := by
      rintro rfl
      exact howed howes
    exact loose_of_gain hparent hdue hl hdistinct hl.closed

/-- The first node opens. -/
theorem openRoot (h : Sound cells []) (hfresh : cells node.id = none) (hleaf : cell.kids = [])
    (howed : node.owed = none) (hid : cells' node.id = some cell)
    (hother : ∀ other, other ≠ node.id → cells' other = cells other) : Sound cells' [node] := by
  have hnone : owedIds [node] = [] := by simp [owedIds, howed]
  have hne : ∀ other, (cells other).isSome = true → other ≠ node.id := by
    rintro _ hsome rfl
    rw [hfresh] at hsome
    cases hsome
  have hextend : Sound cells' [] := by
    refine h.extend (fun other hsome => hother other (hne other hsome)) ?_
    intro other new hnone hsome
    by_cases heq : other = node.id
    · rw [heq, hid] at hsome
      cases hsome
      rw [hleaf]
      exact ⟨fun kid => Nat.zero_le _, nofun⟩
    · rw [hother other heq, hnone] at hsome
      cases hsome
  constructor
  case openedOnce => exact List.pairwise_singleton _ _
  case made =>
    intro id hmem
    rw [List.mem_singleton.mp hmem, hid]
    rfl
  case once => exact hextend.once
  case parent => exact hextend.parent
  case apart =>
    intro id kid hkid
    refine ⟨(hextend.apart id kid hkid).1, fun hmem => ?_⟩
    -- What is open now was not there before, and what is new binds nothing.
    by_cases heq : id = node.id
    · rw [heq, own_of_some hid] at hkid
      simp [openIds, hleaf] at hkid
    · have hown : own cells' [node] id = own cells [] id := by
        rw [own, own, hother id heq]
        rfl
      rw [hown] at hkid
      exact hne kid (h.apart id kid hkid).1 (List.mem_singleton.mp hmem)
  case owedOnce =>
    rw [hnone]
    exact List.nodup_nil
  case loose =>
    rw [hnone]
    nofun

end Sound

/-- A new node opens within the innermost one, which is left with an item for it. -/
structure Opening (cells cells' : Nat → Option Cell) (node child : OpenCell) (cell new : Cell) :
    Prop where
  holder : cells node.id = some cell
  fresh : cells child.id = none
  leaf : new.kids = []
  parent : new.parent = some node.id
  ready : ∀ target, child.destination = some target → cell.Ready target
  owed : ∀ id, child.owed = some id →
    ∃ target, child.destination = some target ∧ cell.bound? target = some id
  head : cells' node.id =
    some ⟨cell.push (Action.placeholder child.destination child.id), cell.parent⟩
  made : cells' child.id = some new
  other : ∀ id, id ≠ node.id → id ≠ child.id → cells' id = cells id

namespace Opening

variable {new : Cell} (hopen : Opening cells cells' node child cell new)

include hopen

theorem ne_child (hsome : (cells id).isSome = true) : id ≠ child.id := by
  rintro rfl
  rw [hopen.fresh] at hsome
  cases hsome

theorem map_parent (id : Nat) : (cells' id).map Cell.parent =
    if id = child.id then some (some node.id) else (cells id).map Cell.parent := by
  by_cases hnode : id = node.id
  · have hne : node.id ≠ child.id := hopen.ne_child (by rw [hopen.holder]; rfl)
    rw [hnode, hopen.head, hopen.holder, if_neg hne]
    rfl
  · by_cases hsame : id = child.id
    · rw [hsame, hopen.made, if_pos rfl, Option.map_some, hopen.parent]
    · rw [hopen.other id hnode hsame, if_neg hsame]

theorem apart (hapart : (cells id).isSome = true ∧ id ∉ openIds (node :: outer)) :
    (cells' id).isSome = true ∧ id ∉ openIds (child :: node :: outer) :=
  ⟨Sound.isSome_of_gain hopen.map_parent hapart.1,
    not_or.mpr ⟨hopen.ne_child hapart.1, hapart.2⟩ ∘ List.mem_cons.mp⟩

variable (h : Sound cells (node :: outer))

include h

theorem notMem : child.id ∉ openIds (node :: outer) :=
  fun hmem => hopen.ne_child (h.made _ hmem) rfl

/-- The node around the new one binds what it did, without the value that is taken back, and the new
node. -/
theorem count_due_node (kid : Nat) :
    (due cells' (child :: node :: outer) node.id).count kid + child.owed.toList.count kid ≤
      (due cells (node :: outer) node.id).count kid + [child.id].count kid := by
  rw [due_of_some hopen.head, promise, if_pos rfl, h.due_head hopen.holder]
  exact Content.count_settle_placeholder hopen.ready hopen.owed kid

theorem due_child : due cells' (child :: node :: outer) child.id = [] := by
  rw [due_of_some hopen.made, promise_eq_none (hopen.notMem h)]
  exact hopen.leaf

theorem count_due_le (id kid : Nat) :
    (due cells' (child :: node :: outer) id).count kid ≤
      (due cells (node :: outer) id).count kid +
        if id = node.id then [child.id].count kid else 0 := by
  by_cases hnode : id = node.id
  · have hcount := hopen.count_due_node h kid
    rw [hnode, if_pos rfl]
    omega
  · by_cases hsame : id = child.id
    · rw [hsame, hopen.due_child h]
      exact Nat.zero_le _
    · have hpromise : promise (child :: node :: outer) id = promise (node :: outer) id :=
        if_neg (Ne.symm hnode)
      rw [due_congr (hopen.other id hnode hsame) hpromise]
      exact Nat.le_add_right _ _

theorem own_subset (id : Nat) :
    own cells' (child :: node :: outer) id ⊆ own cells (node :: outer) id := by
  by_cases hnode : id = node.id
  · have hpop : (cell.push (Action.placeholder child.destination child.id)).suspend =
        cell.toContent := by simp [Content.suspend, Content.push]
    rw [hnode, own_of_some hopen.head, List.tail_cons, if_pos (mem_openIds_head ..), hpop,
      h.own_head hopen.holder]
    exact List.Subset.refl _
  · by_cases hsame : id = child.id
    · have hempty : own cells' (child :: node :: outer) child.id = [] := by
        rw [own_of_some hopen.made, List.tail_cons, if_neg (hopen.notMem h)]
        exact hopen.leaf
      rw [hsame, hempty]
      exact List.nil_subset _
    · have hmem : (id ∈ openIds (node :: outer)) ↔ id ∈ openIds outer :=
        List.mem_cons.trans (or_iff_right hnode)
      have hown : own cells' (child :: node :: outer) id = own cells (node :: outer) id :=
        own_congr (hopen.other id hnode hsame) hmem
      rw [hown]
      exact List.Subset.refl _

theorem mem_due_of_owed (howed : child.owed = some held) :
    held ∈ due cells (node :: outer) node.id := by
  obtain ⟨target, -, hbound⟩ := hopen.owed held howed
  rw [h.due_head hopen.holder]
  exact Content.mem_kids_of_bound? hbound

/-- The value that the new node takes back was bound in the one around it, and there alone. -/
theorem loose_of_owed (howed : child.owed = some held) :
    Loose cells' (child :: node :: outer) held := by
  have hkid := hopen.mem_due_of_owed h howed
  have hin : held ∈ own cells (node :: outer) node.id := by
    rw [h.own_head hopen.holder, ← h.due_head hopen.holder]
    exact hkid
  have hold := h.apart node.id held hin
  have hdistinct : [child.id].count held = 0 := by simp [Ne.symm (hopen.ne_child hold.1)]
  obtain ⟨hmade, hnot⟩ := hopen.apart hold
  refine ⟨hmade, hnot, fun id hmem => ?_⟩
  have hpos := List.count_pos_iff.mpr hmem
  by_cases hnode : id = node.id
  · have hle := hopen.count_due_node h held
    have honce := h.once node.id held
    rw [howed, hdistinct] at hle
    rw [hnode] at hpos
    simp only [Option.toList_some, List.count_singleton_self] at hle
    omega
  · have hle := hopen.count_due_le h id held
    rw [if_neg hnode] at hle
    have hparent := h.parent id held (List.count_pos_iff.mp (by omega))
    rw [h.parent node.id held hkid] at hparent
    exact hnode (Option.some.inj (Option.some.inj hparent)).symm

/-- What was owed is bound nowhere still. -/
theorem loose_of_mem (hmem : id ∈ owedIds (node :: outer)) :
    Loose cells' (child :: node :: outer) id := by
  have hloose := h.loose id hmem
  exact Sound.loose_of_gain hopen.map_parent (hopen.count_due_le h) hloose
    (hopen.ne_child hloose.made) (hopen.apart ⟨hloose.made, hloose.closed⟩).2

/-- A node opens within the innermost one. If it takes back a value, that value is no longer counted
as bound. -/
theorem sound : Sound cells' (child :: node :: outer) := by
  have hnew := hopen.notMem h
  refine Sound.gain hopen.map_parent (hopen.count_due_le h) h ?_
    (List.nodup_cons.mpr ⟨hnew, h.openedOnce⟩) ?_ ?_ ?_ ?_
  · intro id hmem
    have hsome := congrArg Option.isSome (h.parent id _ hmem)
    rw [hopen.fresh] at hsome
    cases hsome
  · intro id hmem
    rcases List.mem_cons.mp hmem with rfl | hmem
    · rw [hopen.made]
      rfl
    · exact Sound.isSome_of_gain hopen.map_parent (h.made id hmem)
  · intro id kid hkid
    exact hopen.apart (h.apart id kid (hopen.own_subset h id hkid))
  · cases howed : child.owed with
    | none => simpa [owedIds, howed] using h.owedOnce
    | some held =>
      have hfree : held ∉ owedIds (node :: outer) := fun howes =>
        (h.loose held howes).unbound node.id (hopen.mem_due_of_owed h howed)
      simpa [owedIds, howed] using And.intro hfree h.owedOnce
  · intro id howes
    cases howed : child.owed with
    | none => exact hopen.loose_of_mem h (by simpa [owedIds, howed] using howes)
    | some held =>
      have hmem : id = held ∨ id ∈ owedIds (node :: outer) := by simpa [owedIds, howed] using howes
      rcases hmem with rfl | hmem
      · exact hopen.loose_of_owed h howed
      · exact hopen.loose_of_mem h hmem

end Opening

namespace Sound

/-- No parent changes if only the content of one cell does. -/
theorem map_parent_of_head {content : Content} (hcell : cells node.id = some cell)
    (hhead : cells' node.id = some ⟨content, cell.parent⟩)
    (hother : ∀ other, other ≠ node.id → cells' other = cells other) (id : Nat) :
    (cells' id).map Cell.parent = (cells id).map Cell.parent := by
  by_cases hnode : id = node.id
  · rw [hnode, hhead, hcell]
    rfl
  · rw [hother id hnode]

section Keep

variable {scope : Scope} {after : Top} (h : Sound cells (node :: outer))
  (hcell : cells node.id = some cell) (hkeeps : (Top.mk node cell.toContent scope).Keeps after)
  (hhead : cells' node.id = some ⟨after.content, cell.parent⟩)
  (hother : ∀ other, other ≠ node.id → cells' other = cells other)
include h hcell hkeeps hhead hother

/-- A step of the innermost open node that adds nothing binds nothing new. -/
theorem due_keep (id kid : Nat) :
    (due cells' (after.node :: outer) id).count kid ≤ (due cells (node :: outer) id).count kid := by
  have hpromise := promise_congr hkeeps.id hkeeps.destination outer
  by_cases hnode : id = node.id
  · rw [hnode, h.due_head hcell, due_of_some hhead, hpromise, promise_head h.openedOnce]
    exact hkeeps.kids kid
  · rw [due_congr (hother id hnode) (hpromise id)]

/-- A step of the innermost open node that adds nothing keeps a store sound. -/
theorem keep : Sound cells' (after.node :: outer) := by
  have hids : openIds (after.node :: outer) = openIds (node :: outer) :=
    congrArg (· :: openIds outer) hkeeps.id
  refine h.of_le (hids ▸ .refl _) ?_ ?_ (h.due_keep hcell hkeeps hhead hother) ?_
  · rcases hkeeps.owed with hsame | hnone
    · simp only [owedIds, List.filterMap_cons, hsame]
      exact .refl _
    · simp only [owedIds, List.filterMap_cons, hnone]
      cases node.owed with
      | none => exact .refl _
      | some held => exact List.sublist_cons_self ..
  · exact map_parent_of_head hcell hhead hother
  · intro id kid hkid
    refine .inl ?_
    by_cases hnode : id = node.id
    · have htail : node.id ∉ openIds outer := (List.nodup_cons.mp h.openedOnce).1
      rw [hnode, own_of_some hhead, List.tail_cons, if_neg htail] at hkid
      rw [hnode, h.own_head hcell]
      exact mem_of_count_le hkid (hkeeps.kids kid)
    · have hown : own cells' (after.node :: outer) id = own cells (node :: outer) id :=
        own_congr (hother id hnode) .rfl
      exact hown ▸ hkid

end Keep

/-- The last open node closes. -/
theorem closeRoot (h : Sound cells [child]) : Sound cells [] := by
  refine h.of_le (List.nil_sublist _) (List.nil_sublist _) (fun _ => rfl)
    (fun _ _ => Nat.le_refl _) ?_
  exact fun id kid hkid => .inl hkid

/-- A node that is open within another one closes, and the other one has what it was to have. -/
theorem closeChild (h : Sound cells (child :: node :: outer)) {content : Content}
    (hcell : cells node.id = some cell)
    (hback : cell.items.back? = some (Action.placeholder child.destination child.id))
    (hready : ∀ target, child.destination = some target → cell.Ready target)
    (hkids : ∀ kid, content.kids.count kid =
      (cell.settle (child.destination.map fun target => (target, child.id))).kids.count kid)
    (hhead : cells' node.id = some ⟨content, cell.parent⟩)
    (hother : ∀ other, other ≠ node.id → cells' other = cells other) :
    Sound cells' (node :: outer) := by
  have hopened := List.nodup_cons.mp h.openedOnce
  have htail : node.id ∉ openIds outer := (List.nodup_cons.mp hopened.2).1
  refine h.of_le (List.sublist_cons_self ..) ((List.sublist_cons_self ..).filterMap _) ?_ ?_ ?_
  · exact map_parent_of_head hcell hhead hother
  · intro id kid
    by_cases hnode : id = node.id
    · rw [hnode, due_of_some hhead, due_of_some hcell, promise_head hopened.2, promise, if_pos rfl]
      exact Nat.le_of_eq (hkids kid)
    · have hsame : promise (node :: outer) id = promise (child :: node :: outer) id := by
        rw [promise.eq_def (child :: node :: outer)]
        exact (if_neg (Ne.symm hnode)).symm
      rw [due_congr (hother id hnode) hsame]
  · intro id kid hkid
    by_cases heq : kid = child.id
    · rw [heq]
      exact .inr ⟨h.made child.id (mem_openIds_head ..), hopened.1⟩
    refine .inl ?_
    by_cases hnode : id = node.id
    · rw [hnode, own_of_some hhead, List.tail_cons, if_neg htail] at hkid
      rw [hnode, own_of_some hcell, List.tail_cons, if_pos (mem_openIds_head ..)]
      refine mem_of_count_le hkid ?_
      rw [Content.count_suspend hback heq, hkids kid]
      cases hdest : child.destination with
      | none => exact Nat.le_refl _
      | some target =>
        have hle := Content.count_settle (hready target hdest) child.id kid
        have hzero : [child.id].count kid = 0 := by simp [Ne.symm heq]
        simp only [Option.map_some]
        omega
    · have hmem : id ∈ openIds outer ↔ id ∈ openIds (node :: outer) :=
        (List.mem_cons.trans (or_iff_right hnode)).symm
      have hown : own cells' (node :: outer) id = own cells (child :: node :: outer) id :=
        own_congr (hother id hnode) hmem
      exact hown ▸ hkid

end Sound

end TagTree
