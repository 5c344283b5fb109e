import Mathlib.Logic.Relation
import TagTree.Proofs.Store.Supply

/-!
# Sessions

A store and a builder are given the same tags and answers, in any order and whether or not they are
refused (`Session`). No call goes wrong in the store, all its numbers have cells, and a tree that it
finishes is one: what is reachable from the root is bound or embedded once, in the node that it
knows as its parent (`Session.invariant`).
-/

namespace TagTree

variable {store : Store} {builder : Builder} {cell : Cell} {start : OpenTag} {arena : Arena}
  {tree : Tree}

namespace Arena

/-- A node of the arena binds or embeds another one. -/
def Has (arena : Arena) (id kid : Nat) : Prop :=
  ∃ cell, arena.cells[id]? = some cell ∧ kid ∈ cell.kids

/-- What can be reached from the root. -/
def Reaches (arena : Arena) (id : Nat) : Prop :=
  Relation.ReflTransGen arena.Has arena.root id

/-- The number of times that a node binds or embeds another one. -/
def occurrences (arena : Arena) (id kid : Nat) : Nat :=
  match arena.cells[id]? with
  | some cell => cell.kids.count kid
  | none => 0

/-- The node above a node. -/
def parent? (arena : Arena) (id : Nat) : Option Nat := do
  (← arena.cells[id]?).parent

/-- What can be reached from the root forms a finite tree. -/
structure IsTree (arena : Arena) : Prop where
  inRange : ∀ id, arena.Reaches id → id < arena.cells.size
  unbound : ∀ id, arena.occurrences id arena.root = 0
  once : ∀ id, arena.Reaches id → id ≠ arena.root → ∃ parent, arena.Reaches parent ∧
    arena.parent? id = some parent ∧
    ∀ holder, arena.occurrences holder id = if holder = parent then 1 else 0
  acyclic : ∃ rank : Nat → Nat, ∀ id kid, arena.Has id kid → rank kid < rank id

/-- No node is bound or embedded twice, and the one that binds or embeds it is its parent. Nodes
that cannot be reached from the root are no exception. -/
structure IsForest (arena : Arena) : Prop where
  once : ∀ id kid, arena.occurrences id kid ≤ 1
  parent : ∀ id kid, arena.Has id kid → arena.parent? kid = some id
  acyclic : ∃ rank : Nat → Nat, ∀ id kid, arena.Has id kid → rank kid < rank id

variable {id kid : Nat}

theorem has_iff : arena.Has id kid ↔ 0 < arena.occurrences id kid := by
  unfold Has occurrences
  cases arena.cells[id]? with
  | none => simp
  | some cell => simp [List.count_pos_iff]

end Arena

namespace Store

/-- Every number in the store has a cell. -/
structure InRange (store : Store) : Prop where
  root : ∀ id ∈ store.root, id < store.cells.size
  opened : ∀ node ∈ store.opened, node.id < store.cells.size
  owed : ∀ node ∈ store.opened, ∀ id ∈ node.owed, id < store.cells.size
  shifted : ∀ node ∈ store.opened, ∀ detached ∈ node.shifted, detached.2 < store.cells.size
  kids : ∀ cell ∈ store.cells, ∀ kid ∈ cell.kids, kid < store.cells.size

end Store

/-- What a step of a builder leaves, whether or not it is refused. -/
def leaves {α : Type} (read : α → Builder) : Attempt Builder α → Builder
  | .ok result => read result
  | .error refusal => refusal.state

/-- The answer of a step of a builder. -/
def answer {α β : Type} (read : α → β) (attempt : Attempt Builder α) : Except StructuralError β :=
  (attempt.map read).mapError Refusal.error

/-- A store and a builder after the same calls. -/
inductive Session : Store → Builder → Prop where
  | start (expressions : Bool) :
    Session { expressions := expressions } { expressions := expressions }
  | push {store after : Store} {builder : Builder} {result : Except StructuralError Feed}
    (tag : Tag)
    (calls : Session store builder) (step : Store.push tag store = some (result, after)) :
    Session after (leaves Prod.snd (builder.push tag))
  | leave {store after : Store} {builder : Builder} {result : Except StructuralError Unit}
    (calls : Session store builder) (step : Store.supply none store = some (result, after)) :
    Session after (leaves id (builder.supply none))
  | supply {store after other : Store} {builder maker : Builder} {arena : Arena} {tree : Tree}
    {result : Except StructuralError Unit} (calls : Session store builder)
    (made : Session other maker) (numbered : other.finish = .ok arena)
    (expression : maker.finish = .ok tree)
    (step : Store.supply (some arena) store = some (result, after)) :
    Session after (leaves id (builder.supply (some tree)))

namespace Store.Shows

variable {value : Nat → Node}

/-! ### Numbers -/

/-- The nodes around an open one are labelled as their opening tags say. They bind and embed what
they did before, and the node within. -/
theorem exists_outer {cells : Nat → Option Cell} {child : OpenCell} {outer : List OpenCell}
    {scopes : ScopeStack} {frames : List Frame} (h : Awaits cells value child outer scopes frames) :
    ∀ node ∈ outer, node.shifted = none ∧ ∃ (cell : Cell) (inner : OpenCell),
      inner ∈ child :: outer ∧ cells node.id = some cell ∧ cell.Labelled ∧
      ∀ kid ∈ cell.kids, kid ∈ cell.suspend.kids ∨ kid = inner.id := by
  induction h with
  | root parent destination => exact fun node hmem => absurd hmem List.not_mem_nil
  | @within child node cell outer scope scopes frame frames parent holder last ready
    unshifted steady
      shows rest ih =>
    intro other hmem
    rcases List.mem_cons.mp hmem with rfl | hmem
    · refine ⟨unshifted, cell, child, List.mem_cons_self .., holder,
        shows.labelled, fun kid hkid => ?_⟩
      by_cases hsame : kid = child.id
      · exact .inr hsame
      · have hcount := Content.count_suspend last hsame
        exact .inl (List.count_pos_iff.mp (hcount ▸ List.count_pos_iff.mpr hkid))
    · obtain ⟨hnone, cell, inner, hinner, hcell⟩ := ih other hmem
      exact ⟨hnone, cell, inner, List.mem_cons_of_mem _ hinner, hcell⟩

variable (h : store.Shows value builder)

include h

/-- What an open node binds and embeds is made, and what it has detached is among that. -/
theorem exists_opened {node : OpenCell} (hmem : node ∈ store.opened) :
    ∃ cell, store.cell? node.id = some cell ∧ cell.Labelled ∧
      (∀ kid ∈ cell.kids, (store.cell? kid).isSome = true) ∧
      ∀ detached ∈ node.shifted, detached.2 ∈ cell.kids := by
  have hsound := h.sound
  have hstack := h.stack
  generalize store.opened = opened at hsound hstack hmem
  generalize store.scopes = scopes at hstack
  generalize builder.frames = frames at hstack
  cases hstack with
  | empty => cases hmem
  | @top first cell outer scope scopes frame frames holder steady shows rest =>
    rcases List.mem_cons.mp hmem with rfl | houter
    · refine ⟨cell, holder, shows.labelled, fun kid hkid => ?_, fun detached hdetached => ?_⟩
      · exact (hsound.apart node.id kid (hsound.own_head holder ▸ hkid)).1
      · exact Content.mem_kids_of_bound? (steady.shifted detached.1 detached.2 hdetached).2
    · obtain ⟨hnone, cell, inner, hinner, hcell, hlabelled, hkids⟩ := exists_outer rest node houter
      refine ⟨cell, hcell, hlabelled, fun kid hkid => ?_, by simp [hnone]⟩
      rcases hkids kid hkid with hold | rfl
      · have hid : node.id ∈ openIds outer := List.mem_map_of_mem houter
        refine (hsound.apart node.id kid ?_).1
        rw [own_of_some hcell, List.tail_cons, if_pos hid]
        exact hold
      · exact hsound.made inner.id (List.mem_map_of_mem hinner)

/-- All cells, open or closed, are labelled as their opening tags say, and what they bind and embed
is made. -/
theorem labelled_and_made {id : Nat} (hcell : store.cell? id = some cell) :
    cell.Labelled ∧ ∀ kid ∈ cell.kids, kid < store.cells.size := by
  suffices hmade : cell.Labelled ∧ ∀ kid ∈ cell.kids, (store.cell? kid).isSome = true from
    ⟨hmade.1, fun kid hkid => cell?_isSome.mp (hmade.2 kid hkid)⟩
  by_cases hopen : id ∈ openIds store.opened
  · obtain ⟨node, hmem, rfl⟩ := List.mem_map.mp hopen
    obtain ⟨same, hsame, hlabelled, hkids, -⟩ := h.exists_opened hmem
    cases hcell.symm.trans hsame
    exact ⟨hlabelled, hkids⟩
  · refine ⟨(h.closed id cell hcell hopen).labelled, fun kid hkid => ?_⟩
    exact (h.sound.apart id kid ((due_of_closed hcell hopen).2 ▸ hkid)).1

/-- All numbers in the store are in range. -/
theorem inRange : store.InRange where
  root := by
    intro id hid
    exact cell?_isSome.mp (by simpa using congrArg Option.isSome (h.orphan id hid))
  opened := fun node hmem => cell?_isSome.mp (h.sound.made node.id (List.mem_map_of_mem hmem))
  owed := by
    intro node hmem id hid
    exact cell?_isSome.mp (h.sound.loose id (List.mem_filterMap.mpr ⟨node, hmem, hid⟩)).made
  shifted := by
    intro node hmem detached hdetached
    obtain ⟨cell, hcell, -, hkids, hshifted⟩ := h.exists_opened hmem
    exact cell?_isSome.mp (hkids _ (hshifted detached hdetached))
  kids := by
    intro cell hmem
    obtain ⟨id, hcell⟩ := Array.mem_iff_getElem?.mp hmem
    exact (h.labelled_and_made hcell).2

theorem length_scopes : store.scopes.length = store.opened.length :=
  h.stack.length_scopes

/-! ### Finished trees -/

/-- The number of open nodes. -/
theorem length_opened : store.opened.length = builder.depth := by
  have hstack := h.stack
  unfold Builder.depth
  generalize store.opened = opened at hstack
  generalize store.scopes = scopes at hstack
  generalize builder.frames = frames at hstack
  cases hstack with
  | empty => rfl
  | top _ _ shows _ => exact shows.depth.symm

/-- A store finishes its tree when the builder that it shows does. -/
theorem finish :
    Agree (· = ·) (fun arena tree => store.opened = [] ∧ arena.cells = store.cells ∧
      store.root = some arena.root ∧ arena.Shows value tree) store.finish builder.finish := by
  have hempty := h.isEmpty_opened
  unfold Store.finish Builder.finish Builder.needsExpression
  rw [h.awaiting]
  refine .ite (fun _ => .error rfl) fun _ => ?_
  cases hframes : builder.frames with
  | cons frame below =>
    rw [hframes] at hempty
    simp only [hempty, h.length_opened]
    exact .error rfl
  | nil =>
    rw [hframes] at hempty
    have hopened : store.opened = [] := List.isEmpty_iff.mp hempty
    have hrooted := h.rooted
    rw [hopened] at hrooted
    have hroot : builder.root = store.root.map value := hrooted
    simp only [hopened, List.isEmpty_nil]
    cases hnumber : store.root with
    | none =>
      rw [hnumber] at hroot
      simp only [hroot]
      exact .error rfl
    | some id =>
      rw [hnumber] at hroot
      simp only [hroot]
      refine .ok ⟨trivial, rfl, rfl, ?_⟩
      exact {
        holds := ⟨fun id cell hcell => h.closed id cell hcell (hopened ▸ List.not_mem_nil),
          fun id cell hcell => (h.labelled_and_made hcell).2⟩
        doctype := h.doctype
        created := h.created
        made := h.inRange.root id hnumber
        root := rfl }

/-- When no node is open, each cell is bound or embedded at most once, beneath its parent. -/
theorem isForest (hopened : store.opened = [])
    (hcells : arena.cells = store.cells) : arena.IsForest := by
  have hcell : ∀ id, arena.cells[id]? = store.cell? id := fun id => congrArg (·[id]?) hcells
  have hsound := h.sound
  rw [hopened] at hsound
  have hcount : ∀ id kid, arena.occurrences id kid = (due store.cell? [] id).count kid := by
    intro id kid
    unfold Arena.occurrences due
    rw [hcell]
    cases store.cell? id <;> rfl
  refine ⟨fun id kid => hcount id kid ▸ hsound.once id kid, ?_, fun id => (value id).size, ?_⟩
  · intro id kid hhas
    rw [Arena.has_iff, hcount, List.count_pos_iff] at hhas
    obtain ⟨cell, hkid, hparent⟩ := Option.map_eq_some_iff.mp (hsound.parent id kid hhas)
    rw [Arena.parent?, hcell, hkid]
    exact hparent
  · rintro id kid ⟨cell, hholder, hkid⟩
    have hclosed : id ∉ openIds store.opened := hopened ▸ List.not_mem_nil
    exact (h.closed id cell (hcell id ▸ hholder) hclosed).size_lt hkid

/-- With no open node, the cells form a tree. -/
theorem isTree (hopened : store.opened = [])
    (hcells : arena.cells = store.cells) (hroot : store.root = some arena.root) : arena.IsTree := by
  have hcell : ∀ id, arena.cells[id]? = store.cell? id := fun id => congrArg (·[id]?) hcells
  have hforest := h.isForest hopened hcells
  refine ⟨?_, ?_, ?_, hforest.acyclic⟩
  · intro id hreach
    induction hreach with
    | refl => exact hcells ▸ h.inRange.root _ hroot
    | @tail holder kid _ hhas _ =>
      obtain ⟨cell, hholder, hkid⟩ := hhas
      exact hcells ▸ (h.labelled_and_made (hcell holder ▸ hholder)).2 kid hkid
  · intro id
    refine Nat.eq_zero_of_not_pos fun hpos => ?_
    have horphan := h.orphan _ hroot
    have hsome := hforest.parent id arena.root (Arena.has_iff.mpr hpos)
    obtain ⟨cell, hself, hnone⟩ := Option.map_eq_some_iff.mp horphan
    rw [Arena.parent?, hcell, hself] at hsome
    cases hnone.symm.trans hsome
  · intro id hreach hne
    -- The last step of a path from the root comes from the node's parent.
    obtain heq | ⟨parent, hreach, hhas⟩ := Relation.ReflTransGen.cases_tail hreach
    · exact absurd heq hne
    refine ⟨parent, hreach, hforest.parent parent id hhas, fun holder => ?_⟩
    have hle := hforest.once holder id
    split
    · rename_i hsame
      have hpos := Arena.has_iff.mp (hsame ▸ hhas)
      omega
    · rename_i hother
      refine Nat.eq_zero_of_not_pos fun hpos => hother ?_
      have hsame := hforest.parent holder id (Arena.has_iff.mpr hpos)
      exact Option.some.inj (hsame.symm.trans (hforest.parent parent id hhas))

end Store.Shows

/-! ### Sessions -/

namespace Refines

variable {α β γ : Type} {R : α → Store → β → Prop}
  {outcome : Option (Except StructuralError α × Store)} {attempt : Attempt Builder β}

/-- The step does not go wrong, has the answer of the builder's step, and leaves a store that shows
what the builder's step leaves. -/
theorem exists_some {feed : β → α} {read : β → Builder} (h : Refines R outcome attempt)
    (hr : ∀ value after next, R value after next → value = feed next ∧ after.Shown (read next)) :
    ∃ after, outcome = some (answer feed attempt, after) ∧ after.Shown (leaves read attempt) := by
  cases h with
  | ok h =>
    obtain ⟨rfl, hshown⟩ := hr _ _ _ h
    exact ⟨_, rfl, hshown⟩
  | error h => exact ⟨_, rfl, h⟩

end Refines

/-- An empty store shows an empty builder. -/
theorem Store.shown_start (expressions : Bool) :
    ({ expressions := expressions } : Store).Shown { expressions := expressions } := by
  have hcell : ∀ id, ({ expressions := expressions } : Store).cell? id = none := fun _ => rfl
  have hdue : ∀ id, due ({ expressions := expressions } : Store).cell? [] id = [] := fun _ => rfl
  refine ⟨fun _ => .gap, ?_⟩
  exact {
    expressions := rfl
    doctype := rfl
    awaiting := rfl
    created := rfl
    sound := {
      openedOnce := List.nodup_nil
      made := fun id hid => absurd hid List.not_mem_nil
      once := fun id kid => (hdue id).symm ▸ Nat.zero_le _
      parent := fun id kid hkid => absurd ((hdue id) ▸ hkid) List.not_mem_nil
      apart := fun id kid hkid => absurd hkid List.not_mem_nil
      owedOnce := List.nodup_nil
      loose := fun id hid => absurd hid List.not_mem_nil }
    closed := fun id cell h => absurd ((hcell id).symm.trans h) (Option.some_ne_none cell).symm
    stack := .empty
    rooted := rfl
    orphan := fun id h => absurd h (Option.some_ne_none id).symm
    ready := fun target h => absurd h (Option.some_ne_none target).symm }

namespace Store.Shown

theorem push (h : store.Shown builder) (tag : Tag) :
    ∃ after, Store.push tag store = some (answer Prod.fst (builder.push tag), after) ∧
      after.Shown (leaves Prod.snd (builder.push tag)) := by
  obtain ⟨value, h⟩ := h
  exact (h.push tag).exists_some fun _ _ _ h => h

theorem supply {numbered : Option Arena} {expression : Option Tree} (h : store.Shown builder)
    (hsupplied : Supplied numbered expression) :
    ∃ after, Store.supply numbered store =
        some (answer (fun _ => ()) (builder.supply expression), after) ∧
      after.Shown (leaves id (builder.supply expression)) := by
  obtain ⟨value, h⟩ := h
  exact (h.supply hsupplied).exists_some fun _ _ _ h => ⟨rfl, h⟩

/-- A store finishes a tree when the builder that it shows does. -/
theorem finish (h : store.Shown builder) :
    Agree (· = ·) (fun arena tree => arena.cells = store.cells ∧ arena.IsForest ∧ arena.IsTree ∧
      ∃ value, arena.Shows value tree) store.finish builder.finish := by
  obtain ⟨value, h⟩ := h
  refine h.finish.mono ?_
  rintro arena tree ⟨hopened, hcells, hroot, hshows⟩
  exact ⟨hcells, h.isForest hopened hcells, h.isTree hopened hcells hroot, value, hshows⟩

end Store.Shown

/-- An arena and a tree that were finished after the same calls. -/
def Finished (arena : Arena) (tree : Tree) : Prop :=
  ∃ store builder, Session store builder ∧ store.finish = .ok arena ∧ builder.finish = .ok tree

namespace Session

/-- After the same calls the store shows the builder. -/
theorem shown (h : Session store builder) : store.Shown builder := by
  induction h with
  | start expressions => exact Store.shown_start expressions
  | push tag _ step ih =>
    obtain ⟨after, hpush, hshown⟩ := ih.push tag
    cases step.symm.trans hpush
    exact hshown
  | leave _ step ih =>
    obtain ⟨after, hsupply, hshown⟩ := ih.supply .none
    cases step.symm.trans hsupply
    exact hshown
  | supply _ _ numbered expression step ih ihmade =>
    obtain ⟨tree, htree, -, -, -, value, hshows⟩ := ihmade.finish.exists_second numbered
    cases expression.symm.trans htree
    obtain ⟨after, hsupply, hshown⟩ := ih.supply (.some hshows)
    cases step.symm.trans hsupply
    exact hshown

/-- After any calls, refused ones among them, a cell mirrors its opening tag. -/
theorem mirrors (h : Session store builder) (hmem : cell ∈ store.cells)
    (hhead : cell.head = .opening start) : cell.Mirrors start := by
  obtain ⟨value, hshows⟩ := h.shown
  obtain ⟨id, hcell⟩ := Array.mem_iff_getElem?.mp hmem
  exact (hshows.labelled_and_made hcell).1.mirrors hhead

end Session

namespace Finished

theorem mirrors (h : Finished arena tree) (hmem : cell ∈ arena.cells)
    (hhead : cell.head = .opening start) : cell.Mirrors start := by
  obtain ⟨store, builder, hcalls, harena, -⟩ := h
  obtain ⟨-, -, hcells, -⟩ := hcalls.shown.finish.exists_second harena
  exact hcalls.mirrors (hcells ▸ hmem) hhead

theorem isForest (h : Finished arena tree) : arena.IsForest := by
  obtain ⟨store, builder, hcalls, harena, -⟩ := h
  obtain ⟨-, -, -, hforest, -⟩ := hcalls.shown.finish.exists_second harena
  exact hforest

/-- An arena shows the tree that was finished after the same calls. -/
theorem exists_shows (h : Finished arena tree) : ∃ value, arena.Shows value tree := by
  obtain ⟨store, builder, hcalls, harena, htree⟩ := h
  obtain ⟨found, hfound, -, -, -, hshows⟩ := hcalls.shown.finish.exists_second harena
  cases htree.symm.trans hfound
  exact hshows

theorem supplied (h : Finished arena tree) : Supplied (some arena) (some tree) := by
  obtain ⟨value, hshows⟩ := h.exists_shows
  exact .some hshows

end Finished

namespace Session

/-- After any calls, refused ones among them, each open node has its own counters, every number has
a cell, and no further call goes wrong: it has the answer of the builder. A tree that is finished
then is the tree of the builder, and what can be reached from its root is bound or embedded once,
beneath the node that it has as its parent. -/
theorem invariant (h : Session store builder) :
    store.scopes.length = store.opened.length ∧ store.InRange ∧
    (∀ tag, ∃ after, Store.push tag store = some (answer Prod.fst (builder.push tag), after)) ∧
    (∃ after, Store.supply none store = some (answer (fun _ => ()) (builder.supply none), after)) ∧
    (∀ arena tree, Finished arena tree → ∃ after, Store.supply (some arena) store =
      some (answer (fun _ => ()) (builder.supply (some tree)), after)) ∧
    ∀ arena, store.finish = .ok arena →
      arena.IsTree ∧ ∃ tree value, builder.finish = .ok tree ∧ arena.Shows value tree := by
  have hshown := h.shown
  obtain ⟨value, hshows⟩ := hshown
  refine ⟨hshows.length_scopes, hshows.inRange, fun tag => ?_, ?_, fun arena tree hfinished => ?_,
    fun arena harena => ?_⟩
  · obtain ⟨after, hpush, -⟩ := h.shown.push tag
    exact ⟨after, hpush⟩
  · obtain ⟨after, hsupply, -⟩ := h.shown.supply .none
    exact ⟨after, hsupply⟩
  · obtain ⟨after, hsupply, -⟩ := h.shown.supply hfinished.supplied
    exact ⟨after, hsupply⟩
  · obtain ⟨tree, htree, -, -, hisTree, value, hshows⟩ := h.shown.finish.exists_second harena
    exact ⟨hisTree, tree, value, htree, hshows⟩

/-! ### A session -/

/-- A builder after tags, refused ones among them. -/
def pushes (builder : Builder) (tags : List Tag) : Builder :=
  tags.foldl (fun builder tag => leaves Prod.snd (builder.push tag)) builder

theorem exists_pushes (h : Session store builder) (tags : List Tag) :
    ∃ after, Session after (pushes builder tags) := by
  induction tags generalizing store builder with
  | nil => exact ⟨store, h⟩
  | cons tag rest ih =>
    obtain ⟨after, hpush, -⟩ := h.shown.push tag
    exact ih (.push tag h hpush)

theorem exists_finished (h : Session store builder) (htree : builder.finish = .ok tree) :
    ∃ arena, store.finish = .ok arena ∧ Finished arena tree := by
  obtain ⟨arena, harena, -⟩ := h.shown.finish.exists_first htree
  exact ⟨arena, harena, store, builder, h, harena, htree⟩

theorem exists_supply (h : Session store builder) (hfinished : Finished arena tree) :
    ∃ after, Session after (leaves id (builder.supply (some tree))) := by
  obtain ⟨after, hsupply, -⟩ := h.shown.supply hfinished.supplied
  obtain ⟨other, maker, hmade, harena, htree⟩ := hfinished
  exact ⟨after, .supply h hmade harena htree hsupply⟩

/-- The start of a node, and a reference within it. -/
def branch (type : Option String) : List Tag :=
  [.opening ⟨{}, none, type, []⟩, .reference ⟨"left", false, none, {}⟩]

/-- A fragment with one value, which was taken back after a shift. -/
def shiftingFragment : List Tag :=
  branch none ++ [.opening ⟨{}, none, some "Digit", []⟩, .closing, .shift 1] ++
    branch (some "Sum") ++ [.gap, .closing, .closing]

/-- A builder that asks for an expression, refuses a tag, is given the tree, and takes back what it
was given after a shift. -/
def spliced (tree : Tree) : Builder :=
  let asking := pushes { expressions := true } (branch (some "Sum") ++ [.gap, .closing])
  pushes (leaves id (asking.supply (some tree)))
    ([.shift 1] ++ branch (some "Sum") ++ [.gap, .closing, .closing])

/-- A session in which a fragment is spliced. -/
theorem invariant_of_spliced :
    ∃ store builder arena tree, Session store builder ∧ store.finish = .ok arena ∧
      builder.finish = .ok tree ∧ arena.cells.size = 4 ∧ arena.IsTree := by
  obtain ⟨fragment, hfragment, tree, htree, hcreated⟩ :
      ∃ fragment, (pushes {} shiftingFragment).finish = .ok fragment ∧
        ∃ tree, (spliced fragment).finish = .ok tree ∧ tree.created = 4 := by
    decide +kernel
  obtain ⟨other, hother⟩ := (Session.start false).exists_pushes shiftingFragment
  obtain ⟨made, -, hmade⟩ := hother.exists_finished hfragment
  obtain ⟨asking, hasking⟩ :=
    (Session.start true).exists_pushes (branch (some "Sum") ++ [.gap, .closing])
  obtain ⟨filled, hfilled⟩ := hasking.exists_supply hmade
  obtain ⟨store, hstore⟩ :=
    hfilled.exists_pushes ([.shift 1] ++ branch (some "Sum") ++ [.gap, .closing, .closing])
  obtain ⟨arena, harena, -⟩ := hstore.exists_finished htree
  obtain ⟨-, -, -, -, -, hfinish⟩ := invariant hstore
  obtain ⟨htreeShape, found, value, hfound, hshows⟩ := hfinish arena harena
  cases htree.symm.trans hfound
  exact ⟨store, _, arena, tree, hstore, harena, htree, hshows.created.symm.trans hcreated,
    htreeShape⟩

end Session

end TagTree
