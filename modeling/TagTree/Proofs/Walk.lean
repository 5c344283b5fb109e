import TagTree.Cursor.Walk
import TagTree.Proofs.Preorder
import TagTree.Proofs.RoundTrip
import TagTree.Proofs.Stop

/-!
# Walks in the order of the stream

What a cursor has yet to come to is what the replay of the tree has yet to give: the rest of the
node, then the rest of the node above from the slot that led on, and so on (`Trail.later`). A step
takes the first tag of that (`Trail.seek_later`), so a walk gives the tags of the replay one by one
(`Cursor.walk_later`).
-/

namespace TagTree

/-- The first part of a node is its first tag. -/
theorem Node.parts_eq_cons (bare : Option Nat) (node : Node) :
    node.parts bare = .tag (node.tagAt 0) :: (node.parts bare).drop 1 := by
  cases node <;> rfl

/-- The parts of a node that can be traversed are as many as its slots. -/
theorem Node.Traversable.length_parts {node : Node} (h : node.Traversable) (bare : Option Nat) :
    (node.parts bare).length = node.slotCount := by
  cases node with
  | gap | null | literal => rfl
  | element body =>
    obtain ⟨outline, houtline, hl, -, hu⟩ := h.sound.exists_unmixed rfl (all_self h.unmixed)
    rw [houtline]
    have hsize : outline.toNode.slotCount = Segment.width outline.segments + 2 := rfl
    rw [Outline.parts_toNode hl hu, List.length_cons, List.length_append,
      Segment.length_allParts, hsize]
    rfl

namespace Trail

/-- What the replay gives after a slot: in the node, and then in the nodes above. -/
def later : Trail → Nat → Run Tag
  | ⟨place, parent, parentSlot, _, _, _, bareSlot, _, _, _, _⟩, slot =>
    ((place.node.parts bareSlot).drop (slot + 1)).foldr Part.run
      (match parent with
      | none => .done
      | some parent => parent.later parentSlot)

theorem later_eq (trail : Trail) (slot : Nat) :
    trail.later slot = ((trail.node.parts trail.bareSlot).drop (slot + 1)).foldr Part.run
      (trail.parent.elim .done (·.later trail.parentSlot)) := by
  obtain ⟨_, _ | _, _, _, _, _, _, _, _, _, _⟩ := trail <;> rw [later] <;> rfl

theorem seek_eq (order : Order) (trail : Trail) (slot : Nat) :
    trail.seek order slot =
      if slot + 1 < trail.node.slotCount then
        (trail.scan order slot).map fun stop => some (trail.cursorAt stop)
      else trail.parent.elim (.ok none) (·.seek order trail.parentSlot) := by
  obtain ⟨_, _ | _, _, _, _, _, _, _, _, _, _⟩ := trail <;> rw [seek] <;> rfl

/-- All nodes of the trail can be traversed. -/
inductive Traversable : Trail → Prop where
  | intro {trail : Trail} (node : trail.node.Traversable)
    (parent : ∀ parent ∈ trail.parent, Traversable parent) : Traversable trail

/-- At a stop, what comes next is the tag there and what comes after it. -/
theorem later_of_shows {trail : Trail} {slot : Nat} {stop : Stop} {part : Part}
    (ht : trail.Traversable) (hpart : (trail.node.parts trail.bareSlot)[slot + 1]? = some part)
    (h : trail.Shows (slot + 1) stop part) :
    (trail.cursorAt stop).trail.Traversable ∧ trail.later slot = .cons (trail.cursorAt stop).tag
      ((trail.cursorAt stop).trail.later (trail.cursorAt stop).slot) := by
  obtain ⟨hlt, hget⟩ := List.getElem?_eq_some_iff.mp hpart
  have hlater : trail.later slot = part.run (trail.later (slot + 1)) := by
    rw [later_eq, later_eq, List.drop_eq_getElem_cons hlt, hget]
    rfl
  cases h with
  | here htag =>
    subst htag
    exact ⟨ht, hlater⟩
  | @enter place bare hplace =>
    refine ⟨.intro hplace ?_, ?_⟩
    · rintro parent ⟨⟩
      exact ht
    · have hchild := (trail.child place (slot + 1) bare).later_eq 0
      rw [hlater, Part.run, Node.replay_eq, Node.parts_eq_cons]
      exact congrArg _ hchild.symm

/-- A step comes to the first tag of what comes next. -/
theorem seek_later {trail : Trail} (ht : trail.Traversable) (slot : Nat) :
    (trail.seek .replayed slot = .ok none ∧ trail.later slot = .done) ∨
    ∃ cursor : Cursor, trail.seek .replayed slot = .ok (some cursor) ∧ cursor.trail.Traversable ∧
      trail.later slot = .cons cursor.tag (cursor.trail.later cursor.slot) := by
  induction ht generalizing slot with
  | @intro trail hnode hparent ih =>
    rw [seek_eq]
    by_cases hslot : slot + 1 < trail.node.slotCount
    · obtain ⟨stop, part, hscan, hpart, hshows⟩ := scan_shows hnode hslot
      obtain ⟨htrail, hlater⟩ := later_of_shows (.intro hnode hparent) hpart hshows
      rw [if_pos hslot, hscan]
      exact .inr ⟨_, rfl, htrail, hlater⟩
    · have hend : (trail.node.parts trail.bareSlot).drop (slot + 1) = [] := by
        rw [List.drop_eq_nil_iff, hnode.length_parts]
        omega
      rw [later_eq, hend, if_neg hslot]
      cases habove : trail.parent with
      | none => exact .inl ⟨rfl, rfl⟩
      | some parent => exact ih parent habove trail.parentSlot

end Trail

namespace Cursor

/-- A walk gives the tag that it starts from and what comes next, without failure. -/
theorem walk_later {cursor : Cursor} (h : cursor.trail.Traversable) :
    ∃ tags, cursor.trail.later cursor.slot = ⟨tags, none⟩ ∧ (cursor.walk .replayed).failure = none ∧
      (cursor.walk .replayed).items.map Cursor.tag = cursor.tag :: tags := by
  fun_induction Cursor.walk cursor .replayed with
  | case1 cursor error hnext =>
    rcases Trail.seek_later h cursor.slot with ⟨hnone, -⟩ | ⟨_, hsome, -⟩
    · cases hnext.symm.trans hnone
    · cases hnext.symm.trans hsome
  | case2 cursor hnext =>
    rcases Trail.seek_later h cursor.slot with ⟨-, hlater⟩ | ⟨_, hsome, -⟩
    · exact ⟨[], hlater, rfl, rfl⟩
    · cases hnext.symm.trans hsome
  | case3 cursor found hnext ih =>
    rcases Trail.seek_later h cursor.slot with ⟨hnone, -⟩ | ⟨_, hsome, hfound, hlater⟩
    · cases hnext.symm.trans hnone
    · cases hnext.symm.trans hsome
      obtain ⟨tags, hrest, hfailure, hitems⟩ := ih hfound
      rw [hrest] at hlater
      exact ⟨found.tag :: tags, hlater, hfailure, congrArg (List.cons cursor.tag) hitems⟩

end Cursor

namespace Tree

/-- The walk from the root of a tree in the order of the stream. -/
def walk (tree : Tree) (ladder : Ladder) : Run Cursor :=
  (Cursor.first (.start (.root tree.root) ladder)).walk .replayed

/-- The walk goes through the tags of the tree. -/
theorem tags_eq_walk {tree : Tree} (h : tree.Built)
    (hunmixed : tree.root.all Node.isUnmixed = true) (ladder : Ladder) :
    (tree.walk ladder).failure = none ∧ tree.tags =
      .ok (Doctype.headerTags tree.doctype ++ (tree.walk ladder).items.map Cursor.tag) := by
  let cursor := Cursor.first (.start (.root tree.root) ladder)
  have ht : cursor.trail.Traversable := .intro ⟨h.sound, hunmixed⟩ nofun
  obtain ⟨tags, hlater, hfailure, hitems⟩ := Cursor.walk_later ht
  refine ⟨hfailure, tags_of_replay ?_⟩
  have hreplay : tree.root.replay none .done = .cons cursor.tag (cursor.trail.later 0) := by
    rw [Node.replay_eq, Node.parts_eq_cons, cursor.trail.later_eq]
    rfl
  have hroot : cursor.trail.later 0 = ⟨tags, none⟩ := hlater
  have hwalk : (tree.walk ladder).items.map Cursor.tag = cursor.tag :: tags := hitems
  rw [hreplay, hroot, hwalk]
  simp [Run.cons, Run.prepend, Run.done]

/-- The walk from the root of a tree that was built, whatever short cuts its trails keep, raises no
error and gives the tags that the tree is flattened to, from the first after the header on. This
holds if no node uses the same name for an array and for a single property. -/
theorem walk_eq_tags {tree : Tree} (h : tree.Built)
    (hunmixed : tree.root.all Node.isUnmixed = true) (ladder : Ladder) :
    ∃ tags, tree.tags = .ok (Doctype.headerTags tree.doctype ++ tags) ∧
      ((Cursor.first (.start (.root tree.root) ladder)).walk .replayed).failure = none ∧
      ((Cursor.first (.start (.root tree.root) ladder)).walk .replayed).items.map Cursor.tag =
        tags := by
  obtain ⟨hfailure, htags⟩ := tags_eq_walk h hunmixed ladder
  exact ⟨_, htags, hfailure, rfl⟩

/-- A template in which a value is given, and then shifted twice: the node that takes it back first
shifts it in turn. -/
def reshiftedTags : List Tag :=
  let start (name : String) : Tag := .opening ⟨{}, none, some name, []⟩
  let left : Tag := .reference ⟨"left", false, none, {}⟩
  [.doctype ⟨0, "cstml", []⟩, start "Sum", left, .gap, .shift 1, start "Sum", left, .gap, .shift 1,
    start "Sum", left, .gap, .closing, .closing, .shift 2, start "Sum", left, .gap, .closing,
    .closing]

theorem walk_eq_tags_of_template :
    ∃ inner tree tags, ofTags shiftedTags = .ok inner ∧
      ofTemplate reshiftedTags [some inner] = .ok tree ∧ tree.root.all Node.isUnmixed = true ∧
      tree.tags = .ok (Doctype.headerTags tree.doctype ++ tags) ∧
      ((Cursor.first (.start (.root tree.root) ⟨31⟩)).walk .replayed).failure = none ∧
      ((Cursor.first (.start (.root tree.root) ⟨31⟩)).walk .replayed).items.map
        Cursor.tag = tags := by
  obtain ⟨inner, tree, hinner, htree, hbuilt, hok⟩ := exists_built shiftedTags reshiftedTags
    (·.root.all Node.isUnmixed = true) (by decide +kernel)
  obtain ⟨tags, htags⟩ := walk_eq_tags hbuilt hok ⟨31⟩
  exact ⟨inner, tree, tags, hinner, htree, hok, htags⟩

end Tree

end TagTree
