import Mathlib.Data.List.Chain
import TagTree.Proofs.FinalTour

/-!
# The walk as an iterator

An iterator over a walk keeps the cursor that it gives next. It looks for the cursor after that one
before it gives it, and if the step fails it gives the failure in its place and nothing more
(`Walker.advance`). So a walk is repeated stepping but for the cursor whose step fails, which is
lost (`Cursor.walk_steps`).
-/

namespace TagTree

variable {cursor : Cursor} {order : Order}

/-- An iterator over a walk: the cursor that it gives next, until it is done. -/
structure Walker where
  next : Option Cursor
  order : Order

/-- The items of a run, and its failure as the last. -/
def Run.results {α : Type} (run : Run α) : List (Except Error α) :=
  run.items.map .ok ++ run.failure.toList.map .error

namespace Walker

/-- What the iterator gives, and how it goes on from there. -/
def advance (walker : Walker) : Option (Except Error Cursor × Walker) :=
  walker.next.map fun cursor =>
    match cursor.next walker.order with
    | .ok next => (.ok cursor, ⟨next, walker.order⟩)
    | .error error => (.error error, ⟨none, walker.order⟩)

/-- All that an iterator gives until it is done. -/
inductive Gives : Walker → List (Except Error Cursor) → Prop where
  | done {walker : Walker} (h : walker.advance = none) : Gives walker []
  | item {walker after : Walker} {item : Except Error Cursor} {items : List (Except Error Cursor)}
    (h : walker.advance = some (item, after)) (hrest : Gives after items) :
    Gives walker (item :: items)

/-- An iterator gives one list only. -/
theorem Gives.unique {walker : Walker} {items others : List (Except Error Cursor)}
    (h : walker.Gives items) (hother : walker.Gives others) : items = others := by
  induction h generalizing others with
  | done hdone =>
    cases hother with
    | done => rfl
    | item hitem => cases hdone.symm.trans hitem
  | item hitem _ ih =>
    cases hother with
    | done hdone => cases hdone.symm.trans hitem
    | item hsame hrest =>
      cases hitem.symm.trans hsame
      rw [ih hrest]

theorem advance_of_ok {next : Option Cursor} (h : cursor.next order = .ok next) :
    advance ⟨some cursor, order⟩ = some (.ok cursor, ⟨next, order⟩) := by
  simp only [advance, Option.map_some, h]

theorem advance_of_error {error : Error} (h : cursor.next order = .error error) :
    advance ⟨some cursor, order⟩ = some (.error error, ⟨none, order⟩) := by
  simp only [advance, Option.map_some, h]

end Walker

namespace Cursor

/-- One cursor is a step after the other. -/
def Follows (order : Order) (first second : Cursor) : Prop :=
  first.next order = .ok (some second)

/-- The iterator gives the walk from its cursor. -/
theorem gives_walk (cursor : Cursor) (order : Order) :
    Walker.Gives ⟨some cursor, order⟩ (cursor.walk order).results := by
  fun_induction Cursor.walk cursor order with
  | case1 cursor error hnext => exact .item (Walker.advance_of_error hnext) (.done rfl)
  | case2 cursor hnext => exact .item (Walker.advance_of_ok hnext) (.done rfl)
  | case3 cursor found hnext ih => exact .item (Walker.advance_of_ok hnext) ih

/-- A walk goes step by step to a cursor from which there is no step, and then ends with it, or ends
without it if that step fails. -/
theorem exists_last (cursor : Cursor) (order : Order) :
    ∃ before last, (before ++ [last]).head? = some cursor ∧
      (before ++ [last]).IsChain (Follows order) ∧
      (last.next order = .ok none ∧ cursor.walk order = ⟨before ++ [last], none⟩ ∨
        ∃ error, last.next order = .error error ∧ cursor.walk order = ⟨before, some error⟩) := by
  fun_induction Cursor.walk cursor order with
  | case1 cursor error hnext => exact ⟨[], cursor, rfl, .singleton _, .inr ⟨error, hnext, rfl⟩⟩
  | case2 cursor hnext => exact ⟨[], cursor, rfl, .singleton _, .inl ⟨hnext, rfl⟩⟩
  | case3 cursor found hnext ih =>
    obtain ⟨before, last, hhead, hchain, hend⟩ := ih
    refine ⟨cursor :: before, last, rfl, ?_, ?_⟩
    · refine hchain.cons fun second hsecond => ?_
      cases hhead.symm.trans hsecond
      exact hnext
    · rcases hend with ⟨hlast, hwalk⟩ | ⟨error, hlast, hwalk⟩
      · exact .inl ⟨hlast, congrArg (Run.cons cursor) hwalk⟩
      · exact .inr ⟨error, hlast, congrArg (Run.cons cursor) hwalk⟩

/-- No step fails beneath a node that can be traversed. -/
theorem failure_walk {place : Place} (h : place.node.Traversable) (ladder : Ladder)
    (order : Order) : ((first (.start place ladder)).walk order).failure = none := by
  cases order with
  | replayed =>
    obtain ⟨-, -, hfailure, -⟩ := @walk_later (first (.start place ladder)) (.intro h nofun)
    exact hfailure
  | final => exact (walk_final h ladder).1

/-- The iterator from a cursor gives it and then what repeated stepping leads to, as long as there
is a step. It is done after the last cursor if nothing follows it. If the step from it fails, the
iterator gives the failure in place of that cursor, and is done. Either way it gives the walk from
the cursor. From a place of a tree that was built, no step fails if no node uses the same name for
an array and for a single property. -/
theorem walk_steps (cursor : Cursor) (order : Order) :
    (∃ before last, (before ++ [last]).head? = some cursor ∧
      (before ++ [last]).IsChain (Follows order) ∧
      (last.next order = .ok none ∧ cursor.walk order = ⟨before ++ [last], none⟩ ∧
          Walker.Gives ⟨some cursor, order⟩ ((before ++ [last]).map .ok) ∨
        ∃ error, last.next order = .error error ∧ cursor.walk order = ⟨before, some error⟩ ∧
          Walker.Gives ⟨some cursor, order⟩ (before.map .ok ++ [.error error]))) ∧
      ∀ tree : Tree, tree.Built → tree.root.all Node.isUnmixed = true →
        ∀ place ∈ tree.root.places, ∀ ladder, cursor = first (.start place ladder) →
          (cursor.walk order).failure = none := by
  have hgives := cursor.gives_walk order
  obtain ⟨before, last, hhead, hchain, hend⟩ := cursor.exists_last order
  refine ⟨⟨before, last, hhead, hchain, ?_⟩, ?_⟩
  · rcases hend with ⟨hlast, hwalk⟩ | ⟨error, hlast, hwalk⟩
    · rw [hwalk, Run.results, Option.toList_none, List.map_nil, List.append_nil] at hgives
      exact .inl ⟨hlast, hwalk, hgives⟩
    · rw [hwalk] at hgives
      exact .inr ⟨error, hlast, hwalk, hgives⟩
  · rintro tree h hunmixed place hplace ladder rfl
    have ht : place.node.Traversable :=
      h.of_mem_places (fun _ _ => Node.Traversable.of_mem_kids) ⟨h.sound, hunmixed⟩ hplace
    exact failure_walk ht ladder order

/-- The iterator over a tree with a shift gives what the steps lead to, up to the last. -/
theorem walk_steps_of_shift :
    ∃ tree, Tree.ofTags Tree.shiftedTags = .ok tree ∧ tree.root.all Node.isUnmixed = true ∧
      ∃ before last, (before ++ [last]).head? = some (first (.start (.root tree.root) ⟨31⟩)) ∧
        (before ++ [last]).IsChain (Follows .replayed) ∧ last.next .replayed = .ok none ∧
        Walker.Gives ⟨some (first (.start (.root tree.root) ⟨31⟩)), .replayed⟩
          ((before ++ [last]).map .ok) := by
  obtain ⟨tree, htree, hunmixed⟩ : ∃ tree, Tree.ofTags Tree.shiftedTags = .ok tree ∧
      tree.root.all Node.isUnmixed = true := by decide +kernel
  have hbuilt : tree.Built := .ofTags htree
  obtain ⟨⟨before, last, hhead, hchain, hend⟩, hfailure⟩ :=
    walk_steps (first (.start (.root tree.root) ⟨31⟩)) .replayed
  have hnone := hfailure tree hbuilt hunmixed _ hbuilt.root_mem ⟨31⟩ rfl
  rcases hend with ⟨hlast, -, hgives⟩ | ⟨error, -, hwalk, -⟩
  · exact ⟨tree, htree, hunmixed, before, last, hhead, hchain, hlast, hgives⟩
  · rw [hwalk] at hnone
    cases hnone

/-- Tags in which a single value has the name of an array. -/
def mixedTags : List Tag :=
  let start (name : String) : Tag := .opening ⟨{}, none, some name, []⟩
  let edge (isArray : Bool) : Tag := .reference ⟨"a", isArray, none, {}⟩
  [start "P", edge true, .arrayStart, edge true, start "X", .closing, edge false, start "Y",
    .closing, .closing]

/-- The steps through these tags come to a fourth cursor before they fail, and the iterator does not
give it. -/
theorem lost_of_mixed :
    ∃ tree before last error, Tree.ofTags mixedTags = .ok tree ∧
      (before ++ [last]).head? = some (first (.start (.root tree.root) {})) ∧
      (before ++ [last]).IsChain (Follows .replayed) ∧ before.map Cursor.slot = [0, 1, 2] ∧
      last.next .replayed = .error error ∧
      ¬ Walker.Gives ⟨some (first (.start (.root tree.root) {})), .replayed⟩
        ((before ++ [last]).map .ok ++ [.error error]) := by
  obtain ⟨tree, htree, hcheck⟩ : ∃ tree, Tree.ofTags mixedTags = .ok tree ∧
      let run := (first (.start (.root tree.root) {})).walk .replayed
      run.failure.isSome = true ∧ run.items.map Cursor.slot = [0, 1, 2] := by
    decide +kernel
  have hgives := (first (.start (.root tree.root) {})).gives_walk .replayed
  obtain ⟨before, last, hhead, hchain, ⟨-, hwalk⟩ | ⟨error, hlast, hwalk⟩⟩ :=
    (first (.start (.root tree.root) {})).exists_last .replayed
  · simp [hwalk] at hcheck
  · rw [hwalk] at hcheck hgives
    refine ⟨tree, before, last, error, htree, hhead, hchain, hcheck.2, hlast, fun h => ?_⟩
    have hlength := congrArg List.length (hgives.unique h)
    simp [Run.results] at hlength

end Cursor

end TagTree
