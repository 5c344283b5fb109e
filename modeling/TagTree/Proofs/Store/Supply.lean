import TagTree.Proofs.Store.Copy
import TagTree.Proofs.Store.Refinement

/-!
# Expressions in stores

A store that has asked for an expression is given a finished tree. Nodes of that tree are copied and
bound (`Receptive.graft`), and the store then shows what the builder is after the same answer
(`Shows.supply`).
-/

namespace TagTree

/-- The tree that an arena is, given the nodes that the numbers stand for. -/
structure Arena.Shows (source : Nat → Node) (arena : Arena) (tree : Tree) : Prop where
  holds : arena.Holds source
  doctype : tree.doctype = arena.doctype
  created : tree.created = arena.cells.size
  made : arena.root < arena.cells.size
  root : tree.root = source arena.root

namespace Refines

variable {α β γ δ : Type} {R : β → Store → γ → Prop} {store after : Store}
  {outcome found : Option (Except StructuralError β × Store)} {attempt : Attempt Builder γ}

theorem of_eq (h : outcome = found) (hfound : Refines R found attempt) :
    Refines R outcome attempt :=
  h ▸ hfound

/-- A first step of the store that has a result leaves the others to be compared. -/
theorem of_ok {action : Action α} {value : α} {next : α → Action β}
    (h : action store = some (.ok value, after)) (hnext : Refines R (next value after) attempt) :
    Refines R ((action >>= next) store) attempt :=
  .of_eq (Action.bind_of_ok h next) hnext

/-- A first step of the builder that has a result leaves the others to be compared. -/
theorem of_result {step : Attempt Builder δ} {result : δ} {next : δ → Attempt Builder γ}
    (h : step = .ok result) (hnext : Refines R outcome (next result)) :
    Refines R outcome (step >>= next) := by
  subst h
  exact hnext

end Refines

namespace Store.Receptive

variable {value source : Nat → Node} {target again : Target} {store : Store} {builder : Builder}
  {below : List Frame} {frame : Frame} {arena : Arena} {top : Top}

variable (h : store.Receptive value target builder below frame)

include h

/-- What can be bound to one target of an array can be bound to another one, after a step that
leaves the arrays. -/
theorem move {after : Top} {frame' : Frame}
    (htop : store.top? = some top) (hmoves : top.Moves value store.opened.tail after frame')
    (hshifted : after.node.shifted = top.node.shifted)
    (hname : again.reference.name = target.reference.name)
    (harray : again.reference.isArray = target.reference.isArray) :
    (store.putTop after).Receptive value again builder below frame' := by
  obtain ⟨_, htop', hready, hnone⟩ := h.top
  cases htop.symm.trans htop'
  refine ⟨h.shows.move h.awaiting htop hmoves, h.awaiting, after, top?_putTop htop hmoves.keeps.id,
    ?_, hshifted.trans hnone⟩
  intro hisArray
  rw [hname]
  exact hmoves.keeps.arrays _ (hready (harray.symm.trans hisArray))

/-- A node of another tree can be copied and bound. -/
theorem graft {id : Nat}
    (harena : arena.Holds source) (hid : id < arena.cells.size) (parent : Nat) :
    ∃ copy made after grown bound value',
      Action.graft arena id parent store = some (.ok copy, made) ∧
      Action.bindValue target copy made = some (.ok (), after) ∧
      builder.graft frame below target (source id) = .ok (grown, bound) ∧
      after.Receptive value' target grown below bound := by
  obtain ⟨copies, _, hgraft, hcopied⟩ := harena.graft hid store.cells (some parent)
  generalize hcells : (copies.modify store.cells.size fun cell => { cell with held := none }) =
    cells
  obtain ⟨value', hgrafted⟩ : ∃ value', Arena.Grafted store.cells cells value value' _ :=
    ⟨_, hcells ▸ (hcopied.grafted harena value).withoutHold⟩
  have hextend := h.extend hgrafted.old (fun other hlt => (hgrafted.values other hlt).symm)
    hgrafted.complete
  have hmade : (cells[store.cells.size]?).isSome = true := by
    rw [Array.getElem?_eq_getElem hgrafted.made]
    rfl
  obtain ⟨hloose, howed⟩ := h.shows.loose_fresh hgrafted.old (Nat.le_refl _) hmade <| by
    intro other cell hge hcell hkid
    exact Nat.lt_irrefl _ ((hgrafted.complete other cell hge hcell).kids _ hkid).1
  obtain ⟨after, bound, hafter, hbound, hreceptive⟩ := hextend.bindValue hloose howed
  rw [hgrafted.first] at hbound
  have hcreated : builder.created + (source id).size = cells.size := by
    have hsame : builder.created = store.cells.size := h.shows.created
    rw [hsame, hgrafted.size, Node.size_withoutHold]
  refine ⟨store.cells.size, { store with cells := cells }, after, _, bound, value', ?_, hafter, ?_,
    hreceptive⟩
  · rw [Action.graft, Action.bind_of_ok (show Action.read store = some (.ok store, store) from rfl),
      hgraft, ← hcells]
    rfl
  · rw [Builder.graft, hbound, hcreated]
    rfl

/-- Nodes of another tree are bound to further references to the same array. -/
theorem splice {ids : List Nat} {edge : Reference} (harena : arena.Holds source)
    (hids : ∀ id ∈ ids, id < arena.cells.size) (hname : edge.name = target.reference.name)
    (harray : edge.isArray = target.reference.isArray) (parent : Nat) :
    Refines (fun _ after next => after.Shown next) (Action.splice arena parent edge ids store)
      (builder.splice frame below edge (ids.map source)) := by
  induction ids generalizing store value target builder frame with
  | nil => exact .ok ⟨value, h.shows⟩
  | cons id rest ih =>
    obtain ⟨top, htop, -⟩ := h.top
    obtain ⟨_, ht⟩ := h.shows.topmost_of_top? htop
    have hfurther := Action.onTop_of_top? htop fun top => top.further edge
    have hscope : frame.scope = top.scope := ht.shows.scope
    rw [Action.splice, List.map_cons, Builder.splice]
    simp only [Top.further, Top.push, Frame.push] at hfurther ⊢
    rw [hscope]
    generalize top.scope.consume edge = consumed at hfurther ⊢
    obtain ⟨scope, outcome⟩ := consumed
    have hmoves := ht.shows.further edge scope
    -- The scope decides the index of the further reference on both sides.
    cases outcome with
    | error error =>
      rw [Action.bind_of_error hfurther]
      exact .error ⟨value, h.shows.move h.awaiting htop hmoves⟩
    | ok index =>
      rw [Action.bind_of_ok hfurther]
      have hsize : (frame.push (.reference edge)).items.size =
          (top.push (.reference edge)).content.items.size := hmoves.shows.size_items
      generalize hagain : (⟨edge, index, (frame.push (.reference edge)).items.size - 1⟩ : Target) =
        again
      have hmoved : (store.putTop { top.push (.reference edge) with scope := scope }).Receptive
          value again builder below { frame.push (.reference edge) with scope := scope } := by
        rw [← hagain]
        exact h.move htop hmoves rfl hname harray
      obtain ⟨copy, made, after, grown, bound, value', hgraft, hbind, hbuilder, hreceptive⟩ :=
        hmoved.graft harena (hids id List.mem_cons_self) parent
      have htarget : (⟨edge, index, (top.content.push (.reference edge)).items.size - 1⟩ : Target) =
          again := by
        rw [← hagain, hsize]
        rfl
      have hrest := ih hreceptive (List.forall_mem_cons.mp hids).2
        (by rw [← hagain]) (by rw [← hagain])
      have hstore := (Action.bind_of_ok hgraft fun copy => do
        Action.bindValue again copy
        Action.splice arena parent edge rest).trans (Action.bind_of_ok hbind _)
      rw [htarget]
      refine hstore.symm ▸ ?_
      show Refines _ _ (builder.graft _ below _ (source id) >>= _)
      rw [show (⟨edge, index, (frame.items.push (.reference edge)).size - 1⟩ : Target) = again from
        hagain]
      refine hbuilder.symm ▸ ?_
      exact hrest

/-- A finished tree fills the gap of a target. -/
theorem fill {tree : Tree} (harena : arena.Shows source tree) :
    Refines (fun _ after next => after.Shown next) (Action.fill target arena store)
      (builder.fill frame below target tree.root) := by
  obtain ⟨cell, hcell⟩ : ∃ cell, arena.cells[arena.root]? = some cell :=
    ⟨_, Array.getElem?_eq_getElem harena.made⟩
  have hdenotes : cell.Denotes source tree.root := harena.root ▸ harena.holds.denotes _ _ hcell
  have hfragment : arena.isFragment = some cell.isFragment := by
    rw [Arena.isFragment, hcell]
    rfl
  obtain ⟨values, hvalues, hnodes, hmade⟩ : ∃ values, arena.values = some values ∧
      tree.root.directory.values = values.map source ∧ ∀ id ∈ values, id < arena.cells.size := by
    refine ⟨_, ?_, hdenotes.values, fun id hid => ?_⟩
    · rw [Arena.values, hcell]
      rfl
    · exact harena.holds.kids _ _ hcell id
        (List.mem_append_left _ (Directory.mem_boundNodes_of_mem_values hid))
  obtain ⟨top, htop, -⟩ := h.top
  obtain ⟨_, ht⟩ := h.shows.topmost_of_top? htop
  generalize hagain : ({ target with reference := { target.reference with
    flags := { target.reference.flags with expression := true } } } : Target) = again
  have hmoves := ht.shows.markExpression again
  have hmarked : (store.putTop (top.markExpression again)).Receptive value again builder below _ :=
    h.move htop hmoves rfl (by rw [← hagain]) (by rw [← hagain])
  have hmark : Action.onTop (fun top => .ok (top.node.id, top.markExpression again)) store =
    some (.ok top.node.id, store.putTop (top.markExpression again)) := Action.onTop_of_top? htop _
  generalize store.putTop (top.markExpression again) = marked at hmarked hmark
  have hread : ∀ {α : Type} {result : Option α} {found : α}, result = some found →
      Action.ofOption result marked = some (.ok found, marked) := by
    rintro α _ found rfl
    rfl
  subst hagain
  unfold Action.fill Builder.fill
  dsimp only at hmarked ⊢
  refine .of_ok hmark (.of_ok (hread hfragment) ?_)
  -- A fragment gives its values one by one, and any other node is a value itself.
  cases hhead : cell.isFragment with
  | false =>
    have htype : tree.root.type ≠ .fragment := by
      rw [Ne, ← hdenotes.isFragment, hhead]
      exact Bool.false_ne_true
    obtain ⟨copy, made, after, grown, bound, value', hgraft, hbind, hbuilder, hreceptive⟩ :=
      hmarked.graft harena.holds harena.made top.node.id
    rw [← harena.root] at hbuilder
    simp only [if_pos htype]
    refine .of_ok hgraft (.of_result hbuilder (.of_eq hbind ?_))
    exact .ok ⟨value', hreceptive.shows⟩
  | true =>
    have htype : ¬ tree.root.type ≠ .fragment := not_not.mpr (hdenotes.isFragment.mp hhead)
    have hlength : tree.root.directory.values.length = values.length := by
      rw [hnodes, List.length_map]
    simp only [if_neg htype]
    refine .of_ok (hread hvalues) ?_
    rw [hlength, hnodes]
    split
    · exact .error ⟨value, hmarked.shows⟩
    · cases values with
      | nil =>
        obtain ⟨top, htop, -⟩ := hmarked.top
        obtain ⟨_, ht⟩ := hmarked.shows.topmost_of_top? htop
        refine .of_eq (Action.changeTop_of_top? htop _) (.ok ⟨value, ?_⟩)
        exact hmarked.shows.move hmarked.awaiting htop (ht.shows.withdraw _)
      | cons first rest =>
        obtain ⟨copy, made, after, grown, bound, value', hgraft, hbind, hbuilder, hreceptive⟩ :=
          hmarked.graft harena.holds (hmade first List.mem_cons_self) top.node.id
        refine .of_ok hgraft (.of_ok hbind (.of_result hbuilder ?_))
        exact hreceptive.splice harena.holds (List.forall_mem_cons.mp hmade).2 rfl rfl top.node.id

end Store.Receptive

/-- Trees and their arenas, or none on either side. -/
inductive Supplied : Option Arena → Option Tree → Prop where
  | none : Supplied none none
  | some {source : Nat → Node} {arena : Arena} {tree : Tree} (h : arena.Shows source tree) :
    Supplied (some arena) (some tree)

namespace Store.Shows

variable {value : Nat → Node} {store : Store} {builder : Builder}

/-- A store takes the answer to its request as the builder that it shows. -/
theorem supply {numbered : Option Arena} {expression : Option Tree}
    (h : store.Shows value builder) (hsupplied : Supplied numbered expression) :
    Refines (fun _ after next => after.Shown next) (Store.supply numbered store)
      (builder.supply expression) := by
  have hread : Action.read store = some (.ok store, store) := rfl
  unfold Store.supply Builder.supply
  refine .of_ok hread ?_
  rw [h.awaiting]
  cases hawaiting : store.awaiting with
  | none => exact .error ⟨value, h⟩
  | some target =>
    obtain ⟨top, htop, hready, hshifted⟩ := h.ready target hawaiting
    have hopened : builder.frames ≠ [] := by
      intro hnone
      have hempty := h.isEmpty_opened
      rw [hnone, ← (stack_of_top? htop).1] at hempty
      cases hempty
    obtain ⟨frame, below, hframes⟩ := List.exists_cons_of_ne_nil hopened
    rw [hframes]
    have hchange : Action.change (fun store => { store with awaiting := none }) store =
      some (.ok (), { store with awaiting := none }) := rfl
    have hreceptive : ({ store with awaiting := none } : Store).Receptive value target
        { builder with awaiting := none, frames := [] } below frame := by
      have hstack := h.stack
      rw [hframes] at hstack
      refine ⟨?_, rfl, top, htop, hready, hshifted⟩
      exact { h with awaiting := rfl, stack := hstack, ready := nofun }
    refine .of_ok hchange ?_
    cases hsupplied with
    | none =>
      have hstub : Head.gap.stub? = some .gap := rfl
      obtain ⟨after, bound, value', hafter, hbound, hnext⟩ := hreceptive.bindStub hstub
      dsimp only
      rw [hafter, hbound]
      exact .ok ⟨value', hnext.shows⟩
    | some harena => exact hreceptive.fill harena

end Store.Shows

end TagTree
