import TagTree.Proofs.Store.Nesting

/-!
# Steps of stores

Each step of a store has a result where the builder's step has one, and leaves a store that shows
what the builder's step leaves (`Action.Refines`). In particular no step goes wrong.
-/

namespace TagTree

open Function (update update_self update_of_ne)

/-- The store shows the builder, for some nodes that the numbers stand for. -/
def Store.Shown (store : Store) (builder : Builder) : Prop :=
  ∃ value, store.Shows value builder

/-- What a step of a store leaves is what a step of a builder leaves: related results, or a refusal
for the same reason. -/
inductive Refines {α β : Type} (R : α → Store → β → Prop) :
    Option (Except StructuralError α × Store) → Attempt Builder β → Prop where
  | ok {value : α} {store : Store} {result : β} (h : R value store result) :
    Refines R (some (.ok value, store)) (.ok result)
  | error {error : StructuralError} {store : Store} {state : Builder} (h : store.Shown state) :
    Refines R (some (.error error, store)) (.error ⟨error, state⟩)

/-- The store gives the answer of the builder and shows what the builder is then. -/
def Answers (feed : Feed) (after : Store) (next : Feed × Builder) : Prop :=
  feed = next.1 ∧ after.Shown next.2

namespace Action

variable {α β γ δ : Type} {store after : Store} {value : α} {top : Top}

theorem bind_of_ok {action : Action α} (h : action store = some (.ok value, after))
    (next : α → Action β) : (action >>= next) store = next value after := by
  show action.bind next store = _
  rw [Action.bind, h]

theorem bind_read (next : Store → Action β) : (read >>= next) store = next store store :=
  rfl

theorem bind_of_error {action : Action α} {error : StructuralError}
    (h : action store = some (.error error, after)) (next : α → Action β) :
    (action >>= next) store = some (.error error, after) := by
  show action.bind next store = _
  rw [Action.bind, h]

theorem readTop_of_top? (h : store.top? = some top) (f : Top → α) :
    readTop f store = some (.ok (f top), store) := by
  rw [readTop, h]
  rfl

theorem onTop_of_top? (h : store.top? = some top) (step : Top → Attempt Top (α × Top)) :
    onTop step store = match step top with
      | .ok (value, top) => some (.ok value, store.putTop top)
      | .error refusal => some (.error refusal.error, store.putTop refusal.state) := by
  rw [onTop, h]
  rfl

theorem changeTop_of_top? (h : store.top? = some top) (f : Top → Top) :
    changeTop f store = some (.ok (), store.putTop (f top)) :=
  onTop_of_top? h _

end Action

namespace Refines

variable {α β γ δ : Type} {R : α → Store → β → Prop} {S : γ → Store → δ → Prop} {store : Store}
  {action : Action α} {attempt : Attempt Builder β}

theorem bind {next : α → Action γ} {next' : β → Attempt Builder δ}
    (h : Refines R (action store) attempt) (hnext : ∀ value after result, R value after result →
      Refines S (next value after) (next' result)) :
    Refines S ((action >>= next) store) (attempt >>= next') := by
  show Refines S (action.bind next store) _
  rw [Action.bind]
  generalize action store = outcome at h
  cases h with
  | ok h => exact hnext _ _ _ h
  | error h => exact .error h

theorem mono {R' : α → Store → β → Prop} {outcome : Option (Except StructuralError α × Store)}
    (h : Refines R outcome attempt) (hr : ∀ value after result, R value after result →
      R' value after result) : Refines R' outcome attempt := by
  cases h with
  | ok h => exact .ok (hr _ _ _ h)
  | error h => exact .error h

end Refines

namespace Store

variable {store : Store} {top first second : Top}

theorem stack_of_top? (h : store.top? = some top) :
    top.node :: store.opened.tail = store.opened ∧
    top.scope :: store.scopes.tail = store.scopes := by
  unfold top? at h
  split at h
  · rename_i hopened hscopes
    obtain ⟨cell, -, h⟩ := Option.bind_eq_some_iff.mp h
    cases h
    rw [hopened, hscopes]
    exact ⟨rfl, rfl⟩
  · cases h

theorem putTop_self (h : store.top? = some top) : store.putTop top = store := by
  obtain ⟨parent, hcell⟩ := exists_of_top? h
  have hopened := stack_of_top? h
  refine Store.ext rfl rfl (Array.ext_getElem? fun id => ?_) hopened.1 hopened.2 rfl rfl
  refine (cell?_putTop store top id).trans ?_
  by_cases hid : id = top.node.id
  · rw [if_pos hid, hid, hcell]
    exact hcell.symm
  · exact if_neg hid

theorem putTop_setContent (content : Content) (top : Top) :
    (store.setContent top.node.id content).putTop top = store.putTop top := by
  refine Store.ext rfl rfl (Array.ext_getElem? fun id => ?_) rfl rfl rfl rfl
  refine (cell?_putTop _ top id).trans (Eq.trans ?_ (cell?_putTop store top id).symm)
  rw [cell?_setContent]
  by_cases hid : id = top.node.id
  · rw [if_pos hid, if_pos hid, if_pos hid, Option.map_map]
    rfl
  · rw [if_neg hid, if_neg hid, if_neg hid]

/-- The last change of the innermost open node counts, whatever parents are set in between. -/
theorem putTop_setParent_putTop (hid : first.node.id = second.node.id) (id parent : Nat) :
    ((store.putTop first).setParent id parent).putTop second =
      (store.setParent id parent).putTop second := by
  refine Store.ext rfl rfl (Array.ext_getElem? fun other => ?_) rfl rfl rfl rfl
  refine (cell?_putTop _ second other).trans (Eq.trans ?_ (cell?_putTop _ second other).symm)
  rw [cell?_setParent, cell?_setParent, cell?_putTop, hid]
  by_cases hnode : other = second.node.id
  · rw [if_pos hnode, if_pos hnode, if_pos hnode]
    cases store.cell? other <;> split <;> rfl
  · rw [if_neg hnode, if_neg hnode, if_neg hnode]

end Store

namespace Action

open Store

variable {store : Store} {top : Top} {target : Target} {id : Nat} {cell : Cell}
  (htop : store.top? = some top) (hcell : store.cell? id = some cell)
  (hne : id ≠ top.node.id) (hready : top.content.Ready target)
include htop hcell hne hready

/-- A value is bound where an item stands for it already. -/
theorem attach_eq :
    (do attach top.node.id target id
        changeTop fun top => top.withLast (some target) : Action Unit) store =
      some (.ok (), (store.setParent id top.node.id).putTop
        (top.attached target id cell.hasGap)) := by
  obtain ⟨parent, hholder⟩ := exists_of_top? htop
  have hparent : (store.setParent id top.node.id).cell? top.node.id =
      some ⟨top.content, parent⟩ := by
    rw [cell?_setParent, if_neg (Ne.symm hne), hholder]
  have hattach : attach top.node.id target id store = some (.ok (),
      (store.setParent id top.node.id).setContent top.node.id
        (top.content.attached target id cell.hasGap)) := by
    have hnode : store.cells[id]? = some cell := hcell
    have hcells : (store.setParent id top.node.id).cells[top.node.id]? =
      some ⟨top.content, parent⟩ := hparent
    rw [attach, hnode]
    simp only [Option.bind_eq_bind, Option.bind_some, hcells]
    rw [Content.attach_of_ready hready]
  rw [bind_of_ok hattach]
  generalize hset : (store.setParent id top.node.id).setContent top.node.id
    (top.content.attached target id cell.hasGap) = set
  have hsetCell : set.cell? top.node.id =
      some ⟨top.content.attached target id cell.hasGap, parent⟩ := by
    rw [← hset, cell?_setContent, if_pos rfl, hparent]
    rfl
  have hsetTop := top?_of_cell htop (by rw [← hset]; rfl) (by rw [← hset]; rfl) hsetCell
  have hput : set.putTop (top.attached target id cell.hasGap) =
      (store.setParent id top.node.id).putTop (top.attached target id cell.hasGap) := by
    rw [← hset]
    exact putTop_setContent _ (top.attached target id cell.hasGap)
  rw [changeTop_of_top? hsetTop, ← hput]
  rfl

/-- The innermost open node binds a value and records a gap for it. -/
theorem bindValue_eq :
    bindValue target id store = some (.ok (), (store.setParent id top.node.id).putTop
      (top.bind target id cell.hasGap)) := by
  have hpush : onTop (fun top => .ok (top.node.id, top.push .gap)) store =
      some (.ok top.node.id, store.putTop (top.push .gap)) := onTop_of_top? htop _
  have hpushed : (store.putTop (top.push .gap)).top? = some (top.push .gap) := top?_putTop htop rfl
  have hkept : (store.putTop (top.push .gap)).cell? id = some cell := by
    rw [cell?_putTop]
    exact (if_neg hne).trans hcell
  have hid : (top.push .gap).node.id = (top.bind target id cell.hasGap).node.id := rfl
  rw [bindValue, bind_of_ok hpush, ← putTop_setParent_putTop hid]
  exact attach_eq hpushed hkept hne hready

end Action

namespace Action

open Store

variable {store : Store} {top : Top}

/-- A node that opens is new, and an item stands for it. -/
theorem enter_eq (htop : store.top? = some top) (start : OpenTag) (destination : Option Target)
    (owed : Option Nat) :
    enter start destination owed store = some (.ok (), store.openWithin top
      { id := store.cells.size, destination := destination, owed := owed } start) := by
  obtain ⟨parent, hcell⟩ := exists_of_top? htop
  have hlt : top.node.id < store.cells.size := cell?_isSome.mp (by rw [hcell]; rfl)
  generalize hcells : store.cells.push
    { head := .opening start, label := start.label none, parent := some top.node.id } = cells
  generalize hmade : ({ store with cells := cells } : Store) = made
  have halloc : alloc ⟨{ head := .opening start, label := start.label none }, some top.node.id⟩
      store = some (.ok store.cells.size, made) := by
    rw [← hmade, ← hcells]
    rfl
  have hkept : made.cell? top.node.id = some ⟨top.content, parent⟩ := by
    rw [← hcell, ← hmade, ← hcells]
    exact (Array.getElem?_push ..).trans (if_neg (by omega))
  have hmadeTop : made.top? = some top :=
    top?_of_cell htop (by rw [← hmade]) (by rw [← hmade]) hkept
  rw [enter, bind_of_ok (readTop_of_top? htop _), bind_of_ok halloc,
    bind_of_ok (changeTop_of_top? hmadeTop _), ← hmade, ← hcells]
  rfl

/-- Of nodes that are there it can be told whether one has a gap. -/
theorem anyGap_eq {ids : List Nat} {flag : Nat → Bool}
    (h : ∀ id ∈ ids, ∃ cell, store.cell? id = some cell ∧ cell.hasGap = flag id) :
    anyGap ids store = some (.ok (ids.any flag), store) := by
  suffices hcells : ∃ cells, (ids.mapM fun id => store.cells[id]?) = some cells ∧
      (cells.any fun cell => cell.hasGap) = ids.any flag by
    obtain ⟨cells, hcells, hany⟩ := hcells
    rw [anyGap, hcells, ← hany]
    rfl
  induction ids with
  | nil => exact ⟨[], rfl, rfl⟩
  | cons id rest ih =>
    obtain ⟨cell, hcell, hflag⟩ := h id List.mem_cons_self
    obtain ⟨cells, hcells, hany⟩ := ih (List.forall_mem_cons.mp h).2
    have hget : store.cells[id]? = some cell := hcell
    refine ⟨cell :: cells, ?_, ?_⟩
    · rw [List.mapM_cons, hget, hcells]
      rfl
    · rw [List.any_cons, List.any_cons, hflag, hany]

end Action

/-! ### Binding -/

/-- The innermost open node of the store can bind a value to the target. -/
structure Store.Receptive (value : Nat → Node) (target : Target) (store : Store) (builder : Builder)
    (below : List Frame) (frame : Frame) : Prop where
  shows : store.Shows value (builder.withTop below frame)
  awaiting : builder.awaiting = none
  top : ∃ top, store.top? = some top ∧ top.content.Ready target ∧ top.node.shifted = none

namespace Store.Receptive

variable {value : Nat → Node} {target : Target} {store : Store} {builder : Builder}
  {below : List Frame} {frame : Frame}

/-- A store asks for an expression. -/
theorem await (h : store.Receptive value target builder below frame) :
    ({ store with awaiting := some target } : Store).Shows value
      { builder.withTop below frame with awaiting := some target } :=
  { h.shows with
    awaiting := rfl
    ready := by
      rintro _ ⟨⟩
      exact h.top }

/-- New cells that are complete do not change what can be bound. -/
theorem extend {value' : Nat → Node} {cells : Array Cell}
    (h : store.Receptive value target builder below frame)
    (hold : ∀ id, id < store.cells.size → cells[id]? = store.cells[id]?)
    (hvalue : ∀ id, id < store.cells.size → value id = value' id)
    (hnew : ∀ id cell, store.cells.size ≤ id → cells[id]? = some cell →
      Complete store.cells.size cells value' id cell) :
    ({ store with cells := cells } : Store).Receptive value' target
      { builder with created := cells.size } below frame :=
  ⟨h.shows.extend hold hvalue hnew, h.awaiting, (h.await.extend hold hvalue hnew).ready target rfl⟩

/-- What is bound nowhere can be bound. -/
theorem bindValue {id : Nat} (h : store.Receptive value target builder below frame)
    (hloose : Loose store.cell? store.opened id) (howed : id ∉ owedIds store.opened) :
    ∃ after bound, Action.bindValue target id store = some (.ok (), after) ∧
      frame.bind target (value id) = .ok bound ∧
      after.Receptive value target builder below bound := by
  obtain ⟨top, htop, hready, hshifted⟩ := h.top
  obtain ⟨parent, ht⟩ := h.shows.topmost_of_top? htop
  obtain ⟨cell, hcell⟩ := Option.isSome_iff_exists.mp hloose.made
  have hne : id ≠ top.node.id := by
    rintro rfl
    exact hloose.closed (ht.opened ▸ mem_openIds_head ..)
  have hgap : cell.hasGap = (value id).hasGap := (h.shows.closed id cell hcell hloose.closed).hasGap
  obtain ⟨bound, hbound, hafter⟩ := h.shows.bind h.awaiting htop hshifted hready hloose howed
  refine ⟨_, bound, Action.bindValue_eq htop hcell hne hready, hbound, ?_⟩
  rw [hgap]
  refine ⟨hafter, h.awaiting, top.bind target id (value id).hasGap, ?_, ?_, hshifted⟩
  · have hholder : (store.setParent id top.node.id).cell? top.node.id =
        some ⟨top.content, parent⟩ := by
      rw [cell?_setParent, if_neg (Ne.symm hne), ht.holder]
    exact top?_putTop (top?_of_cell htop rfl rfl hholder) rfl
  · have hpushed : (top.content.push .gap).Ready target := hready
    exact Content.ready_attached hpushed id _ rfl rfl

/-- A stub can be made and bound. -/
theorem bindStub {head : Head} {node : Node} (h : store.Receptive value target builder below frame)
    (hstub : head.stub? = some node) :
    ∃ after bound value', Action.bindStub target head store = some (.ok (), after) ∧
      frame.bind target node = .ok bound ∧
      after.Receptive value' target builder.make below bound := by
  generalize hcells : store.cells.push { head, label := head.label none, parent := none } = cells
  have hold : ∀ id, id < store.cells.size → cells[id]? = store.cells[id]? := by
    intro id hlt
    rw [← hcells, Array.getElem?_push, if_neg (by omega)]
  have hself : cells[store.cells.size]? =
      some { head, label := head.label none, parent := none } := by
    rw [← hcells, Array.getElem?_push_size]
  have hsize : cells.size = store.cells.size + 1 := by rw [← hcells, Array.size_push]
  have hnew : ∀ id cell, store.cells.size ≤ id → cells[id]? = some cell →
      id = store.cells.size ∧ cell = { head, label := head.label none, parent := none } := by
    intro id cell hge hcell
    have hlt := (Array.getElem?_eq_some_iff.mp hcell).1
    have hid : id = store.cells.size := by omega
    rw [hid, hself] at hcell
    exact ⟨hid, (Option.some.inj hcell).symm⟩
  have hmake : builder.make = { builder with created := cells.size } := by
    have hcreated : builder.created = store.cells.size := h.shows.created
    rw [Builder.make, hcreated, hsize]
  have hextend : ({ store with cells := cells } : Store).Receptive
      (update value store.cells.size node) target builder.make below frame := by
    rw [hmake]
    refine h.extend hold (fun id hlt => (update_of_ne (by omega) ..).symm) ?_
    intro id cell hge hcell
    obtain ⟨rfl, rfl⟩ := hnew id cell hge hcell
    refine ⟨fun _ => Nat.zero_le _, nofun, ?_⟩
    rw [update_self]
    exact .stub hstub rfl rfl
  obtain ⟨hloose, howed⟩ := h.shows.loose_fresh hold (Nat.le_refl _) (by rw [hself]; rfl) <| by
    intro other cell hge hcell
    obtain ⟨-, rfl⟩ := hnew other cell hge hcell
    exact List.not_mem_nil
  obtain ⟨after, bound, hafter, hbound, hreceptive⟩ := hextend.bindValue hloose howed
  rw [update_self] at hbound
  refine ⟨after, bound, _, ?_, hbound, hreceptive⟩
  have halloc : Action.alloc { head, label := head.label none, parent := none } store =
      some (.ok store.cells.size, { store with cells := cells }) := by
    rw [← hcells]
    rfl
  rw [Action.bindStub, Action.bind_of_ok halloc, hafter]

end Store.Receptive

/-! ### Tags -/

namespace Store.Shows

open TagTree.Action

variable {value : Nat → Node} {store : Store} {builder : Builder} {below : List Frame}
  {frame : Frame}
  {top : Top}

section Top

variable (h : store.Shows value (builder.withTop below frame)) (hawaiting : builder.awaiting = none)
  (htop : store.top? = some top)

include h hawaiting htop

/-- A step of the innermost open node and the step of its frame. -/
theorem onTop {α β : Type} {R : α × Top → β → Prop} {step : Top → Attempt Top (α × Top)}
    {attempt : Attempt Frame β}
    (hfollows : top.Follows value store.opened.tail R (step top) attempt) :
    Refines (fun result after other => ∃ top', after = store.putTop top' ∧ R (result, top') other)
      (Action.onTop step store) (builder.lift below attempt) := by
  rw [onTop_of_top? htop]
  generalize step top = first at hfollows
  cases hfollows with
  | @ok first second hr => exact .ok ⟨first.2, rfl, hr⟩
  | @error first second he =>
    obtain ⟨herror, hmoves⟩ := he
    show Refines _ (some (.error first.error, store.putTop first.state)) _
    rw [herror]
    exact .error ⟨value, h.move hawaiting htop hmoves⟩

/-- The waiting reference is taken, and its value can be bound. -/
theorem takePending (hshifted : top.node.shifted = none) (kind : TagKind) :
    Refines (fun target after (result : Target × Frame) => target = result.1 ∧
        after.Receptive value target builder below result.2)
      (Action.onTop (fun top => top.takePending kind) store)
      (builder.lift below (frame.takePending kind)) := by
  obtain ⟨parent, ht⟩ := h.topmost_of_top? htop
  refine (h.onTop hawaiting htop (ht.shows.takePending kind)).mono ?_
  rintro target _ result ⟨after, rfl, htaken⟩
  refine ⟨htaken.target, h.move hawaiting htop htaken.moves, hawaiting, after, ?_, htaken.ready, ?_⟩
  · exact top?_putTop htop htaken.moves.keeps.id
  · exact htaken.shifted.trans hshifted

/-- A step of the innermost open node that has no result. -/
theorem stepTop {step : Top → Attempt Top Top} {attempt : Attempt Frame Frame}
    (hfollows : top.Follows value store.opened.tail (top.Moves value store.opened.tail) (step top)
      attempt) :
    Refines Answers
      ((do Action.stepTop step
           return Feed.accepted : Action Feed) store)
      (do return (Feed.accepted, builder.withTop below (← builder.lift below attempt))) := by
  have hmap : top.Follows value store.opened.tail
      (fun first second => top.Moves value store.opened.tail first.2 second)
      ((step top).map fun top => ((), top)) attempt := by
    generalize step top = first at hfollows
    cases hfollows with
    | ok hmoves => exact .ok hmoves
    | error he => exact .error he
  refine (h.onTop hawaiting htop hmap).bind ?_
  rintro _ _ frame ⟨after, rfl, hmoves⟩
  exact .ok ⟨rfl, value, h.move hawaiting htop hmoves⟩

/-- The value `null`. -/
theorem null (hshifted : top.node.shifted = none) :
    Refines (fun _ after next => after.Shown next) (Action.null store)
      (builder.null frame below) := by
  refine (h.takePending hawaiting htop hshifted .null).bind ?_
  rintro target store ⟨_, frame⟩ ⟨rfl, hreceptive⟩
  have hstub : Head.null.stub? = some .null := rfl
  obtain ⟨after, bound, value', hafter, hbound, hreceptive⟩ := hreceptive.bindStub hstub
  obtain ⟨top, htop, -⟩ := hreceptive.top
  obtain ⟨parent, ht⟩ := hreceptive.shows.topmost_of_top? htop
  rw [bind_of_ok hafter, changeTop_of_top? htop]
  simp only [hbound]
  exact .ok ⟨value', hreceptive.shows.move hreceptive.awaiting htop ht.shows.withLast⟩

/-- A literal, as a value or as content. -/
theorem literal (hshifted : top.node.shifted = none) (text : String) :
    Refines (fun _ after next => after.Shown next) (Action.literal text store)
      (builder.literal frame below text) := by
  obtain ⟨parent, ht⟩ := h.topmost_of_top? htop
  rw [Action.literal, bind_of_ok (readTop_of_top? htop _), Builder.literal, ht.shows.pending]
  cases top.node.pending.isNone with
  | true =>
    simp only [if_true, changeTop_of_top? htop]
    exact .ok ⟨value, h.move hawaiting htop (ht.shows.literal text)⟩
  | false =>
    simp only [Bool.false_eq_true, if_false]
    refine (h.takePending hawaiting htop hshifted .literal).bind ?_
    rintro target store ⟨_, frame⟩ ⟨rfl, hreceptive⟩
    have hstub : (Head.literal text).stub? = some (.literal text) := rfl
    obtain ⟨after, bound, value', hafter, hbound, hreceptive⟩ := hreceptive.bindStub hstub
    simp only [hafter, hbound]
    exact .ok ⟨value', hreceptive.shows⟩

end Top

section Inside

variable (h : store.Shows value (builder.withTop below frame))

include h

/-- A gap takes back a value, asks for an expression or stays. -/
theorem gap (hawaiting : builder.awaiting = none) (htop : store.top? = some top)
    (hshifted : top.node.shifted = none) :
    Refines Answers (Action.gap store) (builder.gap frame below) := by
  refine (h.takePending hawaiting htop hshifted .gap).bind ?_
  rintro target store ⟨_, frame⟩ ⟨rfl, hreceptive⟩
  obtain ⟨top, htop, hready, hshifted⟩ := hreceptive.top
  obtain ⟨parent, ht⟩ := hreceptive.shows.topmost_of_top? htop
  dsimp only at hreceptive ht ⊢
  have howes : (store.opened.tail.any fun node => node.owed.isSome) = frame.withinOwed :=
    ht.shows.withinOwed.symm
  rw [bind_read, howes]
  -- A gap within a node that is yet to take a value back is refused.
  by_cases hwithin : frame.withinOwed = true
  · rw [if_pos hwithin, if_pos hwithin]
    exact .error ⟨value, hreceptive.shows⟩
  · rw [if_neg hwithin, if_neg hwithin]
    have htake : Action.onTop (fun top => .ok top.takeOwed) store =
        some (.ok top.takeOwed.1, store.putTop top.takeOwed.2) := onTop_of_top? htop _
    rw [bind_of_ok htake]
    cases howed : top.node.owed with
    | some id =>
      obtain ⟨hid, hshows, hloose, hfree⟩ :=
        hreceptive.shows.takeOwed hreceptive.awaiting htop howed
      have htaken : (store.putTop top.takeOwed.2).Receptive value target builder below
          { frame with owed := none, held := some frame.items.size } := by
        refine ⟨hshows, hreceptive.awaiting, top.takeOwed.2, ?_, ?_, ?_⟩
        · exact top?_putTop htop (ht.shows.takeOwed howed).2.keeps.id
        · rw [Top.takeOwed, howed]
          exact hready
        · rw [Top.takeOwed, howed]
          exact hshifted
      obtain ⟨after, bound, hafter, hbound, hafterShows⟩ := htaken.bindValue hloose hfree
      have hframe : frame.owed = some (value id) := by
        rw [ht.shows.owed, howed]
        rfl
      simp only [hid, hframe, bind_of_ok hafter, hbound]
      exact .ok ⟨rfl, value, hafterShows.shows⟩
    | none =>
      have hframe : frame.owed = none := by
        rw [ht.shows.owed, howed]
        rfl
      have hnone : top.takeOwed = (none, top) := by rw [Top.takeOwed, howed]
      have hexpressions : builder.expressions = store.expressions := hreceptive.shows.expressions
      simp only [hnone, hframe, putTop_self htop, hexpressions]
      cases store.expressions with
      | true => exact .ok ⟨rfl, value, hreceptive.await⟩
      | false =>
        have hstub : Head.gap.stub? = some .gap := rfl
        obtain ⟨after, bound, value', hafter, hbound, hafterShows⟩ := hreceptive.bindStub hstub
        simp only [Bool.false_eq_true, if_false, bind_of_ok hafter, hbound]
        exact .ok ⟨rfl, value', hafterShows.shows⟩

/-- A node opens within another one. -/
theorem openChildNode
    (hawaiting : builder.awaiting = none) (htop : store.top? = some top) (start : OpenTag) :
    Refines (fun _ after next => after.Shown next) (Action.openNode start store)
      (builder.openChild frame below start) := by
  obtain ⟨parent, ht⟩ := h.topmost_of_top? htop
  rw [Action.openNode, Builder.openChild]
  cases Builder.isContradictory start with
  | true => exact .error ⟨value, h⟩
  | false =>
    have hopened : store.opened.isEmpty = false := by rw [ht.opened]; rfl
    simp only [Bool.false_eq_true, if_false, bind_read, hopened]
    generalize hstart : start.plain = bare
    refine (h.onTop hawaiting htop (ht.shows.opening ht.steady bare)).bind ?_
    rintro ⟨destination, owed⟩ _ ⟨frame, target, held⟩ ⟨after, rfl, hadmits⟩
    obtain ⟨htarget, hheld, hmoves, hready, hbound, hshifted⟩ := hadmits
    dsimp only at htarget hheld hmoves hready hbound hshifted ⊢
    subst htarget hheld hstart
    have hmoved := h.move hawaiting htop hmoves
    have hafter : (store.putTop after).top? = some after := top?_putTop htop hmoves.keeps.id
    rw [enter_eq hafter]
    exact .ok ⟨value, hmoved.openChild hready hbound hawaiting hafter hshifted rfl _⟩

/-- The innermost open node is left, if it may close. -/
theorem leave_eq (htop : store.top? = some top) :
    Action.leave store = match frame.checkClose with
      | .ok () => some (.ok top, store.leave top frame.hasGap)
      | .error error => some (.error error, store) := by
  obtain ⟨parent, ht⟩ := h.topmost_of_top? htop
  have hstep := onTop_of_top? htop Top.checkClose
  have hagree := ht.shows.checkClose
  generalize top.checkClose = first at hstep hagree
  generalize frame.checkClose = second at hagree
  cases hagree with
  | @error refusal error he =>
    obtain ⟨rfl, hstate⟩ := he
    have hsame : Action.onTop Top.checkClose store =
        some (.error refusal.error, store.putTop refusal.state) := hstep
    rw [hstate, putTop_self htop] at hsame
    exact bind_of_error hsame _
  | @ok result _ hr =>
    obtain ⟨hstate, -⟩ := hr
    have hsame : Action.onTop Top.checkClose store =
        some (.ok result.1, store.putTop result.2) := hstep
    rw [hstate, putTop_self htop] at hsame
    have hpop : pop store = some (.ok top,
        { store with opened := store.opened.tail, scopes := store.scopes.exit }) := by
      rw [pop, htop]
      rfl
    -- All that the node binds and embeds is closed, and has been marked.
    have hmarked : ∀ id ∈ top.content.kids, ∃ cell, store.cell? id = some cell ∧
        cell.hasGap = (value id).hasGap := by
      intro id hid
      have hsound := h.sound
      rw [ht.opened] at hsound
      have hin : id ∈ own store.cell? (top.node :: store.opened.tail) top.node.id := by
        rw [hsound.own_head ht.holder]
        exact hid
      obtain ⟨hmade, hclosed⟩ := hsound.apart top.node.id id hin
      obtain ⟨cell, hcell⟩ := Option.isSome_iff_exists.mp hmade
      exact ⟨cell, hcell, (h.closed id cell hcell (ht.opened ▸ hclosed)).hasGap⟩
    generalize hpopped : ({ store with
      opened := store.opened.tail
      scopes := store.scopes.exit } : Store) = popped at hpop
    have hgap : anyGap top.content.kids popped = some (.ok frame.hasGap, popped) := by
      rw [ht.shows.hasGap]
      exact anyGap_eq (hpopped ▸ hmarked)
    rw [Action.leave, bind_of_ok hsame, bind_of_ok hpop, bind_of_ok hgap, ← hpopped]
    rfl

/-- The innermost open node closes. -/
theorem close (hawaiting : builder.awaiting = none) (htop : store.top? = some top) :
    Refines (fun _ after next => after.Shown next) (Action.close store)
      (builder.close frame below) := by
  obtain ⟨parent, ht⟩ := h.topmost_of_top? htop
  have hleave := h.leave_eq htop
  unfold Builder.close
  cases hcheck : frame.checkClose with
  | error error =>
    rw [hcheck] at hleave
    rw [Action.close, bind_of_error hleave]
    exact .error ⟨value, h⟩
  | ok _ =>
    rw [hcheck] at hleave
    rw [Action.close, bind_of_ok hleave]
    cases below with
    | nil =>
      have hroot : top.node.destination = none := by
        have hrest := ht.rest
        generalize store.opened.tail = outer at hrest
        generalize store.scopes.tail = scopes at hrest
        cases hrest with
        | root parent destination => exact destination
      rw [hroot]
      exact .ok ⟨_, h.closeRoot hawaiting htop⟩
    | cons around outer =>
      have hdestination := ht.shows.destination
      cases htarget : top.node.destination with
      | none =>
        rw [htarget] at hdestination
        simp only [hdestination]
        exact .ok ⟨_, h.closeEmbedded hawaiting htop htarget⟩
      | some target =>
        rw [htarget] at hdestination
        obtain ⟨around, received, haround, hready, hreceived, hshows⟩ :=
          h.closeBound hawaiting htop htarget
        have hcell := cell?_leave frame.hasGap ht.holder top.node.id
        rw [if_pos rfl] at hcell
        -- The cell that is bound is closed by now, so that its gaps are settled.
        have hclosed : top.node.id ∉ openIds (store.leave top frame.hasGap).opened := by
          have honce := h.sound.openedOnce
          rw [ht.opened] at honce
          exact (List.nodup_cons.mp honce).1
        have hne : top.node.id ≠ around.node.id := by
          rw [← (stack_of_top? haround).1] at hclosed
          exact fun heq => hclosed (heq ▸ mem_openIds_head ..)
        have hgap := (h.closed_leave ht hcell hclosed).hasGap
        rw [update_self] at hgap
        have hattach := attach_eq haround hcell hne hready
        rw [hgap] at hattach
        simp only [hdestination, Frame.receive, hreceived, bind_of_ok (readTop_of_top? haround _)]
        rw [hattach]
        exact .ok ⟨_, hshows⟩

/-- A tag within an open node. -/
theorem pushInside (hawaiting : builder.awaiting = none) (tag : Tag) :
    Refines Answers (Action.pushInside tag store) (builder.pushInside frame below tag) := by
  obtain ⟨top, parent, htop, ht⟩ := h.topmost
  have hsome : frame.shifted.isSome = top.node.shifted.isSome := by
    rw [ht.shows.shifted, Option.isSome_map]
  unfold Action.pushInside Builder.pushInside
  rw [bind_of_ok (readTop_of_top? htop _), hsome]
  by_cases hshift : (top.node.shifted.isSome && !Builder.opensBound tag) = true
  · rw [if_pos hshift, if_pos hshift]
    exact .error ⟨value, h⟩
  rw [if_neg hshift, if_neg hshift]
  have hnone : Builder.opensBound tag = false → top.node.shifted = none := by
    intro hbound
    rw [hbound] at hshift
    simpa using hshift
  have haccept : ∀ {action : Action Unit} {attempt : Attempt Builder Builder},
      Refines (fun _ after next => after.Shown next) (action store) attempt →
        Refines Answers ((do action; return Feed.accepted : Action Feed) store)
          (do return (Feed.accepted, ← attempt)) := fun hrefines =>
    hrefines.bind fun _ _ _ hnext => .ok ⟨rfl, hnext⟩
  cases tag with
  | opening start => exact haccept (h.openChildNode hawaiting htop start)
  | closing => exact haccept (h.close hawaiting htop)
  | reference edge => exact h.stepTop hawaiting htop (ht.shows.reference edge)
  | shift index => exact h.stepTop hawaiting htop (ht.shows.shift index)
  | gap => exact h.gap hawaiting htop (hnone rfl)
  | null => exact haccept (h.null hawaiting htop (hnone rfl))
  | arrayStart => exact h.stepTop hawaiting htop ht.shows.startArray
  | literal text => exact haccept (h.literal hawaiting htop (hnone rfl) text)
  | embedded => exact .error ⟨value, h⟩
  | doctype header => exact .ok ⟨rfl, value, h⟩
  | effect => exact .ok ⟨rfl, value, h⟩

end Inside

variable (h : store.Shows value builder)

include h

/-- The builder has no open node if and only if the store has none. -/
theorem isEmpty_opened : store.opened.isEmpty = builder.frames.isEmpty :=
  h.stack.isEmpty_opened

/-- The root is there in the store as soon as it is open. -/
theorem isSome_root : store.root.isSome = builder.hasRoot := by
  have hrooted := h.rooted
  have hempty := h.isEmpty_opened
  rw [Builder.hasRoot, ← hempty]
  unfold Rooted at hrooted
  cases hopened : store.opened with
  | nil =>
    rw [hopened] at hrooted
    have hroot : builder.root = store.root.map value := hrooted
    simp [hroot]
  | cons node outer =>
    rw [hopened] at hrooted
    have hroot := hrooted.1
    simp [hroot]

/-- The first node opens. -/
theorem openRootNode (hawaiting : builder.awaiting = none)
    (hframes : builder.frames = []) (hroot : builder.root = none) (start : OpenTag) :
    Refines (fun _ after next => after.Shown next) (Action.openNode start store)
      (builder.openRoot start) := by
  rw [Action.openNode, Builder.openRoot]
  cases Builder.isContradictory start with
  | true => exact .error ⟨value, h⟩
  | false =>
    have hopened : store.opened.isEmpty = true := by rw [h.isEmpty_opened, hframes]; rfl
    simp only [Bool.false_eq_true, if_false, if_true, bind_read, hopened, h.doctype]
    exact .ok ⟨value, h.openRoot hawaiting hframes hroot _ _⟩

/-- A tag outside of every node. -/
theorem pushOutside (hawaiting : builder.awaiting = none)
    (hframes : builder.frames = []) (tag : Tag) :
    Refines (fun _ after next => after.Shown next) (Action.pushOutside tag store)
      (builder.pushOutside tag) := by
  have hsome : store.root.isSome = builder.root.isSome := by
    rw [h.isSome_root, Builder.hasRoot, hframes]
    exact Bool.or_false _
  unfold Action.pushOutside Builder.pushOutside
  rw [bind_read, hsome]
  cases hroot : builder.root with
  | some root => exact .error ⟨value, h⟩
  | none =>
    cases tag with
    | opening start => exact h.openRootNode hawaiting hframes hroot start
    | _ => exact .error ⟨value, h⟩

/-- The header. -/
theorem pushDoctype (header : Doctype) :
    Refines (fun _ after next => after.Shown next) (Action.pushDoctype header store)
      (builder.pushDoctype header) := by
  rw [Action.pushDoctype, bind_read, Builder.pushDoctype, h.isSome_root, h.doctype]
  by_cases hmisplaced : (builder.hasRoot || store.doctype.isSome) = true
  · rw [if_pos hmisplaced, if_pos hmisplaced]
    exact .error ⟨value, h⟩
  · rw [if_neg hmisplaced, if_neg hmisplaced]
    exact .ok ⟨value, { h with doctype := rfl }⟩

/-- A store takes a tag as the builder that it shows. -/
theorem push (tag : Tag) : Refines Answers (Store.push tag store) (builder.push tag) := by
  have hasks : builder.needsExpression = store.awaiting.isSome := congrArg Option.isSome h.awaiting
  unfold Store.push Builder.push
  rw [bind_read, hasks]
  cases hawaiting : store.awaiting with
  | some target => exact .error ⟨value, h⟩
  | none =>
    have hnone : builder.awaiting = none := h.awaiting.trans hawaiting
    cases tag with
    | effect => exact .ok ⟨rfl, value, h⟩
    | doctype header => exact (h.pushDoctype header).bind fun _ _ _ hnext => .ok ⟨rfl, hnext⟩
    | _ =>
      dsimp only
      rw [h.isEmpty_opened]
      cases hframes : builder.frames with
      | nil => exact (h.pushOutside hnone hframes _).bind fun _ _ _ hnext => .ok ⟨rfl, hnext⟩
      | cons frame below =>
        have hsame : builder = ({ builder with frames := [] } : Builder).withTop below frame := by
          rw [Builder.withTop, ← hframes]
        rw [hsame] at h
        exact h.pushInside hnone _

end Store.Shows

end TagTree
