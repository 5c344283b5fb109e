import Mathlib.Data.List.Chain
import TagTree.Proofs.Preorder
import TagTree.Proofs.Store.Session

/-!
# What follows a reference

A reference is directly followed by what stands for its value: a gap, the start of an array or the
mark of an embedded node (`Node.Answered`). A refused step may take away the reference that waits
(`StructuralError.takesReference`); `Ensures` says what a step comes to where this is excused.
-/

namespace TagTree

variable {error : StructuralError} {target : Target} {frame : Frame}

namespace TagKind

/-- A tag of this kind directly after a reference stands for its value. -/
def answers : TagKind → Bool
  | gap | arrayStart | embedded => true
  | _ => false

/-- A reference is directly followed by what stands for its value. -/
def Precedes (kind next : TagKind) : Prop :=
  kind = .reference → next.answers = true

end TagKind

namespace Node

/-- In the slots of the node, what follows a reference stands for its value. -/
def Answered (node : Node) : Prop :=
  (node.slots.map Tag.kind).IsChain TagKind.Precedes

end Node

/-- The reference of the target is among items of the given kinds. It has no index of its own. -/
structure Target.StandsIn (target : Target) (kinds : List TagKind) : Prop where
  place : kinds[target.position]? = some .reference
  index : target.reference.index = none

theorem Target.StandsIn.append {kinds : List TagKind} (h : target.StandsIn kinds)
    (later : List TagKind) : target.StandsIn (kinds ++ later) := by
  refine ⟨?_, h.index⟩
  rw [List.getElem?_append_left (List.getElem?_eq_some_iff.mp h.place).1]
  exact h.place

namespace Frame

/-- The kinds of the items of an open node. -/
def kinds (frame : Frame) : List TagKind :=
  frame.items.toList.map fun item => item.toTag.kind

@[simp] theorem kinds_push (frame : Frame) (item : Item Node) :
    (frame.push item).kinds = frame.kinds ++ [item.toTag.kind] := by
  simp [kinds, push]

theorem kinds_markReference (frame : Frame) (position : Nat)
    (mark : ReferenceFlags → ReferenceFlags) :
    kinds { frame with items := markReference frame.items position mark } = frame.kinds := by
  refine List.ext_getElem? fun place => ?_
  simp only [kinds, markReference, Array.toList_modify, List.getElem?_map, List.getElem?_modify]
  cases frame.items.toList[place]? with
  | none => simp
  | some item =>
    by_cases hplace : position = place
    · cases item <;> simp [hplace, Item.toTag, Tag.kind]
    · simp [hplace]

/-- The reference that was added last stands at the end. -/
theorem standsIn_push {edge : Reference} (frame : Frame) (hindex : edge.index = none)
    (index : Option Nat) :
    Target.StandsIn ⟨edge, index, frame.items.size⟩ (frame.push (.reference edge)).kinds := by
  refine ⟨?_, hindex⟩
  have hlength : frame.items.size = frame.kinds.length := by simp [kinds]
  rw [kinds_push, hlength, List.getElem?_concat_length]
  rfl

/-- No reference stands right before another one, which does not answer it. -/
theorem getLast?_take_ne
    (h : frame.kinds.IsChain TagKind.Precedes) (htarget : target.StandsIn frame.kinds) :
    (frame.kinds.take target.position).getLast? ≠ some .reference := by
  intro hlast
  rw [← List.take_append_drop target.position frame.kinds, List.isChain_append] at h
  have hnext : (frame.kinds.drop target.position).head? = some .reference := by
    rw [List.head?_drop]
    exact htarget.place
  cases h.2.2 _ hlast _ hnext rfl

/-- A node whose references are all answered becomes an answered one. -/
theorem answered_toNode (h : frame.kinds.IsChain TagKind.Precedes)
    (hlast : frame.kinds.getLast? ≠ some .reference) : frame.toNode.Answered := by
  show List.IsChain _ (List.map Tag.kind (_ :: frame.items.toList.map Item.toTag ++ [.closing]))
  have hkinds : (frame.items.toList.map Item.toTag).map Tag.kind = frame.kinds := List.map_map
  rw [List.cons_append, List.map_cons, List.map_append, hkinds, List.isChain_cons,
    List.isChain_append]
  refine ⟨nofun, h, .singleton _, ?_⟩
  rintro kind hkind _ _ rfl
  exact absurd hkind hlast

end Frame

/-- A further reference to an array, without an index of its own, is never refused. -/
theorem Scope.consume_ne_error {edge : Reference} (scope after : Scope)
    (harray : edge.isArray = true) (hindex : edge.index = none) :
    scope.consume edge ≠ (after, .error error) := by
  unfold consume
  rw [harray, hindex]
  cases edge.isReserved
  · nofun
  · nofun

/-! ### Steps -/

/-- A refusal for this reason takes away the reference that waits, if there is one. -/
def StructuralError.takesReference : StructuralError → Bool
  | embeddedUnderNamedReference _ | reservedReferenceMisuse _ | uninitializedArray _
  | initializerForScalar _ | arrayInitializedTwice _ | shiftedValueNotReattached
  | fragmentArity _ _ => true
  | _ => false

theorem Frame.takesReference_of_checkTarget (h : frame.checkTarget target = .error error) :
    error.takesReference = true := by
  unfold checkTarget at h
  dsimp only at h
  split at h
  · cases h
    rfl
  · split at h <;> cases h
    rfl

/-- A step has a result of one kind, or is refused and leaves a state of another, unless it is
excused and the refusal takes a reference away. -/
def Ensures {σ α : Type} (excuse : Prop) (left : σ → Prop) (post : α → Prop) : Attempt σ α → Prop
  | .ok result => post result
  | .error refusal => left refusal.state ∨ excuse ∧ refusal.error.takesReference = true

namespace Ensures

variable {σ α β : Type} {excuse : Prop} {left : σ → Prop} {post : α → Prop} {attempt : Attempt σ α}

theorem ok {result : α} (h : post result) : Ensures excuse left post (.ok result) :=
  h

theorem refuse {state : σ} (h : left state) : Ensures excuse left post (refuse error state) :=
  .inl h

theorem bind {mid : β → Prop} {first : Attempt σ β} {next : β → Attempt σ α}
    (h : Ensures excuse left mid first)
    (hnext : ∀ value, mid value → Ensures excuse left post (next value)) :
    Ensures excuse left post (first >>= next) := by
  cases first with
  | error refusal => exact h
  | ok value => exact hnext value h

/-- A step of the innermost open node, as a step of the builder. -/
theorem lift {kept : Builder → Prop} {left : Frame → Prop} {attempt : Attempt Frame α}
    {builder : Builder} {below : List Frame} (h : Ensures excuse left post attempt)
    (hleft : ∀ frame, left frame → kept (builder.withTop below frame)) :
    Ensures excuse kept post (builder.lift below attempt) := by
  cases attempt with
  | error refusal => exact h.imp_left (hleft _)
  | ok value => exact h

/-- What is left is of the kind that both outcomes have. -/
theorem leaves {kept : Builder → Prop} {read : α → Builder} {attempt : Attempt Builder α}
    (h : Ensures excuse kept (fun value => kept (read value)) attempt)
    (hexcuse : ∀ refusal, attempt = .error refusal → excuse →
      refusal.error.takesReference = false) : kept (leaves read attempt) := by
  cases attempt with
  | ok value => exact h
  | error refusal =>
    refine h.resolve_right fun htakes => ?_
    rw [hexcuse refusal rfl htakes.1] at htakes
    cases htakes.2

end Ensures

end TagTree
