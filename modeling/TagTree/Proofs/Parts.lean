import TagTree.Proofs.Draft
import TagTree.Replay

/-!
# The parts of a node

What a node that is made of segments gives to its replay, segment by segment. The scope that the
replay keeps never fails on orderly segments, and the value that a reference stands for is the one
that its segment says (`Outline.parts_toNode`).
-/

namespace TagTree

open Segment (mentions shiftItems allItems)

variable {scope : Scope} {segments : List (Segment Node)} {earlier : List Mention}
  {bare : Option Nat}

namespace Part

/-- The part that a gap gives, given the values that are due. -/
def atGap (bare : Option Nat) (afterShift : Bool) (slot : Nat)
    (due : List (Except LookupError Node)) : Part :=
  if bare = some slot then tag .gap else ofDue afterShift slot due

/-- The parts of shifts, each with its gap, the first of which has the given slot and index. -/
def shifts (bare : Option Nat) : (slot index count : Nat) → List (Except LookupError Node) →
    List Part
  | _, _, 0, _ => []
  | slot, index, count + 1, due =>
    tag (.shift index) :: atGap bare true (slot + 1) due ::
      shifts bare (slot + 2) (index + 1) count due.tail

end Part

namespace Segment

/-- The parts that a segment gives, the first of which has the given slot. -/
def parts (bare : Option Nat) (slot : Nat) : Segment Node → List Part
  | content text => [.tag (.literal text)]
  | embedded edge node => edge.toList.map (fun edge => .tag (.reference edge)) ++ [.value node none]
  | arrayStart edge => [.tag (.reference edge), .tag .arrayStart]
  | value edge node shifts =>
    .tag (.reference edge) :: .atGap bare false (slot + 1) (node.history shifts) ::
      Part.shifts bare (slot + 2) 1 shifts (node.history shifts).tail

/-- The parts that segments give, the first of which has the given slot. -/
def allParts (bare : Option Nat) (slot : Nat) : List (Segment Node) → List Part
  | [] => []
  | segment :: rest => segment.parts bare slot ++ allParts bare (slot + segment.items.length) rest

/-- The references are as a node keeps them: without an index, and marked if their value has a
gap. -/
def IsPlain : Segment Node → Prop
  | content _ => True
  | embedded edge _ => ∀ reserved ∈ edge, reserved.isReserved = true ∧ reserved.flags.hasGap = false
  | arrayStart edge => edge.index = none ∧ edge.flags.hasGap = false
  | value edge node _ => edge.index = none ∧ edge.flags.hasGap = node.hasGap

/-- Each reference finds its value among the properties. -/
def Aligned (properties : Std.TreeMap String (Property Node)) (earlier : List Mention) :
    List (Segment Node) → Prop
  | [] => True
  | segment :: rest =>
    (∀ edge node shifts, segment = value edge node shifts →
      (properties[edge.name]?).bind (Property.binding? (Mention.indexOf earlier edge)) =
        some ⟨edge, node⟩) ∧
    Aligned properties (earlier ++ segment.mention?.toList) rest

/-- No segment starts with a gap or a shift. -/
theorem shiftsAfter_allItems (segments : List (Segment Node)) :
    Item.shiftsAfter (allItems segments) = 0 := by
  cases segments with
  | nil => rfl
  | cons segment rest =>
    cases segment with
    | embedded edge node => cases edge <;> rfl
    | _ => rfl

theorem shiftsAfter_shiftItems (first count : Nat) (segments : List (Segment Node)) :
    Item.shiftsAfter (shiftItems first count ++ allItems segments) = count := by
  induction count generalizing first with
  | zero => exact shiftsAfter_allItems segments
  | succ count ih => rw [shiftItems_succ, List.cons_append, List.cons_append, Item.shiftsAfter, ih]

end Segment

/-! ### Scopes -/

namespace Scope

/-- The scope before a segment and the one after it, where the references before are given. -/
inductive Passes (scope : Scope) (earlier : List Mention) : Segment Node → Scope → Prop where
  | content {text : String} : Passes scope earlier (.content text) scope
  | embedded {node : Node} : Passes scope earlier (.embedded none node) scope
  | reserved {edge : Reference} {node : Node} {after : Scope}
    (h : scope.consume edge = (after, .ok none)) :
    Passes scope earlier (.embedded (some edge) node) after
  | arrayStart {edge : Reference} {after : Scope}
    (h : scope.consume edge = (after, .ok (Mention.indexOf earlier edge)))
    (last : after.lastReference = some edge.name) :
    Passes scope earlier (.arrayStart edge) (after.startArray edge.name)
  | value {edge : Reference} {node : Node} {shifts : Nat} {after : Scope}
    (h : scope.consume edge = (after, .ok (Mention.indexOf earlier edge))) :
    Passes scope earlier (.value edge node shifts) after

/-- The scope never fails on the segments. -/
inductive PassesAll : Scope → List Mention → List (Segment Node) → Prop where
  | nil {scope : Scope} {earlier : List Mention} : PassesAll scope earlier []
  | cons {scope : Scope} {earlier : List Mention} {segment : Segment Node} {after : Scope}
    {rest : List (Segment Node)} (first : scope.Passes earlier segment after)
    (later : after.PassesAll (earlier ++ segment.mention?.toList) rest) :
    PassesAll scope earlier (segment :: rest)

theorem Counts.exists_passes {segment : Segment Node} (h : scope.Counts earlier)
    (hplain : segment.IsPlain)
    (hadmissible : ∀ mention ∈ segment.mention?, mention.Admissible earlier) :
    ∃ after, scope.Passes earlier segment after ∧
      after.Counts (earlier ++ segment.mention?.toList) := by
  have hsame : scope.Counts (earlier ++ []) := by rwa [List.append_nil]
  cases segment with
  | content text => exact ⟨scope, .content, hsame⟩
  | embedded edge node =>
    cases edge with
    | none => exact ⟨scope, .embedded, hsame⟩
    | some edge => exact ⟨_, .reserved (consume_of_reserved (hplain edge rfl).1), hsame.withLast _⟩
  | arrayStart edge =>
    obtain ⟨hr, hstart⟩ := hadmissible _ rfl
    have hstart : Mention.Startable earlier edge := hstart
    obtain ⟨after, hconsume, hafter, hlast⟩ :=
      consume_of_referable h hstart.1 (hr.of_marked hplain.1)
    exact ⟨_, .arrayStart hconsume hlast, hafter.startArray hstart⟩
  | value edge node shifts =>
    obtain ⟨hr, hb⟩ := hadmissible _ rfl
    have hb : Mention.Bindable earlier edge := hb
    obtain ⟨after, hconsume, hafter, -⟩ := consume_of_referable h hb.1 (hr.of_marked hplain.1)
    exact ⟨after, .value hconsume, hafter⟩

theorem Counts.passesAll (h : scope.Counts earlier) (hplain : ∀ segment ∈ segments, segment.IsPlain)
    (horderly : Mention.Orderly earlier (mentions segments)) :
    scope.PassesAll earlier segments := by
  induction segments generalizing earlier scope with
  | nil => exact .nil
  | cons segment rest ih =>
    obtain ⟨hfirst, hrest⟩ := List.forall_mem_cons.mp hplain
    rw [Segment.mentions_cons, Mention.orderly_append] at horderly
    obtain ⟨after, hpasses, hafter⟩ := h.exists_passes hfirst (Mention.orderly_toList.mp horderly.1)
    exact .cons hpasses (ih hafter hrest horderly.2)

end Scope

namespace Node

variable {properties : Std.TreeMap String (Property Node)} {index : Option Nat}
  {due : List (Except LookupError Node)} {before : Option (Item Node)}

/-- The parts of the shifts of a value. -/
theorem partsFrom_shiftItems (properties : Std.TreeMap String (Property Node))
    (bare : Option Nat) (scope : Scope) (index : Option Nat)
    (due : List (Except LookupError Node)) (before : Option (Item Node))
    (slot first count : Nat) (rest : List (Item Node)) :
    ∃ due' before', partsFrom properties bare scope index due before slot
        (shiftItems first count ++ rest) =
      Part.shifts bare slot first count due ++
        partsFrom properties bare scope index due' before' (slot + 2 * count) rest := by
  induction count generalizing slot first due before with
  | zero => exact ⟨due, before, rfl⟩
  | succ count ih =>
    obtain ⟨due', before', h⟩ := ih due.tail (some .gap) (slot + 2) (first + 1)
    refine ⟨due', before', ?_⟩
    have hslot : slot + 2 * (count + 1) = slot + 2 + 2 * count := by omega
    rw [Segment.shiftItems_succ, List.cons_append, List.cons_append, Part.shifts, hslot,
      List.cons_append, List.cons_append, ← h]
    rfl

/-- The parts of a value with its shifts, after its reference. -/
theorem partsFrom_gap {edge : Reference} {node : Node} (bare : Option Nat) (scope : Scope)
    (due : List (Except LookupError Node)) (slot shifts : Nat) (rest : List (Segment Node))
    (h : (properties[edge.name]?).bind (Property.binding? index) = some ⟨edge, node⟩) :
    ∃ due' before', partsFrom properties bare scope index due (some (.reference edge)) slot
        (.gap :: (shiftItems 1 shifts ++ allItems rest)) =
      .atGap bare false slot (node.history shifts) ::
        (Part.shifts bare (slot + 1) 1 shifts (node.history shifts).tail ++
          partsFrom properties bare scope index due' before' (slot + 1 + 2 * shifts)
            (allItems rest)) := by
  obtain ⟨due', before', hshifts⟩ := partsFrom_shiftItems properties bare scope index
    (node.history shifts).tail (some .gap) (slot + 1) 1 shifts (allItems rest)
  refine ⟨due', before', ?_⟩
  have hdue : dueAt properties index due (some (.reference edge))
      (shiftItems 1 shifts ++ allItems rest) = node.history shifts := by
    simp only [dueAt, h, Segment.shiftsAfter_shiftItems]
  rw [partsFrom, hdue, ← hshifts]
  rfl

/-- The parts of all segments, and of the closing tag. -/
theorem partsFrom_allItems (slot : Nat) (h : scope.PassesAll earlier segments)
    (haligned : Segment.Aligned properties earlier segments) :
    partsFrom properties bare scope index due before slot (allItems segments) =
      Segment.allParts bare slot segments ++ [.tag .closing] := by
  induction h generalizing index due before slot with
  | nil => rfl
  | @cons scope earlier segment after rest hpasses _ ih =>
    rw [Segment.allItems_cons, Segment.allParts, List.append_assoc]
    cases hpasses with
    | content | embedded => exact congrArg (_ :: ·) (ih _ haligned.2)
    | @reserved edge node _ hconsume =>
      show partsFrom properties bare scope index due before slot
        (.reference edge :: .embedded node :: allItems rest) = _
      rw [partsFrom, Scope.observe, hconsume]
      exact congrArg (_ :: _ :: ·) (ih _ haligned.2)
    | @arrayStart edge after hconsume hlast =>
      show partsFrom properties bare scope index due before slot
        (.reference edge :: .arrayStart :: allItems rest) = _
      rw [partsFrom, Scope.observe, hconsume]
      simp only [partsFrom, Item.toTag, Scope.observe, hlast]
      exact congrArg (_ :: _ :: ·) (ih _ haligned.2)
    | @value edge node shifts _ hconsume =>
      obtain ⟨due', before', hgap⟩ := partsFrom_gap bare after due (slot + 1) shifts rest
        (haligned.1 edge node shifts rfl)
      show partsFrom properties bare scope index due before slot
        (.reference edge :: .gap :: (shiftItems 1 shifts ++ allItems rest)) = _
      rw [partsFrom, Scope.observe, hconsume]
      have hslot : slot + (Segment.value edge node shifts).items.length =
          slot + 1 + 1 + 2 * shifts := by
        simp [Segment.items]
        omega
      simp only [hgap, hslot, ih _ haligned.2]
      rfl

end Node

/-- Orderly segments are aligned with their properties, unless the same name is used for an array
and a single property. -/
theorem Segment.aligned_properties (before after : List (Segment Node))
    (horderly : Mention.Orderly [] (mentions (before ++ after)))
    (hunmixed : Mention.Unmixed (mentions (before ++ after))) :
    Aligned (Entries.index (properties (before ++ after))) (mentions before) after := by
  induction after generalizing before with
  | nil => trivial
  | cons segment rest ih =>
    refine ⟨?_, ?_⟩
    · rintro edge node shifts rfl
      rw [Entries.getElem?_index]
      exact binding?_properties horderly hunmixed
    · have hsplit : before ++ segment :: rest = (before ++ [segment]) ++ rest := by simp
      have hmentions : mentions before ++ segment.mention?.toList =
          mentions (before ++ [segment]) := by
        simp
      rw [hsplit] at horderly hunmixed ⊢
      rw [hmentions]
      exact ih _ horderly hunmixed

namespace Segment

/-- A gap that stands for itself matters only in its slot. -/
theorem shifts_eq_of_not_mem (slot index count : Nat) (due : List (Except LookupError Node))
    (h : ∀ found ∈ bare, found < slot ∨ slot + 2 * count ≤ found) :
    Part.shifts bare slot index count due = Part.shifts none slot index count due := by
  induction count generalizing slot index due with
  | zero => rfl
  | succ count ih =>
    have hslot : bare ≠ some (slot + 1) := fun hbare => by grind [h _ hbare]
    rw [Part.shifts, Part.shifts, ih]
    · simp [Part.atGap, hslot]
    · grind

theorem parts_eq_of_not_mem (slot : Nat) (segment : Segment Node)
    (h : ∀ found ∈ bare, found < slot ∨ slot + segment.items.length ≤ found) :
    segment.parts bare slot = segment.parts none slot := by
  cases segment with
  | content | embedded | arrayStart => rfl
  | value edge node shifts =>
    simp only [items, List.length_cons, length_shiftItems] at h
    have hslot : bare ≠ some (slot + 1) := fun hbare => by grind [h _ hbare]
    rw [parts, parts, shifts_eq_of_not_mem]
    · simp [Part.atGap, hslot]
    · grind

theorem allParts_eq_of_not_mem (slot : Nat) (segments : List (Segment Node))
    (h : ∀ found ∈ bare, found < slot ∨ slot + width segments ≤ found) :
    allParts bare slot segments = allParts none slot segments := by
  induction segments generalizing slot with
  | nil => rfl
  | cons segment rest ih =>
    rw [width_cons] at h
    rw [allParts, allParts, parts_eq_of_not_mem, ih]
    all_goals grind

theorem allParts_append (bare : Option Nat) (slot : Nat) (first second : List (Segment Node)) :
    allParts bare slot (first ++ second) =
      allParts bare slot first ++ allParts bare (slot + width first) second := by
  induction first generalizing slot with
  | nil => simp [allParts]
  | cons segment rest ih => simp [allParts, ih, Nat.add_assoc]

end Segment

namespace Outline

/-- The opening tag of the node, which is marked if there is a gap in the node. -/
def startTag (outline : Outline) : OpenTag :=
  match outline.toNode with
  | .element body => body.start
  | _ => outline.start

/-- The references of the segments come in order, and are as a node keeps them. -/
structure Laid (outline : Outline) : Prop where
  plain : ∀ segment ∈ outline.segments, segment.IsPlain
  orderly : Mention.Orderly [] (mentions outline.segments)

variable {outline : Outline}

/-- The parts of a node are those of its segments. -/
theorem parts_toNode (h : outline.Laid)
    (hu : Mention.Unmixed (mentions outline.segments)) (bare : Option Nat) :
    outline.toNode.parts bare =
      .tag (.opening outline.startTag) ::
        (Segment.allParts bare 1 outline.segments ++ [.tag .closing]) := by
  have haligned : Segment.Aligned (Entries.index (Segment.properties outline.segments)) []
      outline.segments := Segment.aligned_properties [] outline.segments h.orderly hu
  exact congrArg (List.cons _)
    (Node.partsFrom_allItems 1 (Scope.counts_empty.passesAll h.plain h.orderly) haligned)

end Outline

end TagTree
