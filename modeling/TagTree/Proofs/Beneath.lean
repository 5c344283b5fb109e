import TagTree.Node.Work
import TagTree.Proofs.Lookup

/-!
# Conditions on all nodes of a tree

A condition that a node and all nodes beneath it meet. Two such conditions decide whether a tree can
be flattened to the tags that it was built from: no node uses a name for an array and for a single
property too, and no node shifts a value that it has just taken back.
-/

namespace TagTree

variable {node : Node} {mention : Mention}

namespace Node

mutual

/-- The node and all nodes beneath it pass the test. -/
def all (test : Node → Bool) : Node → Bool
  | node@(element ⟨_, _, ⟨items⟩, properties, _, _⟩) =>
    test node && allEmbedded test items && allBound test properties
  | stub => test stub

/-- The embedded nodes and all nodes beneath them pass the test. -/
def allEmbedded (test : Node → Bool) : List (Item Node) → Bool
  | [] => true
  | .embedded node :: rest => all test node && allEmbedded test rest
  | _ :: rest => allEmbedded test rest

/-- The nodes that the properties bind and all nodes beneath them pass the test. -/
def allBound (test : Node → Bool) : List (String × Property Node) → Bool
  | [] => true
  | (_, .single ⟨_, node⟩) :: rest => all test node && allBound test rest
  | (_, .array ⟨bindings⟩) :: rest => allBindings test bindings && allBound test rest

/-- The nodes of the bindings and all nodes beneath them pass the test. -/
def allBindings (test : Node → Bool) : List (Binding Node) → Bool
  | [] => true
  | ⟨_, node⟩ :: rest => all test node && allBindings test rest

end

/-- The references of a node to its properties, in order. -/
def references (node : Node) : List Reference :=
  node.items.toList.filterMap fun
    | .reference edge => if edge.isReserved then none else some edge
    | _ => none

/-- No name is used for an array and for a single property too. -/
def isUnmixed (node : Node) : Bool :=
  node.references.all fun first => node.references.all fun second =>
    first.name != second.name || first.isArray == second.isArray

/-- The value that the node took back, if there is one, is not shifted right after. -/
def keepsHeld : Node → Bool
  | element body => body.held.all fun position => !(body.items[position + 1]?).any Item.isShift
  | _ => true

theorem all_self {test : Node → Bool} (h : node.all test = true) : test node = true := by
  cases node with
  | element body =>
    rw [all, Bool.and_eq_true, Bool.and_eq_true] at h
    exact h.1.1
  | gap | null | literal => simpa [all] using h

end Node

/-- Orderly mentions are not reserved. -/
theorem Mention.isReserved_of_orderly {earlier mentions : List Mention}
    (ho : Orderly earlier mentions) (hmem : mention ∈ mentions) :
    mention.edge.isReserved = false := by
  obtain ⟨between, hadm⟩ := ho.exists_admissible hmem
  cases mention with
  | arrayStart edge | value edge => exact hadm.2.1

namespace Outline

variable {outline : Outline}

/-- The references of a node include those that its segments mention. -/
theorem mem_references (ho : Mention.Orderly [] (Segment.mentions outline.segments))
    (hmem : mention ∈ Segment.mentions outline.segments) :
    ∃ edge ∈ outline.toNode.references,
      edge.name = mention.edge.name ∧ edge.isArray = mention.edge.isArray := by
  have hr := Mention.isReserved_of_orderly ho hmem
  obtain ⟨segment, hsegment, hmention⟩ := List.mem_filterMap.mp hmem
  have hitems : ∀ item ∈ segment.items, item ∈ outline.toNode.items.toList := by
    intro item hitem
    exact List.mem_flatMap.mpr ⟨segment, hsegment, hitem⟩
  cases segment with
  | content | embedded => cases hmention
  | arrayStart edge | value edge =>
    obtain rfl := Option.some.inj hmention
    refine ⟨edge, List.mem_filterMap.mpr ⟨.reference edge, ?_, ?_⟩, rfl, rfl⟩
    · exact hitems _ List.mem_cons_self
    · exact if_neg (Bool.eq_false_iff.mp hr)

/-- A node that passes as unmixed has unmixed mentions. -/
theorem unmixed_of_isUnmixed (ho : Mention.Orderly [] (Segment.mentions outline.segments))
    (h : outline.toNode.isUnmixed = true) :
    Mention.Unmixed (Segment.mentions outline.segments) := by
  intro first hfirst second hsecond hname
  obtain ⟨edge, hedge, hedgename, hedgearray⟩ := mem_references ho hfirst
  obtain ⟨other, hother, hothername, hotherarray⟩ := mem_references ho hsecond
  have hpair := List.all_eq_true.mp (List.all_eq_true.mp h edge hedge) other hother
  have hsame : edge.name = other.name := by rw [hedgename, hname, hothername]
  rw [← hedgearray, ← hotherarray]
  simpa [hsame] using hpair

/-- A value that was taken back for good has no shifts. -/
theorem shifts_eq_zero {before after : List (Segment Node)} {edge : Reference} {shifts : Nat}
    (hs : outline.segments = before ++ .value edge node shifts :: after)
    (hheld : outline.held = some (Segment.width before + 1)) (h : outline.toNode.keepsHeld = true) :
    shifts = 0 := by
  obtain ⟨start, language, segments, held⟩ := outline
  subst hs hheld
  cases shifts with
  | zero => rfl
  | succ shifts =>
    have hitem : (Segment.allItems (before ++ .value edge node (shifts + 1) :: after))[
        Segment.width before + 1 + 1]? = some (.shift 1) := by
      rw [Nat.add_assoc, Segment.getElem?_allItems]
      · rfl
      · exact Nat.lt_add_of_pos_left (Nat.zero_lt_succ _)
    simp only [toNode, Node.assemble, Node.keepsHeld, Option.all_some, List.getElem?_toArray,
      hitem] at h
    cases h

end Outline

end TagTree
