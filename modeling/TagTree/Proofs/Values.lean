import TagTree.Proofs.Alignment

/-!
# The values of a node in order

The values of a node that a fragment gives away are found by going through its items and counting.
In a node that was built they are the bindings that its references record, one for each reference
that a gap follows, in the order of the references (`Tree.lists_values`).
-/

namespace TagTree

namespace Node

/-- The bindings are those of the references that have a value, in the order of the references. -/
def Lists (node : Node) (bindings : List (Binding Node)) : Prop :=
  ∃ slots : List Nat, slots.Pairwise (· < ·) ∧
    (∀ slot, slot ∈ slots ↔ ∃ edge, node.slots[slot]? = some (.reference edge) ∧
      node.slots[slot + 1]? = some .gap) ∧
    List.Forall₂ node.Records slots bindings

end Node

namespace Segment

variable {ν : Type}

/-- The binding that a segment records. -/
def bound? : Segment ν → Option (Binding ν)
  | value edge node _ => some ⟨edge, node⟩
  | _ => none

/-- The key of the value that a segment is, given the counts of the values before it. -/
def key? (counts : Std.TreeMap String Nat) : Segment ν → Option Key
  | value edge _ _ =>
    some ⟨edge.name, if edge.isArray then some (counts.getD edge.name 0) else none⟩
  | _ => none

/-- Of the items of a segment at most the first has a key. -/
theorem filterMap_keys (counts : Std.TreeMap String Nat) (segment : Segment ν)
    (rest : List (Segment ν)) :
    (Item.keys counts (segment.items ++ allItems rest)).filterMap id =
      (segment.key? counts).toList ++
        (Item.keys (segment.tally counts) (allItems rest)).filterMap id := by
  cases segment with
  | content text => rfl
  | embedded edge node => cases edge <;> rfl
  | arrayStart edge => rfl
  | value edge node shifts =>
    have hshifts := keys_shiftItems (tally counts (value edge node shifts)) 1 shifts (allItems rest)
    have hkeys : Item.keys counts ((value edge node shifts).items ++ allItems rest) =
        key? counts (value edge node shifts) :: none ::
          Item.keys (tally counts (value edge node shifts))
            (shiftItems 1 shifts ++ allItems rest) := rfl
    rw [hkeys, hshifts]
    simp [key?, List.filterMap_append, List.filterMap_replicate_of_none]

theorem pairwise_starts (test : Segment ν → Bool) (slot : Nat) (segments : List (Segment ν)) :
    (starts test slot segments).Pairwise (· < ·) := by
  induction segments generalizing slot with
  | nil => exact .nil
  | cons segment rest ih =>
    rw [starts]
    split
    · refine List.pairwise_cons.mpr ⟨fun found hmem => ?_, ih _⟩
      obtain ⟨-, -, -, -, -, rfl⟩ := mem_starts.mp hmem
      have hpos : 0 < segment.items.length := by cases segment <;> simp [items]
      omega
    · exact ih _

end Segment

namespace Outline

variable {outline : Outline}

/-- The bindings of the segments are those that the node lists. -/
theorem lists_bound (hl : outline.Laid) (hu : Mention.Unmixed (Segment.mentions outline.segments)) :
    outline.toNode.Lists (outline.segments.filterMap Segment.bound?) := by
  have hvalue : ∀ (segment : Segment Node) (binding : Binding Node),
      segment.bound? = some binding →
        ∃ shifts, segment = .value binding.reference binding.node shifts := by
    rintro (_ | _ | _ | ⟨edge, node, shifts⟩) _ ⟨⟩
    exact ⟨shifts, rfl⟩
  refine ⟨Segment.starts (fun segment => segment.bound?.isSome) 1 outline.segments,
    Segment.pairwise_starts .., fun slot => ?_,
    forall₂_records hl hu hvalue [] outline.segments rfl⟩
  rw [Segment.mem_starts]
  constructor
  · rintro ⟨before, segment, after, hs, hbound, rfl⟩
    obtain ⟨⟨edge, node⟩, hbound⟩ := Option.isSome_iff_exists.mp hbound
    obtain ⟨shifts, rfl⟩ := hvalue segment _ hbound
    rw [Nat.add_comm 1]
    exact ⟨edge, getElem?_slots_of_segment hs 0 rfl, getElem?_slots_of_segment hs 1 rfl⟩
  · rintro ⟨edge, hedge, hgap⟩
    obtain ⟨before, segment, after, hs, rfl, hkind⟩ := segment_of_reference hedge
    rcases hkind with ⟨node, rfl⟩ | rfl | ⟨node, shifts, rfl⟩
    · cases (getElem?_slots_of_segment hs 1 rfl).symm.trans hgap
    · cases (getElem?_slots_of_segment hs 1 rfl).symm.trans hgap
    · exact ⟨before, _, after, hs, rfl, Nat.add_comm ..⟩

variable (ho : Mention.Orderly [] (Segment.mentions outline.segments))
  (hu : Mention.Unmixed (Segment.mentions outline.segments))
include ho hu

/-- Counting through the items finds the values of the segments. -/
theorem filterMap_values (before after : List (Segment Node))
    (hs : outline.segments = before ++ after) (counts : Std.TreeMap String Nat)
    (hcounts : ∀ name, counts.getD name 0 =
      (Segment.mentions before).countP (Mention.givesValue name)) :
    ((Item.keys counts (Segment.allItems after)).filterMap id).filterMap (fun key =>
        ((Entries.get? key.name (Segment.properties outline.segments)).bind
          (Property.binding? key.index)).map Binding.node) =
      (after.filterMap Segment.bound?).map Binding.node := by
  induction after generalizing before counts with
  | nil => rfl
  | cons segment after ih =>
    have hrest := ih (before ++ [segment]) (by rw [hs, List.append_assoc, List.singleton_append])
      (segment.tally counts) fun name => by
        rw [Segment.getD_tally, hcounts, Segment.mentions_append, List.countP_append]
        simp
    rw [Segment.allItems_cons, Segment.filterMap_keys, List.filterMap_append, hrest]
    cases segment with
    | value edge node shifts =>
      have hindex := Segment.indexOf_eq_countP (hs ▸ ho) (hs ▸ hu)
      have hempty : (∅ : Std.TreeMap String Nat).getD edge.name 0 = 0 := rfl
      rw [hempty, Nat.zero_add, ← hcounts] at hindex
      have hbinding := Segment.binding?_properties (hs ▸ ho) (hs ▸ hu)
      rw [← hs, ← hindex] at hbinding
      simp only [Segment.key?, Option.toList_some, List.filterMap_cons, hbinding, Option.map_some,
        List.filterMap_nil, Segment.bound?, List.map_cons, List.singleton_append]
    | _ => rfl

theorem values_toNode :
    outline.toNode.directory.values =
      (outline.segments.filterMap Segment.bound?).map Binding.node := by
  rw [← filterMap_values ho hu [] outline.segments rfl ∅ fun _ => rfl, List.filterMap_filterMap]
  refine congrArg (List.filterMap · _) (funext fun key => ?_)
  cases key with
  | none => rfl
  | some key =>
    show (do
      let property ← outline.toNode.directory.properties[key.name]?
      return (← property.binding? key.index).node) = _
    rw [Node.getElem?_properties_directory]
    show (do
      let property ← Entries.get? key.name (Segment.properties outline.segments)
      return (← property.binding? key.index).node) = Option.map Binding.node _
    cases Entries.get? key.name (Segment.properties outline.segments) with
    | none => rfl
    | some property =>
      show (do return (← property.binding? key.index).node) =
        (property.binding? key.index).map Binding.node
      cases property.binding? key.index <;> rfl

end Outline

namespace Tree

/-- The values of the root of a tree that was built are those of its references, in order, unless
the root uses a name for an array and for a single property too. -/
theorem lists_values {tree : Tree} (h : tree.Built) (hstub : tree.root.isStub = false)
    (hu : tree.root.isUnmixed = true) :
    ∃ bindings, tree.root.Lists bindings ∧
      tree.root.directory.values = bindings.map Binding.node := by
  obtain ⟨outline, hroot, hl, -, hu⟩ := h.sound.exists_unmixed hstub hu
  rw [hroot]
  exact ⟨_, Outline.lists_bound hl hu, Outline.values_toNode hl.orderly hu⟩

end Tree

end TagTree
