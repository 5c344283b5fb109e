import TagTree.Proofs.Draft

/-!
# Look-up by slots

In a node that is made of segments, every gap of a value leads to that value: to the reference of
its segment, and from there to the binding of the reference (`Segment.bindingAt_of_value`). The
value that a node took back is the one of the segment where it did so (`Outline.heldValue_toNode`).
-/

namespace TagTree

namespace Mention

/-- The mention gives a value to the given name. -/
def givesValue (name : String) : Mention → Bool
  | arrayStart _ => false
  | value edge => edge.name == name

/-- Where no name is mixed, all values of the name of an array are its elements. -/
theorem countP_givesValue {mentions : List Mention} {name : String}
    (h : ∀ mention ∈ mentions, mention.edge.name = name → mention.edge.isArray = true) :
    mentions.countP (givesValue name) = elements mentions name := by
  refine List.countP_congr fun mention hmem => ?_
  have harray := h mention hmem
  cases mention with
  | arrayStart edge => simp [givesValue, isElement]
  | value edge =>
    simp only [givesValue, isElement, beq_iff_eq, Bool.and_eq_true]
    exact ⟨fun hname => ⟨harray hname, hname⟩, And.right⟩

end Mention

namespace Segment

variable {ν : Type}

/-- The counts of values by name after one more segment. -/
def tally (counts : Std.TreeMap String Nat) : Segment ν → Std.TreeMap String Nat
  | value edge _ _ => counts.insert edge.name (counts.getD edge.name 0 + 1)
  | _ => counts

theorem getD_tally (counts : Std.TreeMap String Nat) (segment : Segment ν) (name : String) :
    (segment.tally counts).getD name 0 =
      counts.getD name 0 + segment.mention?.toList.countP (Mention.givesValue name) := by
  cases segment with
  | value edge node shifts =>
    by_cases hname : edge.name = name
    · simp [tally, mention?, Mention.givesValue, hname]
    · simp [tally, mention?, Mention.givesValue, hname, Std.TreeMap.getD_insert]
  | _ => rfl

/-- The items of shifts introduce no value. -/
theorem keys_shiftItems (counts : Std.TreeMap String Nat) (first count : Nat)
    (rest : List (Item ν)) :
    Item.keys counts (shiftItems first count ++ rest) =
      List.replicate (2 * count) none ++ Item.keys counts rest := by
  induction count generalizing first with
  | zero => rfl
  | succ count ih =>
    rw [shiftItems_succ, List.cons_append, List.cons_append, Item.keys, Item.keys, ih]
    · rfl
    · nofun
    · nofun

/-- The key of a reference depends on the values before it. -/
theorem keys_items (counts : Std.TreeMap String Nat) (segment : Segment ν)
    (rest : List (Segment ν)) :
    ∃ own : List (Option Key), own.length = segment.items.length ∧
      Item.keys counts (segment.items ++ allItems rest) =
        own ++ Item.keys (segment.tally counts) (allItems rest) := by
  cases segment with
  | content text => exact ⟨[none], rfl, rfl⟩
  | embedded edge node =>
    cases edge with
    | none => exact ⟨[none], rfl, rfl⟩
    | some edge => exact ⟨[none, none], rfl, rfl⟩
  | arrayStart edge => exact ⟨[none, none], rfl, rfl⟩
  | value edge node shifts =>
    refine ⟨some ⟨edge.name, if edge.isArray then some (counts.getD edge.name 0) else none⟩ ::
      none :: List.replicate (2 * shifts) none, by simp [items], ?_⟩
    have hshifts := keys_shiftItems (tally counts (value edge node shifts)) 1 shifts (allItems rest)
    rw [List.cons_append, List.cons_append, ← hshifts]
    rfl

/-- The key of a value: its name and, for an array, the number of values before it. -/
theorem getElem?_keys (counts : Std.TreeMap String Nat) (before : List (Segment ν))
    (edge : Reference) (node : ν) (shifts : Nat) (after : List (Segment ν)) :
    (Item.keys counts (allItems (before ++ value edge node shifts :: after)))[width before]? =
      some (some ⟨edge.name, if edge.isArray then
        some (counts.getD edge.name 0 +
          (mentions before).countP (Mention.givesValue edge.name)) else none⟩) := by
  induction before generalizing counts with
  | nil => rfl
  | cons segment before ih =>
    obtain ⟨own, hlength, hkeys⟩ :=
      keys_items counts segment (before ++ value edge node shifts :: after)
    rw [List.cons_append, allItems_cons, hkeys, width_cons, ← hlength,
      List.getElem?_append_right (Nat.le_add_right _ _), Nat.add_sub_cancel_left, ih, getD_tally,
      mentions_cons, List.countP_append, Nat.add_assoc]

/-- An item of a segment among those of the node. -/
theorem getElem?_allItems (before after : List (Segment ν)) {segment : Segment ν} {place : Nat}
    (h : place < segment.items.length) :
    (allItems (before ++ segment :: after))[width before + place]? = segment.items[place]? := by
  rw [allItems_append, allItems_cons, List.getElem?_append_right (Nat.le_add_right _ _),
    Nat.add_sub_cancel_left, List.getElem?_append_left h]

theorem getElem?_shiftItems (first : Nat) {count place : Nat} (h : place < count) :
    (shiftItems (ν := ν) first count)[2 * place]? = some (.shift (first + place)) ∧
    (shiftItems (ν := ν) first count)[2 * place + 1]? = some .gap := by
  induction count generalizing first place with
  | zero => exact absurd h (Nat.not_lt_zero _)
  | succ count ih =>
    rw [shiftItems_succ]
    cases place with
    | zero => exact ⟨rfl, rfl⟩
    | succ place =>
      obtain ⟨hshift, hgap⟩ := ih (first + 1) (Nat.lt_of_succ_lt_succ h)
      have hindex : first + 1 + place = first + (place + 1) := by omega
      rw [hindex] at hshift
      exact ⟨hshift, hgap⟩

section Value

variable (before after : List (Segment ν)) (edge : Reference) (node : ν) {shifts count : Nat}

/-- A value has a gap after its reference and after each of its shifts. -/
theorem getElem?_gap (h : count ≤ shifts) :
    (allItems (before ++ value edge node shifts :: after))[
      width before + (1 + 2 * count)]? = some .gap := by
  rw [getElem?_allItems]
  · cases count with
    | zero => rfl
    | succ count =>
      have hplace : 1 + 2 * (count + 1) = 2 * count + 1 + 1 + 1 := by omega
      rw [hplace]
      exact (getElem?_shiftItems 1 h).2
  · simp [items]
    omega

/-- A value starts with its reference. -/
theorem getElem?_reference (shifts : Nat) :
    (allItems (before ++ value edge node shifts :: after))[width before]? =
      some (.reference edge) := by
  rw [← Nat.add_zero (width before), getElem?_allItems _ _ (Nat.zero_lt_succ _)]
  rfl

/-- The shifts of a value stand between its gaps. -/
theorem getElem?_shift (h : count < shifts) :
    (allItems (before ++ value edge node shifts :: after))[
      width before + (2 + 2 * count)]? = some (.shift (1 + count)) := by
  have hplace : 2 + 2 * count = 2 * count + 1 + 1 := by omega
  rw [getElem?_allItems, hplace]
  · exact (getElem?_shiftItems 1 h).1
  · simp [items]
    omega

/-- Each gap of a value belongs to its reference. -/
theorem owner?_gap (h : count ≤ shifts) :
    Item.owner? (allItems (before ++ value edge node shifts :: after)).toArray
      (width before + (1 + 2 * count)) = some (edge, width before) := by
  have hreference := getElem?_reference before after edge node shifts
  cases count with
  | zero => rw [Nat.mul_zero, Nat.add_zero, Item.owner?, List.getElem?_toArray, hreference]
  | succ count =>
    have hshift := getElem?_shift before after edge node h
    have hplace : width before + (1 + 2 * (count + 1)) =
        width before + (2 + 2 * count) + 1 := by omega
    have hback : width before + (2 + 2 * count) - 2 * (1 + count) = width before := by omega
    have hle : 2 * (1 + count) ≤ width before + (2 + 2 * count) := by omega
    rw [hplace, Item.owner?]
    simp only [List.getElem?_toArray, hshift, hle, if_true, hback, hreference]

variable {before after edge node}

variable (ho : Mention.Orderly [] (mentions (before ++ value edge node shifts :: after)))
  (hu : Mention.Unmixed (mentions (before ++ value edge node shifts :: after)))

include ho hu

/-- The directory of a node that is made of segments finds the binding of a value by the key of its
reference, unless the same name is used for an array and a single property. -/
theorem binding_of_value {items : Array (Item ν)} :
    (Directory.of items (properties (before ++ value edge node shifts :: after))).binding edge.name
      (Mention.indexOf (mentions before) edge) = .ok ⟨edge, node⟩ := by
  simp only [Directory.binding, Directory.of, Entries.getElem?_index]
  cases ha : edge.isArray with
  | true =>
    obtain ⟨hget, hindex⟩ := get?_properties_of_element ho hu ha
    rw [hget, hindex]
    simp
  | false =>
    obtain ⟨hget, hindex⟩ := get?_properties_of_single ho ha
    rw [hget, hindex]

/-- The key that a reference has by the values before it is the one that the mentions give it. -/
theorem indexOf_eq_countP :
    (if edge.isArray then some ((∅ : Std.TreeMap String Nat).getD edge.name 0 +
      (mentions before).countP (Mention.givesValue edge.name)) else none) =
      Mention.indexOf (mentions before) edge := by
  cases ha : edge.isArray with
  | true =>
    have hmem : .value (edge.marked false) ∈
        mentions (before ++ value edge node shifts :: after) := by
      simp [mention?]
    have harray : ∀ mention ∈ mentions before, mention.edge.name = edge.name →
        mention.edge.isArray = true := by
      intro mention hmention hname
      have hboth : mention ∈ mentions (before ++ value edge node shifts :: after) := by
        rw [mentions_append]
        exact List.mem_append_left _ hmention
      exact (hu mention hboth _ hmem hname).trans ha
    rw [(get?_properties_of_element ho hu ha).2, length_elementsOf,
      Mention.countP_givesValue harray]
    simp
  | false => simp [(get?_properties_of_single ho ha).2]

/-- Each gap of a value leads to its binding. -/
theorem bindingAt_of_value (h : count ≤ shifts) :
    (Directory.of (allItems (before ++ value edge node shifts :: after)).toArray
        (properties (before ++ value edge node shifts :: after))).bindingAt
      (width before + (1 + 2 * count) + 1) = .ok ⟨edge, node⟩ := by
  have hkey : (Directory.of (allItems (before ++ value edge node shifts :: after)).toArray
      (properties (before ++ value edge node shifts :: after))).keyAt?
        (width before + (1 + 2 * count) + 1) =
      some ⟨edge.name, Mention.indexOf (mentions before) edge⟩ := by
    have hkeys := getElem?_keys ∅ before edge node shifts after
    rw [indexOf_eq_countP ho hu] at hkeys
    simp only [Directory.keyAt?, Directory.of, List.getElem?_toArray, getElem?_gap _ _ _ _ h,
      owner?_gap _ _ _ _ h]
    show ((Item.keys ∅ (allItems _))[width before]?).join = _
    rw [hkeys]
    rfl
  simp only [Directory.bindingAt, hkey, binding_of_value ho hu]
  rfl

end Value

end Segment

/-- Only a gap records a binding. -/
theorem Directory.bindingAt_of_not_gap {ν : Type} {directory : Directory ν} {slot : Nat}
    (h : ∀ position, slot = position + 1 → directory.items[position]? ≠ some .gap) :
    directory.bindingAt slot = .error (.slot slot) := by
  have hkey : directory.keyAt? slot = none := by
    cases slot with
    | zero => rfl
    | succ position =>
      rw [keyAt?]
      split
      · rename_i hgap
        exact absurd hgap (h position rfl)
      · rfl
  rw [bindingAt, hkey]

/-- The value that a node took back is that of the segment where it did so. -/
theorem Outline.heldValue_toNode {outline : Outline} {before after : List (Segment Node)}
    {edge : Reference} {node : Node} {shifts : Nat}
    (hs : outline.segments = before ++ .value edge node shifts :: after)
    (hheld : outline.held = some (Segment.width before + 1))
    (ho : Mention.Orderly [] (Segment.mentions outline.segments))
    (hu : Mention.Unmixed (Segment.mentions outline.segments)) :
    outline.toNode.heldValue = .ok node := by
  obtain ⟨start, language, segments, held⟩ := outline
  subst hs hheld
  exact congrArg (fun found => found.bind fun binding => Except.ok binding.node)
    (Segment.bindingAt_of_value ho hu (Nat.zero_le shifts))

end TagTree
