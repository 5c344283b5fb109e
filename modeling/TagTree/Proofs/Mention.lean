import TagTree.Scope.Basic

/-!
# Mentions

The references of a node to its properties, in order, each to start an array or to give a value.
What the next reference may be depends on them alone. A scope is an efficient account of them:
`Scope.Counts` says which mentions it has seen, and `consume_of_referable` that it admits the
references that may come next and gives them their indexes.
-/

namespace TagTree

/-- The reference as a node keeps it: without its index, and marked if its value has a gap. -/
def Reference.marked (edge : Reference) (hasGap : Bool) : Reference :=
  { edge with index := none, flags := { edge.flags with hasGap := hasGap } }

namespace Reference

@[simp] theorem marked_name (edge : Reference) (hasGap : Bool) :
    (edge.marked hasGap).name = edge.name := rfl

@[simp] theorem marked_isArray (edge : Reference) (hasGap : Bool) :
    (edge.marked hasGap).isArray = edge.isArray := rfl

@[simp] theorem marked_index (edge : Reference) (hasGap : Bool) :
    (edge.marked hasGap).index = none := rfl

@[simp] theorem marked_isReserved (edge : Reference) (hasGap : Bool) :
    (edge.marked hasGap).isReserved = edge.isReserved := rfl

@[simp] theorem marked_marked (edge : Reference) (first second : Bool) :
    (edge.marked first).marked second = edge.marked second := rfl

end Reference

/-- A reference of a node to one of its properties. -/
inductive Mention where
  /-- The reference starts an array. -/
  | arrayStart (edge : Reference)
  /-- The reference has a value. -/
  | value (edge : Reference)

namespace Mention

/-- The reference itself. -/
def edge : Mention → Reference
  | arrayStart edge => edge
  | value edge => edge

@[simp] theorem edge_arrayStart (edge : Reference) : (arrayStart edge).edge = edge := rfl

@[simp] theorem edge_value (edge : Reference) : (value edge).edge = edge := rfl

/-- The mention starts the array of the given name. -/
def starts (name : String) : Mention → Bool
  | arrayStart edge => edge.name == name
  | value _ => false

/-- The mention is an element of the array of the given name. -/
def isElement (name : String) : Mention → Bool
  | arrayStart _ => false
  | value edge => edge.isArray && edge.name == name

/-- The mention is the value of the single property of the given name. -/
def isSingle (name : String) : Mention → Bool
  | arrayStart _ => false
  | value edge => !edge.isArray && edge.name == name

/-- The number of elements that an array has. -/
def elements (mentions : List Mention) (name : String) : Nat :=
  mentions.countP (isElement name)

/-- The array has been started. -/
def started (mentions : List Mention) (name : String) : Bool :=
  mentions.any (starts name)

/-- The name has been given a single value. -/
def taken (mentions : List Mention) (name : String) : Bool :=
  mentions.any (isSingle name)

/-- The name has been mentioned in any way. -/
def named (mentions : List Mention) (name : String) : Bool :=
  mentions.any fun mention => mention.edge.name == name

/-- The element of an array that a reference after the mentions stands for. -/
def indexOf (mentions : List Mention) (edge : Reference) : Option Nat :=
  if edge.isReserved then none
  else if edge.isArray then some (elements mentions edge.name) else none

/-- The reference may come after the mentions: a reserved one always, one to an array if its
explicit index is the number of elements so far, and one to a single property once. -/
def Referable (mentions : List Mention) (edge : Reference) : Prop :=
  edge.isReserved = true ∨
  if edge.isArray then ∀ index ∈ edge.index, index = elements mentions edge.name
  else taken mentions edge.name = false

/-- The reference may be given a value: it is not reserved, and its array has been started and not
been replaced by a single value. -/
def Bindable (mentions : List Mention) (edge : Reference) : Prop :=
  edge.isReserved = false ∧
  (edge.isArray = true → started mentions edge.name = true ∧ taken mentions edge.name = false)

/-- The reference may start an array: its name has no property yet. -/
def Startable (mentions : List Mention) (edge : Reference) : Prop :=
  edge.isReserved = false ∧ edge.isArray = true ∧ named mentions edge.name = false

/-- The mention may come after the others. -/
def Admissible (earlier : List Mention) : Mention → Prop
  | arrayStart edge => Referable earlier edge ∧ Startable earlier edge
  | value edge => Referable earlier edge ∧ Bindable earlier edge

/-- Each of the mentions may come after those before it. -/
def Orderly (earlier : List Mention) : List Mention → Prop
  | [] => True
  | mention :: rest => mention.Admissible earlier ∧ Orderly (earlier ++ [mention]) rest

/-- A single value comes for a name that has none. -/
theorem taken_of_admissible {earlier : List Mention} {edge : Reference}
    (h : Admissible earlier (.value (edge.marked false))) (ha : edge.isArray = false) :
    taken earlier edge.name = false := by
  have hres : edge.isReserved = false := h.2.1
  simpa [Referable, ha, hres] using h.1

/-- The mention as a node keeps it. -/
def plain : Mention → Mention
  | arrayStart edge => arrayStart (edge.marked false)
  | value edge => value (edge.marked false)

section Plain

variable (mentions : List Mention) (name : String)

theorem comp_plain {test : Mention → Bool} (h : ∀ mention, test (plain mention) = test mention) :
    test ∘ plain = test :=
  funext h

@[simp] theorem elements_map_plain :
    elements (mentions.map plain) name = elements mentions name := by
  rw [elements, List.countP_map, comp_plain fun mention => by cases mention <;> rfl]
  rfl

@[simp] theorem started_map_plain : started (mentions.map plain) name = started mentions name := by
  rw [started, List.any_map, comp_plain fun mention => by cases mention <;> rfl]
  rfl

@[simp] theorem taken_map_plain : taken (mentions.map plain) name = taken mentions name := by
  rw [taken, List.any_map, comp_plain fun mention => by cases mention <;> rfl]
  rfl

@[simp] theorem named_map_plain : named (mentions.map plain) name = named mentions name := by
  rw [named, List.any_map, comp_plain fun mention => by cases mention <;> rfl]
  rfl

end Plain

section Append

variable (mentions more : List Mention) (name : String)

@[simp] theorem elements_append :
    elements (mentions ++ more) name = elements mentions name + elements more name :=
  List.countP_append

@[simp] theorem started_append :
    started (mentions ++ more) name = (started mentions name || started more name) :=
  List.any_append

@[simp] theorem taken_append :
    taken (mentions ++ more) name = (taken mentions name || taken more name) :=
  List.any_append

@[simp] theorem named_append :
    named (mentions ++ more) name = (named mentions name || named more name) :=
  List.any_append

end Append

section Single

variable (edge : Reference) (name : String)

@[simp] theorem elements_arrayStart : elements [arrayStart edge] name = 0 := rfl

@[simp] theorem elements_value :
    elements [value edge] name = if edge.isArray && edge.name == name then 1 else 0 := by
  simp [elements, isElement, List.countP_cons]

@[simp] theorem started_arrayStart : started [arrayStart edge] name = (edge.name == name) := by
  simp [started, starts]

@[simp] theorem started_value : started [value edge] name = false := rfl

@[simp] theorem taken_arrayStart : taken [arrayStart edge] name = false := rfl

@[simp] theorem taken_value : taken [value edge] name = (!edge.isArray && edge.name == name) := by
  simp [taken, isSingle]

@[simp] theorem named_singleton (mention : Mention) :
    named [mention] name = (mention.edge.name == name) := by
  simp [named]

end Single

variable {mentions earlier : List Mention} {edge : Reference}

section Unnamed

variable {name : String} (h : named mentions name = false)

include h

/-- A test that only mentions of the name pass fails where the name was never mentioned. -/
theorem any_eq_false_of_named {test : Mention → Bool}
    (htest : ∀ mention, test mention = true → mention.edge.name = name) :
    mentions.any test = false :=
  List.any_eq_false.mpr fun mention hmem hpass =>
    List.any_eq_false.mp h mention hmem (beq_iff_eq.mpr (htest mention hpass))

/-- A name that was never mentioned has no elements. -/
theorem elements_eq_zero : elements mentions name = 0 :=
  List.countP_eq_zero.mpr <| List.any_eq_false.mp <| any_eq_false_of_named h fun mention => by
    cases mention <;> simp [isElement, Mention.edge]

/-- A name that was never mentioned has no single value. -/
theorem taken_eq_false : taken mentions name = false :=
  any_eq_false_of_named h fun mention => by cases mention <;> simp [isSingle, Mention.edge]

/-- A name that was never mentioned is not that of an array. -/
theorem started_eq_false : started mentions name = false :=
  any_eq_false_of_named h fun mention => by cases mention <;> simp [starts, Mention.edge]

end Unnamed

/-- No name is used both for an array and for a single property. -/
def Unmixed (mentions : List Mention) : Prop :=
  ∀ first ∈ mentions, ∀ second ∈ mentions, first.edge.name = second.edge.name →
    first.edge.isArray = second.edge.isArray

/-- The name of an array is not that of a single property. -/
theorem taken_eq_false_of_array {mention : Mention} (hu : Unmixed mentions)
    (hmem : mention ∈ mentions) (ha : mention.edge.isArray = true) :
    taken mentions mention.edge.name = false := by
  rw [taken, List.any_eq_false]
  intro other hother hsingle
  cases other with
  | arrayStart edge => simp [isSingle] at hsingle
  | value edge =>
    simp only [isSingle, Bool.and_eq_true, Bool.not_eq_true', beq_iff_eq] at hsingle
    have := hu _ hother _ hmem hsingle.2
    simp_all [Mention.edge]

theorem referable_map_plain : Referable (mentions.map plain) edge ↔ Referable mentions edge := by
  simp [Referable]

theorem bindable_map_plain : Bindable (mentions.map plain) edge ↔ Bindable mentions edge := by
  simp [Bindable]

theorem startable_map_plain : Startable (mentions.map plain) edge ↔ Startable mentions edge := by
  simp [Startable]

theorem admissible_map_plain {mention : Mention} :
    mention.Admissible (mentions.map plain) ↔ mention.Admissible mentions := by
  cases mention <;>
    simp only [Admissible, referable_map_plain, bindable_map_plain, startable_map_plain]

/-- A reference that may come may come without its index too. -/
theorem Referable.marked (h : Referable mentions edge) (hasGap : Bool) :
    Referable mentions (edge.marked hasGap) := by
  refine h.imp_right fun h => ?_
  cases ha : edge.isArray with
  | true => simp [ha]
  | false => simpa [ha] using h

/-- For a reference without an index it does not matter how it is marked. -/
theorem Referable.of_marked {hasGap : Bool} (h : Referable mentions (edge.marked hasGap))
    (hindex : edge.index = none) : Referable mentions edge := by
  refine h.imp_right fun h => ?_
  cases ha : edge.isArray with
  | true => simp [hindex]
  | false => simpa [ha] using h

theorem orderly_append {first second : List Mention} :
    Orderly earlier (first ++ second) ↔
      Orderly earlier first ∧ Orderly (earlier ++ first) second := by
  induction first generalizing earlier with
  | nil => simp [Orderly]
  | cons mention rest ih => simp [Orderly, ih, and_assoc]

theorem orderly_toList {mention? : Option Mention} :
    Orderly earlier mention?.toList ↔ ∀ mention ∈ mention?, mention.Admissible earlier := by
  cases mention? <;> simp [Orderly]

/-- Each of the mentions was admissible where it came. -/
theorem Orderly.exists_admissible {mention : Mention} (ho : Orderly earlier mentions)
    (hmem : mention ∈ mentions) : ∃ between, mention.Admissible (earlier ++ between) := by
  obtain ⟨between, after, rfl⟩ := List.append_of_mem hmem
  exact ⟨between, (orderly_append.mp ho).2.1⟩

/-- Orderly mentions are orderly as a node keeps them. -/
theorem Orderly.map_plain (h : Orderly earlier mentions) :
    Orderly (earlier.map plain) (mentions.map plain) := by
  induction mentions generalizing earlier with
  | nil => trivial
  | cons mention rest ih =>
    obtain ⟨hm, hrest⟩ := h
    refine ⟨?_, by simpa using ih hrest⟩
    rw [admissible_map_plain]
    cases mention with
    | arrayStart | value => exact ⟨hm.1.marked false, hm.2⟩

/-- Orderly mentions of a name start its array or give it a single value. -/
theorem named_eq (name : String)
    (h : named earlier name = (started earlier name || taken earlier name))
    (ho : Orderly earlier mentions) :
    named (earlier ++ mentions) name =
      (started (earlier ++ mentions) name || taken (earlier ++ mentions) name) := by
  induction mentions generalizing earlier with
  | nil => simpa using h
  | cons mention rest ih =>
    obtain ⟨hm, hrest⟩ := ho
    rw [← List.singleton_append, ← List.append_assoc]
    refine ih ?_ hrest
    rw [named_append, started_append, taken_append, h, named_singleton]
    cases mention with
    | arrayStart edge =>
      rw [started_arrayStart, taken_arrayStart, Bool.or_false, edge_arrayStart, Bool.or_right_comm]
    | value edge =>
      -- an element of an array adds nothing, since its array has been started
      by_cases hn : edge.name = name
      · subst hn
        have hb := hm.2.2
        cases ha : edge.isArray <;> simp_all
      · have hne : (edge.name == name) = false := beq_false_of_ne hn
        simp [hne]

end Mention

/-- The scope has seen the given mentions. -/
structure Scope.Counts (scope : Scope) (mentions : List Mention) : Prop where
  count : ∀ name, scope.count name = Mention.elements mentions name
  scalars : ∀ name, scope.scalars.contains name = Mention.taken mentions name

namespace Scope

variable {scope : Scope} {mentions : List Mention} {edge : Reference}

/-- A fresh scope has seen nothing. -/
theorem counts_empty : Counts {} [] where
  count name := by simp [count, Mention.elements]
  scalars name := by simp [Mention.taken]

theorem count_setCount (scope : Scope) (name other : String) (count : Nat) :
    (scope.setCount name count).count other =
      if name = other then count else scope.count other := by
  simp [setCount, Scope.count, Std.TreeMap.getD_insert]

/-- A reserved reference leaves the counters alone. -/
theorem consume_of_reserved (h : edge.isReserved = true) :
    scope.consume edge = ({ scope with lastReference := some edge.name }, .ok none) := by
  simp [consume, h]

/-- The counters do not depend on the last reference. -/
theorem Counts.withLast (h : Counts scope mentions) (last : Option String) :
    Counts { scope with lastReference := last } mentions :=
  ⟨h.count, h.scalars⟩

/-- One more element of an array. -/
theorem Counts.setCount (h : Counts scope mentions) (ha : edge.isArray = true) :
    Counts (scope.setCount edge.name (Mention.elements mentions edge.name + 1))
      (mentions ++ [.value (edge.marked false)]) where
  count name := by
    rw [count_setCount, h.count]
    by_cases hn : edge.name = name <;> simp [ha, hn]
  scalars name := by
    show scope.scalars.contains name = _
    simpa [ha] using h.scalars name

theorem contains_insert (names : Std.TreeSet String) (name other : String) :
    (names.insert name).contains other = (name == other || names.contains other) := by
  rw [Std.TreeSet.contains_insert, Bool.eq_iff_iff]
  simp

/-- One more single value. -/
theorem Counts.insert (h : Counts scope mentions) (ha : edge.isArray = false) :
    Counts { scope with scalars := scope.scalars.insert edge.name }
      (mentions ++ [.value (edge.marked false)]) where
  count name := by
    show scope.count name = _
    simpa [ha] using h.count name
  scalars name := by
    rw [contains_insert, h.scalars]
    simp [ha, Bool.or_comm]

/-- A reference to an array is taken if it has no index or the index is the count. -/
theorem consume_of_array (scope : Scope) (hr : edge.isReserved = false) (ha : edge.isArray = true) :
    scope.consume edge =
      if edge.index = none ∨ edge.index = some (scope.count edge.name) then
        ({ scope with lastReference := some edge.name }.setCount edge.name
          (scope.count edge.name + 1), .ok (some (scope.count edge.name)))
      else ({ scope with lastReference := some edge.name },
        .error (.arrayIndexMismatch edge.name (scope.count edge.name) (edge.index.getD 0))) := by
  cases hi : edge.index with
  | none => simp [consume, hr, ha, hi, count]
  | some found =>
    by_cases hc : found = scope.arrays.getD edge.name 0 <;> simp [consume, hr, ha, hi, count, hc]

/-- A reference to a single property is taken once. -/
theorem consume_of_single (scope : Scope) (hr : edge.isReserved = false)
    (ha : edge.isArray = false) :
    scope.consume edge =
      if scope.scalars.contains edge.name then
        ({ scope with lastReference := some edge.name }, .error (.duplicateBinding edge.name))
      else ({ scope with lastReference := some edge.name
                         scalars := scope.scalars.insert edge.name }, .ok none) := by
  simp [consume, hr, ha]

/-- A reference that may come next is admitted, and has the index that the mentions give it. -/
theorem consume_of_referable (h : Counts scope mentions) (hr : edge.isReserved = false)
    (hm : Mention.Referable mentions edge) :
    ∃ after, scope.consume edge = (after, .ok (Mention.indexOf mentions edge)) ∧
      Counts after (mentions ++ [.value (edge.marked false)]) ∧
      after.lastReference = some edge.name := by
  have hm := hm.resolve_left (by simp [hr])
  have hlast := h.withLast (some edge.name)
  cases ha : edge.isArray with
  | true =>
    have hindex : edge.index = none ∨ edge.index = some (scope.count edge.name) := by
      cases hi : edge.index <;> simp_all [h.count]
    refine ⟨_, ?_, hlast.setCount ha, rfl⟩
    rw [consume_of_array scope hr ha, if_pos hindex, h.count, Mention.indexOf, hr, ha]
    rfl
  | false =>
    have hfree : scope.scalars.contains edge.name = false := by
      rw [h.scalars]
      simpa [ha] using hm
    refine ⟨_, ?_, hlast.insert ha, rfl⟩
    rw [consume_of_single scope hr ha, hfree, Mention.indexOf, hr, ha]
    rfl

/-- A reference that may not come next is refused. -/
theorem consume_of_not_referable (h : Counts scope mentions)
    (hm : ¬ Mention.Referable mentions edge) :
    ∃ after error, scope.consume edge = (after, .error error) := by
  simp only [Mention.Referable, not_or, Bool.not_eq_true] at hm
  obtain ⟨hr, hm⟩ := hm
  cases ha : edge.isArray with
  | true =>
    have hindex : ¬ (edge.index = none ∨ edge.index = some (scope.count edge.name)) := by
      cases hi : edge.index <;> simp_all [h.count]
    exact ⟨_, _, by rw [consume_of_array scope hr ha, if_neg hindex]⟩
  | false =>
    have htaken : scope.scalars.contains edge.name = true := by
      rw [h.scalars]
      simpa [ha] using hm
    exact ⟨_, _, by rw [consume_of_single scope hr ha, if_pos htaken]⟩

/-- A reference may be given the index that it comes to. -/
theorem consume_withIndex {after : Scope} {index : Nat}
    (h : scope.consume edge = (after, .ok (some index))) :
    scope.consume { edge with index := some index } = (after, .ok (some index)) := by
  rcases Bool.eq_false_or_eq_true edge.isReserved with hr | hr
  · rw [consume_of_reserved hr] at h
    cases h
  · rcases Bool.eq_false_or_eq_true edge.isArray with ha | ha
    · rw [consume_of_array scope hr ha] at h
      split at h
      · cases h
        have hother := @consume_of_array { edge with index := some (scope.count edge.name) }
          scope hr ha
        exact hother.trans (if_pos (.inr rfl))
      · cases h
    · rw [consume_of_single scope hr ha] at h
      split at h <;> cases h

/-- The start of an array, after the reference to it. -/
theorem Counts.startArray (h : Counts scope (mentions ++ [.value (edge.marked false)]))
    (hs : Mention.Startable mentions edge) :
    Counts (scope.startArray edge.name) (mentions ++ [.arrayStart (edge.marked false)]) where
  count name := by
    have hcount := h.count name
    rw [Scope.startArray, count_setCount]
    by_cases hn : edge.name = name
    · simp [← hn, Mention.elements_eq_zero hs.2.2]
    · simpa [hn] using hcount
  scalars name := by
    show scope.scalars.contains name = _
    simpa [hs.2.1] using h.scalars name

end Scope

end TagTree
