import TagTree.Cursor.Basic
import TagTree.Node.Work
import TagTree.Run

/-!
# Walks

A walk is a cursor and all the steps that it can take. It ends because each step lowers the work
that remains (`remaining_lt_of_next`). A step that fails ends the walk in place of the tag that it
started from.
-/

namespace TagTree

variable {place found : Place} {name : String} {slot later : Nat}

/-- The work that remains from a slot on, in the node and after it in the nodes above. -/
def Trail.remaining : Trail → Nat → Nat
  | ⟨place, parent, parentSlot, _, _, _, _, _, _, _, _⟩, slot =>
    (place.node.slotCount - slot) * (1 + place.node.childrenWork) + 1 +
      match parent with
      | none => 0
      | some parent => parent.remaining (parentSlot + 1)

/-- The work that remains from a cursor on. -/
def Cursor.remaining (cursor : Cursor) : Nat :=
  cursor.trail.remaining cursor.slot

namespace Place

variable {number : Nat} {binding : Binding Place}

theorem work_le_of_mem_locateBindings {bindings : List (Binding Node)}
    (h : binding ∈ place.locateBindings number bindings) :
    binding.node.node.work ≤ Node.bindingsWork bindings := by
  induction bindings generalizing number with
  | nil => simp [locateBindings] at h
  | cons first rest ih =>
    rw [Node.bindingsWork]
    rcases List.mem_cons.mp h with rfl | h
    · exact Nat.le_add_right _ _
    · exact Nat.le_trans (ih h) (Nat.le_add_left _ _)

theorem work_le_of_mem_locateProperties {properties : List (String × Property Node)}
    {property : Property Place} (h : (name, property) ∈ place.locateProperties number properties)
    (hb : binding ∈ property.bindings) :
    binding.node.node.work ≤ Node.propertiesWork properties := by
  induction properties generalizing number with
  | nil => simp [locateProperties] at h
  | cons first rest ih =>
    obtain ⟨present, located⟩ := first
    rcases List.mem_cons.mp h with heq | h
    · obtain ⟨rfl, rfl⟩ := Prod.mk.inj heq
      cases located with
      | single bound =>
        obtain rfl := List.mem_singleton.mp hb
        rw [Node.propertiesWork]
        exact Nat.le_add_right _ _
      | array bindings =>
        have hmem : binding ∈ place.locateBindings number bindings.toList := by
          simpa [locateProperty, Property.bindings] using hb
        rw [Node.propertiesWork]
        exact Nat.le_trans (work_le_of_mem_locateBindings hmem) (Nat.le_add_right _ _)
    · have := ih h
      cases located <;> rw [Node.propertiesWork] <;> omega

theorem work_le_of_mem_locateItems {items : List (Item Node)}
    (h : .embedded found ∈ place.locateItems number items) :
    found.node.work ≤ Node.itemsWork items := by
  induction items generalizing number with
  | nil => simp [locateItems] at h
  | cons item rest ih =>
    cases item with
    | embedded node =>
      rw [Node.itemsWork]
      rcases List.mem_cons.mp h with heq | h
      · cases heq
        exact Nat.le_add_right _ _
      · exact Nat.le_trans (ih h) (Nat.le_add_left _ _)
    | _ =>
      rcases List.mem_cons.mp h with heq | h
      · cases heq
      · simpa [Node.itemsWork] using ih h

theorem length_locateItems (place : Place) (number : Nat) (items : List (Item Node)) :
    (place.locateItems number items).length = items.length := by
  induction items generalizing number with
  | nil => rfl
  | cons item rest ih => cases item <;> simp [locateItems, ih]

/-- The places of the parts are as many as the parts. -/
theorem size_items (place : Place) : place.items.size = place.node.items.size := by
  simp [items, length_locateItems]

theorem work_le_of_mem_items (h : .embedded found ∈ place.items) :
    found.node.work ≤ place.node.childrenWork := by
  have := work_le_of_mem_locateItems (List.mem_toArray.mp h)
  rw [Node.childrenWork]
  omega

theorem work_le_of_binding {index : Option Nat}
    (h : place.directory.binding name index = .ok binding) :
    binding.node.node.work ≤ place.node.childrenWork := by
  obtain ⟨property, hp, hb⟩ := Option.bind_eq_some_iff.mp (Directory.property_of_binding h)
  have hp : Entries.get? name place.properties = some property := by
    rw [← hp]
    exact (Entries.getElem?_index _ _).symm
  have := work_le_of_mem_locateProperties (Entries.mem_of_get? hp)
    (Property.mem_bindings_of_binding? hb)
  rw [Node.childrenWork]
  omega

theorem work_le_of_held (h : place.held = .ok found) :
    found.node.work ≤ place.node.childrenWork := by
  obtain ⟨key, binding, hbinding, rfl⟩ := Directory.binding_of_held h
  exact work_le_of_binding hbinding

end Place

namespace Survey

theorem work_le_of_valueAt (h : (Survey.of place).valueAt slot = .ok found) :
    found.node.work ≤ place.node.childrenWork := by
  obtain ⟨binding, hbinding, hfound⟩ := bind_eq_ok.mp h
  obtain ⟨key, -, hkey⟩ := bind_eq_ok.mp hbinding
  exact Except.ok.inj hfound ▸ Place.work_le_of_binding (ok_of_mapError hkey)

theorem work_le_of_mem_arrivalsFrom {items : List (Item Place)}
    (h : .ok found ∈ (Survey.of place).arrivalsFrom slot items) :
    found.node.work ≤ place.node.childrenWork := by
  induction items generalizing slot found with
  | nil => simp [arrivalsFrom] at h
  | cons item rest ih =>
    rcases List.mem_cons.mp h with h | h
    · unfold arrival at h
      split at h
      · rename_i next tail hmem hlater
        obtain ⟨last, rfl, hheld⟩ := bind_eq_ok.mp h.symm
        have := @ih last (slot + 1) (by simp [hlater])
        have := Place.work_le_of_held (ok_of_mapError hheld)
        have := last.node.childrenWork_lt
        omega
      · exact work_le_of_valueAt h.symm
    · exact ih h

theorem work_le_of_mem_arrivals (h : .ok found ∈ (Survey.of place).arrivals) :
    found.node.work ≤ place.node.childrenWork :=
  work_le_of_mem_arrivalsFrom (List.mem_toArray.mp h)

end Survey

namespace Trail

/-- A stop that a search from a slot may come to: it is not before the slot, and a child that it
enters is one of the node's and stands in one of its slots. -/
def Reaches (trail : Trail) (slot : Nat) : Stop → Prop
  | .here found => slot ≤ found
  | .enter found place _ =>
    slot ≤ found ∧ found < trail.node.slotCount ∧ place.node.work ≤ trail.node.childrenWork

variable {trail : Trail} {order : Order} {position : Nat} {stop : Stop}

theorem Reaches.mono (hle : slot ≤ later) (h : trail.Reaches later stop) :
    trail.Reaches slot stop := by
  cases stop with
  | here found => exact Nat.le_trans hle h
  | enter found place bare => exact ⟨Nat.le_trans hle h.1, h.2⟩

theorem reaches_of_enterValue (hslot : position + 1 < trail.node.slotCount)
    (h : trail.enterValue order position = .ok stop) : trail.Reaches (position + 1) stop := by
  unfold enterValue at h
  cases order with
  | final =>
    obtain ⟨place, hplace, hstop⟩ := bind_eq_ok.mp h
    cases hstop
    rw [trail.survey_eq] at hplace
    exact ⟨Nat.le_refl _, hslot, Survey.work_le_of_valueAt hplace⟩
  | replayed =>
    obtain ⟨place, hplace, hstop⟩ := bind_eq_ok.mp h
    cases hstop
    refine ⟨Nat.le_refl _, hslot, ?_⟩
    cases hget : trail.arrivals[position]? with
    | none => simp [hget] at hplace
    | some arrival =>
      obtain rfl : arrival = .ok place := by simpa [hget] using hplace
      have hmem := Array.mem_of_getElem? hget
      rw [trail.arrivals_eq, trail.survey_eq] at hmem
      exact Survey.work_le_of_mem_arrivals hmem

/-- The items that a trail has surveyed are those of its node. -/
theorem size_items (trail : Trail) : trail.survey.directory.items.size = trail.node.items.size := by
  rw [trail.survey_eq]
  exact trail.place.size_items

theorem slot_lt_of_position {node : Node} (h : position < node.items.size) :
    position + 1 < node.slotCount := by
  cases node with
  | element body =>
    simp only [Node.items, Node.slotCount] at h ⊢
    omega
  | _ => simp [Node.items] at h

/-- A scan goes on to the next slot. -/
theorem reaches_of_scan
    (h : trail.scan order position = .ok stop) : trail.Reaches (position + 1) stop := by
  have hslot {item : Item Place} {position : Nat}
      (hget : trail.survey.directory.items[position]? = some item) :
      position + 1 < trail.node.slotCount :=
    slot_lt_of_position (trail.size_items ▸ (Array.getElem?_eq_some_iff.mp hget).1)
  fun_induction Trail.scan trail order position with
  | case1 position slot place hget =>
    cases h
    have hmem := Array.mem_of_getElem? hget
    rw [trail.survey_eq] at hmem
    exact ⟨Nat.le_refl _, hslot hget, Place.work_le_of_mem_items hmem⟩
  | case2 position slot hget before hbare =>
    cases h
    exact Nat.le_refl _
  | case3 position slot hget before hbare hskip ih => exact (ih h).mono (Nat.le_succ _)
  | case4 position slot hget before hbare hskip => exact reaches_of_enterValue (hslot hget) h
  | case5 position index hget horder ih => exact (ih h).mono (Nat.le_succ _)
  | case6 position index hget horder =>
    cases h
    exact Nat.le_refl _
  | case7 position slot hitem hgap hshift =>
    cases h
    exact Nat.le_refl _

theorem remaining_eq (trail : Trail) (slot : Nat) :
    trail.remaining slot =
      (trail.node.slotCount - slot) * (1 + trail.node.childrenWork) + 1 +
        trail.parent.elim 0 (·.remaining (trail.parentSlot + 1)) := by
  obtain ⟨_, _ | _, _, _, _, _, _, _, _, _, _⟩ := trail <;> rw [remaining] <;> rfl

theorem remaining_mono (trail : Trail) (h : slot ≤ later) :
    trail.remaining later ≤ trail.remaining slot := by
  have := Nat.mul_le_mul_right (1 + trail.node.childrenWork)
    (Nat.sub_le_sub_left h trail.node.slotCount)
  rw [remaining_eq, remaining_eq]
  omega

theorem remaining_succ_lt (h : slot < trail.node.slotCount) :
    trail.remaining (slot + 1) + trail.node.childrenWork < trail.remaining slot := by
  have heq : trail.node.slotCount - slot = trail.node.slotCount - (slot + 1) + 1 := by omega
  rw [remaining_eq, remaining_eq, heq, Nat.add_mul]
  omega

theorem remaining_cursorAt (h : trail.Reaches slot stop) :
    (trail.cursorAt stop).remaining ≤ trail.remaining slot := by
  cases stop with
  | here found => exact trail.remaining_mono h
  | enter found place bare =>
    obtain ⟨hle, hlt, hwork⟩ := h
    have hstep := remaining_succ_lt hlt
    have hmono := trail.remaining_mono hle
    have heq := place.node.work_eq
    have hchild : (trail.cursorAt (.enter found place bare)).remaining =
        place.node.slotCount * (1 + place.node.childrenWork) + 1 +
          trail.remaining (found + 1) := by
      rw [cursorAt, Cursor.remaining, remaining_eq]
      rfl
    omega

/-- A step leaves no more to walk. -/
theorem remaining_of_seek {cursor : Cursor} (h : trail.seek order slot = .ok (some cursor)) :
    cursor.remaining ≤ trail.remaining (slot + 1) ∧
    (trail.node.slotCount ≤ slot + 1 → cursor.remaining < trail.remaining (slot + 1)) := by
  fun_induction Trail.seek order trail slot with
  | case1 place parent parentSlot depth ladder skips bare slot hslot =>
    simp only [bind, Except.bind] at h
    split at h
    · simp at h
    · rename_i stop hscan
      simp only [pure, Except.pure, Except.ok.injEq, Option.some.injEq] at h
      subst h
      refine ⟨remaining_cursorAt (reaches_of_scan hscan), fun hle => ?_⟩
      exact absurd hslot (Nat.not_lt.mpr hle)
  | case2 => simp at h
  | case3 place parentSlot depth ladder skips bare slot hslot parent _ ih =>
    have hup := (ih h).1
    refine ⟨?_, fun _ => ?_⟩ <;> rw [remaining] <;> omega

end Trail

namespace Cursor

/-- A step lowers the work that remains. -/
theorem remaining_lt_of_next {order : Order} {cursor found : Cursor}
    (h : cursor.next order = .ok (some found)) : found.remaining < cursor.remaining := by
  obtain ⟨hle, hlt⟩ := Trail.remaining_of_seek h
  have hmono := cursor.trail.remaining_mono (Nat.le_succ cursor.slot)
  rcases Nat.lt_or_ge cursor.slot cursor.trail.node.slotCount with hslot | hslot
  · have := Trail.remaining_succ_lt hslot
    unfold remaining at hle ⊢
    omega
  · have := hlt (Nat.le_succ_of_le hslot)
    exact Nat.lt_of_lt_of_le this hmono

/-- The cursor and all that it steps to. A step that fails drops the tag that it started from. -/
def walk (cursor : Cursor) (order : Order) : Run Cursor :=
  match _h : cursor.next order with
  | .error error => .fail error
  | .ok none => ⟨[cursor], none⟩
  | .ok (some found) => .cons cursor (found.walk order)
termination_by cursor.remaining
decreasing_by exact remaining_lt_of_next _h

end Cursor

end TagTree
