import TagTree.Node.Lookup

/-!
# Work

The work of a node bounds the number of tags that a traversal of it can meet, whatever the items
say. It is what every traversal lowers: a child that a node reaches has less work than the node
(`work_le_of_binding`, `work_le_of_history`).
-/

namespace TagTree

variable {binding : Binding Node} {name : String} {properties : List (String × Property Node)}
  {node : Node} {index : Option Nat} {ν : Type}

namespace Node

mutual

/-- The work of a node: for each of its slots, one tag and all the children. -/
def work : Node → Nat
  | element ⟨_, _, ⟨items⟩, properties, _, _⟩ =>
    (items.length + 2) * (1 + (itemsWork items + propertiesWork properties))
  | _ => 1

/-- The work of the embedded nodes. -/
def itemsWork : List (Item Node) → Nat
  | [] => 0
  | .embedded node :: rest => node.work + itemsWork rest
  | _ :: rest => itemsWork rest

/-- The work of the bound nodes. -/
def propertiesWork : List (String × Property Node) → Nat
  | [] => 0
  | (_, .single ⟨_, node⟩) :: rest => node.work + propertiesWork rest
  | (_, .array ⟨bindings⟩) :: rest => bindingsWork bindings + propertiesWork rest

/-- The work of the nodes in the bindings. -/
def bindingsWork : List (Binding Node) → Nat
  | [] => 0
  | ⟨_, node⟩ :: rest => node.work + bindingsWork rest

end

/-- The work of the children of a node. -/
def childrenWork (node : Node) : Nat :=
  itemsWork node.items.toList + propertiesWork node.properties

/-- The work of a node, slot by slot. -/
theorem work_eq (node : Node) : node.work = node.slotCount * (1 + node.childrenWork) := by
  cases node with
  | element body => simp [work, childrenWork, slotCount, items, properties]
  | _ => rfl

theorem childrenWork_lt (node : Node) : node.childrenWork < node.work := by
  have hpos : 0 < node.slotCount := by cases node <;> simp [slotCount]
  have hle := Nat.mul_le_mul_right (1 + node.childrenWork) hpos
  rw [work_eq]
  omega

theorem work_le_bindingsWork {bindings : List (Binding Node)} (h : binding ∈ bindings) :
    binding.node.work ≤ bindingsWork bindings := by
  induction bindings with
  | nil => simp at h
  | cons first rest ih =>
    rw [bindingsWork]
    rcases List.mem_cons.mp h with rfl | h
    · omega
    · have := ih h
      omega

theorem work_le_propertiesWork {property : Property Node} (h : (name, property) ∈ properties)
    (hb : binding ∈ property.bindings) : binding.node.work ≤ propertiesWork properties := by
  induction properties with
  | nil => simp at h
  | cons first rest ih =>
    rcases List.mem_cons.mp h with rfl | h
    · cases property with
      | single bound =>
        obtain rfl := List.mem_singleton.mp hb
        rw [propertiesWork]
        omega
      | array bindings =>
        have : binding.node.work ≤ bindingsWork bindings.toList := work_le_bindingsWork hb
        rw [propertiesWork]
        omega
    · have := ih h
      obtain ⟨_, _ | _⟩ := first <;> rw [propertiesWork] <;> omega

theorem work_le_itemsWork {items : List (Item Node)} (h : .embedded node ∈ items) :
    node.work ≤ itemsWork items := by
  induction items with
  | nil => simp at h
  | cons first rest ih =>
    rcases List.mem_cons.mp h with rfl | h
    · rw [itemsWork]
      omega
    · have := ih h
      cases first <;> rw [itemsWork] <;> first | omega | simp

/-- What a name is bound to has no more work than all that is bound. -/
theorem work_le_of_property
    (h : (Entries.get? name properties).bind (Property.binding? index) = some binding) :
    binding.node.work ≤ propertiesWork properties := by
  obtain ⟨_, hp, hb⟩ := Option.bind_eq_some_iff.mp h
  exact work_le_propertiesWork (Entries.mem_of_get? hp) (Property.mem_bindings_of_binding? hb)

end Node

/-- A binding that is found is the one that the property gives. -/
theorem Directory.property_of_binding {directory : Directory ν} {binding : Binding ν}
    (h : directory.binding name index = .ok binding) :
    (directory.properties[name]?).bind (Property.binding? index) = some binding := by
  unfold Directory.binding at h
  split at h <;> simp_all [Property.binding?]
  split at h <;> simp_all

/-- A binding that is found by its slot is found by a key. -/
theorem Directory.binding_of_bindingAt {directory : Directory ν} {slot : Nat} {binding : Binding ν}
    (h : directory.bindingAt slot = .ok binding) :
    ∃ key : Key, directory.binding key.name key.index = .ok binding := by
  unfold Directory.bindingAt at h
  split at h
  · rename_i key _
    exact ⟨key, ok_of_mapError h⟩
  · simp at h

/-- What was taken back is bound to a key. -/
theorem Directory.binding_of_held {directory : Directory ν} {slot : Option Nat} {found : ν}
    (h : directory.held slot = .ok found) :
    ∃ (key : Key) (binding : Binding ν),
      directory.binding key.name key.index = .ok binding ∧ binding.node = found := by
  cases slot with
  | none => cases h
  | some slot =>
    obtain ⟨binding, hbinding, hfound⟩ := bind_eq_ok.mp h
    obtain ⟨key, hkey⟩ := binding_of_bindingAt hbinding
    exact ⟨key, binding, hkey, Except.ok.inj hfound⟩

namespace Node

theorem work_le_of_binding (h : node.binding name index = .ok binding) :
    binding.node.work ≤ node.childrenWork := by
  have hp := Directory.property_of_binding h
  rw [getElem?_properties_directory] at hp
  have := work_le_of_property hp
  rw [childrenWork]
  omega

theorem work_le_of_heldValue {value : Node} (h : node.heldValue = .ok value) :
    value.work ≤ node.childrenWork := by
  obtain ⟨key, binding, hbinding, rfl⟩ := Directory.binding_of_held h
  exact work_le_of_binding hbinding

theorem work_le_of_historyOnto {value : Except LookupError Node} {shifts limit : Nat}
    {later : List (Except LookupError Node)} {found : Node}
    (hvalue : ∀ node, value = .ok node → node.work ≤ limit)
    (hlater : ∀ node, .ok node ∈ later → node.work ≤ limit)
    (h : .ok found ∈ historyOnto value later shifts) : found.work ≤ limit := by
  have hcons : ∀ node, .ok node ∈ value :: later → node.work ≤ limit := by
    intro node hmem
    rcases List.mem_cons.mp hmem with heq | hmem
    · exact hvalue node heq.symm
    · exact hlater node hmem
  induction shifts generalizing value later with
  | zero => exact hcons found h
  | succ shifts ih =>
    have hheld : ∀ node, value.bind heldValue = .ok node → node.work ≤ limit := by
      intro node heq
      cases value with
      | error => simp [Except.bind] at heq
      | ok last =>
        have := work_le_of_heldValue heq
        have := last.childrenWork_lt
        have := hvalue last rfl
        omega
    refine ih hheld hcons h ?_
    intro node hmem
    rcases List.mem_cons.mp hmem with heq | hmem
    · exact hheld node heq.symm
    · exact hcons node hmem

/-- Going back through shifts adds no work. -/
theorem work_le_of_history {value : Node} {shifts : Nat} (h : .ok value ∈ node.history shifts) :
    value.work ≤ node.work :=
  work_le_of_historyOnto (fun _ heq => Nat.le_of_eq (congrArg work (Except.ok.inj heq)).symm)
    (fun _ hmem => absurd hmem List.not_mem_nil) h

end Node

end TagTree
