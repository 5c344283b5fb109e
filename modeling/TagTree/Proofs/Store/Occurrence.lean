import Mathlib.Algebra.GroupWithZero.Nat
import TagTree.Proofs.Place
import TagTree.Proofs.Store.Machine

/-!
# Occurrences

How often a number occurs among what a node binds and embeds. To bind a value adds it, and takes
away the value that was bound to the same target (`Content.count_setProperty`).
-/

namespace TagTree

variable {ν μ : Type} {content : Content}

theorem boundNodes_cons (entry : String × Property ν) (rest : Entries (Property ν)) :
    boundNodes (entry :: rest) = entry.2.nodes ++ boundNodes rest :=
  List.flatMap_cons ..

@[simp] theorem embeddedNodes_append (first second : List (Item ν)) :
    embeddedNodes (first ++ second) = embeddedNodes first ++ embeddedNodes second :=
  List.filterMap_append

@[simp] theorem Property.nodes_map (f : ν → μ) (property : Property ν) :
    (property.map f).nodes = property.nodes.map f := by
  cases property <;> simp [nodes, bindings, Property.map, Binding.map, Function.comp_def]

@[simp] theorem boundNodes_map (f : ν → μ) (properties : Entries (Property ν)) :
    boundNodes (properties.map fun entry => (entry.1, entry.2.map f)) =
      (boundNodes properties).map f := by
  simp [boundNodes, List.flatMap_map, List.map_flatMap]

@[simp] theorem Item.node?_map (f : ν → μ) (item : Item ν) :
    (item.map f).node? = item.node?.map f := by
  cases item <;> rfl

@[simp] theorem embeddedNodes_map (f : ν → μ) (items : List (Item ν)) :
    embeddedNodes (items.map (Item.map f)) = (embeddedNodes items).map f := by
  rw [embeddedNodes, embeddedNodes, List.filterMap_map, List.map_filterMap]
  exact congrArg (List.filterMap · items) (funext (Item.node?_map f))

/-- Nodes are counted one by one. -/
theorem Node.propertiesSize_eq (properties : Entries (Property Node)) :
    propertiesSize properties = ((boundNodes properties).map size).sum := by
  have hbindings : ∀ bindings : List (Binding Node),
      bindingsSize bindings = ((bindings.map Binding.node).map size).sum := by
    intro bindings
    induction bindings with
    | nil => rfl
    | cons binding rest ih => simp [bindingsSize, ih]
  induction properties with
  | nil => rfl
  | cons entry rest ih => simp [propertiesSize, hbindings, ih, boundNodes_cons, Property.nodes]

theorem Node.itemsSize_eq (items : List (Item Node)) :
    itemsSize items = ((embeddedNodes items).map size).sum := by
  induction items with
  | nil => rfl
  | cons item rest ih =>
    cases item with
    | embedded node => simpa [itemsSize, embeddedNodes, Item.node?] using ih
    | _ => exact ih

theorem any_boundNodes (test : ν → Bool) (properties : Entries (Property ν)) :
    (boundNodes properties).any test =
      properties.any fun entry => entry.2.bindings.any fun binding => test binding.node := by
  simp [boundNodes, List.any_flatMap, Property.nodes, List.any_map, Function.comp_def]

theorem any_embeddedNodes (test : ν → Bool) (items : List (Item ν)) :
    (embeddedNodes items).any test = items.any fun item => item.node?.any test := by
  rw [embeddedNodes, List.any_filterMap]
  refine congrArg _ (funext fun item => ?_)
  cases item <;> rfl

theorem map_congr_items {f g : ν → μ} {items : List (Item ν)}
    (h : ∀ node ∈ embeddedNodes items, f node = g node) :
    items.map (Item.map f) = items.map (Item.map g) := by
  refine List.map_congr_left fun item hitem => ?_
  cases item with
  | embedded node => exact congrArg Item.embedded (h node (List.mem_filterMap.mpr ⟨_, hitem, rfl⟩))
  | _ => rfl

theorem map_congr_properties {f g : ν → μ} {properties : Entries (Property ν)}
    (h : ∀ node ∈ boundNodes properties, f node = g node) :
    properties.map (fun entry => (entry.1, entry.2.map f)) =
      properties.map (fun entry => (entry.1, entry.2.map g)) := by
  refine List.map_congr_left fun entry hentry => ?_
  have hnode : ∀ binding ∈ entry.2.bindings, binding.map f = binding.map g := by
    intro binding hbinding
    have hmem : binding.node ∈ boundNodes properties :=
      List.mem_flatMap.mpr ⟨entry, hentry, List.mem_map_of_mem hbinding⟩
    rw [Binding.map, Binding.map, h _ hmem]
  obtain ⟨name, property⟩ := entry
  cases property with
  | single binding => simp [Property.map, hnode binding (List.mem_singleton_self _)]
  | array bindings =>
    have : bindings.map (Binding.map f) = bindings.map (Binding.map g) :=
      Array.map_congr_left fun binding hb => hnode binding (Array.mem_toList_iff.mpr hb)
    simp [Property.map, this]

theorem mem_boundNodes_of_binding? {properties : Entries (Property ν)} {name : String}
    {index : Option Nat} {binding : Binding ν}
    (h : (properties.get? name).bind (Property.binding? index) = some binding) :
    binding.node ∈ boundNodes properties := by
  obtain ⟨property, hget, hbinding⟩ := Option.bind_eq_some_iff.mp h
  exact List.mem_flatMap.mpr ⟨_, Entries.mem_of_get? hget,
    List.mem_map_of_mem (Property.mem_bindings_of_binding? hbinding)⟩

/-- The values that a directory lists are bound. -/
theorem Directory.mem_boundNodes_of_mem_values {items : Array (Item ν)}
    {properties : Entries (Property ν)} {node : ν}
    (h : node ∈ (Directory.of items properties).values) : node ∈ boundNodes properties := by
  obtain ⟨key?, -, hnode⟩ := List.mem_filterMap.mp h
  obtain ⟨key, -, hnode⟩ := Option.bind_eq_some_iff.mp hnode
  obtain ⟨property, hproperty, hnode⟩ := Option.bind_eq_some_iff.mp hnode
  obtain ⟨binding, hbinding, hnode⟩ := Option.bind_eq_some_iff.mp hnode
  have hget : properties.get? key.name = some property :=
    (Entries.getElem?_index ..).symm.trans hproperty
  rw [← Option.some.inj hnode]
  exact mem_boundNodes_of_binding? (Option.bind_eq_some_iff.mpr ⟨property, hget, hbinding⟩)

/-! ### Counts -/

/-- To insert a property takes away what the old one of that name has bound. -/
theorem perm_boundNodes_insert (name : String) (property : Property ν)
    (entries : Entries (Property ν)) :
    (boundNodes (entries.insert name property) ++
        ((entries.get? name).map Property.nodes).getD []).Perm
      (boundNodes entries ++ property.nodes) := by
  induction entries with
  | nil => simp [Entries.insert, Entries.get?, boundNodes]
  | cons entry rest ih =>
    obtain ⟨present, old⟩ := entry
    by_cases hp : present = name
    · simp only [Entries.insert, Entries.get?, hp, if_true, boundNodes_cons, Option.map_some,
        Option.getD_some]
      have hswap : (property.nodes ++ boundNodes rest).Perm (boundNodes rest ++ property.nodes) :=
        List.perm_append_comm
      rw [List.append_assoc old.nodes]
      exact List.perm_append_comm.trans (hswap.append_left old.nodes)
    · simp only [Entries.insert, Entries.get?, hp, if_false, boundNodes_cons, List.append_assoc]
      exact ih.append_left old.nodes

theorem count_boundNodes_insert (name : String) (property : Property Nat)
    (entries : Entries (Property Nat)) (id : Nat) :
    (boundNodes (entries.insert name property)).count id +
        (((entries.get? name).map Property.nodes).getD []).count id =
      (boundNodes entries).count id + property.nodes.count id := by
  rw [← List.count_append, ← List.count_append]
  exact (perm_boundNodes_insert name property entries).count_eq id

/-- To set an element of an array takes away the old one. -/
theorem count_setBinding (bindings : Array (Binding Nat)) (index : Option Nat)
    (binding : Binding Nat) (id : Nat) :
    (Property.array (Frame.setBinding bindings index binding)).nodes.count id +
        (((Property.array bindings).binding? index).map Binding.node).toList.count id =
      (Property.array bindings).nodes.count id + [binding.node].count id := by
  have hpush : (Property.array (bindings.push binding)).nodes.count id =
      (Property.array bindings).nodes.count id + [binding.node].count id := by
    simp [Property.nodes, Property.bindings, List.count_append]
  cases index with
  | none => simpa [Frame.setBinding, Property.binding?] using hpush
  | some index =>
    rw [Frame.setBinding]
    split
    · rename_i hlt
      have hmem : bindings[index].node ∈ bindings.toList.map Binding.node :=
        List.mem_map_of_mem (Array.getElem_mem_toList hlt)
      have hset : (Property.array (bindings.setIfInBounds index binding)).nodes =
          (bindings.toList.map Binding.node).set index binding.node := by
        simp [Property.nodes, Property.bindings, List.map_set]
      have hold : (Property.array bindings).binding? (some index) = some bindings[index] := by
        simp [Property.binding?, hlt]
      have hlength : index < (bindings.toList.map Binding.node).length := by simpa using hlt
      rw [hset, hold, List.count_set hlength, List.getElem_map, Array.getElem_toList]
      simp only [Option.map_some, Option.toList_some, Property.nodes, Property.bindings,
        List.count_singleton]
      by_cases h : bindings[index].node = id
      · have := List.count_pos_iff.mpr (h ▸ hmem)
        simp only [h, beq_self_eq_true, if_true]
        omega
      · simp [h]
    · rename_i hge
      have hnone : (Property.array bindings).binding? (some index) = none := by
        simp [Property.binding?, Nat.le_of_not_lt hge]
      rw [hnone]
      simpa using hpush

namespace Content

/-- A value can be bound to the target: its array has been started. -/
def Ready (content : Content) (target : Target) : Prop :=
  target.reference.isArray = true → content.hasArray target.reference.name = true

theorem hasArray_iff {name : String} :
    content.hasArray name = true ↔
      ∃ bindings, content.properties.toList.get? name = some (.array bindings) := by
  rw [hasArray, Register.get?_eq]
  split <;> simp_all

theorem bound?_eq (content : Content) (target : Target) :
    content.bound? target = (content.properties.toList.get? target.reference.name).bind
      fun property => (property.binding? target.index).map Binding.node := by
  rw [bound?, Register.get?_eq]
  cases content.properties.toList.get? target.reference.name with
  | none => rfl
  | some property =>
    show (do return (← property.binding? target.index).node) = Option.map Binding.node _
    cases property.binding? target.index <;> rfl

theorem mem_kids_of_bound? {target : Target} {id : Nat}
    (h : content.bound? target = some id) : id ∈ content.kids := by
  rw [bound?_eq] at h
  obtain ⟨property, hget, hid⟩ := Option.bind_eq_some_iff.mp h
  obtain ⟨binding, hbinding, rfl⟩ := Option.map_eq_some_iff.mp hid
  exact List.mem_append_left _
    (mem_boundNodes_of_binding? (Option.bind_eq_some_iff.mpr ⟨property, hget, hbinding⟩))

theorem kids_push (content : Content) (item : Item Nat) :
    (content.push item).kids = content.kids ++ item.node?.toList := by
  cases item <;> simp [kids, push, embeddedNodes, Item.node?]

/-- To bind a value adds it, and takes away the value that was bound to the same target. -/
theorem count_setProperty {target : Target} (h : content.Ready target)
    (binding : Binding Nat) (id : Nat) :
    (boundNodes (Frame.setProperty content.properties target binding).toList).count id +
        (content.bound? target).toList.count id ≤
      (boundNodes content.properties.toList).count id + [binding.node].count id := by
  rw [bound?_eq, Frame.setProperty]
  cases harray : target.reference.isArray with
  | true =>
    obtain ⟨bindings, hget⟩ := hasArray_iff.mp (h harray)
    have hinsert := count_boundNodes_insert target.reference.name
      (.array (Frame.setBinding bindings target.index binding)) content.properties.toList id
    have hset := count_setBinding bindings target.index binding id
    simp only [if_true, Register.toList_modify, hget, Frame.bindElement, Option.bind_some]
    rw [hget] at hinsert
    simp only [Option.map_some, Option.getD_some] at hinsert
    omega
  | false =>
    have hinsert := count_boundNodes_insert target.reference.name (.single binding)
      content.properties.toList id
    have hsingle : (Property.single binding).nodes = [binding.node] := rfl
    simp only [Bool.false_eq_true, if_false, Register.toList_insert]
    rw [hsingle] at hinsert
    cases hget : content.properties.toList.get? target.reference.name with
    | none =>
      simp only [hget, Option.map_none, Option.getD_none] at hinsert
      simp only [Option.bind_none, Option.toList_none, List.count_nil]
      omega
    | some property =>
      simp only [hget, Option.map_some, Option.getD_some] at hinsert
      simp only [Option.bind_some]
      cases hold : property.binding? target.index with
      | none =>
        simp only [Option.map_none, Option.toList_none, List.count_nil]
        omega
      | some old =>
        have hle : [old.node].count id ≤ property.nodes.count id :=
          (List.singleton_sublist.mpr
            (List.mem_map_of_mem (Property.mem_bindings_of_binding? hold))).count_le id
        simp only [Option.map_some, Option.toList_some]
        omega

end Content

end TagTree
