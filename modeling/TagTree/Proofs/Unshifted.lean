import TagTree.Proofs.FinalTour
import TagTree.Proofs.Totals

/-!
# Trees without shifts

A tree in which values were shifted is, in the order of the finished tree, the same as one that was
built without shifts: the tags of a walk in that order build the tree without its shifts and the
gaps after them (`Tree.ofTags_walk_final`).

The tags of the walk are those of a valid form (`Form.Settles`). It is found phrase by phrase, where
a value that was taken back stands for good in the place of the gap that took it.
-/

namespace TagTree

open Entries (mapValues mapValues_insert)

variable {phrase : Phrase Form} {start : OpenTag} {settled : Form}

/-- The items without shifts and the gaps after them. -/
def Item.withoutShifts {ν : Type} : List (Item ν) → List (Item ν)
  | [] => []
  | .shift _ :: .gap :: rest => withoutShifts rest
  | item :: rest => item :: withoutShifts rest

namespace Node

mutual

/-- The node with no shift and no gap after a shift, in it or beneath it, and without the record of
what was taken back. -/
def unshifted : Node → Node
  | element ⟨start, label, ⟨items⟩, properties, _, size⟩ =>
    element ⟨start, label, ⟨Item.withoutShifts (unshiftedItems items)⟩,
      unshiftedProperties properties, none, size⟩
  | stub => stub

/-- The items with what is embedded unshifted. -/
def unshiftedItems : List (Item Node) → List (Item Node)
  | [] => []
  | .embedded node :: rest => .embedded node.unshifted :: unshiftedItems rest
  | item :: rest => item :: unshiftedItems rest

/-- The properties with what is bound unshifted. -/
def unshiftedProperties : List (String × Property Node) → List (String × Property Node)
  | [] => []
  | (name, .single ⟨edge, node⟩) :: rest =>
    (name, .single ⟨edge, node.unshifted⟩) :: unshiftedProperties rest
  | (name, .array ⟨bindings⟩) :: rest =>
    (name, .array ⟨unshiftedBindings bindings⟩) :: unshiftedProperties rest

/-- The bindings with what is bound unshifted. -/
def unshiftedBindings : List (Binding Node) → List (Binding Node)
  | [] => []
  | ⟨edge, node⟩ :: rest => ⟨edge, node.unshifted⟩ :: unshiftedBindings rest

end

theorem unshiftedItems_eq (items : List (Item Node)) :
    unshiftedItems items = items.map (Item.map unshifted) := by
  induction items with
  | nil => rfl
  | cons item rest ih => cases item <;> rw [unshiftedItems, ih] <;> first | rfl | simp

theorem unshiftedBindings_eq (bindings : List (Binding Node)) :
    unshiftedBindings bindings = bindings.map (Binding.map unshifted) := by
  induction bindings with
  | nil => rfl
  | cons binding rest ih => rw [unshiftedBindings, ih]; rfl

theorem unshiftedProperties_eq (properties : Entries (Property Node)) :
    unshiftedProperties properties = mapValues (Property.map unshifted) properties := by
  induction properties with
  | nil => rfl
  | cons entry rest ih =>
    obtain ⟨name, _ | ⟨⟨bindings⟩⟩⟩ := entry
    · rw [unshiftedProperties, ih]
      rfl
    · rw [unshiftedProperties, ih, unshiftedBindings_eq]
      simp [mapValues, Property.map]

theorem unshifted_element (body : Element Node) :
    (element body).unshifted = element { body with
      items := (Item.withoutShifts (body.items.toList.map (Item.map unshifted))).toArray
      properties := mapValues (Property.map unshifted) body.properties
      held := none } := by
  obtain ⟨start, label, ⟨items⟩, properties, held, size⟩ := body
  rw [unshifted, unshiftedItems_eq, unshiftedProperties_eq]

@[simp] theorem hasGap_unshifted (node : Node) : node.unshifted.hasGap = node.hasGap := by
  cases node <;> rfl

@[simp] theorem size_unshifted (node : Node) : node.unshifted.size = node.size := by
  cases node <;> rfl

end Node

/-- What shifts and gaps do not give is given without them too. -/
theorem Item.filterMap_withoutShifts {ν α : Type} {f : Item ν → Option α}
    (hshift : ∀ index, f (.shift index) = none) (hgap : f .gap = none) (items : List (Item ν)) :
    (withoutShifts items).filterMap f = items.filterMap f := by
  fun_induction withoutShifts items with
  | case1 => rfl
  | case2 index rest ih => rw [ih, filterMap_cons_eq, filterMap_cons_eq, hshift, hgap]; rfl
  | case3 item rest _ ih => rw [filterMap_cons_eq, filterMap_cons_eq, ih]

namespace Node

theorem embeddedNodes_unshifted (items : List (Item Node)) :
    embeddedNodes (Item.withoutShifts (items.map (Item.map unshifted))) =
      (embeddedNodes items).map unshifted := by
  rw [← embeddedNodes_map]
  exact Item.filterMap_withoutShifts (fun _ => rfl) rfl _

theorem kids_unshifted (node : Node) : node.unshifted.kids = node.kids.map unshifted := by
  cases node with
  | gap | null | literal => rfl
  | element body =>
    rw [unshifted_element, kids, kids, List.map_append]
    exact congrArg₂ _ (boundNodes_map ..) (embeddedNodes_unshifted ..)

theorem isUnmixed_unshifted (node : Node) : node.unshifted.isUnmixed = node.isUnmixed := by
  have hsame : node.unshifted.references = node.references := by
    cases node with
    | gap | null | literal => rfl
    | element body =>
      rw [unshifted_element]
      refine (Item.filterMap_withoutShifts (fun _ => rfl) rfl _).trans ?_
      rw [List.filterMap_map]
      refine List.filterMap_congr fun item _ => ?_
      cases item <;> rfl
  rw [isUnmixed, isUnmixed, hsame]

/-- Names are mixed nowhere if they were mixed nowhere before. -/
theorem all_isUnmixed_unshifted {node : Node} (h : node.all isUnmixed = true) :
    node.unshifted.all isUnmixed = true := by
  obtain ⟨hself, hkids⟩ := all_iff.mp h
  rw [all_iff, isUnmixed_unshifted, kids_unshifted]
  refine ⟨hself, fun kid hmem => ?_⟩
  obtain ⟨inner, hinner, rfl⟩ := List.mem_map.mp hmem
  exact all_isUnmixed_unshifted (hkids inner hinner)
termination_by node.work
decreasing_by exact work_lt_of_mem_kids hinner

/-- Where a traversal finds all, nothing was replaced. -/
theorem Traversable.replacesNothing {node : Node} (h : node.Traversable) :
    node.all replacesNothing = true := by
  rw [all_iff]
  refine ⟨?_, fun kid hmem => (h.of_mem_kids hmem).replacesNothing⟩
  cases node with
  | gap | null | literal => rfl
  | element body =>
    obtain ⟨outline, houtline, -, -, hu⟩ := h.sound.exists_unmixed rfl (all_self h.unmixed)
    rw [houtline, Outline.replacesNothing_iff]
    exact Segment.replaced_eq_nil hu
termination_by node.work
decreasing_by exact work_lt_of_mem_kids hmem

/-- The gap mark and the size of a node are those of the node without shifts. -/
theorem unshifted_assemble (start label : OpenTag) (items : List (Item Node))
    (properties : Entries (Property Node)) (held : Option Nat) :
    (assemble start label items properties held).unshifted =
      assemble start label (Item.withoutShifts (items.map (Item.map unshifted)))
        (mapValues (Property.map unshifted) properties) none := by
  have hbound : boundNodes (mapValues (Property.map unshifted) properties) =
      (boundNodes properties).map unshifted := boundNodes_map ..
  have hgap : hasGap ∘ unshifted = hasGap := funext hasGap_unshifted
  have hsize : size ∘ unshifted = size := funext size_unshifted
  rw [assemble, unshifted_element, assemble]
  simp only [anyGap, ← any_boundNodes, ← any_embeddedNodes, propertiesSize_eq, itemsSize_eq, hbound,
    embeddedNodes_unshifted, List.any_map, List.map_map, hgap, hsize]

end Node

/-! ### Segments -/

namespace Segment

/-- The segment of a value that was never shifted. -/
def unshifted : Segment Node → Segment Node
  | value edge node _ => value edge node.unshifted 0
  | segment => segment.map Node.unshifted

theorem withoutShifts_shiftItems (first count : Nat) (rest : List (Item Node)) :
    Item.withoutShifts (shiftItems first count ++ rest) = Item.withoutShifts rest := by
  induction count generalizing first with
  | zero => rfl
  | succ count ih =>
    rw [shiftItems_succ, List.cons_append, List.cons_append, Item.withoutShifts, ih]

theorem withoutShifts_items (segment : Segment Node) (rest : List (Item Node)) :
    Item.withoutShifts ((segment.map Node.unshifted).items ++ rest) =
      segment.unshifted.items ++ Item.withoutShifts rest := by
  cases segment with
  | content | arrayStart => rfl
  | embedded edge node => cases edge <;> rfl
  | value edge node shifts =>
    exact congrArg (fun items => .reference edge :: .gap :: items)
      (withoutShifts_shiftItems 1 shifts rest)

theorem allItems_unshifted (segments : List (Segment Node)) :
    allItems (segments.map unshifted) =
      Item.withoutShifts ((allItems segments).map (Item.map Node.unshifted)) := by
  induction segments with
  | nil => rfl
  | cons segment rest ih =>
    rw [List.map_cons, allItems_cons, allItems_cons, List.map_append, ← items_map,
      withoutShifts_items, ih]

variable {ν μ : Type}

theorem bindTo_map (f : ν → μ) (edge : Reference) (node : ν) (entries : Entries (Property ν)) :
    bindTo edge (f node) (mapValues (Property.map f) entries) =
      mapValues (Property.map f) (bindTo edge node entries) := by
  unfold bindTo
  split
  · rw [mapValues, Entries.get?_map]
    cases hget : Entries.get? edge.name entries with
    | none => rfl
    | some property =>
      cases property with
      | single binding => rfl
      | array bindings =>
        show _ = mapValues _ (Entries.insert ..)
        rw [mapValues_insert]
        simp [Property.map, Binding.map, mapValues]
  · rw [mapValues_insert]
    rfl

/-- Shifts change no properties. -/
theorem properties_unshifted (segments : List (Segment Node)) :
    properties (segments.map unshifted) =
      mapValues (Property.map Node.unshifted) (properties segments) := by
  have hadd : ∀ (segment : Segment Node) (entries : Entries (Property Node)),
      segment.unshifted.addTo (mapValues (Property.map Node.unshifted) entries) =
        mapValues (Property.map Node.unshifted) (segment.addTo entries) := by
    intro segment entries
    cases segment with
    | content | embedded => rfl
    | arrayStart edge =>
      show _ = mapValues _ (Entries.insert ..)
      rw [mapValues_insert]
      simp [unshifted, map, addTo, Property.map]
    | value edge node shifts => exact bindTo_map ..
  have hfold : ∀ (rest : List (Segment Node)) (entries : Entries (Property Node)),
      (rest.map unshifted).foldl addTo (mapValues (Property.map Node.unshifted) entries) =
        mapValues (Property.map Node.unshifted) (rest.foldl addTo entries) := by
    intro rest
    induction rest with
    | nil => exact fun _ => rfl
    | cons segment rest ih =>
      intro entries
      rw [List.map_cons, List.foldl_cons, List.foldl_cons, hadd, ih]
  exact hfold segments []

end Segment

namespace Outline

/-- What the node is made of without its shifts. -/
def unshifted (outline : Outline) : Outline :=
  { outline with segments := outline.segments.map Segment.unshifted, held := none }

theorem unshifted_toNode (outline : Outline) :
    outline.toNode.unshifted = outline.unshifted.toNode := by
  rw [toNode, Node.unshifted_assemble, ← Segment.allItems_unshifted, ← Segment.properties_unshifted]
  rfl

end Outline

/-! ### Forms without shifts -/

namespace Form

variable {phrases : List (Phrase Form)} {owed : Option Node} {form : Form}

/-- The form is that of the node without its shifts, and its tags are what the node gives in the
order of the finished tree, up to the marks of gaps and the indexes of references. -/
structure Settles (inherited : Option String) (form : Form) (node : Node) : Prop where
  valid : form.Valid
  unshifted : form.toNode inherited none = node.unshifted
  tags : node.Traversable → node.flat.map Tag.withoutGap = form.tags.map Tag.plain

/-- The phrase is that of the segment without its shifts, and its tags are what the segment gives in
the order of the finished tree. -/
structure Restates (phrase : Phrase Form) (segment : Segment Node) : Prop where
  fits : Fits phrase
  valid : ∀ form ∈ phrase.forms, form.Valid
  unshifted : Form.segment none phrase = segment.unshifted
  tags : (∀ inner, segment.node? = some inner → inner.Traversable) →
    (segment.finals.flatMap Node.flatOf).map Tag.withoutGap = (phraseTags phrase).map Tag.plain

/-- The phrases are those of the segments without their shifts. -/
structure AllRestate (phrases : List (Phrase Form)) (segments : List (Segment Node)) : Prop where
  fits : ∀ phrase ∈ phrases, Fits phrase
  valid : ∀ phrase ∈ phrases, ∀ form ∈ phrase.forms, form.Valid
  unshifted : Form.segments none phrases = segments.map Segment.unshifted
  tags : (∀ segment ∈ segments, ∀ inner, segment.node? = some inner → inner.Traversable) →
    (segments.flatMap fun segment => segment.finals.flatMap Node.flatOf).map Tag.withoutGap =
      (allTags phrases).map Tag.plain

theorem AllRestate.nil : AllRestate [] [] :=
  ⟨nofun, nofun, by rw [segments]; rfl, fun _ => by rw [allTags]; rfl⟩

theorem Restates.cons {segment : Segment Node} {segments : List (Segment Node)}
    (h : Restates phrase segment) (hrest : AllRestate phrases segments) :
    AllRestate (phrase :: phrases) (segment :: segments) where
  fits := List.forall_mem_cons.mpr ⟨h.fits, hrest.fits⟩
  valid := List.forall_mem_cons.mpr ⟨h.valid, hrest.valid⟩
  unshifted := by
    have howed : owedAfter none phrase = none := by simp [owedAfter]
    rw [Form.segments, howed, h.unshifted, hrest.unshifted]
    rfl
  tags ht := by
    obtain ⟨hfirst, hlater⟩ := List.forall_mem_cons.mp ht
    rw [List.flatMap_cons, List.map_append, h.tags hfirst, hrest.tags hlater, allTags,
      List.map_append]

/-- A node is restated with its phrases. -/
theorem AllRestate.settles {settled : List (Phrase Form)}
    (h : AllRestate settled (segments owed phrases)) (hv : (node start phrases).Valid)
    (hm : Phrase.mentions settled = Phrase.mentions phrases) (inherited : Option String) :
    Settles inherited (node start settled) ((node start phrases).toNode inherited owed) := by
  obtain ⟨hstart, horder, -, -⟩ := hv.of_node
  have hl := hv.laid inherited owed
  rw [toNode_node]
  refine ⟨.node hstart (hm ▸ horder) h.fits h.valid, ?_, fun ht => ?_⟩
  · rw [toNode_node, Outline.unshifted_toNode, outline, h.unshifted]
    rfl
  · have hu := Outline.unmixed_of_isUnmixed hl.orderly (Node.all_self ht.unmixed)
    have hinner := h.tags fun segment hmem inner hnode => ht.of_mem_segments hl hmem hnode
    rw [Outline.flat_toNode hl hu, Form.tags, List.map_cons, List.map_cons, List.map_append,
      List.map_append, ← hinner]
    rfl

/-- The value can be restated without shifts. -/
def CanSettle (value : Node) : Prop :=
  ∃ settled : Form, settled.isEmbedded = false ∧ settled.Settles none value

/-- Whatever the form takes back, its node can be restated without shifts. -/
def Settleable (form : Form) : Prop :=
  ∀ owed : Option Node, (∀ value ∈ owed, CanSettle value) →
    ∃ settled : Form, settled.isEmbedded = form.isEmbedded ∧
      settled.Settles none (form.toNode none owed)

/-- What is left after shifts is restated, from one node that took the value back to the next. -/
theorem canSettle_shifted {value : Node} {later : List Form} (h : CanSettle value)
    (hl : ∀ form ∈ later, form.isEmbedded = false ∧ form.Settleable) :
    CanSettle (shifted value later) := by
  induction later generalizing value with
  | nil => rwa [shifted]
  | cons form later ih =>
    obtain ⟨⟨hembedded, hform⟩, hrest⟩ := List.forall_mem_cons.mp hl
    obtain ⟨settled, hsame, hsettles⟩ := hform (some value) (by rintro _ ⟨⟩; exact h)
    rw [shifted]
    exact ih ⟨settled, hsame.trans hembedded, hsettles⟩ hrest

/-- A value that can be restated is bound for good, with no shift after it. -/
theorem Settles.restates_value {value : Node} (h : settled.Settles none value)
    (hembedded : settled.isEmbedded = false) (edge : Reference) (shifts : Nat) :
    Restates (.value edge settled []) (.bound edge value shifts) where
  fits := ⟨hembedded, fun _ => rfl, nofun⟩
  valid := by
    intro form hmem
    obtain rfl := List.mem_singleton.mp hmem
    exact h.valid
  unshifted := by
    rw [segment, ite_self, h.unshifted, shifted, Segment.bound, Node.hasGap_unshifted]
    rfl
  tags ht := by
    have hinner := h.tags (ht value rfl)
    rw [phraseTags, shiftTags, List.append_nil, List.map_cons, ← hinner]
    simp [Segment.bound, Segment.finals, Node.flatOf]
    rfl

theorem Settles.restates_embedded {part : Node} (h : settled.Settles none part)
    {edge : Option Reference} (hr : ∀ reserved ∈ edge, reserved.isReserved = true)
    (hembedded : settled.isEmbedded = true) :
    Restates (.embedded edge settled)
      (.embedded (edge.map fun edge => edge.marked false) part) where
  fits := ⟨hr, hembedded⟩
  valid := by
    intro form hmem
    obtain rfl := List.mem_singleton.mp hmem
    exact h.valid
  unshifted := by
    rw [segment, h.unshifted]
    rfl
  tags ht := by
    have hinner := h.tags (ht part rfl)
    rw [phraseTags, List.map_append, ← hinner]
    cases edge with
    | none => simp [Segment.finals, Node.flatOf]
    | some edge =>
      simp [Segment.finals, Node.flatOf]
      rfl

/-- A phrase can be restated. Where it has the gap that takes a value back, the value stands there
instead. -/
theorem exists_restates (hfits : Fits phrase) (hf : ∀ form ∈ phrase.forms, form.Settleable)
    (ho : ∀ value ∈ owed, CanSettle value) :
    ∃ settled : Phrase Form, settled.mention? = phrase.mention? ∧
      Restates settled (segment owed phrase) := by
  cases phrase with
  | content text => exact ⟨.content text, rfl, trivial, nofun, rfl, fun _ => rfl⟩
  | arrayStart edge => exact ⟨.arrayStart edge, rfl, trivial, nofun, rfl, fun _ => rfl⟩
  | embedded edge form =>
    obtain ⟨settled, hsame, hsettles⟩ := hf form List.mem_cons_self none nofun
    exact ⟨.embedded edge settled, rfl, hsettles.restates_embedded hfits.1 (hsame.trans hfits.2)⟩
  | value edge first later =>
    obtain ⟨hembedded, -, hlater⟩ := hfits
    obtain ⟨hfirst, hf⟩ := List.forall_mem_cons.mp hf
    have howed : ∀ value ∈ (if first.isGap then owed else none), CanSettle value := by
      split
      · exact ho
      · nofun
    obtain ⟨settled, hsame, hsettles⟩ := hfirst _ howed
    obtain ⟨last, hlast, hsettled⟩ := canSettle_shifted ⟨settled, hsame.trans hembedded, hsettles⟩
      fun form hmem => ⟨(hlater form hmem).1, hf form hmem⟩
    exact ⟨.value edge last [], rfl, hsettled.restates_value hlast edge later.length⟩

/-- All phrases can be settled. -/
theorem exists_allRestate (hfits : ∀ phrase ∈ phrases, Fits phrase)
    (hf : ∀ phrase ∈ phrases, ∀ form ∈ phrase.forms, form.Settleable)
    (ho : ∀ value ∈ owed, CanSettle value) :
    ∃ settled, Phrase.mentions settled = Phrase.mentions phrases ∧
      AllRestate settled (segments owed phrases) := by
  induction phrases generalizing owed with
  | nil =>
    refine ⟨[], rfl, ?_⟩
    rw [segments]
    exact .nil
  | cons phrase phrases ih =>
    obtain ⟨hfit, hfits⟩ := List.forall_mem_cons.mp hfits
    obtain ⟨hforms, hf⟩ := List.forall_mem_cons.mp hf
    have hafter : ∀ value ∈ owedAfter owed phrase, CanSettle value := by
      unfold owedAfter
      split
      · exact fun _ hmem => absurd hmem (Option.not_mem_none _)
      · exact ho
    obtain ⟨first, hmention, hfirst⟩ := exists_restates hfit hforms ho
    obtain ⟨rest, hmentions, hrest⟩ := ih hfits hf hafter
    refine ⟨first :: rest, ?_, ?_⟩
    · rw [Phrase.mentions_cons, Phrase.mentions_cons, hmention, hmentions]
    · rw [segments]
      exact hfirst.cons hrest

/-- A value that is one tag is as it was. -/
theorem Valid.settles_stub (h : form.Valid) (hstub : form.isNode = false) :
    form.Settles none (form.toNode none none) := by
  cases form with
  | node start phrases => cases hstub
  | gap | null | literal =>
    rw [toNode]
    refine ⟨h, ?_, fun _ => ?_⟩
    · rw [toNode]
      rfl
    · rw [Node.flat_of_isStub rfl, tags]
      rfl

/-- A node can be restated if its parts can be. -/
theorem exists_settles_of_forms (hv : (node start phrases).Valid)
    (hf : ∀ phrase ∈ phrases, ∀ form ∈ phrase.forms, form.Settleable)
    (ho : ∀ value ∈ owed, CanSettle value) (inherited : Option String) :
    ∃ settled, Settles inherited (node start settled)
      ((node start phrases).toNode inherited owed) := by
  obtain ⟨-, -, hfits, -⟩ := hv.of_node
  obtain ⟨settled, hmentions, hrestate⟩ := exists_allRestate hfits hf ho
  exact ⟨settled, hrestate.settles hv hmentions inherited⟩

/-- The node of a valid form can be restated without shifts. -/
theorem Valid.settleable (h : form.Valid) : form.Settleable := by
  induction form using Form.inductionOn with
  | gap =>
    intro owed ho
    cases owed with
    | some value =>
      rw [toNode]
      exact ho value rfl
    | none => exact ⟨_, rfl, h.settles_stub rfl⟩
  | null | literal =>
    intro owed ho
    have hstub := h.settles_stub rfl
    rw [toNode] at hstub ⊢
    exact ⟨_, rfl, hstub⟩
  | node start phrases ih =>
    intro owed ho
    obtain ⟨-, -, -, hvalid⟩ := h.of_node
    obtain ⟨settled, hsettles⟩ := exists_settles_of_forms h
      (fun phrase hphrase form hform => ih phrase hphrase form hform
        (hvalid phrase hphrase form hform)) ho none
    exact ⟨.node start settled, rfl, hsettles⟩

/-- The root of a tree can be restated without shifts, whatever language it inherits. -/
theorem Valid.exists_settles (h : form.Valid) (hnode : form.isNode = true)
    (inherited : Option String) :
    ∃ settled : Form, settled.isNode = true ∧
      settled.Settles inherited (form.toNode inherited none) := by
  cases form with
  | gap | null | literal => cases hnode
  | node start phrases =>
    obtain ⟨-, -, -, hvalid⟩ := h.of_node
    obtain ⟨settled, hsettles⟩ := exists_settles_of_forms h
      (fun phrase hphrase form hform => (hvalid phrase hphrase form hform).settleable)
      (fun _ hmem => absurd hmem (Option.not_mem_none _)) inherited
    exact ⟨.node start settled, rfl, hsettles⟩

end Form

namespace Tree

variable {tags : List Tag} {tree : Tree}

section Built

variable (h : ofTags tags = .ok tree) (hunmixed : tree.root.all Node.isUnmixed = true)
include h hunmixed

theorem traversable_root : tree.root.Traversable :=
  ⟨(Built.ofTags h).sound, hunmixed⟩

/-- Where no name is mixed, a tree has all the nodes that were made for it. -/
theorem size_root_eq_created : tree.root.size = tree.created :=
  (weighs h).exact.mpr (traversable_root h hunmixed).replacesNothing

/-- What the root gives in the order of the finished tree builds the tree without its shifts. -/
theorem ofTags_flat :
    ofTags (Doctype.headerTags tree.doctype ++ tree.root.flat) =
      .ok { tree with root := tree.root.unshifted } := by
  obtain ⟨form, hnode, hvalid, -, hroot⟩ := exists_form h
  obtain ⟨settled, hsettled, hsettles⟩ :=
    hvalid.exists_settles hnode (tree.doctype.bind Doctype.language)
  rw [← hroot] at hsettles
  have hadvances := (Doctype.advances_headerTags tree.doctype).append
    (hsettles.valid.advances hsettled tree.doctype)
  rw [hsettles.unshifted] at hadvances
  obtain ⟨created, hbuilt⟩ := ofTags_eq_ok_iff.mpr hadvances
  -- As many nodes were made for the one tree as for the other, since both have all of theirs.
  have hsize := size_root_eq_created hbuilt (Node.all_isUnmixed_unshifted hunmixed)
  rw [Node.size_unshifted, size_root_eq_created h hunmixed] at hsize
  have hcreated : tree.created = created := hsize
  rw [hcreated]
  refine ofTags_of_plain hbuilt ?_
  rw [List.map_append, List.map_append, hsettles.tags (traversable_root h hunmixed)]
  cases tree.doctype <;> rfl

end Built

/-- The tags of the walk in the order of the finished tree, after the header, build the tree without
its shifts and the gaps after them, and without the records of what was taken back. The walk raises
no error, whatever short cuts its trails keep. This holds if no node uses the same name for an array
and for a single property. -/
theorem ofTags_walk_final (h : ofTags tags = .ok tree)
    (hunmixed : tree.root.all Node.isUnmixed = true) (ladder : Ladder) :
    ((Cursor.first (.start (.root tree.root) ladder)).walk .final).failure = none ∧
    ofTags (Doctype.headerTags tree.doctype ++
        ((Cursor.first (.start (.root tree.root) ladder)).walk .final).items.map Cursor.tag) =
      .ok { tree with root := tree.root.unshifted } := by
  have ht : (Place.root tree.root).node.Traversable := traversable_root h hunmixed
  obtain ⟨hfailure, hitems⟩ := Cursor.walk_final ht ladder
  refine ⟨hfailure, ?_⟩
  rw [hitems]
  exact ofTags_flat h hunmixed

theorem ofTags_walk_final_of_reshifted :
    ∃ tree, ofTags reshiftedTags = .ok tree ∧ tree.root.all Node.isUnmixed = true ∧
      tree.root.items.any Item.isShift = true ∧ tree.root.unshifted.items.any Item.isShift = false ∧
      ((Cursor.first (.start (.root tree.root) ⟨31⟩)).walk .final).failure = none ∧
      ofTags (Doctype.headerTags tree.doctype ++
          ((Cursor.first (.start (.root tree.root) ⟨31⟩)).walk .final).items.map Cursor.tag) =
        .ok { tree with root := tree.root.unshifted } := by
  obtain ⟨tree, htree, hunmixed, hshift, hnone⟩ : ∃ tree, ofTags reshiftedTags = .ok tree ∧
      tree.root.all Node.isUnmixed = true ∧ tree.root.items.any Item.isShift = true ∧
      tree.root.unshifted.items.any Item.isShift = false := by decide +kernel
  exact ⟨tree, htree, hunmixed, hshift, hnone, ofTags_walk_final htree hunmixed ⟨31⟩⟩

end Tree

end TagTree
