import TagTree.Proofs.References

/-!
# Faithful nodes

A node is marked to have a gap if one can be reached from it, its references are marked as the
values that they bind, what it embeds is an escape or trivia, and what it binds is neither, unless
it is the root of a tree that was supplied as an expression (`Node.IsRootOf`). Each part is labelled
as its opening tag says. No call takes this away from a builder, whether or not it is refused
(`Builder.Faithful.push`, `Builder.Faithful.supply`).

A strict builder also has all its references answered, but for the one that waits and those whose
values are open nodes.
-/

namespace TagTree

variable {target : Target} {properties : Register (Property Node)} {α : Type} {start : OpenTag}
  {doctype : Option Doctype}

/-! ### Bindings -/

/-- All bindings of the properties, in order. -/
def boundBindings {ν : Type} (properties : Entries (Property ν)) : List (Binding ν) :=
  properties.flatMap fun entry => entry.2.bindings

section Bindings

variable {ν : Type} {properties : Entries (Property ν)} {name : String} {property : Property ν}
  {binding : Binding ν}

theorem boundNodes_eq (properties : Entries (Property ν)) :
    boundNodes properties = (boundBindings properties).map Binding.node :=
  List.map_flatMap.symm

theorem mem_boundNodes_of_mem (h : binding ∈ boundBindings properties) :
    binding.node ∈ boundNodes properties :=
  boundNodes_eq properties ▸ List.mem_map_of_mem h

theorem mem_boundBindings_of_get? (hget : properties.get? name = some property)
    (h : binding ∈ property.bindings) : binding ∈ boundBindings properties :=
  List.mem_flatMap.mpr ⟨_, Entries.mem_of_get? hget, h⟩

/-- What is bound after an insertion is bound by the new property or was bound before. -/
theorem mem_boundBindings_insert (h : binding ∈ boundBindings (properties.insert name property)) :
    binding ∈ property.bindings ∨ binding ∈ boundBindings properties := by
  obtain ⟨entry, hentry, hbinding⟩ := List.mem_flatMap.mp h
  rcases Entries.mem_of_mem_insert hentry with rfl | hold
  · exact .inl hbinding
  · exact .inr (List.mem_flatMap.mpr ⟨entry, hold, hbinding⟩)

end Bindings

namespace Frame

variable {frame : Frame} {binding other : Binding Node}

theorem mem_bindElement {property : Property Node} {index : Option Nat}
    (h : other ∈ (bindElement index binding property).bindings) :
    other = binding ∨ other ∈ property.bindings := by
  cases property with
  | single present => exact .inr h
  | array bindings =>
    have hpush : other ∈ (bindings.push binding).toList → other = binding ∨
        other ∈ bindings.toList := by
      intro hmem
      rw [Array.toList_push, List.mem_append, List.mem_singleton] at hmem
      exact hmem.symm
    cases index with
    | none => exact hpush h
    | some index =>
      dsimp only [bindElement, setBinding, Property.bindings] at h ⊢
      split at h
      · rw [Array.toList_setIfInBounds] at h
        exact (List.mem_or_eq_of_mem_set h).symm
      · exact hpush h

/-- A value that is bound to a target adds one binding at most. -/
theorem mem_setProperty (h : other ∈ boundBindings (setProperty properties target binding).toList) :
    other = binding ∨ other ∈ boundBindings properties.toList := by
  unfold setProperty at h
  split at h
  · rw [Register.toList_modify] at h
    split at h
    · rename_i property hget
      rcases mem_boundBindings_insert h with hnew | hold
      · rcases mem_bindElement hnew with rfl | hmem
        · exact .inl rfl
        · exact .inr (mem_boundBindings_of_get? hget hmem)
      · exact .inr hold
    · exact .inr h
  · rw [Register.toList_insert] at h
    rcases mem_boundBindings_insert h with hnew | hold
    · exact .inl (List.mem_singleton.mp hnew)
    · exact .inr hold

theorem mem_of_bound? (h : frame.bound? target = some binding) :
    binding ∈ boundBindings frame.properties.toList := by
  obtain ⟨property, hget, hbinding⟩ := Option.bind_eq_some_iff.mp h
  rw [Register.get?_eq] at hget
  exact mem_boundBindings_of_get? hget (Property.mem_bindings_of_binding? hbinding)

end Frame

/-! ### Nodes -/

namespace Node

variable {P : Node → Prop} {node kid : Node}

/-- The node binds or embeds another one. -/
def Has (node kid : Node) : Prop :=
  kid ∈ node.kids

/-- What can be reached from a node through what is bound and embedded, the node included. -/
def Reaches (node inner : Node) : Prop :=
  Relation.ReflTransGen Has node inner

/-- The property holds of all that can be reached from a node. -/
def Everywhere (P : Node → Prop) (node : Node) : Prop :=
  ∀ inner, node.Reaches inner → P inner

theorem Everywhere.self (h : node.Everywhere P) : P node :=
  h node .refl

theorem Everywhere.of_mem_kids (h : node.Everywhere P) (hkid : kid ∈ node.kids) :
    kid.Everywhere P :=
  fun inner hreach => h inner (.head hkid hreach)

theorem everywhere_iff : node.Everywhere P ↔ P node ∧ ∀ kid ∈ node.kids, kid.Everywhere P := by
  refine ⟨fun h => ⟨h.self, fun kid => h.of_mem_kids⟩, ?_⟩
  rintro ⟨hself, hkids⟩ inner hreach
  rcases Relation.ReflTransGen.cases_head hreach with rfl | ⟨kid, hkid, hrest⟩
  · exact hself
  · exact hkids kid hkid inner hrest

/-- The node is labelled as its opening tag says, with the inherited language if that says none. -/
def Labelled (inherited : Option String) : Node → Prop
  | element body => body.label = body.start.label inherited
  | _ => True

theorem labelled_withoutHold {inherited : Option String} :
    node.withoutHold.Labelled inherited ↔ node.Labelled inherited := by
  cases node <;> rfl

/-- The node is labelled as its opening tag says, or else has the language of the document. -/
def Inherits (doctype : Option Doctype) (node : Node) : Prop :=
  node.Labelled (doctype.bind Doctype.language)

variable {given : Tree → Prop}

/-- The node is the root of a given tree, up to the record of a shifted value. The tree is no
fragment, so that it can fill a gap by itself. -/
def IsRootOf (given : Tree → Prop) (node : Node) : Prop :=
  ∃ tree : Tree, given tree ∧ tree.root.type ≠ .fragment ∧ tree.root.Inherits tree.doctype ∧
    tree.root.withoutHold = node.withoutHold

/-- The node may be embedded. -/
structure FitsPart (node : Node) : Prop where
  embedded : node.flags.isEmbedded = true
  labelled : node.Labelled none

/-- The node may be bound, unless it was supplied. -/
structure FitsValue (node : Node) : Prop where
  bound : node.flags.isEmbedded = false
  labelled : node.Labelled none

/-- What a node says of its parts is so, and each part is of the kind that may stand there. -/
structure Faithful (given : Tree → Prop) (node : Node) : Prop where
  gap : node.isStub = false → node.hasGap = node.kids.any hasGap
  marks : ∀ binding ∈ boundBindings node.properties,
    binding.reference.flags.hasGap = binding.node.hasGap
  values : ∀ value ∈ boundNodes node.properties, value.IsRootOf given ∨ value.FitsValue
  parts : ∀ part ∈ embeddedNodes node.items.toList, part.FitsPart

end Node

/-- What is asked of nodes: the trees that may have been supplied, and whether each reference is to
be answered. -/
structure Demand where
  given : Tree → Prop
  strict : Prop

/-- A reference waits that is to be answered. -/
def Demand.excuses (demand : Demand) (waiting : Option Target) : Prop :=
  demand.strict ∧ waiting.isSome = true

namespace Node

variable {demand : Demand} {node : Node}

/-- The node is faithful, and answered if that is demanded. -/
structure Regular (demand : Demand) (node : Node) : Prop extends Faithful demand.given node where
  answered : demand.strict → node.Answered

/-- A value that may be bound, and all beneath it. -/
structure Good (demand : Demand) (node : Node) : Prop where
  whole : node.Everywhere (Regular demand)
  fits : node.IsRootOf demand.given ∨ node.FitsValue

theorem good_of_isStub (h : node.isStub = true) : node.Good demand := by
  cases node with
  | element body => cases h
  | _ =>
    refine ⟨everywhere_iff.mpr ⟨⟨⟨nofun, ?_, ?_, ?_⟩, fun _ => .singleton _⟩, ?_⟩,
      .inr ⟨rfl, trivial⟩⟩
    all_goals exact List.forall_mem_nil _

theorem Everywhere.withoutHold (h : node.Everywhere (Regular demand)) :
    node.withoutHold.Everywhere (Regular demand) := by
  cases node with
  | element body =>
    refine everywhere_iff.mpr ⟨⟨?_, h.self.answered⟩, fun kid => h.of_mem_kids⟩
    exact ⟨h.self.gap, h.self.marks, h.self.values, h.self.parts⟩
  | _ => exact h

theorem Good.withoutHold (h : node.Good demand) : node.withoutHold.Good demand := by
  refine ⟨h.whole.withoutHold, ?_⟩
  cases node with
  | element body => exact h.fits.imp_right fun hfits => ⟨hfits.bound, hfits.labelled⟩
  | _ => exact h.fits

/-- A value of a node whose parts are all faithful may be bound elsewhere. -/
theorem Everywhere.good_of_mem (h : node.Everywhere (Regular demand)) {value : Node}
    (hmem : value ∈ boundNodes node.properties) : value.Good demand :=
  ⟨h.of_mem_kids (List.mem_append_left _ hmem), h.self.values value hmem⟩

end Node

/-- The nodes of a tree are faithful, and its root may have the language of the document. -/
structure Tree.Faithful (given : Tree → Prop) (tree : Tree) : Prop where
  whole : tree.root.Everywhere (Node.Faithful given)
  inherits : tree.root.Inherits tree.doctype

/-! ### Open nodes -/

namespace Frame

variable {demand : Demand} {excuse : Prop} {base frame : Frame} {node : Node}

/-- What an open node has bound and embedded so far, and what is to be taken back, is faithful. If
that is demanded, its references are answered, but for the last item. -/
structure Faithful (demand : Demand) (frame : Frame) : Prop where
  marks : ∀ binding ∈ boundBindings frame.properties.toList,
    binding.reference.flags.hasGap = binding.node.hasGap
  values : ∀ value ∈ boundNodes frame.properties.toList, value.Good demand
  parts : ∀ part ∈ embeddedNodes frame.items.toList,
    part.Everywhere (Node.Regular demand) ∧ part.FitsPart
  owed : ∀ value ∈ frame.owed, value.Good demand
  shifted : ∀ detached ∈ frame.shifted, detached.2.Good demand
  chain : demand.strict → frame.kinds.IsChain TagKind.Precedes
  pending : demand.strict → ∀ target ∈ frame.pending, target.StandsIn frame.kinds

/-- The open node has gone on from an earlier state: it is faithful and still the same node. -/
structure Extends (demand : Demand) (base frame : Frame) : Prop extends Faithful demand frame where
  start : frame.start = base.start
  label : frame.label = base.label
  destination : frame.destination = base.destination

/-- The references are answered, but for one that waits. -/
structure Settled (demand : Demand) (base frame : Frame) : Prop
    extends Extends demand base frame where
  last : demand.strict → frame.kinds.getLast? = some .reference → frame.pending.isSome = true

/-- All references are answered. -/
structure Complete (demand : Demand) (base frame : Frame) : Prop
    extends Extends demand base frame where
  last : demand.strict → frame.kinds.getLast? ≠ some .reference

theorem Complete.settled (h : Complete demand base frame) : Settled demand base frame :=
  ⟨h.toExtends, fun hstrict hlast => absurd hlast (h.last hstrict)⟩

theorem Settled.complete (h : Settled demand base frame) (hpending : frame.pending = none) :
    Complete demand base frame := by
  refine ⟨h.toExtends, fun hstrict hlast => ?_⟩
  have hwaits := h.last hstrict hlast
  rw [hpending] at hwaits
  cases hwaits

/-- Nothing is bound or embedded in a node that has just been opened. -/
theorem complete_of_fresh (hitems : frame.items = #[]) (hproperties : frame.properties = ∅)
    (howed : ∀ value ∈ frame.owed, value.Good demand) (hshifted : frame.shifted = none)
    (hpending : frame.pending = none) : Complete demand frame frame := by
  have hkinds : frame.kinds = [] := by
    rw [kinds, hitems]
    rfl
  refine ⟨⟨⟨?_, ?_, ?_, howed, ?_, fun _ => hkinds ▸ .nil, ?_⟩, rfl, rfl, rfl⟩, ?_⟩
  · rw [hproperties]
    exact List.forall_mem_nil _
  · rw [hproperties]
    exact List.forall_mem_nil _
  · rw [hitems]
    exact List.forall_mem_nil _
  · rw [hshifted]
    rintro _ ⟨⟩
  · rw [hpending]
    rintro - _ ⟨⟩
  · rw [hkinds]
    rintro - ⟨⟩

namespace Extends

variable (h : Extends demand base frame)

include h

/-- To add an item keeps the node faithful. -/
theorem push (item : Item Node)
    (hitem : demand.strict → frame.kinds.getLast? = some .reference →
      item.toTag.kind.answers = true)
    (hnode : ∀ part ∈ item.node?, part.Everywhere (Node.Regular demand) ∧ part.FitsPart) :
    Extends demand base (frame.push item) := by
  refine { h with
    chain := fun hstrict => ?_
    pending := fun hstrict target hmem =>
      kinds_push frame item ▸ (h.pending hstrict target hmem).append _
    parts := fun part hmem => ?_ }
  · rw [Frame.push, Array.toList_push, embeddedNodes_append, List.mem_append] at hmem
    rcases hmem with hold | hnew
    · exact h.parts part hold
    · obtain ⟨found, hfound, hpart⟩ := List.mem_filterMap.mp hnew
      cases List.mem_singleton.mp hfound
      exact hnode part hpart
  · rw [kinds_push, List.isChain_append]
    refine ⟨h.chain hstrict, .singleton _, ?_⟩
    rintro kind hkind _ ⟨⟩ rfl
    exact hitem hstrict hkind

/-- What stands for a value can always come next. -/
theorem push_answer (item : Item Node) (hitem : item.toTag.kind.answers = true)
    (hnode : ∀ part ∈ item.node?, part.Everywhere (Node.Regular demand) ∧ part.FitsPart) :
    Complete demand base (frame.push item) := by
  refine ⟨h.push item (fun _ _ => hitem) hnode, fun _ hlast => ?_⟩
  rw [kinds_push, List.getLast?_concat] at hlast
  cases item <;> cases hlast
  cases hitem

theorem mark (position : Nat) (mark : ReferenceFlags → ReferenceFlags) :
    Extends demand base { frame with items := markReference frame.items position mark } := by
  have hkinds := kinds_markReference frame position mark
  exact { h with
    chain := fun hstrict => hkinds ▸ h.chain hstrict
    pending := fun hstrict target hmem => hkinds ▸ h.pending hstrict target hmem
    parts := fun part hmem => h.parts part (embeddedNodes_markReference .. ▸ hmem) }

/-- Properties whose bindings were there before. -/
theorem withProperties (hbound : ∀ binding ∈ boundBindings properties.toList,
      binding.reference.flags.hasGap = binding.node.hasGap ∧ binding.node.Good demand) :
    Extends demand base { frame with properties := properties } := by
  refine { h with marks := fun binding hmem => (hbound binding hmem).1, values := ?_ }
  intro value hmem
  rw [boundNodes_eq] at hmem
  obtain ⟨binding, hbinding, rfl⟩ := List.mem_map.mp hmem
  exact (hbound binding hbinding).2

theorem withoutPending : Extends demand base { frame with pending := none } :=
  { h with pending := fun _ => nofun }

/-- A refusal that takes a reference away leaves the rest as it was. -/
theorem lost {post : α → Prop} {error : StructuralError} {waiting : Option Target}
    (hwaits : waiting.isSome = true) (herror : error.takesReference = true) :
    Ensures (demand.excuses waiting) (Settled demand base) post (refuse error frame) := by
  by_cases hstrict : demand.strict
  · exact .inr ⟨⟨hstrict, hwaits⟩, herror⟩
  · exact .inl ⟨h, fun hdemanded => absurd hdemanded hstrict⟩

/-- A reference goes, and all after it. What came before it is no reference. -/
theorem retract (hasked : demand.strict → frame.pending = none ∧ target.StandsIn frame.kinds)
    (scope : Scope) :
    Complete demand base
      { frame with items := frame.items.take target.position, scope := scope } := by
  have hkinds : kinds { frame with items := frame.items.take target.position, scope := scope } =
      frame.kinds.take target.position := by
    simp [kinds, List.map_take]
  refine ⟨{ h with
    chain := fun hstrict => hkinds ▸ (h.chain hstrict).take _
    pending := fun hstrict target (hmem : target ∈ frame.pending) => ?_
    parts := fun part hmem => h.parts part ?_ },
    fun hstrict => hkinds ▸ getLast?_take_ne (h.chain hstrict) (hasked hstrict).2⟩
  · obtain ⟨item, hitem, hnode⟩ := List.mem_filterMap.mp hmem
    rw [Array.toList_extract] at hitem
    exact List.mem_filterMap.mpr ⟨item, List.mem_of_mem_take hitem, hnode⟩
  · rw [(hasked hstrict).1] at hmem
    cases hmem

end Extends

/-- What is left after the waiting reference was taken. -/
structure Taken (demand : Demand) (base frame : Frame) (result : Target × Frame) : Prop where
  waited : frame.pending.isSome = true
  kept : Extends demand base result.2
  asked : demand.strict → result.2.pending = none ∧ result.1.StandsIn result.2.kinds

namespace Complete

theorem mark (h : Complete demand base frame) (position : Nat)
    (mark : ReferenceFlags → ReferenceFlags) :
    Complete demand base { frame with items := markReference frame.items position mark } :=
  ⟨h.toExtends.mark position mark, kinds_markReference frame position mark ▸ h.last⟩

theorem push_reference (h : Complete demand base frame) (edge : Reference) :
    Extends demand base (frame.push (.reference edge)) :=
  h.push _ (fun hstrict hlast => absurd hlast (h.last hstrict)) nofun

theorem push_plain (h : Complete demand base frame) (item : Item Node)
    (hitem : item.toTag.kind ≠ .reference) (hnode : item.node? = none) :
    Complete demand base (frame.push item) := by
  refine ⟨h.push item (fun hstrict hlast => absurd hlast (h.last hstrict)) ?_, fun _ hlast => ?_⟩
  · rw [hnode]
    nofun
  · rw [kinds_push, List.getLast?_concat, Option.some.injEq] at hlast
    exact hitem hlast

end Complete

/-- To bind a value that may be bound keeps the node faithful and answers the reference. -/
theorem Extends.bind (h : Extends demand base frame) (hnode : node.Good demand) (target : Target) :
    Ensures excuse (Complete demand base) (Complete demand base) (frame.bind target node) := by
  have hgap := h.push_answer .gap rfl nofun
  refine .bind ?_ fun next (hnext : Complete demand base next) => { hnext with }
  dsimp only [Frame.attach]
  have hmarked := hgap.mark target.position fun _ =>
    { target.reference.flags with hasGap := node.hasGap }
  split
  · exact .refuse hmarked
  · refine .ok ⟨hmarked.withProperties fun binding hmem => ?_, hmarked.last⟩
    rcases mem_setProperty hmem with rfl | hold
    · exact ⟨rfl, hnode⟩
    · exact ⟨h.marks binding hold, h.values _ (mem_boundNodes_of_mem hold)⟩

/-- A node that was opened here is of the kind that its target asks for. -/
theorem Extends.receive (h : Extends demand base frame) {destination : Option Target}
    (hnode : node.Everywhere (Node.Regular demand)) (hlabelled : node.Labelled none)
    (hkind : node.flags.isEmbedded = destination.isNone) :
    Ensures excuse (Complete demand base) (Complete demand base)
      (frame.receive destination node) := by
  cases destination with
  | some target => exact h.bind ⟨hnode, .inr ⟨hkind, hlabelled⟩⟩ target
  | none =>
    refine h.push_answer (.embedded node) rfl fun part hpart => ?_
    cases hpart
    exact ⟨hnode, hkind, hlabelled⟩

namespace Settled

variable (h : Settled demand base frame)

include h

theorem takePending (kind : TagKind) :
    Ensures (demand.excuses frame.pending) (Settled demand base)
      (Taken demand base frame) (frame.takePending kind) := by
  unfold Frame.takePending
  split
  · exact .refuse h
  · rename_i target hpending
    have hwaits : frame.pending.isSome = true := Option.isSome_of_mem hpending
    dsimp only
    split
    · exact ⟨hwaits, h.withoutPending, fun hstrict => ⟨rfl, h.pending hstrict target hpending⟩⟩
    · rename_i hcheck
      exact h.withoutPending.lost hwaits (takesReference_of_checkTarget hcheck)

theorem reference (edge : Reference) :
    Ensures excuse (Settled demand base) (Settled demand base) (frame.reference edge) := by
  unfold Frame.reference
  split
  · exact .refuse h
  · rename_i hpending
    split
    · exact .refuse { h with }
    · have hpushed := (h.complete hpending).push_reference
      refine .ok ⟨{ hpushed _ with pending := fun _ target hmem => ?_ }, fun _ _ => rfl⟩
      cases hmem
      exact standsIn_push frame rfl _

/-- What a shift detaches was bound. -/
theorem shift (index : Nat) :
    Ensures excuse (Settled demand base) (Settled demand base) (frame.shift index) := by
  unfold Frame.shift
  split
  · exact .refuse h
  · rename_i hwaits
    split
    · exact .refuse h
    · dsimp only
      split
      · exact .refuse { h with }
      · split
        · exact .refuse { h with }
        · split
          · exact .refuse { h with }
          · rename_i binding hbound
            have hmem : binding ∈ boundBindings frame.properties.toList := mem_of_bound? hbound
            have hpushed := (h.complete (by simpa using hwaits)).push_plain (.shift index) nofun rfl
            refine .ok { hpushed.settled with shifted := fun detached hdetached => ?_ }
            cases hdetached
            exact h.values _ (mem_boundNodes_of_mem hmem)

theorem startArray :
    Ensures (demand.excuses frame.pending) (Settled demand base) (Settled demand base)
      frame.startArray := by
  unfold Frame.startArray
  split
  · exact .refuse h
  · rename_i target hpending
    have hwaits : frame.pending.isSome = true := Option.isSome_of_mem hpending
    dsimp only
    split
    · exact h.withoutPending.lost hwaits rfl
    · split
      · exact h.withoutPending.lost hwaits rfl
      · -- A new array has no elements.
        have hbound : ∀ binding ∈
            boundBindings (frame.properties.insert target.reference.name (.array #[])).toList,
              binding.reference.flags.hasGap = binding.node.hasGap ∧ binding.node.Good demand := by
          intro binding hmem
          rw [Register.toList_insert] at hmem
          have hold := (mem_boundBindings_insert hmem).resolve_left List.not_mem_nil
          exact ⟨h.marks binding hold, h.values _ (mem_boundNodes_of_mem hold)⟩
        have hstarted := h.withoutPending.push_answer .arrayStart rfl nofun
        exact .ok { hstarted.withProperties hbound, hstarted.settled with }

/-- A node that opens is to be embedded if it has no target. After a shift only nodes that are to be
bound open. The node around it has a reference without its value, until it closes. -/
theorem opening (hshifted : frame.shifted.isSome = true → start.flags.isEmbedded = false) :
    Ensures (demand.excuses frame.pending) (Settled demand base) (fun result =>
      Extends demand base result.1 ∧ start.flags.isEmbedded = result.2.1.isNone ∧
      ∀ value ∈ result.2.2, value.Good demand) (frame.opening start) := by
  unfold Frame.opening
  split
  · rename_i target node hdetached
    refine ⟨{ h.toExtends with shifted := nofun }, hshifted (by rw [hdetached]; rfl),
      fun value hvalue => ?_⟩
    cases hvalue
    exact h.shifted _ hdetached
  · dsimp only
    split
    · rename_i hembedded
      split
      · rename_i target hpending
        split
        · exact ⟨h.withoutPending, hembedded, nofun⟩
        · exact h.withoutPending.lost (Option.isSome_of_mem hpending) rfl
      · exact ⟨h.withoutPending, hembedded, nofun⟩
    · rename_i hbound
      refine .bind (h.takePending .opening) fun result hresult => ?_
      exact .ok ⟨hresult.kept, Bool.not_eq_true _ ▸ hbound, nofun⟩

end Settled

/-- The node that closes is faithful, and so is all beneath it. -/
theorem Complete.toNode (h : Complete demand base frame) :
    frame.toNode.Everywhere (Node.Regular demand) := by
  refine Node.everywhere_iff.mpr ⟨⟨⟨fun _ => frame.hasGap_eq, h.marks, ?_, ?_⟩, ?_⟩, ?_⟩
  · exact fun value hmem => (h.values value hmem).fits
  · exact fun part hmem => (h.parts part hmem).2
  · exact fun hstrict => answered_toNode (h.chain hstrict) (h.last hstrict)
  · intro kid hmem
    rcases List.mem_append.mp hmem with hbound | hembedded
    · exact (h.values kid hbound).whole
    · exact (h.parts kid hembedded).1

end Frame

/-! ### Builders -/

namespace Builder

variable {demand : Demand} {excuse : Prop} {builder : Builder} {frame base : Frame}
  {below : List Frame} {node : Node}

/-- The reference that waits for its value or for an expression. -/
def waiting (builder : Builder) : Option Target :=
  builder.awaiting <|> builder.frames.head?.bind Frame.pending

/-- The open nodes, innermost first. Each is labelled as its opening tag says, and is to be embedded
if that says so. Only the outermost one inherits a language. -/
def Nested (demand : Demand) (doctype : Option Doctype) : List Frame → Prop
  | [] => True
  | [frame] => frame.Faithful demand ∧
    frame.label = frame.start.label (doctype.bind Doctype.language)
  | frame :: parent :: outer => frame.Faithful demand ∧ frame.label = frame.start.label none ∧
      frame.start.flags.isEmbedded = frame.destination.isNone ∧
      Nested demand doctype (parent :: outer)

/-- All that a builder holds is faithful. -/
structure Faithful (demand : Demand) (builder : Builder) : Prop where
  nested : Nested demand builder.doctype builder.frames
  top : builder.awaiting = none → ∀ frame ∈ builder.frames.head?, Frame.Settled demand frame frame
  asked : demand.strict → ∀ target ∈ builder.awaiting, ∀ frame ∈ builder.frames.head?,
    frame.pending = none ∧ target.StandsIn frame.kinds
  whole : ∀ node ∈ builder.root, node.Everywhere (Node.Regular demand)
  inherits : ∀ node ∈ builder.root, node.Inherits builder.doctype

/-- Without open nodes only the root counts. -/
theorem faithful_of_closed (hframes : builder.frames = [])
    (hwhole : ∀ node ∈ builder.root, node.Everywhere (Node.Regular demand))
    (hinherits : ∀ node ∈ builder.root, node.Inherits builder.doctype) :
    builder.Faithful demand where
  nested := by
    rw [hframes]
    trivial
  top := by
    rw [hframes]
    exact fun _ _ hmem => absurd hmem (Option.not_mem_none _)
  asked := by
    rw [hframes]
    exact fun _ _ _ _ hmem => absurd hmem (Option.not_mem_none _)
  whole := hwhole
  inherits := hinherits

theorem Nested.head (h : Nested demand doctype (frame :: below)) : frame.Faithful demand := by
  cases below with
  | nil => exact h.1
  | cons parent outer => exact h.1

theorem Nested.extend (h : Nested demand doctype (base :: below))
    (hframe : Frame.Extends demand base frame) : Nested demand doctype (frame :: below) := by
  cases below with
  | nil => exact ⟨hframe.toFaithful, by rw [hframe.label, hframe.start]; exact h.2⟩
  | cons parent outer =>
    refine ⟨hframe.toFaithful, ?_, ?_, h.2.2.2⟩
    · rw [hframe.label, hframe.start]
      exact h.2.1
    · rw [hframe.start, hframe.destination]
      exact h.2.2.1

/-- The innermost open node goes on from a state, and the builder asks for no expression. -/
structure Encloses (demand : Demand) (builder : Builder) (base : Frame)
    (below : List Frame) : Prop where
  awaiting : builder.awaiting = none
  nested : Nested demand builder.doctype (base :: below)
  whole : ∀ node ∈ builder.root, node.Everywhere (Node.Regular demand)
  inherits : ∀ node ∈ builder.root, node.Inherits builder.doctype

namespace Encloses

section Around

variable (h : builder.Encloses demand base below)

include h

theorem top : Frame.Extends demand base base :=
  ⟨h.nested.head, rfl, rfl, rfl⟩

theorem withTop (hframe : Frame.Settled demand base frame) :
    (builder.withTop below frame).Faithful demand where
  nested := h.nested.extend hframe.toExtends
  top := by
    rintro - _ ⟨⟩
    exact { hframe with start := rfl, label := rfl, destination := rfl }
  asked := by
    show demand.strict → ∀ target ∈ builder.awaiting, _
    rw [h.awaiting]
    exact fun _ _ hmem => absurd hmem (Option.not_mem_none _)
  whole := h.whole
  inherits := h.inherits

omit h in
/-- A node has just been opened. -/
theorem faithful_of_fresh (builder : Builder) (hawaiting : builder.awaiting = none)
    (hwhole : ∀ node ∈ builder.root, node.Everywhere (Node.Regular demand))
    (hinherits : ∀ node ∈ builder.root, node.Inherits builder.doctype)
    (hframe : Frame.Complete demand frame frame)
    (hnested : frame.Faithful demand → Nested demand builder.doctype (frame :: below)) :
    (builder.withTop below frame).Faithful demand :=
  withTop ⟨hawaiting, hnested hframe.toFaithful, hwhole, hinherits⟩ hframe.settled

theorem make : builder.make.Encloses demand base below :=
  { h with }

theorem lift {attempt : Attempt Frame α} {post : α → Prop}
    (hattempt : Ensures excuse (Frame.Settled demand base) post attempt) :
    Ensures excuse (Faithful demand) post (builder.lift below attempt) :=
  hattempt.lift fun _ => h.withTop

/-- A value is bound to a target. -/
theorem bind (hframe : Frame.Extends demand base frame)
    (hnode : node.Good demand) (target : Target) :
    Ensures excuse (Faithful demand) (Frame.Complete demand base)
      (builder.lift below (frame.bind target node)) :=
  (hframe.bind hnode target).lift fun _ hleft => h.withTop hleft.settled

theorem bindStub (hframe : Frame.Extends demand base frame)
    (hstub : node.isStub = true) (target : Target) :
    Ensures excuse (Faithful demand) (Frame.Complete demand base)
      (builder.make.lift below (frame.bind target node)) :=
  h.make.bind hframe (Node.good_of_isStub hstub) target

end Around

section Inside

variable (h : builder.Encloses demand base below) (hbase : Frame.Settled demand base base)

include h hbase

theorem openChild (hshifted : base.shifted.isSome = true → start.flags.isEmbedded = false) :
    Ensures (demand.excuses base.pending) (Faithful demand) (Faithful demand)
      (builder.openChild base below start) := by
  unfold Builder.openChild
  split
  · exact .refuse (h.withTop hbase)
  · refine .bind (h.lift (hbase.opening hshifted)) ?_
    rintro ⟨frame, destination, owed⟩ ⟨hframe, hkind, howed⟩
    have hparent := h.nested.extend hframe
    exact .ok (faithful_of_fresh builder.make h.awaiting h.whole h.inherits
      (Frame.complete_of_fresh rfl rfl howed rfl rfl) fun hchild => ⟨hchild, rfl, hkind, hparent⟩)

theorem close : Ensures excuse (Faithful demand) (Faithful demand) (builder.close base below) := by
  unfold Builder.close
  split
  · exact .refuse (h.withTop hbase)
  · rename_i hclose
    have hpending : base.pending = none := by
      unfold Frame.checkClose at hclose
      split at hclose
      · cases hclose
      · assumption
    have hnode := (hbase.complete hpending).toNode
    cases below with
    | nil =>
      refine .ok (faithful_of_closed rfl (fun node hmem => ?_) fun node hmem => ?_)
      · cases hmem
        exact hnode
      · cases hmem
        exact congrArg (OpenTag.marked · base.hasGap) h.nested.2
    | cons parent outer =>
      obtain ⟨-, hlabel, hkind, hnested⟩ := h.nested
      have hlabelled : base.toNode.Labelled none := congrArg (OpenTag.marked · base.hasGap) hlabel
      have hflags : base.label.flags = base.start.flags := by rw [hlabel]; rfl
      have hparent : builder.Encloses demand parent outer := { h with nested := hnested }
      have hkeep : ∀ next, Frame.Complete demand parent next →
          (builder.withTop outer next).Faithful demand :=
        fun _ hnext => hparent.withTop hnext.settled
      refine .bind ((hparent.top.receive hnode hlabelled ?_).lift hkeep) hkeep
      show base.label.flags.isEmbedded = _
      rw [hflags, hkind]

theorem gap :
    Ensures (demand.excuses base.pending) (Faithful demand)
      (fun result => result.2.Faithful demand) (builder.gap base below) := by
  refine .bind (h.lift (hbase.takePending .gap)) ?_
  rintro ⟨target, taken⟩ htaken
  dsimp only
  split
  · exact h.lift (htaken.kept.lost htaken.waited rfl)
  · split
    · rename_i node howed
      have hheld : Frame.Extends demand base
          { taken with owed := none, held := some taken.items.size } :=
        { htaken.kept with owed := nofun }
      exact .bind (h.bind hheld (htaken.kept.owed node howed) target) fun _ hnext =>
        .ok (h.withTop hnext.settled)
    · split
      · refine .ok ⟨h.nested.extend htaken.kept, nofun, ?_, h.whole, h.inherits⟩
        rintro hstrict _ ⟨⟩ _ ⟨⟩
        exact htaken.asked hstrict
      · exact .bind (h.bindStub htaken.kept rfl target) fun _ hnext =>
          .ok (h.make.withTop hnext.settled)

theorem null :
    Ensures (demand.excuses base.pending) (Faithful demand) (Faithful demand)
      (builder.null base below) := by
  refine .bind (h.lift (hbase.takePending .null)) ?_
  rintro ⟨target, taken⟩ htaken
  refine .bind (h.bindStub htaken.kept rfl target) fun next hnext => ?_
  exact .ok (h.make.withTop { hnext.settled with })

theorem literal (text : String) :
    Ensures (demand.excuses base.pending) (Faithful demand) (Faithful demand)
      (builder.literal base below text) := by
  unfold Builder.literal
  split
  · rename_i hpending
    rw [Option.isNone_iff_eq_none] at hpending
    have hpushed := (hbase.complete hpending).push_plain (.literal text) nofun rfl
    exact .ok (h.withTop hpushed.settled)
  · refine .bind (h.lift (hbase.takePending .literal)) ?_
    rintro ⟨target, taken⟩ htaken
    exact .bind (h.bindStub htaken.kept rfl target) fun _ hnext =>
      .ok (h.make.withTop hnext.settled)

/-- A tag inside of a node keeps the builder faithful. -/
theorem pushInside (tag : Tag) :
    Ensures (demand.excuses base.pending) (Faithful demand)
      (fun result => result.2.Faithful demand) (builder.pushInside base below tag) := by
  have honTop : ∀ {attempt : Attempt Frame Frame},
      Ensures (demand.excuses base.pending) (Frame.Settled demand base)
        (Frame.Settled demand base) attempt →
          Ensures (demand.excuses base.pending) (Faithful demand)
            (fun result => result.2.Faithful demand) (do
              return (Feed.accepted, builder.withTop below (← builder.lift below attempt))) :=
    fun hattempt => .bind (h.lift hattempt) fun _ => h.withTop
  have haccept : ∀ {attempt : Attempt Builder Builder},
      Ensures (demand.excuses base.pending) (Faithful demand) (Faithful demand)
        attempt → Ensures (demand.excuses base.pending) (Faithful demand)
          (fun result => result.2.Faithful demand) (do
            return (Feed.accepted, ← attempt)) :=
    fun hattempt => .bind hattempt fun _ => id
  have hsame := h.withTop hbase
  unfold Builder.pushInside
  split
  · exact .refuse hsame
  · rename_i hadmitted
    cases tag with
    | opening start =>
      refine haccept (h.openChild hbase fun hshifted => ?_)
      simpa [hshifted, opensBound] using hadmitted
    | closing => exact haccept (h.close hbase)
    | reference edge => exact honTop (hbase.reference edge)
    | shift index => exact honTop (hbase.shift index)
    | gap => exact h.gap hbase
    | null => exact haccept (h.null hbase)
    | arrayStart => exact honTop hbase.startArray
    | literal text => exact haccept (h.literal hbase text)
    | embedded => exact .refuse hsame
    | doctype | effect => exact hsame

end Inside

/-! ### Expressions -/

theorem graft (h : builder.Encloses demand base below)
    (hframe : Frame.Extends demand base frame) (target : Target) (hnode : node.Good demand) :
    Ensures excuse (Faithful demand) (fun result =>
      result.1.Encloses demand base below ∧ Frame.Complete demand base result.2)
      (builder.graft frame below target node) := by
  have hgrown : Encloses demand { builder with created := builder.created + node.size } base
      below := { h with }
  exact .bind (hgrown.bind hframe hnode.withoutHold target) fun _ hnext => .ok ⟨hgrown, hnext⟩

/-- Each further reference to the array is answered at once. -/
theorem splice {edge : Reference} {nodes : List Node} (h : builder.Encloses demand base below)
    (hframe : Frame.Complete demand base frame) (harray : nodes ≠ [] → edge.isArray = true)
    (hindex : demand.strict → edge.index = none) (hnodes : ∀ node ∈ nodes, node.Good demand) :
    Ensures excuse (Faithful demand) (Faithful demand) (builder.splice frame below edge nodes) := by
  induction nodes generalizing builder frame with
  | nil => exact h.withTop hframe.settled
  | cons node rest ih =>
    obtain ⟨hnode, hrest⟩ := List.forall_mem_cons.mp hnodes
    have hisArray := harray (List.cons_ne_nil node rest)
    have hpushed := hframe.push_reference edge
    unfold Builder.splice
    dsimp only
    split
    · rename_i hrefused
      refine .refuse (h.withTop { hpushed with last := fun hstrict => ?_ })
      exact absurd hrefused (Scope.consume_ne_error _ _ hisArray (hindex hstrict))
    · rename_i scope index _
      have hscoped : Frame.Extends demand base
          { frame.push (.reference edge) with scope := scope } := { hpushed with }
      refine .bind (h.graft hscoped _ hnode) ?_
      rintro ⟨grown, next⟩ ⟨hgrown, hnext⟩
      exact ih hgrown hnext (fun _ => hisArray) hrest

/-- A tree whose root may be bound fills a gap. Of a fragment only the values are bound. -/
theorem fill {root : Node} (h : builder.Encloses demand base below)
    (hasked : demand.strict → base.pending = none ∧ target.StandsIn base.kinds)
    (hroot : root.Everywhere (Node.Regular demand))
    (hgiven : root.type ≠ .fragment → root.IsRootOf demand.given) :
    Ensures (demand.excuses (some target)) (Faithful demand) (Faithful demand)
      (builder.fill base below target root) := by
  unfold Builder.fill
  dsimp only
  have hmarked := h.top.mark target.position fun flags => { flags with expression := true }
  split
  · rename_i htype
    refine .bind (h.graft hmarked _ ⟨hroot, .inl (hgiven htype)⟩) ?_
    rintro ⟨grown, next⟩ ⟨hgrown, hnext⟩
    exact .ok (hgrown.withTop hnext.settled)
  · have hvalues : ∀ value ∈ root.directory.values, value.Good demand := fun value hmem =>
      hroot.good_of_mem (Directory.mem_boundNodes_of_mem_values hmem)
    split
    · exact h.lift (hmarked.lost rfl rfl)
    · rename_i harity
      split
      · rw [← Frame.kinds_markReference] at hasked
        exact .ok (h.withTop (hmarked.retract hasked _).settled)
      · rename_i first rest hsplit
        rw [hsplit] at hvalues harity
        obtain ⟨hfirst, hrest⟩ := List.forall_mem_cons.mp hvalues
        refine .bind (h.graft hmarked _ hfirst) ?_
        rintro ⟨grown, next⟩ ⟨hgrown, hnext⟩
        refine hgrown.splice hnext (fun hmore => ?_) (fun hstrict => (hasked hstrict).2.index) hrest
        cases rest with
        | nil => exact absurd rfl hmore
        | cons second others => simpa using harity

end Encloses

/-! ### Calls -/

namespace Faithful

variable (h : builder.Faithful demand)

include h

theorem pushDoctype (doctype : Doctype) :
    Ensures excuse (Faithful demand) (Faithful demand) (builder.pushDoctype doctype) := by
  unfold Builder.pushDoctype
  split
  · exact .refuse h
  · rename_i hfree
    simp only [Bool.or_eq_true, not_or, hasRoot, Bool.not_eq_true, Option.isSome_eq_false_iff,
      Option.isNone_iff_eq_none, Bool.not_eq_false', List.isEmpty_iff] at hfree
    obtain ⟨⟨hroot, hframes⟩, -⟩ := hfree
    refine .ok (faithful_of_closed hframes ?_ ?_)
    · rw [hroot]
      exact fun _ hmem => absurd hmem (Option.not_mem_none _)
    · rw [hroot]
      exact fun _ hmem => absurd hmem (Option.not_mem_none _)

theorem pushOutside (hawaiting : builder.awaiting = none) (tag : Tag) :
    Ensures excuse (Faithful demand) (Faithful demand) (builder.pushOutside tag) := by
  unfold Builder.pushOutside
  split
  · exact .refuse h
  · split
    · unfold Builder.openRoot
      split
      · exact .refuse h
      · exact .ok (Encloses.faithful_of_fresh builder.make hawaiting h.whole h.inherits
          (Frame.complete_of_fresh rfl rfl nofun rfl rfl) fun hroot => ⟨hroot, rfl⟩)
    · exact .refuse h
    · exact .refuse h

/-- The innermost open node and what is around it. -/
theorem encloses (hframes : builder.frames = frame :: below) :
    Encloses demand { builder with awaiting := none, frames := [] } frame below :=
  ⟨rfl, hframes ▸ h.nested, h.whole, h.inherits⟩

/-- A tag leaves a faithful builder, whether or not it is refused; a strict one, unless the refusal
takes a waiting reference away. -/
theorem push (tag : Tag) :
    Ensures (demand.excuses builder.waiting) (Faithful demand)
      (fun result => result.2.Faithful demand) (builder.push tag) := by
  unfold Builder.push
  split
  · exact .refuse h
  · rename_i hneeds
    have hawaiting : builder.awaiting = none := by simpa [needsExpression] using hneeds
    split
    · exact h
    · exact .bind (h.pushDoctype _) fun _ => id
    · split
      · exact .bind (h.pushOutside hawaiting _) fun _ => id
      · rename_i frame below hframes
        have hwaits : builder.waiting = frame.pending := by
          rw [waiting, hawaiting, hframes]
          rfl
        rw [hwaits]
        exact Encloses.pushInside { h.encloses hframes with awaiting := hawaiting }
          (h.top hawaiting frame (by rw [hframes]; rfl)) _

/-- To leave a gap leaves a faithful builder. -/
theorem leave : Ensures excuse (Faithful demand) (Faithful demand) (builder.supply none) := by
  unfold Builder.supply
  split
  · rename_i target frame below _ hframes
    have hasked := h.encloses hframes
    exact .bind (hasked.bindStub hasked.top rfl target) fun _ hnext =>
      .ok (hasked.make.withTop hnext.settled)
  · exact .refuse h

/-- A tree fills a gap and leaves a faithful builder, whether or not it is refused, if it was given
and is faithful; a strict one, unless the refusal takes the waiting reference away. -/
theorem supply {tree : Tree} (hgiven : demand.given tree)
    (hwhole : tree.root.Everywhere (Node.Regular demand))
    (hinherits : tree.root.Inherits tree.doctype) :
    Ensures (demand.excuses builder.waiting) (Faithful demand) (Faithful demand)
      (builder.supply (some tree)) := by
  unfold Builder.supply
  split
  · rename_i target frame below hawaiting hframes
    have hwaits : builder.waiting = some target := by
      rw [waiting, hawaiting]
      rfl
    rw [hwaits]
    exact (h.encloses hframes).fill
      (fun hstrict => h.asked hstrict target hawaiting frame (by rw [hframes]; rfl))
      hwhole fun htype => ⟨tree, hgiven, htype, hinherits, rfl⟩
  · exact .refuse h

end Faithful

end Builder

end TagTree
