import TagTree.Proofs.FinalTour

/-!
# Cooked text

The cooked text of a node is its source text with each embedded node replaced by what it means:
trivia mean nothing, and an escape means what its attribute says. A node has a cooked text exactly
if it has no properties and all that is embedded in it means something (`Tree.cooked_of_built`).
-/

namespace TagTree

open String (join join_cons join_append)

variable {means : Node → String} {text : String}

/-- The text of an item, where embedded nodes have the given texts. -/
def Item.textWith {ν : Type} (inner : ν → String) : Item ν → String
  | literal text => text
  | embedded node => inner node
  | _ => ""

/-- The item is text, an embedded node, or the reserved reference before one. -/
def Item.isContent {ν : Type} : Item ν → Bool
  | literal _ | embedded _ => true
  | reference edge => edge.isReserved
  | _ => false

namespace Node

/-- What an embedded node means: nothing for trivia, and otherwise what its attribute says. -/
def Means (node : Node) (text : String) : Prop :=
  if node.flags.trivia then text = ""
  else Entries.get? "cooked" node.attributes = some (.text text)

/-- The text of a node and of all beneath it, in the order of the finished tree. -/
def flatText (node : Node) : String :=
  join (node.flat.map Tag.literalText)

variable {items : List (Item Node)}

/-- An item that is cooked is content, and what is embedded means something. -/
theorem means_of_cookItems {pieces : List String} (h : cookItems items = .ok pieces) :
    ∀ item ∈ items, item.isContent = true ∧
      ∀ inner, item = .embedded inner → ∃ text, inner.Means text := by
  induction items generalizing pieces with
  | nil => exact List.forall_mem_nil _
  | cons item items ih =>
    rw [List.forall_mem_cons]
    cases item with
    | literal text =>
      obtain ⟨later, hlater, -⟩ := bind_eq_ok.mp h
      exact ⟨⟨rfl, by rintro _ ⟨⟩⟩, ih hlater⟩
    | embedded inner =>
      rw [cookItems] at h
      split at h
      · rename_i htrivia
        refine ⟨⟨rfl, ?_⟩, ih h⟩
        rintro _ ⟨⟩
        exact ⟨"", (if_pos htrivia).mpr rfl⟩
      · rename_i htrivia
        split at h
        · rename_i text htext
          obtain ⟨later, hlater, -⟩ := bind_eq_ok.mp h
          refine ⟨⟨rfl, ?_⟩, ih hlater⟩
          rintro _ ⟨⟩
          obtain ⟨value, hvalue, hfound⟩ := Option.bind_eq_some_iff.mp htext
          cases value with
          | text found =>
            cases hfound
            exact ⟨text, (if_neg htrivia).mpr hvalue⟩
          | _ => cases hfound
        · cases h
    | reference edge =>
      rw [cookItems] at h
      split at h
      · rename_i hreserved
        exact ⟨⟨hreserved, by rintro _ ⟨⟩⟩, ih h⟩
      · cases h
    | gap | arrayStart | shift => cases h

/-- Content is cooked by putting what each embedded node means in its place. -/
theorem cookItems_of_means (hc : ∀ item ∈ items, item.isContent = true)
    (hm : ∀ inner, .embedded inner ∈ items → inner.Means (means inner)) :
    ∃ pieces, cookItems items = .ok pieces ∧
      join pieces = join (items.map (Item.textWith means)) := by
  induction items with
  | nil => exact ⟨[], rfl, rfl⟩
  | cons item items ih =>
    obtain ⟨hitem, hitems⟩ := List.forall_mem_cons.mp hc
    obtain ⟨pieces, hpieces, hjoin⟩ :=
      ih hitems fun inner hmem => hm inner (List.mem_cons_of_mem _ hmem)
    rw [List.map_cons, join_cons, ← hjoin]
    cases item with
    | literal text =>
      refine ⟨text :: pieces, ?_, join_cons⟩
      rw [cookItems, hpieces]
      rfl
    | embedded inner =>
      have hmeans := hm inner List.mem_cons_self
      rw [Means] at hmeans
      rw [cookItems]
      split at hmeans
      · rename_i htrivia
        refine ⟨pieces, (if_pos htrivia).trans hpieces, ?_⟩
        rw [Item.textWith, hmeans, String.empty_append]
      · rename_i htrivia
        refine ⟨means inner :: pieces, ?_, join_cons⟩
        rw [if_neg htrivia, hmeans, hpieces]
        rfl
    | reference edge =>
      refine ⟨pieces, ?_, (String.empty_append).symm⟩
      have hreserved : edge.isReserved = true := hitem
      rw [cookItems, if_pos hreserved, hpieces]
    | gap | arrayStart | shift => cases hitem

end Node

namespace Segment

variable {segment : Segment Node} {segments : List (Segment Node)}

/-- A segment that mentions no property is content. -/
theorem isContent_of_mem (hp : segment.IsPlain) (h : segment.mention? = none) :
    ∀ item ∈ segment.items, item.isContent = true := by
  cases segment with
  | content text => exact List.forall_mem_singleton.mpr rfl
  | embedded edge node =>
    cases edge with
    | none => exact List.forall_mem_singleton.mpr rfl
    | some edge =>
      exact List.forall_mem_cons.mpr ⟨(hp edge rfl).1, List.forall_mem_singleton.mpr rfl⟩
  | arrayStart | value => cases h

/-- Its text is that of its items. -/
theorem join_finals (h : segment.mention? = none) :
    join ((segment.finals.flatMap Node.flatOf).map Tag.literalText) =
      join (segment.items.map (Item.textWith Node.flatText)) := by
  cases segment with
  | content text => rfl
  | embedded edge node =>
    cases edge <;>
      simp [finals, items, Node.flatOf, Item.textWith, Node.flatText, Tag.literalText]
  | arrayStart | value => cases h

theorem join_allFinals (h : ∀ segment ∈ segments, segment.mention? = none) :
    join ((segments.flatMap fun segment => segment.finals.flatMap Node.flatOf).map
      Tag.literalText) = join ((allItems segments).map (Item.textWith Node.flatText)) := by
  induction segments with
  | nil => rfl
  | cons segment segments ih =>
    obtain ⟨hsegment, hsegments⟩ := List.forall_mem_cons.mp h
    rw [List.flatMap_cons, List.map_append, join_append, join_finals hsegment, ih hsegments,
      allItems_cons, List.map_append, join_append]

end Segment

namespace Node

variable {node : Node} (helement : node.isStub = false)

include helement

theorem cooked_eq_ok : node.cooked = .ok text ↔
    ∃ pieces, cookItems node.items.toList = .ok pieces ∧ join pieces = text := by
  cases node with
  | gap | null | literal => cases helement
  | element body =>
    rw [cooked, bind_eq_ok]
    simp only [pure, Except.pure, Except.ok.injEq]
    rfl

/-- A node with a cooked text has no properties, and what is embedded in it means something. -/
theorem means_of_cooked (h : node.cooked = .ok text) :
    node.references = [] ∧
    ∀ inner, .embedded inner ∈ node.items.toList → ∃ text, inner.Means text := by
  obtain ⟨pieces, hpieces, -⟩ := (cooked_eq_ok helement).mp h
  have hitems := means_of_cookItems hpieces
  refine ⟨List.filterMap_eq_nil_iff.mpr fun item hitem => ?_, fun inner hinner => ?_⟩
  · cases item with
    | reference edge => exact if_pos (hitems _ hitem).1
    | _ => rfl
  · exact (hitems _ hinner).2 inner rfl

namespace Traversable

variable (ht : node.Traversable) (hr : node.references = [])

include ht hr

/-- The items of a node without properties are content, and its source text is theirs. -/
theorem isContent : (∀ item ∈ node.items.toList, item.isContent = true) ∧
    node.sourceText = .ok (join (node.items.toList.map (Item.textWith flatText))) := by
  obtain ⟨outline, rfl, hl, -, hu⟩ := ht.sound.exists_unmixed helement (all_self ht.unmixed)
  have hnone : ∀ segment ∈ outline.segments, segment.mention? = none := by
    intro segment hsegment
    refine Option.eq_none_iff_forall_ne_some.mpr fun mention hmention => ?_
    have hmem : mention ∈ Segment.mentions outline.segments :=
      List.mem_filterMap.mpr ⟨segment, hsegment, hmention⟩
    obtain ⟨edge, hedge, -⟩ := Outline.mem_references hl.orderly hmem
    rw [hr] at hedge
    cases hedge
  constructor
  · intro item hitem
    obtain ⟨segment, hsegment, hitem⟩ := List.mem_flatMap.mp hitem
    exact Segment.isContent_of_mem (hl.plain segment hsegment) (hnone segment hsegment) item hitem
  · rw [sourceText_eq ht, Outline.flat_toNode hl hu, List.map_cons, List.map_append,
      join_cons, join_append, Segment.join_allFinals hnone]
    exact congrArg Except.ok (String.empty_append.trans String.append_empty)

theorem cooked_of_means
    (hm : ∀ inner, .embedded inner ∈ node.items.toList → inner.Means (means inner)) :
    node.cooked = .ok (join (node.items.toList.map (Item.textWith means))) :=
  (cooked_eq_ok helement).mpr (cookItems_of_means (ht.isContent helement hr).1 hm)

end Traversable

end Node

namespace Tree

/-- Cooking replaces what is embedded. In a tree that was built and mixes no name, a node that is
no stub has a cooked text exactly if it has no reference to a property and all that is embedded in
it means something. The text is then the source text of the node, where the source text of each
embedded node gives way to what the node means. -/
theorem cooked_of_built {tree : Tree} {place : Place} (h : tree.Built)
    (hu : tree.root.all Node.isUnmixed = true) (hplace : place ∈ tree.root.places)
    (helement : place.node.isStub = false) :
    ((∃ text, place.node.cooked = .ok text) ↔ place.node.references = [] ∧
      ∀ inner, .embedded inner ∈ place.node.items.toList → ∃ text, inner.Means text) ∧
    ∀ text, place.node.cooked = .ok text → ∃ raw means : Node → String,
      (∀ inner, .embedded inner ∈ place.node.items.toList →
        inner.sourceText = .ok (raw inner) ∧ inner.Means (means inner)) ∧
      place.node.sourceText = .ok (join (place.node.items.toList.map (Item.textWith raw))) ∧
      text = join (place.node.items.toList.map (Item.textWith means)) ∧
      ((∀ inner, .embedded inner ∉ place.node.items.toList) →
        place.node.sourceText = .ok text) := by
  have ht : place.node.Traversable :=
    h.of_mem_places (fun _ _ => Node.Traversable.of_mem_kids) ⟨h.sound, hu⟩ hplace
  constructor
  · constructor
    · rintro ⟨text, htext⟩
      exact Node.means_of_cooked helement htext
    · rintro ⟨hr, hm⟩
      choose! means hm using hm
      exact ⟨_, ht.cooked_of_means helement hr hm⟩
  · intro text htext
    obtain ⟨hr, hm⟩ := Node.means_of_cooked helement htext
    choose! means hm using hm
    obtain ⟨-, hsource⟩ := ht.isContent helement hr
    obtain rfl := Except.ok.inj (htext.symm.trans (ht.cooked_of_means helement hr hm))
    refine ⟨Node.flatText, means, fun inner hinner => ⟨?_, hm inner hinner⟩, hsource, rfl, ?_⟩
    · have hkid : inner ∈ place.node.kids :=
        List.mem_append_right _ (List.mem_filterMap.mpr ⟨_, hinner, rfl⟩)
      exact Node.sourceText_eq (ht.of_mem_kids hkid)
    · intro hnone
      rw [hsource, List.map_congr_left]
      intro item hitem
      cases item with
      | embedded inner => exact absurd hitem (hnone inner)
      | _ => rfl

/-- A token with text, an escape and trivia. -/
def escapedTags : List Tag :=
  let start (flags : NodeFlags) (name : String) (attributes : Attributes) : Tag :=
    .opening ⟨flags, none, some name, attributes⟩
  [start { token := true } "String" [], .literal "a", .reference ⟨"@", false, none, {}⟩,
    start { escape := true } "Escape" [("cooked", .text "\n")], .literal "\\n", .closing,
    .literal "b", start { trivia := true } "Space" [], .literal " ", .closing, .closing]

theorem cooked_of_escape :
    ∃ tree, ofTags escapedTags = .ok tree ∧ tree.root.all Node.isUnmixed = true ∧
      tree.root.isStub = false ∧ tree.root.cooked = .ok "a\nb" ∧ ∃ raw means : Node → String,
        (∀ inner, .embedded inner ∈ tree.root.items.toList →
          inner.sourceText = .ok (raw inner) ∧ inner.Means (means inner)) ∧
        tree.root.sourceText = .ok (join (tree.root.items.toList.map (Item.textWith raw))) ∧
        "a\nb" = join (tree.root.items.toList.map (Item.textWith means)) := by
  obtain ⟨tree, htree, hunmixed, helement, _, hcooked, rfl⟩ :
      ∃ tree, ofTags escapedTags = .ok tree ∧ tree.root.all Node.isUnmixed = true ∧
        tree.root.isStub = false ∧ ∃ text, tree.root.cooked = .ok text ∧ text = "a\nb" := by
    decide +kernel
  have hbuilt := Built.ofTags htree
  obtain ⟨raw, means, hinner, hsource, hmeans, -⟩ :=
    (cooked_of_built hbuilt hunmixed hbuilt.root_mem helement).2 _ hcooked
  exact ⟨tree, htree, hunmixed, helement, hcooked, raw, means, hinner, hsource, hmeans⟩

end Tree

end TagTree
