import Mathlib.Data.List.Forall2
import TagTree.Proofs.Agreement
import TagTree.Proofs.Flatten

/-!
# Matching nodes

Two nodes match if they agree all the way down but for their opening tags, which are alike in a
given way (`Node.Matches`). Where the tags are alike if they are the same up to the order of
attributes, the nodes match exactly if they are the same (`Node.same_iff_matches`). Matching nodes
are flattened to matching tags, or fail in the same way (`Node.Matches.replay`).
-/

namespace TagTree

/-! ### Parts of nodes -/

/-- Lists whose members are related in order have related members, or none, at each place. -/
theorem rel_getElem?_of_forall₂ {α β : Type} {related : α → β → Prop} {first : List α}
    {second : List β} (h : List.Forall₂ related first second) (place : Nat) :
    Option.Rel related first[place]? second[place]? := by
  induction h generalizing place with
  | nil => exact .none
  | cons hfirst _ ih =>
    cases place with
    | zero => exact .some hfirst
    | succ place => exact ih place

theorem rel_mono {α β : Type} {related related' : α → β → Prop} {first : Option α}
    {second : Option β} (h : Option.Rel related first second)
    (hr : ∀ a b, related a b → related' a b) : Option.Rel related' first second := by
  cases h with
  | none => exact .none
  | some h => exact .some (hr _ _ h)

section Parts

variable {ν : Type}

/-- The bindings have the same reference, and what they bind is related. -/
inductive Binding.Matches (related : ν → ν → Prop) : Binding ν → Binding ν → Prop where
  | of (edge : Reference) {first second : ν} (h : related first second) :
    Matches related ⟨edge, first⟩ ⟨edge, second⟩

/-- The properties are of one kind, and their bindings match in order. -/
inductive Property.Matches (related : ν → ν → Prop) : Property ν → Property ν → Prop where
  | single {first second : Binding ν} (h : first.Matches related second) :
    Matches related (.single first) (.single second)
  | array {first second : Array (Binding ν)}
    (h : List.Forall₂ (Binding.Matches related) first.toList second.toList) :
    Matches related (.array first) (.array second)

/-- The properties match and have the same name. -/
inductive Property.MatchesNamed (related : ν → ν → Prop) :
    String × Property ν → String × Property ν → Prop where
  | of (name : String) {first second : Property ν} (h : first.Matches related second) :
    MatchesNamed related (name, first) (name, second)

/-- The items are the same, or embed nodes that are related. -/
inductive Item.Matches (related : ν → ν → Prop) : Item ν → Item ν → Prop where
  | reference (edge : Reference) : Matches related (.reference edge) (.reference edge)
  | gap : Matches related .gap .gap
  | arrayStart : Matches related .arrayStart .arrayStart
  | shift (index : Nat) : Matches related (.shift index) (.shift index)
  | literal (text : String) : Matches related (.literal text) (.literal text)
  | embedded {first second : ν} (h : related first second) :
    Matches related (.embedded first) (.embedded second)

end Parts

/-- How opening tags and labels of nodes are compared. -/
structure Likeness where
  start : OpenTag → OpenTag → Prop
  label : OpenTag → OpenTag → Prop

/-- Opening tags and labels are compared in the same way. -/
abbrev Likeness.of (related : OpenTag → OpenTag → Prop) : Likeness :=
  ⟨related, related⟩

/-- The nodes are the same but for their opening tags and labels, which are alike. -/
inductive Node.Matches (like : Likeness) : Node → Node → Prop where
  | gap : Matches like .gap .gap
  | null : Matches like .null .null
  | literal (text : String) : Matches like (.literal text) (.literal text)
  | element {first second : Element Node} (start : like.start first.start second.start)
    (label : like.label first.label second.label) (held : first.held = second.held)
    (items : List.Forall₂ (Item.Matches (Matches like)) first.items.toList second.items.toList)
    (properties : List.Forall₂ (Property.MatchesNamed (Matches like)) first.properties
      second.properties) : Matches like (.element first) (.element second)

/-! ### Nodes that are the same -/

/-- The opening tags are the same, up to the order of attributes. -/
def OpenTag.Same (first second : OpenTag) : Prop :=
  first.same second = true

/-- Opening tags and labels are compared up to the order of attributes. -/
abbrev Likeness.same : Likeness :=
  .of OpenTag.Same

namespace Node

mutual

/-- Two nodes are the same if and only if they match with the same opening tags and labels. -/
theorem same_iff_matches : (first second : Node) →
    (first.same second = true ↔ first.Matches .same second)
  | first, second => by
    cases first <;> cases second
    case gap.gap => exact iff_of_true (by rw [same]) .gap
    case null.null => exact iff_of_true (by rw [same]) .null
    case literal.literal text other =>
      rw [same, beq_iff_eq]
      exact ⟨fun h => h ▸ .literal text, fun | .literal _ => rfl⟩
    case element.element body other =>
      obtain ⟨start, label, ⟨items⟩, properties, held, size⟩ := body
      obtain ⟨start', label', ⟨items'⟩, properties', held', size'⟩ := other
      simp only [same, Bool.and_eq_true, beq_iff_eq, sameItems_iff_allMatch items items',
        sameProperties_iff_allMatch properties properties', and_assoc]
      exact ⟨fun ⟨hstart, hlabel, hheld, hitems, hproperties⟩ =>
          .element hstart hlabel hheld hitems hproperties,
        fun
        | .element hstart hlabel hheld hitems hproperties =>
          ⟨hstart, hlabel, hheld, hitems, hproperties⟩⟩
    all_goals exact iff_of_false (by simp [same]) nofun

theorem sameItems_iff_allMatch : (first second : List (Item Node)) →
    (sameItems first second = true ↔ List.Forall₂ (Item.Matches (Matches .same)) first second)
  | [], [] => iff_of_true (by rw [sameItems]) .nil
  | [], _ :: _ => iff_of_false (by simp [sameItems]) nofun
  | _ :: _, [] => iff_of_false (by simp [sameItems]) nofun
  | item :: rest, other :: rest' => by
    rw [List.forall₂_cons, ← sameItems_iff_allMatch rest rest']
    cases item <;> cases other
    case reference.reference edge _ =>
      rw [sameItems, Bool.and_eq_true, beq_iff_eq]
      exact and_congr_left' ⟨fun h => h ▸ .reference edge, fun | .reference _ => rfl⟩
    case gap.gap =>
      rw [sameItems]
      exact (and_iff_right .gap).symm
    case arrayStart.arrayStart =>
      rw [sameItems]
      exact (and_iff_right .arrayStart).symm
    case shift.shift index _ =>
      rw [sameItems, Bool.and_eq_true, beq_iff_eq]
      exact and_congr_left' ⟨fun h => h ▸ .shift index, fun | .shift _ => rfl⟩
    case literal.literal text _ =>
      rw [sameItems, Bool.and_eq_true, beq_iff_eq]
      exact and_congr_left' ⟨fun h => h ▸ .literal text, fun | .literal _ => rfl⟩
    case embedded.embedded node node' =>
      rw [sameItems, Bool.and_eq_true, same_iff_matches node node']
      exact and_congr_left' ⟨.embedded, fun | .embedded h => h⟩
    all_goals exact iff_of_false (by simp [sameItems]) fun h => nomatch h.1

theorem sameProperties_iff_allMatch : (first second : List (String × Property Node)) →
    (sameProperties first second = true ↔
      List.Forall₂ (Property.MatchesNamed (Matches .same)) first second)
  | [], [] => iff_of_true (by rw [sameProperties]) .nil
  | [], _ :: _ => iff_of_false (by simp [sameProperties]) nofun
  | _ :: _, [] => iff_of_false (by simp [sameProperties]) nofun
  | (name, .single ⟨edge, node⟩) :: rest, (name', .single ⟨edge', node'⟩) :: rest' => by
    rw [List.forall₂_cons, ← sameProperties_iff_allMatch rest rest',
      sameProperties, Bool.and_eq_true]
    simp only [Bool.and_eq_true, beq_iff_eq, same_iff_matches node node']
    refine and_congr_left' ⟨?_, fun | .of _ (.single (.of _ h)) => ⟨⟨rfl, rfl⟩, h⟩⟩
    rintro ⟨⟨rfl, rfl⟩, h⟩
    exact .of name (.single (.of edge h))
  | (name, .array ⟨bindings⟩) :: rest, (name', .array ⟨bindings'⟩) :: rest' => by
    rw [List.forall₂_cons, ← sameProperties_iff_allMatch rest rest',
      sameProperties, Bool.and_eq_true]
    simp only [Bool.and_eq_true, beq_iff_eq, sameBindings_iff_allMatch bindings bindings']
    refine and_congr_left' ⟨?_, fun | .of _ (.array h) => ⟨rfl, h⟩⟩
    rintro ⟨rfl, h⟩
    exact .of name (.array h)
  | (_, .single _) :: _, (_, .array _) :: _ =>
    iff_of_false (by simp [sameProperties]) fun | .cons h _ => nomatch h
  | (_, .array _) :: _, (_, .single _) :: _ =>
    iff_of_false (by simp [sameProperties]) fun | .cons h _ => nomatch h

theorem sameBindings_iff_allMatch : (first second : List (Binding Node)) →
    (sameBindings first second = true ↔ List.Forall₂ (Binding.Matches (Matches .same)) first second)
  | [], [] => iff_of_true (by rw [sameBindings]) .nil
  | [], _ :: _ => iff_of_false (by simp [sameBindings]) nofun
  | _ :: _, [] => iff_of_false (by simp [sameBindings]) nofun
  | ⟨edge, node⟩ :: rest, ⟨edge', node'⟩ :: rest' => by
    rw [List.forall₂_cons, ← sameBindings_iff_allMatch rest rest', sameBindings, Bool.and_eq_true]
    simp only [Bool.and_eq_true, beq_iff_eq, same_iff_matches node node']
    refine and_congr_left' ⟨?_, fun | .of _ h => ⟨rfl, h⟩⟩
    rintro ⟨rfl, h⟩
    exact .of edge h

end

end Node

/-! ### Look-up -/

namespace Item.Matches

variable {ν : Type} {related : ν → ν → Prop} {item other : Item ν}

theorem map_eq (h : item.Matches related other) :
    item.map (fun _ => ()) = other.map fun _ => () := by
  cases h <;> rfl

end Item.Matches

namespace Item

variable {ν : Type} {related : ν → ν → Prop}

/-- Lists of items that match are the same but for what they embed. -/
theorem map_eq_of_forall₂ {first second : List (Item ν)}
    (h : List.Forall₂ (Matches related) first second) :
    first.map (Item.map fun _ => ()) = second.map (Item.map fun _ => ()) := by
  induction h with
  | nil => rfl
  | cons hitem _ ih => rw [List.map_cons, List.map_cons, hitem.map_eq, ih]

theorem shiftsAfter_map {μ : Type} (f : ν → μ) : (items : List (Item ν)) →
    shiftsAfter (items.map (Item.map f)) = shiftsAfter items
  | [] => rfl
  | [item] => by cases item <;> rfl
  | item :: next :: rest => by
    cases item with
    | shift index =>
      cases next with
      | gap => exact congrArg (· + 1) (shiftsAfter_map f rest)
      | _ => rfl
    | _ => rfl

theorem shiftsAfter_eq {first second : List (Item ν)}
    (h : List.Forall₂ (Matches related) first second) : shiftsAfter first = shiftsAfter second := by
  rw [← shiftsAfter_map (fun _ => ()), map_eq_of_forall₂ h, shiftsAfter_map]

end Item

/-- Where properties match, a name has matching properties or none. -/
theorem Property.rel_get? {ν : Type} {related : ν → ν → Prop} {first second : Entries (Property ν)}
    (h : List.Forall₂ (MatchesNamed related) first second) (name : String) :
    Option.Rel (Matches related) (first.get? name) (second.get? name) := by
  induction h with
  | nil => exact .none
  | cons hentry _ ih =>
    obtain ⟨present, hproperty⟩ := hentry
    rw [Entries.get?, Entries.get?]
    split
    · exact .some hproperty
    · exact ih

theorem Property.Matches.rel_binding? {ν : Type} {related : ν → ν → Prop}
    {first second : Property ν} (h : first.Matches related second) (index : Option Nat) :
    Option.Rel (Binding.Matches related) (first.binding? index) (second.binding? index) := by
  cases h with
  | single h => exact .some h
  | array h =>
    cases index with
    | none => exact .none
    | some index =>
      simpa only [binding?, Option.bind_some, ← Array.getElem?_toList] using
        rel_getElem?_of_forall₂ h index

namespace Node.Matches

variable {like : Likeness} {first second : Node}

section Steps

variable (h : first.Matches like second)

include h

theorem items :
    List.Forall₂ (Item.Matches (Node.Matches like)) first.items.toList second.items.toList := by
  cases h with
  | element _ _ _ items _ => exact items
  | _ => exact .nil

theorem properties :
    List.Forall₂ (Property.MatchesNamed (Node.Matches like)) first.properties
      second.properties := by
  cases h with
  | element _ _ _ _ properties => exact properties
  | _ => exact .nil

theorem heldSlot_eq : first.heldSlot = second.heldSlot := by
  cases h with
  | element _ _ held _ _ => rw [heldSlot, heldSlot, held]
  | _ => rfl

/-- The gap in a slot belongs to the same key. -/
theorem keyAt?_eq (slot : Nat) : first.directory.keyAt? slot = second.directory.keyAt? slot := by
  have hitems := Item.map_eq_of_forall₂ h.items
  have hkeys : first.directory.keys = second.directory.keys := by
    rw [directory, directory, Directory.of, Directory.of, ← Item.keys_map (fun _ => ()), hitems,
      Item.keys_map]
  cases slot with
  | zero => rfl
  | succ position =>
    have howner : Item.owner? first.directory.items position =
        Item.owner? second.directory.items position := by
      rw [← Item.owner?_map (fun _ => ()), ← Item.owner?_map (fun _ => ()) second.directory.items]
      refine congrArg (Item.owner? · position) (Array.toList_inj.mp ?_)
      rw [Array.toList_map, Array.toList_map]
      exact hitems
    have hitem : Option.Rel (Item.Matches (Node.Matches like))
        first.directory.items[position]? second.directory.items[position]? := by
      have := rel_getElem?_of_forall₂ h.items position
      rwa [Array.getElem?_toList, Array.getElem?_toList] at this
    rw [Directory.keyAt?, Directory.keyAt?, howner, hkeys]
    generalize first.directory.items[position]? = item,
      second.directory.items[position]? = other at hitem
    cases hitem with
    | none => rfl
    | some hitem => cases hitem <;> rfl

/-- Nodes that match are looked up alike. -/
theorem agree_binding (name : String) (index : Option Nat) :
    Agree Eq (Binding.Matches (Node.Matches like)) (first.binding name index)
      (second.binding name index) := by
  have hproperty := Property.rel_get? h.properties name
  simp only [binding, Directory.binding, getElem?_properties_directory, property?]
  generalize Entries.get? name first.properties = found,
    Entries.get? name second.properties = found' at hproperty
  cases hproperty with
  | none => exact .error rfl
  | some hproperty =>
    cases hproperty with
    | single hbinding =>
      cases index with
      | none => exact .ok hbinding
      | some index => exact .error rfl
    | @array bindings others hbindings =>
      cases index with
      | none => exact .error rfl
      | some index =>
        have hbinding := rel_getElem?_of_forall₂ hbindings index
        simp only [Array.getElem?_toList] at hbinding
        dsimp only
        generalize bindings[index]? = found, others[index]? = found' at hbinding
        cases hbinding with
        | none => exact .error rfl
        | some hbinding => exact .ok hbinding

/-- Nodes that match took back values that match. -/
theorem agree_heldValue : Agree Eq (Node.Matches like) first.heldValue second.heldValue := by
  rw [heldValue, heldValue, h.heldSlot_eq]
  cases second.heldSlot with
  | none => exact .error rfl
  | some slot =>
    have hbinding : Agree Eq (Binding.Matches (Node.Matches like))
        (first.directory.bindingAt slot) (second.directory.bindingAt slot) := by
      rw [Directory.bindingAt, Directory.bindingAt, h.keyAt?_eq]
      cases second.directory.keyAt? slot with
      | none => exact .error rfl
      | some key => exact (h.agree_binding key.name key.index).mapError
    refine hbinding.bind ?_
    rintro _ _ ⟨edge, hnode⟩
    exact .ok hnode

end Steps

theorem forall₂_historyOnto {value value' : Except LookupError Node}
    {later later' : List (Except LookupError Node)}
    (hvalue : Agree Eq (Node.Matches like) value value')
    (hlater : List.Forall₂ (Agree Eq (Node.Matches like)) later later') (shifts : Nat) :
    List.Forall₂ (Agree Eq (Node.Matches like)) (historyOnto value later shifts)
      (historyOnto value' later' shifts) := by
  induction shifts generalizing value value' later later' with
  | zero => exact .cons hvalue hlater
  | succ shifts ih => exact ih (hvalue.bind fun _ _ h => h.agree_heldValue) (.cons hvalue hlater)

end Node.Matches

/-! ### Tags -/

/-- The two effects agree, up to the order of options. -/
def Effect.same : Effect → Effect → Bool
  | write text options, write text' options' => text == text' && Attributes.same options options'
  | pushStyle spans, pushStyle spans' => spans == spans'
  | popStyle, popStyle => true
  | _, _ => false

/-- The two tags agree, up to the order of attributes. -/
def Tag.same : Tag → Tag → Bool
  | doctype header, doctype header' => header.same header'
  | opening start, opening start' => start.same start'
  | closing, closing => true
  | reference edge, reference edge' => edge == edge'
  | shift index, shift index' => index == index'
  | gap, gap => true
  | null, null => true
  | arrayStart, arrayStart => true
  | literal text, literal text' => text == text'
  | embedded, embedded => true
  | .effect event, .effect event' => event.same event'
  | _, _ => false

/-- The tags are the same but for opening tags and headers, which are alike. They are no effects,
which do not belong to a tree. -/
inductive Tag.Matches (like : Likeness) (headers : Doctype → Doctype → Prop) :
    Tag → Tag → Prop where
  | doctype {first second : Doctype} (h : headers first second) :
    Matches like headers (.doctype first) (.doctype second)
  | opening {first second : OpenTag} (h : like.start first second) :
    Matches like headers (.opening first) (.opening second)
  | closing : Matches like headers .closing .closing
  | reference (edge : Reference) : Matches like headers (.reference edge) (.reference edge)
  | shift (index : Nat) : Matches like headers (.shift index) (.shift index)
  | gap : Matches like headers .gap .gap
  | null : Matches like headers .null .null
  | arrayStart : Matches like headers .arrayStart .arrayStart
  | literal (text : String) : Matches like headers (.literal text) (.literal text)
  | embedded : Matches like headers .embedded .embedded

/-- Tags that match in one way match in another, in which their own parts are alike. -/
theorem Tag.Matches.mono {like like' : Likeness} {headers headers' : Doctype → Doctype → Prop}
    {first second : Tag} (h : first.Matches like headers second)
    (hstart : ∀ start start', first = .opening start → second = .opening start' →
      like.start start start' → like'.start start start')
    (hheader : ∀ header header', first = .doctype header → second = .doctype header' →
      headers header header' → headers' header header') : first.Matches like' headers' second := by
  cases h with
  | doctype h => exact .doctype (hheader _ _ rfl rfl h)
  | opening h => exact .opening (hstart _ _ rfl rfl h)
  | closing => exact .closing
  | reference edge => exact .reference edge
  | shift index => exact .shift index
  | gap => exact .gap
  | null => exact .null
  | arrayStart => exact .arrayStart
  | literal text => exact .literal text
  | embedded => exact .embedded

/-- The headers are the same, up to the order of attributes. -/
def Doctype.Same (first second : Doctype) : Prop :=
  first.same second = true

theorem Tag.Matches.same {first second : Tag}
    (h : first.Matches .same Doctype.Same second) : first.same second = true := by
  cases h with
  | doctype h => exact h
  | opening h => exact h
  | reference edge => exact beq_self_eq_true edge
  | shift index => exact beq_self_eq_true index
  | literal text => exact beq_self_eq_true text
  | _ => rfl

/-! ### Replay -/

/-- The parts give tags or values that match, or fail in the same way. -/
inductive Part.Matches (like : Likeness) (headers : Doctype → Doctype → Prop) :
    Part → Part → Prop where
  | tag {first second : Tag} (h : first.Matches like headers second) :
    Matches like headers (.tag first) (.tag second)
  | value {first second : Node} (h : first.Matches like second) (bare : Option Nat) :
    Matches like headers (.value first bare) (.value second bare)
  | failure (error : Error) : Matches like headers (.failure error) (.failure error)

/-- The runs give tags that match, and end in the same way. -/
structure Run.Matches (like : Likeness) (headers : Doctype → Doctype → Prop)
    (first second : Run Tag) : Prop where
  items : List.Forall₂ (Tag.Matches like headers) first.items second.items
  failure : first.failure = second.failure

section Replay

variable {like : Likeness} {headers : Doctype → Doctype → Prop}

theorem Run.Matches.agree {first second : Run Tag} (h : first.Matches like headers second) :
    Agree Eq (List.Forall₂ (Tag.Matches like headers)) first.toExcept second.toExcept := by
  rw [toExcept, toExcept, h.failure]
  cases second.failure with
  | none => exact .ok h.items
  | some error => exact .error rfl

theorem Part.matches_ofDue {due due' : List (Except LookupError Node)}
    (h : List.Forall₂ (Agree Eq (Node.Matches like)) due due') (afterShift : Bool) (slot : Nat) :
    (ofDue afterShift slot due).Matches like headers (ofDue afterShift slot due') := by
  cases h with
  | nil => exact .failure _
  | cons hfirst _ =>
    cases hfirst with
    | error herror =>
      subst herror
      exact .failure _
    | ok hnode =>
      rw [ofDue, ofDue, hnode.heldSlot_eq]
      exact .value hnode _

section Parts

variable {properties properties' : Std.TreeMap String (Property Node)} {index : Option Nat}
  {due due' : List (Except LookupError Node)} {before before' : Option (Item Node)}
  (hproperties : ∀ name : String,
    Option.Rel (Property.Matches (Node.Matches like)) properties[name]? properties'[name]?)
  (hdue : List.Forall₂ (Agree Eq (Node.Matches like)) due due')
  (hbefore : Option.Rel (Item.Matches (Node.Matches like)) before before')
include hproperties hdue hbefore

/-- The values due at a gap match. -/
theorem Node.forall₂_dueAt {after after' : List (Item Node)}
    (hafter : List.Forall₂ (Item.Matches (Matches like)) after after') :
    List.Forall₂ (Agree Eq (Matches like)) (dueAt properties index due before after)
      (dueAt properties' index due' before' after') := by
  cases hbefore with
  | none => exact hdue
  | some hitem =>
    cases hitem with
    | reference edge =>
      simp only [dueAt]
      have hproperty := hproperties edge.name
      generalize properties[edge.name]? = found, properties'[edge.name]? = found' at hproperty
      cases hproperty with
      | none => exact .nil
      | @some property property' hproperty =>
        have hbinding := hproperty.rel_binding? index
        simp only [Option.bind_some]
        generalize property.binding? index = found, property'.binding? index = found' at hbinding
        cases hbinding with
        | none => exact .nil
        | some hbinding =>
          obtain ⟨edge, hnode⟩ := hbinding
          rw [Item.shiftsAfter_eq hafter]
          exact Node.Matches.forall₂_historyOnto (.ok hnode) .nil _
    | _ => exact hdue

/-- Items that match are replayed alike. -/
theorem Node.forall₂_partsFrom {bare : Option Nat} {scope : Scope} {slot : Nat}
    {items items' : List (Item Node)}
    (hitems : List.Forall₂ (Item.Matches (Matches like)) items items') :
    List.Forall₂ (Part.Matches like headers)
      (partsFrom properties bare scope index due before slot items)
      (partsFrom properties' bare scope index due' before' slot items') := by
  induction hitems generalizing scope index due due' before before' slot with
  | nil => exact .cons (.tag .closing) .nil
  | cons hitem hrest ih =>
    cases hitem with
    | reference edge =>
      rw [partsFrom, partsFrom]
      split
      · exact .cons (.failure _) .nil
      · exact .cons (.tag (.reference edge)) (ih hdue (.some (.reference edge)))
    | gap =>
      have hintroduces : before.any Item.introducesValue = before'.any Item.introducesValue := by
        cases hbefore with
        | none => rfl
        | some hitem => cases hitem <;> rfl
      have hshift : before.any Item.isShift = before'.any Item.isShift := by
        cases hbefore with
        | none => rfl
        | some hitem => cases hitem <;> rfl
      have hnew := @forall₂_dueAt _ _ _ index _ _ _ _ hproperties hdue hbefore _ _ hrest
      rw [partsFrom, partsFrom, hintroduces, hshift]
      split
      · refine .cons ?_ (ih ?_ (.some .gap))
        · split
          · exact .tag .gap
          · exact Part.matches_ofDue hnew _ _
        · rw [← List.drop_one, ← List.drop_one]
          exact List.forall₂_drop 1 hnew
      · exact .cons (.tag .gap) (ih hdue (.some .gap))
    | embedded hnode => exact .cons (.value hnode none) (ih hdue (.some (.embedded hnode)))
    | arrayStart => exact .cons (.tag .arrayStart) (ih hdue (.some .arrayStart))
    | shift index => exact .cons (.tag (.shift index)) (ih hdue (.some (.shift index)))
    | literal text => exact .cons (.tag (.literal text)) (ih hdue (.some (.literal text)))

end Parts

/-- Nodes that match have parts that match. -/
theorem Node.Matches.parts {first second : Node} (h : first.Matches like second)
    (bare : Option Nat) :
    List.Forall₂ (Part.Matches like headers) (first.parts bare) (second.parts bare) := by
  cases h with
  | gap => exact .cons (.tag .gap) .nil
  | null => exact .cons (.tag .null) .nil
  | literal text => exact .cons (.tag (.literal text)) .nil
  | element start label held items properties =>
    refine .cons (.tag (.opening start)) (forall₂_partsFrom (fun name => ?_) .nil .none items)
    rw [Entries.getElem?_index, Entries.getElem?_index]
    exact Property.rel_get? properties name

/-- Nodes that match replay tags that match. -/
theorem Node.Matches.replay {first second : Node} {later later' : Run Tag}
    (h : first.Matches like second) (hlater : later.Matches like headers later')
    (bare : Option Nat) :
    (first.replay bare later).Matches like headers (second.replay bare later') := by
  rw [Node.replay_eq, Node.replay_eq]
  have hparts : List.Forall₂ (Part.Matches like headers) (first.parts bare)
    (second.parts bare) := h.parts bare
  have hless : ∀ value inner, .value value inner ∈ first.parts bare → value.work < first.work :=
    fun _ _ => work_lt_of_mem_parts
  generalize first.parts bare = parts, second.parts bare = parts' at hparts hless
  induction hparts with
  | nil => exact hlater
  | cons hpart hrest ih =>
    have hlater := ih fun value inner hmem => hless value inner (List.mem_cons_of_mem _ hmem)
    cases hpart with
    | tag htag => exact ⟨.cons htag hlater.items, hlater.failure⟩
    | failure error => exact ⟨.nil, rfl⟩
    | value hnode inner =>
      have := hless _ _ List.mem_cons_self
      exact hnode.replay hlater inner
termination_by first.work

end Replay

/-! ### Trees -/

namespace Tree

variable {like : Likeness} {headers : Doctype → Doctype → Prop}
  {first second : Tree}

/-- The trees are the same but for opening tags and headers, which are alike. -/
structure Matches (like : Likeness) (headers : Doctype → Doctype → Prop)
    (first second : Tree) : Prop where
  doctype : Option.Rel headers first.doctype second.doctype
  root : first.root.Matches like second.root

theorem rel_of_sameDoctype {header other : Option Doctype} :
    sameDoctype header other = true ↔ Option.Rel Doctype.Same header other := by
  cases header <;> cases other
  case none.none => exact iff_of_true rfl .none
  case some.some => exact ⟨fun h => .some h, fun | .some h => h⟩
  all_goals exact iff_of_false Bool.false_ne_true nofun

/-- Two trees are the same if and only if they match with tags and headers that are the same. -/
theorem same_iff_matches : first.same second = true ↔ first.Matches .same Doctype.Same second := by
  rw [same, Bool.and_eq_true, rel_of_sameDoctype, Node.same_iff_matches]
  exact ⟨fun ⟨hdoctype, hroot⟩ => ⟨hdoctype, hroot⟩, fun h => ⟨h.doctype, h.root⟩⟩

/-- Trees that match are flattened to tags that match, or fail in the same way. -/
theorem Matches.agree_tags (h : first.Matches like headers second) :
    Agree Eq (List.Forall₂ (Tag.Matches like headers)) first.tags second.tags := by
  have hroot : (first.root.replay none .done).Matches like headers
      (second.root.replay none .done) := h.root.replay ⟨.nil, rfl⟩ none
  refine Run.Matches.agree ?_
  obtain ⟨header, root, created⟩ := first
  obtain ⟨header', root', created'⟩ := second
  cases h.doctype with
  | none => exact hroot
  | some hheader => exact ⟨.cons (.doctype hheader) hroot.items, hroot.failure⟩

end Tree

end TagTree
