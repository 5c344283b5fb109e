import TagTree.Proofs.Preorder
import TagTree.Proofs.StreamEquality

/-!
# Equality up to the order of keys

Attributes are a map, and so are the objects among their values. Values are alike if each key has
the same value in both, wherever it stands, all the way down (`Value.Alike`), and nodes are alike if
they match with opening tags that are alike (`Node.Alike`). Comparing entry by entry decides this
equivalence, provided that no key stands twice (`Node.same_iff_alike`).
-/

namespace TagTree

variable {items items' : List Value} {entries : List (String × Value)} {first second : Node}

/-! ### Relations -/

section Euclid

variable {α : Type} {related : α → α → Prop}

/-- A relation is an equivalence if what is related to the same is related. -/
theorem equivalence_of_euclid (hrefl : ∀ a, related a a)
    (heuclid : ∀ {a b c}, related a b → related a c → related b c) : Equivalence related where
  refl := hrefl
  symm h := heuclid h (hrefl _)
  trans h h' := heuclid (heuclid h (hrefl _)) h'

theorem rel_euclid {first second third : Option α}
    (h : Option.Rel related first second) (h' : Option.Rel related first third)
    (heuclid : ∀ a ∈ first, ∀ b c, related a b → related a c → related b c) :
    Option.Rel related second third := by
  cases h with
  | none =>
    cases h'
    exact .none
  | some hsecond =>
    cases h' with
    | some hthird => exact .some (heuclid _ rfl _ _ hsecond hthird)

end Euclid

section Congr

variable {α β γ : Type} {related : α → β → Prop}

/-- What is related to the same members of a list is related in order. -/
theorem forall₂_join {related' : α → γ → Prop} {joined : β → γ → Prop} {first : List α}
    {second : List β} {third : List γ} (h : List.Forall₂ related first second)
    (h' : List.Forall₂ related' first third)
    (hjoin : ∀ a ∈ first, ∀ b ∈ second, ∀ c ∈ third, related a b → related' a c → joined b c) :
    List.Forall₂ joined second third := by
  induction h generalizing third with
  | nil =>
    cases h'
    exact .nil
  | cons hsecond _ ih =>
    cases h' with
    | cons hthird hrest =>
      refine .cons (hjoin _ List.mem_cons_self _ List.mem_cons_self _ List.mem_cons_self hsecond
        hthird) (ih hrest fun a ha b hb c hc => ?_)
      exact hjoin a (List.mem_cons_of_mem _ ha) b (List.mem_cons_of_mem _ hb) c
        (List.mem_cons_of_mem _ hc)

variable {related' : α → β → Prop}

theorem forall₂_congr {first : List α} {second : List β}
    (h : ∀ a ∈ first, ∀ b ∈ second, (related a b ↔ related' a b)) :
    List.Forall₂ related first second ↔ List.Forall₂ related' first second := by
  have hsame : List.Forall₂ Eq first first := List.forall₂_same.mpr fun _ _ => rfl
  constructor <;> intro hfirst <;> refine forall₂_join hsame hfirst ?_ <;> rintro a - _ ha b hb rfl
  · exact (h a ha b hb).mp
  · exact (h a ha b hb).mpr

theorem rel_congr {first : Option α} {second : Option β}
    (h : ∀ a ∈ first, ∀ b ∈ second, (related a b ↔ related' a b)) :
    Option.Rel related first second ↔ Option.Rel related' first second := by
  constructor
  · rintro (hvalue | _)
    · exact .some ((h _ rfl _ rfl).mp hvalue)
    · exact .none
  · rintro (hvalue | _)
    · exact .some ((h _ rfl _ rfl).mpr hvalue)
    · exact .none

end Congr

/-! ### Values -/

namespace Value

mutual

/-- No object within the value has a key twice. -/
def isDistinct : Value → Bool
  | array items => areDistinct items
  | object entries => decide (Entries.keys entries).Nodup && haveDistinct entries
  | _ => true

def areDistinct : List Value → Bool
  | [] => true
  | item :: later => item.isDistinct && areDistinct later

def haveDistinct : List (String × Value) → Bool
  | [] => true
  | (_, value) :: later => value.isDistinct && haveDistinct later

end

theorem areDistinct_iff : areDistinct items = true ↔ ∀ item ∈ items, item.isDistinct = true := by
  induction items with
  | nil => simp [areDistinct]
  | cons item later ih => rw [areDistinct, Bool.and_eq_true, ih, List.forall_mem_cons]

theorem haveDistinct_iff :
    haveDistinct entries = true ↔ ∀ entry ∈ entries, entry.2.isDistinct = true := by
  induction entries with
  | nil => simp [haveDistinct]
  | cons entry later ih => rw [haveDistinct, Bool.and_eq_true, ih, List.forall_mem_cons]

/-- The values are equal, where an object is a map. -/
inductive Alike : Value → Value → Prop where
  | null : Alike null null
  | bool (value : Bool) : Alike (bool value) (bool value)
  | integer (value : Int64) : Alike (integer value) (integer value)
  | text (value : String) : Alike (text value) (text value)
  | array {items items' : List Value} (h : List.Forall₂ Alike items items') :
    Alike (array items) (array items')
  | object {entries entries' : List (String × Value)}
    (h : ∀ key, Option.Rel Alike (Entries.get? key entries) (Entries.get? key entries')) :
    Alike (object entries) (object entries')

theorem alike_array_iff : (array items).Alike (array items') ↔ List.Forall₂ Alike items items' :=
  ⟨by rintro ⟨⟩; assumption, .array⟩

theorem alike_object_iff {entries' : List (String × Value)} :
    (object entries).Alike (object entries') ↔
      ∀ key, Option.Rel Alike (Entries.get? key entries) (Entries.get? key entries') :=
  ⟨by rintro ⟨⟩; assumption, .object⟩

end Value

namespace Attributes

/-- No key stands twice, and no object within a value has a key twice. -/
def isDistinct (attributes : Attributes) : Bool :=
  (Value.object attributes).isDistinct

/-- The attributes are equal as maps. -/
def Alike (first second : Attributes) : Prop :=
  ∀ key, Option.Rel Value.Alike (Entries.get? key first) (Entries.get? key second)

theorem isDistinct_iff {attributes : Attributes} :
    attributes.isDistinct = true ↔ (Entries.keys attributes).Nodup ∧
      ∀ entry ∈ attributes, entry.2.isDistinct = true := by
  rw [isDistinct, Value.isDistinct, Bool.and_eq_true, decide_eq_true_eq, Value.haveDistinct_iff]

/-- Where no key stands twice, attributes are the same if each key has the same value or none. -/
theorem same_iff_rel {first second : Attributes} (h : (Entries.keys first).Nodup)
    (h' : (Entries.keys second).Nodup) : same first second = true ↔ ∀ key,
      Option.Rel (fun value value' : Value => value.same value' = true) (Entries.get? key first)
        (Entries.get? key second) := by
  refine ⟨fun hsame => rel_get?_of_same hsame h, fun hrel => same_iff.mpr ⟨?_, ?_⟩⟩
  · -- The comparison counts the entries, so it is not enough that each key is found.
    have hkeys : (Entries.keys first).Perm (Entries.keys second) := by
      refine (List.perm_ext_iff_of_nodup h h').mpr fun key => ?_
      rw [Entries.mem_keys_iff, Entries.mem_keys_iff]
      have hkey := hrel key
      generalize Entries.get? key first = value, Entries.get? key second = value' at hkey
      cases hkey <;> rfl
    simpa only [Entries.keys, List.length_map] using hkeys.length_eq
  · intro entry hmem
    have hkey := hrel entry.1
    rw [Entries.get?_of_mem h hmem] at hkey
    generalize Entries.get? entry.1 second = found at hkey
    cases hkey with
    | some hsame => exact ⟨_, rfl, hsame⟩

end Attributes

namespace Value

theorem sameItems_iff : sameItems items items' = true ↔
    List.Forall₂ (fun item item' : Value => item.same item' = true) items items' := by
  induction items generalizing items' with
  | nil => cases items' <;> simp [sameItems]
  | cons item later ih =>
    cases items' with
    | nil => simp [sameItems]
    | cons item' later' => rw [sameItems, Bool.and_eq_true, ih, List.forall₂_cons]

theorem same_object (entries entries' : List (String × Value)) :
    same (object entries) (object entries') = Attributes.same entries entries' := by
  rw [same, Attributes.same]

theorem sizeOf_lt_of_get? {key : String} {value : Value}
    (h : Entries.get? key entries = some value) :
    sizeOf value < sizeOf entries := by
  have hmem := List.sizeOf_lt_of_mem (Entries.mem_of_get? h)
  rw [Prod.mk.sizeOf_spec] at hmem
  omega

/-- Where no object has a key twice, values are the same if and only if they are alike. -/
theorem same_iff_alike {first second : Value} (h : first.isDistinct = true)
    (h' : second.isDistinct = true) : first.same second = true ↔ first.Alike second := by
  cases first <;> cases second
  case null.null => exact iff_of_true (by rw [same]) .null
  case bool.bool value _ =>
    rw [same, beq_iff_eq]
    exact ⟨fun heq => heq ▸ .bool value, by rintro ⟨⟩; rfl⟩
  case integer.integer value _ =>
    rw [same, beq_iff_eq]
    exact ⟨fun heq => heq ▸ .integer value, by rintro ⟨⟩; rfl⟩
  case text.text value _ =>
    rw [same, beq_iff_eq]
    exact ⟨fun heq => heq ▸ .text value, by rintro ⟨⟩; rfl⟩
  case array.array items items' =>
    rw [isDistinct, areDistinct_iff] at h h'
    rw [same, sameItems_iff, alike_array_iff]
    refine forall₂_congr fun item hitem item' hitem' => ?_
    have := List.sizeOf_lt_of_mem hitem
    exact same_iff_alike (h item hitem) (h' item' hitem')
  case object.object entries entries' =>
    obtain ⟨hkeys, hvalues⟩ := Attributes.isDistinct_iff.mp h
    obtain ⟨hkeys', hvalues'⟩ := Attributes.isDistinct_iff.mp h'
    rw [same_object, Attributes.same_iff_rel hkeys hkeys', alike_object_iff]
    refine forall_congr' fun key => rel_congr fun value hvalue value' hvalue' => ?_
    have := sizeOf_lt_of_get? hvalue
    exact same_iff_alike (hvalues _ (Entries.mem_of_get? hvalue))
      (hvalues' _ (Entries.mem_of_get? hvalue'))
  all_goals exact iff_of_false (by simp [same]) (by rintro ⟨⟩)
termination_by sizeOf first
decreasing_by all_goals subst_vars; decreasing_tactic

/-- A value is like itself. -/
theorem Alike.refl (value : Value) : value.Alike value := by
  cases value with
  | null => exact .null
  | bool value => exact .bool value
  | integer value => exact .integer value
  | text value => exact .text value
  | array items =>
    refine .array (List.forall₂_same.mpr fun item hitem => ?_)
    have := List.sizeOf_lt_of_mem hitem
    exact Alike.refl item
  | object entries =>
    refine .object fun key => ?_
    cases hvalue : Entries.get? key entries with
    | none => exact .none
    | some value =>
      have := sizeOf_lt_of_get? hvalue
      exact .some (Alike.refl value)
termination_by sizeOf value

/-- Values that are like the same one are alike. -/
theorem Alike.euclid {first second third : Value} (h : first.Alike second)
    (h' : first.Alike third) : second.Alike third := by
  cases first with
  | array items =>
    cases h with
    | array hsecond =>
      cases h' with
      | array hthird =>
        refine .array (forall₂_join hsecond hthird fun item hitem _ _ _ _ hitem' hitem'' => ?_)
        have := List.sizeOf_lt_of_mem hitem
        exact hitem'.euclid hitem''
  | object entries =>
    cases h with
    | object hsecond =>
      cases h' with
      | object hthird =>
        refine .object fun key => rel_euclid (hsecond key) (hthird key) ?_
        intro value hvalue _ _ hvalue' hvalue''
        have := sizeOf_lt_of_get? hvalue
        exact hvalue'.euclid hvalue''
  | _ =>
    cases h
    exact h'
termination_by sizeOf first
decreasing_by all_goals subst_vars; decreasing_tactic

end Value

/-! ### Opening tags -/

/-- The opening tags are equal, where attributes are a map. -/
structure OpenTag.Alike (first second : OpenTag) : Prop where
  flags : first.flags = second.flags
  language : first.language = second.language
  typeName : first.typeName = second.typeName
  attributes : first.attributes.Alike second.attributes

namespace OpenTag

variable {first second third : OpenTag}

theorem same_iff_alike (h : first.attributes.isDistinct = true)
    (h' : second.attributes.isDistinct = true) : first.Same second ↔ first.Alike second := by
  rw [same_iff, ← Value.same_object, Value.same_iff_alike h h', Value.alike_object_iff]
  exact ⟨fun ⟨hflags, hlanguage, htypeName, hattributes⟩ =>
    ⟨hflags, hlanguage, htypeName, hattributes⟩,
    fun hsame => ⟨hsame.flags, hsame.language, hsame.typeName, hsame.attributes⟩⟩

theorem Alike.refl (start : OpenTag) : start.Alike start :=
  ⟨rfl, rfl, rfl, Value.alike_object_iff.mp (.refl _)⟩

theorem Alike.euclid (h : first.Alike second) (h' : first.Alike third) : second.Alike third where
  flags := h.flags.symm.trans h'.flags
  language := h.language.symm.trans h'.language
  typeName := h.typeName.symm.trans h'.typeName
  attributes := Value.alike_object_iff.mp
    ((Value.alike_object_iff.mpr h.attributes).euclid (Value.alike_object_iff.mpr h'.attributes))

end OpenTag

/-! ### Nodes -/

section Parts

variable {ν : Type} {related related' joined : ν → ν → Prop}

namespace Item.Matches

variable {item second third : Item ν}

theorem refl (item : Item ν) (h : ∀ node ∈ item.node?, related node node) :
    item.Matches related item := by
  cases item with
  | embedded node => exact .embedded (h node rfl)
  | _ => constructor

theorem join (h : item.Matches related second) (h' : item.Matches related' third)
    (hjoin : ∀ a ∈ item.node?, ∀ b ∈ second.node?, ∀ c ∈ third.node?,
      related a b → related' a c → joined b c) : second.Matches joined third := by
  cases h with
  | embedded h =>
    cases h' with
    | embedded h' => exact .embedded (hjoin _ rfl _ rfl _ rfl h h')
  | _ =>
    cases h'
    constructor

end Item.Matches

namespace Property.Matches

variable {property second third : Property ν}

theorem refl (property : Property ν) (h : ∀ node ∈ property.nodes, related node node) :
    property.Matches related property := by
  cases property with
  | single binding => exact .single (.of binding.reference (h _ (List.mem_singleton_self _)))
  | array bindings =>
    refine .array (List.forall₂_same.mpr fun binding hmem => ?_)
    exact .of binding.reference (h _ (List.mem_map_of_mem hmem))

theorem join (h : property.Matches related second) (h' : property.Matches related' third)
    (hjoin : ∀ a ∈ property.nodes, ∀ b ∈ second.nodes, ∀ c ∈ third.nodes,
      related a b → related' a c → joined b c) : second.Matches joined third := by
  cases h with
  | single hsecond =>
    cases h' with
    | single hthird =>
      obtain ⟨edge, hsecond⟩ := hsecond
      obtain ⟨_, hthird⟩ := hthird
      exact .single (.of edge (hjoin _ (List.mem_singleton_self _) _ (List.mem_singleton_self _) _
        (List.mem_singleton_self _) hsecond hthird))
  | array hsecond =>
    cases h' with
    | array hthird =>
      refine .array (forall₂_join hsecond hthird ?_)
      rintro _ hmem _ hmem' _ hmem'' ⟨edge, hsecond⟩ ⟨_, hthird⟩
      exact .of edge (hjoin _ (List.mem_map_of_mem hmem) _ (List.mem_map_of_mem hmem') _
        (List.mem_map_of_mem hmem'') hsecond hthird)

end Property.Matches

end Parts

namespace Node

variable {body : Element Node} {kid : Node}

theorem mem_kids_of_item {item : Item Node} (hitem : item ∈ body.items.toList)
    (hkid : kid ∈ item.node?) : kid ∈ (element body).kids :=
  List.mem_append_right _ (List.mem_filterMap.mpr ⟨item, hitem, hkid⟩)

theorem mem_kids_of_property {entry : String × Property Node} (hentry : entry ∈ body.properties)
    (hkid : kid ∈ entry.2.nodes) : kid ∈ (element body).kids :=
  List.mem_append_left _ (List.mem_flatMap.mpr ⟨entry, hentry, hkid⟩)

section Tags

variable {related related' joined : OpenTag → OpenTag → Prop}

/-- A node matches itself. -/
theorem Matches.refl (h : ∀ start, related start start) (node : Node) :
    node.Matches (.of related) node := by
  cases node with
  | gap => exact .gap
  | null => exact .null
  | literal text => exact .literal text
  | element body =>
    refine .element (h _) (h _) rfl (List.forall₂_same.mpr fun item hitem => ?_)
      (List.forall₂_same.mpr fun entry hentry => ?_)
    · refine .refl item fun kid hkid => ?_
      have := work_lt_of_mem_kids (mem_kids_of_item hitem hkid)
      exact Matches.refl h kid
    · refine .of entry.1 (.refl entry.2 fun kid hkid => ?_)
      have := work_lt_of_mem_kids (mem_kids_of_property hentry hkid)
      exact Matches.refl h kid
termination_by node.work

/-- Nodes that match the same node match each other, if this follows for the tags and labels of
nodes with a property that they hand down. -/
theorem Matches.join {holds : Node → Prop} {fits : OpenTag → Prop}
    (hdown : ∀ node, holds node → ∀ kid ∈ node.kids, holds kid)
    (hfits : ∀ body, holds (.element body) → fits body.start ∧ fits body.label)
    (hjoin : ∀ start first second, fits first → fits second → related start first →
      related' start second → joined first second) {first second third : Node}
    (h : first.Matches (.of related) second) (h' : first.Matches (.of related') third)
    (hsecond : holds second) (hthird : holds third) : second.Matches (.of joined) third := by
  have hkids := hdown second hsecond
  have hkids' := hdown third hthird
  cases h with
  | element start label held items properties =>
    cases h' with
    | element start' label' held' items' properties' =>
      obtain ⟨hstart, hlabel⟩ := hfits _ hsecond
      obtain ⟨hstart', hlabel'⟩ := hfits _ hthird
      refine .element (hjoin _ _ _ hstart hstart' start start')
        (hjoin _ _ _ hlabel hlabel' label label')
        (held.symm.trans held') (forall₂_join items items' ?_)
        (forall₂_join properties properties' ?_)
      · intro item hitem second hsecond third hthird h h'
        refine h.join h' fun kid hkid _ hkid' _ hkid'' h h' => ?_
        have := work_lt_of_mem_kids (mem_kids_of_item hitem hkid)
        exact h.join hdown hfits hjoin h' (hkids _ (mem_kids_of_item hsecond hkid'))
          (hkids' _ (mem_kids_of_item hthird hkid''))
      · rintro _ hentry _ hsecond _ hthird ⟨name, h⟩ ⟨_, h'⟩
        refine .of name (h.join h' fun kid hkid _ hkid' _ hkid'' h h' => ?_)
        have := work_lt_of_mem_kids (mem_kids_of_property hentry hkid)
        exact h.join hdown hfits hjoin h' (hkids _ (mem_kids_of_property hsecond hkid'))
          (hkids' _ (mem_kids_of_property hthird hkid''))
  | gap | null | literal =>
    cases h'
    constructor
termination_by first.work

/-- Nodes that match with one relation of opening tags match with another, if this follows for the
tags and labels of nodes that pass a test. -/
theorem Matches.mono {test : Node → Bool} {fits : OpenTag → Prop}
    (hfits : ∀ body, test (.element body) = true → fits body.start ∧ fits body.label)
    (hr : ∀ first second, fits first → fits second → related first second → joined first second)
    (h : first.Matches (.of related) second) (hfirst : first.all test = true)
    (hsecond : second.all test = true) : first.Matches (.of joined) second := by
  refine (Matches.refl (fun _ => rfl) first).join
    (fun node (hall : node.all test = true) => (all_iff.mp hall).2)
    (fun body hall => hfits body (all_self hall)) ?_ h hfirst hsecond
  rintro start _ second hfirst hsecond rfl
  exact hr start second hfirst hsecond

end Tags

/-- The nodes are equal, where attributes are a map. -/
def Alike : Node → Node → Prop :=
  Matches (.of OpenTag.Alike)

/-- To be alike is an equivalence of nodes. -/
theorem equivalence_alike : Equivalence Alike :=
  equivalence_of_euclid (Matches.refl OpenTag.Alike.refl) fun h h' =>
    h.join (fun _ (_ : True) _ _ => trivial) (fun _ _ => ⟨trivial, trivial⟩)
      (fun _ _ _ (_ : True) _ hsecond hthird => hsecond.euclid hthird) h' trivial trivial

/-- No key stands twice in the attributes of the node and of its opening tag, also in the objects
within them. -/
def isDistinct : Node → Bool
  | element body => body.start.attributes.isDistinct && body.label.attributes.isDistinct
  | _ => true

/-- Where no key stands twice, nodes are the same if and only if they are alike. -/
theorem same_iff_alike (h : first.all isDistinct = true) (h' : second.all isDistinct = true) :
    first.same second = true ↔ first.Alike second := by
  have hfits : ∀ body, isDistinct (.element body) = true →
      body.start.attributes.isDistinct = true ∧ body.label.attributes.isDistinct = true :=
    fun _ => Bool.and_eq_true_iff.mp
  rw [same_iff_matches]
  constructor
  · exact fun hmatches => hmatches.mono hfits (fun _ _ hfirst hsecond =>
      (OpenTag.same_iff_alike hfirst hsecond).mp) h h'
  · exact fun hmatches => hmatches.mono hfits (fun _ _ hfirst hsecond =>
      (OpenTag.same_iff_alike hfirst hsecond).mpr) h h'

end Node

end TagTree
