import TagTree.Proofs.Calls

/-!
# References that wait

A reference waits for its value, which comes next. For some reasons a refusal takes the waiting
reference away (`takesReference`), and the node goes on with a reference that nothing follows. Where
no call is refused for one of these reasons while a reference waits, every reference of a finished
tree is directly followed by what it stands for (`Builder.Spared.answered`).
-/

namespace TagTree

theorem Tag.exists_reference_of_kind {slots : List Tag} {slot : Nat}
    (h : slots[slot]?.map Tag.kind = some .reference) :
    ∃ edge, slots[slot]? = some (.reference edge) := by
  obtain ⟨tag, htag, hkind⟩ := Option.map_eq_some_iff.mp h
  cases tag with
  | reference edge => exact ⟨edge, htag⟩
  | _ => cases hkind

namespace Node

/-- A reference in a slot of the node is followed by a gap, the start of an array or the mark of an
embedded node. -/
theorem Answered.next {node : Node} (h : node.Answered) {slot : Nat} {edge : Reference}
    (hslot : node.slots[slot]? = some (.reference edge)) :
    node.slots[slot + 1]? = some .gap ∨ node.slots[slot + 1]? = some .arrayStart ∨
    node.slots[slot + 1]? = some .embedded := by
  have hlast : node.slots.getLast? ≠ some (.reference edge) := by
    cases node with
    | element body =>
      rw [slots, List.getLast?_concat]
      simp
    | _ => simp [slots]
  obtain ⟨hlt, hedge⟩ := List.getElem?_eq_some_iff.mp hslot
  have hend : slot ≠ node.slots.length - 1 := by
    intro heq
    rw [List.getLast?_eq_getElem?, ← heq] at hlast
    exact hlast hslot
  have hnext : slot + 1 < node.slots.length := by omega
  have hprecedes := List.isChain_iff_getElem.mp h slot (by rwa [List.length_map])
  rw [List.getElem_map, List.getElem_map, hedge] at hprecedes
  have hanswers := hprecedes rfl
  rw [List.getElem?_eq_getElem hnext]
  revert hanswers
  cases node.slots[slot + 1] <;> simp [Tag.kind, TagKind.answers]

end Node

namespace Builder

variable {builder : Builder}

/-- The call is refused for a reason that takes away the reference that waits. -/
def losesReference {α : Type} (builder : Builder) : Attempt Builder α → Bool
  | .ok _ => false
  | .error refusal => builder.waiting.isSome && refusal.error.takesReference

/-- The references of a builder are answered, but for the one that waits and those whose values are
open nodes. -/
def Tidy (builder : Builder) : Prop :=
  builder.Faithful ⟨fun _ => True, True⟩

theorem takesReference_of_kept {α : Type} {attempt : Attempt Builder α}
    (h : builder.losesReference attempt = false) (refusal : Refusal Builder)
    (hrefused : attempt = .error refusal) (hwaits : True ∧ builder.waiting.isSome) :
    refusal.error.takesReference = false := by
  rw [hrefused, losesReference, hwaits.2] at h
  exact h

/-- A builder after calls of which none was refused for a reason that took away a reference that
waited. The trees that were supplied were made by such calls. -/
inductive Spared : Builder → Prop where
  | start (expressions : Bool) : Spared { expressions := expressions }
  | push {builder : Builder} (tag : Tag) (calls : Spared builder)
    (kept : builder.losesReference (builder.push tag) = false) :
    Spared (leaves Prod.snd (builder.push tag))
  | leave {builder : Builder} (calls : Spared builder) : Spared (leaves id (builder.supply none))
  | supply {builder maker : Builder} {tree : Tree} (calls : Spared builder) (made : Spared maker)
    (expression : maker.finish = .ok tree)
    (kept : builder.losesReference (builder.supply (some tree)) = false) :
    Spared (leaves id (builder.supply (some tree)))

theorem Tidy.finish {tree : Tree} (h : builder.Tidy) (hfinish : builder.finish = .ok tree) :
    tree.root.Everywhere Node.Answered :=
  fun node hnode => (h.regular hfinish node hnode).answered trivial

namespace Spared

variable {tree : Tree} {node : Node}

theorem tidy (h : builder.Spared) : builder.Tidy := by
  induction h with
  | start expressions => exact faithful_of_closed rfl nofun nofun
  | push tag _ kept ih => exact (Faithful.push ih tag).leaves (takesReference_of_kept kept)
  | leave _ ih => exact (Faithful.leave ih).leaves fun _ _ => False.elim
  | supply _ _ expression kept ih ihmade =>
    exact (Faithful.supply ih trivial (Faithful.regular ihmade expression)
      (Faithful.finish ihmade expression).inherits).leaves (takesReference_of_kept kept)

/-- After calls of which none was refused for a reason that took away a waiting reference: each
reference of a finished tree is directly followed by a gap, the start of an array or the mark of an
embedded node. -/
theorem answered (h : builder.Spared) (htree : builder.finish = .ok tree)
    (hnode : tree.root.Reaches node) {slot : Nat} {edge : Reference}
    (hslot : node.slots[slot]? = some (.reference edge)) :
    node.slots[slot + 1]? = some .gap ∨ node.slots[slot + 1]? = some .arrayStart ∨
    node.slots[slot + 1]? = some .embedded :=
  (h.tidy.finish htree node hnode).next hslot

/-- No tag is refused for a reason that takes away a reference that waits. -/
def keepsAll : Builder → List Tag → Bool
  | _, [] => true
  | builder, tag :: rest => !builder.losesReference (builder.push tag) &&
    keepsAll (leaves Prod.snd (builder.push tag)) rest

theorem pushes {tags : List Tag} (h : builder.Spared) (hkept : keepsAll builder tags = true) :
    (Session.pushes builder tags).Spared := by
  induction tags generalizing builder with
  | nil => exact h
  | cons tag rest ih =>
    rw [keepsAll, Bool.and_eq_true, Bool.not_eq_eq_eq_not, Bool.not_true] at hkept
    exact ih (.push tag h hkept.1) hkept.2

/-- A builder that asks for an expression. While a reference waits it refuses another one and a
closing tag, and then it refuses to close without the expression. -/
def pestered : Builder :=
  Session.pushes { expressions := true } (Session.branch (some "Sum") ++
    [.reference ⟨"right", false, none, {}⟩, .closing, .gap, .closing])

theorem answered_of_pestered :
    ∃ (fragment tree : Tree) (builder : Builder) (edge : Reference),
      builder = Session.pushes (leaves id (pestered.supply (some fragment))) [.closing] ∧
      builder.Spared ∧ builder.finish = .ok tree ∧
      tree.root.slots[1]? = some (.reference edge) ∧ (tree.root.slots[2]? = some .gap ∨
        tree.root.slots[2]? = some .arrayStart ∨ tree.root.slots[2]? = some .embedded) := by
  have hpestered : pestered.Spared := pushes (.start true) (by decide +kernel)
  have hmaker := pushes (.start false) (show keepsAll {} Session.shiftingFragment = true by
    decide +kernel)
  obtain ⟨fragment, hfragment, hkept, hclosed, tree, htree, hreference⟩ :
      ∃ fragment, (Session.pushes {} Session.shiftingFragment).finish = .ok fragment ∧
        pestered.losesReference (pestered.supply (some fragment)) = false ∧
        keepsAll (leaves id (pestered.supply (some fragment))) [.closing] = true ∧
        ∃ tree, (Session.pushes (leaves id (pestered.supply (some fragment))) [.closing]).finish =
          .ok tree ∧ tree.root.slots[1]?.map Tag.kind = some .reference := by
    decide +kernel
  have hspared := (Spared.supply hpestered hmaker hfragment hkept).pushes hclosed
  obtain ⟨edge, hslot⟩ := Tag.exists_reference_of_kind hreference
  exact ⟨fragment, tree, _, edge, rfl, hspared, htree, hslot, hspared.answered htree .refl hslot⟩

end Spared

/-- With these tags between an opening and a closing tag, a tree is finished whose root has a
reference right before the closing tag. -/
def EndsInReference (tags : List Tag) : Prop :=
  ∃ (tree : Tree) (slot : Nat) (edge : Reference),
    (Session.pushes {} (.opening ⟨{}, none, some "P", []⟩ :: tags ++ [.closing])).finish =
      .ok tree ∧
    tree.root.slots[slot]? = some (.reference edge) ∧ tree.root.slots[slot + 1]? = some .closing

theorem endsInReference_of_check {tags : List Tag} (slot : Nat)
    (h : ∃ tree, (Session.pushes {} (.opening ⟨{}, none, some "P", []⟩ :: tags ++
      [.closing])).finish = .ok tree ∧ tree.root.slots[slot]?.map Tag.kind = some .reference ∧
        tree.root.slots[slot + 1]?.map Tag.kind = some .closing) : EndsInReference tags := by
  obtain ⟨tree, htree, hreference, hclosing⟩ := h
  obtain ⟨edge, hedge⟩ := Tag.exists_reference_of_kind hreference
  obtain ⟨tag, htag, hkind⟩ := Option.map_eq_some_iff.mp hclosing
  cases tag with
  | closing => exact ⟨tree, slot, edge, htree, hedge, htag⟩
  | _ => cases hkind

def plainReference (name : String) (isArray : Bool) : Tag :=
  .reference ⟨name, isArray, none, {}⟩

/-- The last of the tags is refused, each time for another reason, and takes the reference before it
away; the closing tag is then taken. -/
theorem endsInReference_of_refusal :
    EndsInReference [plainReference "x" false,
      .opening ⟨{ trivia := true }, none, some "Space", []⟩] ∧
    EndsInReference [plainReference "#" false, .gap] ∧
    EndsInReference [plainReference "x" false, .arrayStart] ∧
    EndsInReference [plainReference "xs" true, .null] ∧
    EndsInReference [plainReference "xs" true, .arrayStart, plainReference "xs" true,
      .arrayStart] := by
  refine ⟨endsInReference_of_check 1 ?_, endsInReference_of_check 1 ?_,
    endsInReference_of_check 1 ?_, endsInReference_of_check 1 ?_, endsInReference_of_check 3 ?_⟩
  all_goals decide +kernel

end Builder

end TagTree
