import TagTree.Proofs.Faithful

/-!
# Builders after calls

Tags and answers come in any order, refused ones among them (`Builder.Called`). A node of a finished
tree is marked to have a gap exactly if one can be reached from it
(`Builder.Called.hasGap_iff_reaches`). In the tree of a template a bound node is neither an escape
nor trivia (`Tree.isEmbedded_of_template`) and a node has the language of its opening tag
(`Tree.mirrors_of_template`), unless it is the root of an expression.
-/

namespace TagTree

variable {given : Tree → Prop} {builder next : Builder} {tree : Tree} {tags : List Tag}
  {expressions : List (Option Tree)} {node : Node}

namespace Builder

/-- A builder after calls. The trees that were supplied are given ones, made by such calls. -/
inductive Called (given : Tree → Prop) : Builder → Prop where
  | start (expressions : Bool) : Called given { expressions := expressions }
  | push {builder : Builder} (tag : Tag) (calls : Called given builder) :
    Called given (leaves Prod.snd (builder.push tag))
  | leave {builder : Builder} (calls : Called given builder) :
    Called given (leaves id (builder.supply none))
  | supply {builder maker : Builder} {tree : Tree} (calls : Called given builder)
    (made : Called given maker) (expression : maker.finish = .ok tree) (known : given tree) :
    Called given (leaves id (builder.supply (some tree)))

section Finish

variable {demand : Demand} (h : builder.Faithful demand) (hfinish : builder.finish = .ok tree)

include h hfinish

theorem Faithful.regular : tree.root.Everywhere (Node.Regular demand) :=
  h.whole _ (of_finish hfinish).2.1

/-- The tree of a faithful builder is faithful. -/
theorem Faithful.finish : tree.Faithful demand.given := by
  obtain ⟨-, hroot, hdoctype, -⟩ := of_finish hfinish
  exact ⟨fun inner hinner => (h.whole _ hroot inner hinner).toFaithful,
    hdoctype ▸ h.inherits _ hroot⟩

end Finish

namespace Called

/-- No call makes a builder unfaithful. -/
theorem faithful (h : builder.Called given) : builder.Faithful ⟨given, False⟩ := by
  induction h with
  | start expressions => exact faithful_of_closed rfl nofun nofun
  | push tag _ ih => exact (ih.push tag).leaves fun _ _ hexcuse => hexcuse.1.elim
  | leave _ ih => exact ih.leave.leaves fun _ _ => False.elim
  | supply _ _ expression known ih ihmade =>
    exact (ih.supply known (ihmade.regular expression) (ihmade.finish expression).inherits).leaves
      fun _ _ hexcuse => hexcuse.1.elim

theorem pushes (h : builder.Called given) (tags : List Tag) :
    (Session.pushes builder tags).Called given := by
  induction tags generalizing builder with
  | nil => exact h
  | cons tag rest ih => exact ih (.push tag h)

/-- A store can be given the same calls. -/
theorem exists_session (h : builder.Called given) : ∃ store, Session store builder := by
  induction h with
  | start expressions => exact ⟨_, .start expressions⟩
  | push tag _ ih =>
    obtain ⟨store, hstore⟩ := ih
    exact hstore.exists_pushes [tag]
  | leave _ ih =>
    obtain ⟨store, hstore⟩ := ih
    obtain ⟨after, hsupply, -⟩ := hstore.shown.supply .none
    exact ⟨after, .leave hstore hsupply⟩
  | supply _ _ expression _ ih ihmade =>
    obtain ⟨store, hstore⟩ := ih
    obtain ⟨other, hother⟩ := ihmade
    obtain ⟨arena, -, hfinished⟩ := hother.exists_finished expression
    exact hstore.exists_supply hfinished

end Called

end Builder

namespace Tree

/-- The tree was finished after calls in which only given trees were supplied. -/
def Grown (given : Tree → Prop) (tree : Tree) : Prop :=
  ∃ builder : Builder, builder.Called given ∧ builder.finish = .ok tree

end Tree

namespace Builder.Called

theorem answer (h : builder.Called given) {expression : Option Tree}
    (he : ∀ inner ∈ expression, given inner ∧ inner.Grown given) :
    (leaves id (builder.supply expression)).Called given := by
  cases expression with
  | none => exact .leave h
  | some inner =>
    obtain ⟨hgiven, maker, hmaker, hfinish⟩ := he inner rfl
    exact .supply h hmaker hfinish hgiven

/-- A run of tags that are all taken is a sequence of calls. -/
theorem pushAll (h : builder.Called given)
    (he : ∀ inner, some inner ∈ expressions → given inner ∧ inner.Grown given)
    (hnext : builder.pushAll tags expressions = .ok next) : next.Called given := by
  induction tags generalizing builder expressions with
  | nil =>
    cases hnext
    exact h
  | cons tag rest ih =>
    have hpush := Called.push tag h
    unfold Builder.pushAll at hnext
    split at hnext
    · cases hnext
    · rename_i hresult
      rw [hresult] at hpush
      exact ih hpush he hnext
    · rename_i asking hresult
      rw [hresult] at hpush
      have hasking : asking.Called given := hpush
      have hfirst : ∀ inner ∈ expressions.head?.join, given inner ∧ inner.Grown given := by
        intro inner hmem
        obtain ⟨first, hhead, rfl⟩ := Option.bind_eq_some_iff.mp hmem
        exact he inner (List.mem_of_head? hhead)
      have hsupply := hasking.answer hfirst
      split at hnext
      · cases hnext
      · rename_i hsupplied
        rw [hsupplied] at hsupply
        exact ih hsupply (fun inner hmem => he inner (List.mem_of_mem_tail hmem)) hnext

end Builder.Called

namespace Tree

theorem grown_of_template (he : ∀ inner, some inner ∈ expressions → given inner ∧ inner.Grown given)
    (h : ofTemplate tags expressions = .ok tree) : tree.Grown given := by
  obtain ⟨builder, hpush, hfinish⟩ := bind_eq_ok.mp h
  exact ⟨builder, (Builder.Called.start true).pushAll he hpush, hfinish⟩

theorem Grown.exists_finished (h : tree.Grown given) : ∃ arena, Finished arena tree := by
  obtain ⟨builder, hcalled, hfinish⟩ := h
  obtain ⟨store, hstore⟩ := hcalled.exists_session
  obtain ⟨arena, -, hfinished⟩ := hstore.exists_finished hfinish
  exact ⟨arena, hfinished⟩

theorem Grown.faithful (h : tree.Grown given) : tree.Faithful given := by
  obtain ⟨builder, hcalled, hfinish⟩ := h
  exact hcalled.faithful.finish hfinish

end Tree

/-! ### Gaps -/

namespace Node

/-- A node with parts is no stub. -/
theorem isStub_of_mem_kids {kid : Node} (h : kid ∈ node.kids) : node.isStub = false := by
  cases node with
  | element body => rfl
  | _ => cases h

/-- A gap that can be reached is marked all the way up. -/
theorem hasGap_of_reaches (h : node.Everywhere (Faithful given)) (hgap : node.Reaches .gap) :
    node.hasGap = true := by
  induction hgap using Relation.ReflTransGen.head_induction_on with
  | refl => rfl
  | @head node kid hkid _ ih =>
    rw [h.self.gap (isStub_of_mem_kids hkid), List.any_eq_true]
    exact ⟨kid, hkid, ih (h.of_mem_kids hkid)⟩

/-- From a node that is marked the marks lead down to a gap. -/
theorem reaches_of_hasGap {node : Node} (h : node.Everywhere (Faithful given))
    (hgap : node.hasGap = true) : node.Reaches .gap := by
  cases hnode : node.isStub with
  | true =>
    cases node with
    | gap => exact .refl
    | element body => cases hnode
    | null | literal => cases hgap
  | false =>
    rw [h.self.gap hnode, List.any_eq_true] at hgap
    obtain ⟨kid, hkid, hmarked⟩ := hgap
    exact .head hkid (reaches_of_hasGap (h.of_mem_kids hkid) hmarked)
termination_by node.work
decreasing_by exact work_lt_of_mem_kids hkid

/-- The node starts with an opening tag and has its marks, its type and its attributes. -/
structure Mirrors (start : OpenTag) (node : Node) : Prop where
  head : node.slots.head? = some (.opening start)
  flags : node.flags = start.flags
  typeName : node.typeName? = start.typeName
  attributes : node.attributes = start.attributes

/-- What a node is labelled with is what its opening tag says. -/
theorem Labelled.exists_mirrors {inherited : Option String} (h : node.Labelled inherited)
    (hstub : node.isStub = false) :
    ∃ start, node.Mirrors start ∧ node.language = (start.language <|> inherited) := by
  cases node with
  | element body =>
    have hlabel : body.label = body.start.label inherited := h
    refine ⟨body.start, ⟨rfl, ?_, ?_, ?_⟩, ?_⟩
    · exact (congrArg OpenTag.flags hlabel).trans rfl
    · exact (congrArg OpenTag.typeName hlabel).trans rfl
    · exact (congrArg OpenTag.attributes hlabel).trans rfl
    · exact congrArg OpenTag.language hlabel
  | _ => cases hstub

end Node

/-- A node of a faithful tree is labelled as its opening tag says. A language is inherited by the
root, from the document, and by the root of a given tree, from the document of that tree. -/
theorem Tree.Faithful.labelled (h : tree.Faithful given) (hnode : tree.root.Reaches node) :
    node.Labelled none ∨ node = tree.root ∧ node.Inherits tree.doctype ∨
    ∃ source : Tree, given source ∧ source.root.type ≠ .fragment ∧
      source.root.withoutHold = node.withoutHold ∧ node.Inherits source.doctype := by
  rcases Relation.ReflTransGen.cases_tail hnode with rfl | ⟨holder, hholder, hkid⟩
  · exact .inr (.inl ⟨rfl, h.inherits⟩)
  · have hfaithful := h.whole holder hholder
    rcases List.mem_append.mp hkid with hbound | hembedded
    · rcases hfaithful.values node hbound with ⟨source, hgiven, htype, hinherits, hroot⟩ | hfits
      · refine .inr (.inr ⟨source, hgiven, htype, hroot, ?_⟩)
        exact Node.labelled_withoutHold.mp (hroot ▸ Node.labelled_withoutHold.mpr hinherits)
      · exact .inl hfits.labelled
    · exact .inl (hfaithful.parts node hembedded).labelled

/-- A node of a faithful tree is marked to have a gap if and only if one can be reached from it. -/
theorem Tree.Faithful.hasGap_iff (h : tree.Faithful given) (hnode : tree.root.Reaches node) :
    node.hasGap = true ↔ node.Reaches .gap := by
  have hwhole : node.Everywhere (Node.Faithful given) := fun inner hinner =>
    h.whole inner (.trans hnode hinner)
  exact ⟨Node.reaches_of_hasGap hwhole, Node.hasGap_of_reaches hwhole⟩

/-- A node of a faithful tree that is no stub mirrors its opening tag. -/
theorem Tree.Faithful.exists_mirrors (h : tree.Faithful given) (hnode : tree.root.Reaches node)
    (hstub : node.isStub = false) : ∃ start, node.Mirrors start := by
  obtain ⟨inherited, hlabelled⟩ : ∃ inherited, node.Labelled inherited := by
    rcases h.labelled hnode with hown | ⟨-, hroot⟩ | ⟨source, -, -, -, hsupplied⟩
    · exact ⟨_, hown⟩
    · exact ⟨_, hroot⟩
    · exact ⟨_, hsupplied⟩
  obtain ⟨start, hstart, -⟩ := hlabelled.exists_mirrors hstub
  exact ⟨start, hstart⟩

namespace Builder.Called

/-- After any calls, and whatever marks came with the tags: a node of the finished tree is marked to
have a gap if and only if one can be reached from it, its opening tag has the same mark, and each of
its references has that of the value that it binds. -/
theorem hasGap_iff_reaches (h : builder.Called given) (htree : builder.finish = .ok tree)
    (hnode : tree.root.Reaches node) :
    (node.hasGap = true ↔ node.Reaches .gap) ∧
      (node.isStub = false → ∃ start, node.slots.head? = some (.opening start) ∧
        start.flags.hasGap = node.hasGap) ∧
      ∀ binding ∈ boundBindings node.properties,
        binding.reference.flags.hasGap = binding.node.hasGap := by
  have hfaithful : tree.Faithful given := h.faithful.finish htree
  refine ⟨hfaithful.hasGap_iff hnode, fun hstub => ?_, (hfaithful.whole node hnode).marks⟩
  obtain ⟨start, hstart⟩ := hfaithful.exists_mirrors hnode hstub
  exact ⟨start, hstart.head, congrArg NodeFlags.hasGap hstart.flags.symm⟩

/-- A builder that is given a tree for one gap and leaves another. Its first tag is marked to have a
gap, and the closing tag before the answer is refused. -/
def halfFilled (tree : Tree) : Builder :=
  let start : Tag := .opening ⟨{ hasGap := true }, none, some "Sum", []⟩
  let asking := Session.pushes { expressions := true }
    [start, .reference ⟨"left", false, none, {}⟩, .gap, .closing]
  let filled := Session.pushes (leaves id (asking.supply (some tree)))
    ([.shift 1] ++ Session.branch (some "Sum") ++
      [.gap, .closing, .reference ⟨"right", false, none, {}⟩, .gap])
  Session.pushes (leaves id (filled.supply none)) [.closing]

theorem hasGap_iff_reaches_of_halfFilled :
    ∃ (builder : Builder) (tree : Tree), builder.Called (fun _ => True) ∧
      builder.finish = .ok tree ∧ tree.root.Reaches .gap ∧
      ∃ value ∈ tree.root.kids, value.isStub = false ∧ ¬ value.Reaches .gap := by
  obtain ⟨fragment, hfragment, tree, htree, hgap, value, hvalue, hstub, hnone⟩ :
      ∃ fragment, (Session.pushes {} Session.shiftingFragment).finish = .ok fragment ∧
        ∃ tree, (halfFilled fragment).finish = .ok tree ∧ tree.root.hasGap = true ∧
          ∃ value ∈ tree.root.kids, value.isStub = false ∧ value.hasGap = false := by
    decide +kernel
  have hcalled : (halfFilled fragment).Called fun _ => True :=
    ((pushes (.supply (pushes (.start true) _) (pushes (.start false) _) hfragment trivial)
      _).leave).pushes _
  refine ⟨_, tree, hcalled, htree, ?_, value, hvalue, hstub, fun hreach => ?_⟩
  · exact (hasGap_iff_reaches hcalled htree .refl).1.mp hgap
  · have hmarked := (hasGap_iff_reaches hcalled htree (.single hvalue)).1.mpr hreach
    rw [hnone] at hmarked
    cases hmarked

end Builder.Called

/-! ### Embedded nodes -/

namespace Tree

/-- In the tree of a template, what is embedded is an escape or trivia. What is bound is neither,
unless it is the root of a tree that was given for a gap, there or in one of the expressions. -/
theorem isEmbedded_of_template
    (he : ∀ inner, some inner ∈ expressions → given inner ∧ inner.Grown given)
    (h : ofTemplate tags expressions = .ok tree) (hnode : tree.root.Reaches node) :
    (∀ part ∈ embeddedNodes node.items.toList, part.flags.isEmbedded = true) ∧
    ∀ value ∈ boundNodes node.properties, value.flags.isEmbedded = true → value.IsRootOf given := by
  have hfaithful := (grown_of_template he h).faithful.whole node hnode
  refine ⟨fun part hpart => (hfaithful.parts part hpart).embedded, fun value hvalue hembedded => ?_⟩
  refine (hfaithful.values value hvalue).resolve_right fun hfits => ?_
  rw [hfits.bound] at hembedded
  cases hembedded

/-- A node with one gap. -/
def template : List Tag :=
  [.opening ⟨{}, none, some "P", []⟩, .reference ⟨"x", false, none, {}⟩, .gap, .closing]

/-- A node without parts. -/
def leaf (flags : NodeFlags) (type : Option String) : List Tag :=
  [.opening ⟨flags, none, type, []⟩, .closing]

/-- A fragment that is itself trivia, with one value and a space. -/
def spacedFragment : List Tag :=
  [.opening ⟨{ trivia := true }, none, none, []⟩, .reference ⟨"r", false, none, {}⟩] ++
    leaf {} (some "A") ++ leaf { trivia := true } (some "Space") ++ [.closing]

theorem grown_of_ofTags (h : ofTags tags = .ok tree) : tree.Grown given := by
  obtain ⟨builder, hpush, hfinish⟩ := bind_eq_ok.mp h
  have hnone : ∀ inner, some inner ∈ ([] : List (Option Tree)) → given inner ∧ inner.Grown given :=
    fun _ hmem => absurd hmem List.not_mem_nil
  exact ⟨builder, (Builder.Called.start false).pushAll hnone hpush, hfinish⟩

theorem isEmbedded_of_fragment :
    ∃ inner tree, ofTags spacedFragment = .ok inner ∧ inner.root.flags.isEmbedded = true ∧
      inner.root.type = .fragment ∧ ofTemplate template [some inner] = .ok tree ∧
      ∃ value ∈ boundNodes tree.root.properties, value.flags.isEmbedded = false := by
  obtain ⟨inner, hinner, hembedded, htype, tree, htree, value, hvalue, -⟩ :
      ∃ inner, ofTags spacedFragment = .ok inner ∧ inner.root.flags.isEmbedded = true ∧
        inner.root.type = .fragment ∧ ∃ tree, ofTemplate template [some inner] = .ok tree ∧
          ∃ value ∈ boundNodes tree.root.properties, True := by
    decide +kernel
  have hgiven : ∀ other, some other ∈ [some inner] →
      other.root.type = .fragment ∧ other.Grown fun given => given.root.type = .fragment := by
    simpa using ⟨htype, grown_of_ofTags hinner⟩
  refine ⟨inner, tree, hinner, hembedded, htype, htree, value, hvalue, ?_⟩
  rw [← Bool.not_eq_true]
  intro hbad
  obtain ⟨source, hfragment, hother, -⟩ :=
    (isEmbedded_of_template hgiven htree .refl).2 value hvalue hbad
  exact hother hfragment

/-- A space that fills a gap is bound, although it is trivia. -/
theorem bindsEmbedded_of_expression :
    ∃ inner tree, ofTags (leaf { trivia := true } (some "Space")) = .ok inner ∧
      ofTemplate template [some inner] = .ok tree ∧
      ∃ value ∈ boundNodes tree.root.properties, value.flags.trivia = true := by
  simp only [exists_and_left]
  decide +kernel

end Tree

/-! ### Opening tags -/

namespace Node

/-- A node that has not the language of its opening tag has that of the document. -/
theorem Inherits.own_or_document {doctype : Option Doctype} (h : node.Inherits doctype)
    (hstub : node.isStub = false) :
    ∃ start, node.Mirrors start ∧ (node.language = start.language ∨
      start.language = none ∧ node.language = doctype.bind Doctype.language) := by
  obtain ⟨start, hstart, hnode⟩ := Labelled.exists_mirrors h hstub
  refine ⟨start, hstart, ?_⟩
  cases hlanguage : start.language with
  | none =>
    rw [hlanguage] at hnode
    exact .inr ⟨rfl, hnode⟩
  | some language =>
    rw [hlanguage] at hnode
    exact .inl hnode

end Node

namespace Tree

/-- In the tree of a template, a node has the marks, the type, the attributes and the language of
its opening tag. Where that says no language, the root has the one of the document, and so has the
root of a tree that was given for a gap, there or in one of the expressions: the one of its own
document. The tree is also finished in a store, and there each cell, reachable or not, mirrors its
opening tag. -/
theorem mirrors_of_template
    (he : ∀ inner, some inner ∈ expressions → given inner ∧ inner.Grown given)
    (h : ofTemplate tags expressions = .ok tree) :
    (∀ node, tree.root.Reaches node → node.isStub = false → ∃ start, node.Mirrors start ∧
      (node.language = start.language ∨ start.language = none ∧
        (node = tree.root ∧ node.language = tree.doctype.bind Doctype.language ∨
          ∃ source : Tree, given source ∧ source.root.type ≠ .fragment ∧
            source.root.withoutHold = node.withoutHold ∧
            node.language = source.doctype.bind Doctype.language))) ∧
      (∃ arena, Finished arena tree) ∧
      ∀ arena, Finished arena tree → ∀ cell ∈ arena.cells, ∀ start, cell.head = .opening start →
        cell.Mirrors start := by
  have hgrown := grown_of_template he h
  refine ⟨fun node hnode hstub => ?_, hgrown.exists_finished,
    fun arena hfinished cell hmem start => hfinished.mirrors hmem⟩
  rcases hgrown.faithful.labelled hnode with
    hown | ⟨hroot, hinherits⟩ | ⟨source, hgiven, htype, hroot, hinherits⟩
  · obtain ⟨start, hstart, hlanguage⟩ := hown.exists_mirrors hstub
    exact ⟨start, hstart, .inl (hlanguage.trans (by simp))⟩
  · obtain ⟨start, hstart, hlanguage⟩ := hinherits.own_or_document hstub
    refine ⟨start, hstart, hlanguage.imp_right fun hdocument => ?_⟩
    exact ⟨hdocument.1, .inl ⟨hroot, hdocument.2⟩⟩
  · obtain ⟨start, hstart, hlanguage⟩ := hinherits.own_or_document hstub
    refine ⟨start, hstart, hlanguage.imp_right fun hdocument => ?_⟩
    exact ⟨hdocument.1, .inr ⟨source, hgiven, htype, hroot, hdocument.2⟩⟩

/-- The header of a document with a language. -/
def header : Tag :=
  .doctype ⟨0, "cstml", [("language", .text "js")]⟩

/-- The root has the language of the document, and what fills its gap has none. -/
theorem mirrors_of_header :
    ∃ inner tree, ofTags (leaf {} (some "A")) = .ok inner ∧ inner.doctype.isNone = true ∧
      ofTemplate (header :: template) [some inner] = .ok tree ∧ tree.root.language = some "js" ∧
      ∃ value ∈ tree.root.kids, ∃ start, value.Mirrors start ∧ value.language = start.language := by
  obtain ⟨inner, hinner, hnone, tree, htree, hlanguage, value, hvalue, hstub⟩ :
      ∃ inner, ofTags (leaf {} (some "A")) = .ok inner ∧ inner.doctype.isNone = true ∧
        ∃ tree, ofTemplate (header :: template) [some inner] = .ok tree ∧
          tree.root.language = some "js" ∧ ∃ value ∈ tree.root.kids, value.isStub = false := by
    decide +kernel
  have hgiven : ∀ other, some other ∈ [some inner] →
      other.doctype.isNone = true ∧ other.Grown fun given => given.doctype.isNone = true := by
    simpa using ⟨by simpa using hnone, grown_of_ofTags hinner⟩
  obtain ⟨start, hstart, hown | ⟨hsilent, hroot | ⟨source, hsource, -, -, hdocument⟩⟩⟩ :=
    (mirrors_of_template hgiven htree).1 value (.single hvalue) hstub
  · exact ⟨inner, tree, hinner, hnone, htree, hlanguage, value, hvalue, start, hstart, hown⟩
  · -- No node is a part of itself.
    have hwork := Node.work_lt_of_mem_kids hvalue
    rw [hroot.1] at hwork
    exact absurd hwork (Nat.lt_irrefl _)
  · refine ⟨inner, tree, hinner, hnone, htree, hlanguage, value, hvalue, start, hstart, ?_⟩
    rw [hdocument, hsilent, Option.isNone_iff_eq_none.mp hsource]
    rfl

/-- An opening tag says no language. -/
def saysNoLanguage : Tag → Bool
  | .opening start => start.language.isNone
  | _ => false

/-- What fills a gap keeps the language of the document that it came from, and its opening tag says
none. -/
theorem keepsLanguage_of_expression :
    ∃ inner tree, ofTags (header :: leaf {} (some "A")) = .ok inner ∧
      ofTemplate template [some inner] = .ok tree ∧ tree.doctype.isNone = true ∧
      ∃ value ∈ tree.root.kids, ∃ start, value.Mirrors start ∧ start.language = none ∧
        value.language = some "js" := by
  obtain ⟨inner, hinner, tree, htree, hnone, value, hvalue, hstub, hsilent, hlanguage⟩ :
      ∃ inner, ofTags (header :: leaf {} (some "A")) = .ok inner ∧
        ∃ tree, ofTemplate template [some inner] = .ok tree ∧ tree.doctype.isNone = true ∧
          ∃ value ∈ tree.root.kids, value.isStub = false ∧
            value.slots.head?.all saysNoLanguage = true ∧ value.language = some "js" := by
    decide +kernel
  have hgiven : ∀ other, some other ∈ [some inner] → True ∧ other.Grown fun _ => True := by
    simpa using grown_of_ofTags hinner
  obtain ⟨start, hstart⟩ :=
    (grown_of_template hgiven htree).faithful.exists_mirrors (.single hvalue) hstub
  rw [hstart.head] at hsilent
  exact ⟨inner, tree, hinner, htree, hnone, value, hvalue, start, hstart,
    Option.isNone_iff_eq_none.mp hsilent, hlanguage⟩

end Tree

end TagTree
