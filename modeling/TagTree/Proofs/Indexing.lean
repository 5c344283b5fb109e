import TagTree.Proofs.Run
import TagTree.Scope.Stack

/-!
# Indexes that are written out

A stream of tags can be given the index of every element of an array, while it is read once. What an
element's index is can be told from the tags that stand directly in its node (`Tag.valuesSince`).
From tags that make a tree nothing is refused, and the tags with their indexes make the same tree
(`Tag.withIndexes_of_built`).
-/

namespace TagTree

open Segment (mention? bound)

variable {edge : Reference} {index : Option Nat} {stack : ScopeStack} {scope : Scope}

namespace Tag

/-- The tags that stand directly in each open node, innermost and newest first, with another one. -/
def record : List (List Tag) → Tag → List (List Tag)
  | levels, .opening _ => [] :: levels
  | levels, .closing => levels.tail
  | [], _ => []
  | level :: outer, tag => (tag :: level) :: outer

/-- The tags that stand directly in the innermost open node, newest first. -/
def siblings (tags : List Tag) : List Tag :=
  (tags.foldl record []).headD []

/-- The name of the newest reference. -/
def lastName : List Tag → Option String
  | [] => none
  | .reference edge :: _ => some edge.name
  | _ :: earlier => lastName earlier

/-- The number of references to an array since the array was started, where the newest tag comes
first. -/
def valuesSince (name : String) : List Tag → Nat
  | [] => 0
  | .arrayStart :: earlier => if lastName earlier = some name then 0 else valuesSince name earlier
  | .reference edge :: earlier =>
    valuesSince name earlier + if edge.isArray && edge.name == name then 1 else 0
  | _ :: earlier => valuesSince name earlier

/-- The tag starts an array. -/
def startsArray : Tag → Bool
  | .arrayStart => true
  | _ => false

/-- The tag, after the given tags and before another, with the index of the element that it is a
reference to. -/
def numbered (before : List Tag) (next : Option Tag) : Tag → Tag
  | .reference edge =>
    if edge.isReserved || !edge.isArray || next.any startsArray then .reference edge
    else .reference { edge with index := some (valuesSince edge.name (siblings before)) }
  | tag => tag

/-- The index of the element that a tag is a reference to, after the given tags of the same node. -/
def element (level : List Tag) : Tag → Option Nat
  | .reference edge =>
    if edge.isReserved || !edge.isArray then none else some (valuesSince edge.name level)
  | _ => none

/-- The tag is no reference and starts no array, and it neither opens nor closes a node. -/
def isPlain : Tag → Bool
  | .opening _ | .closing | .reference _ | .arrayStart => false
  | _ => true

end Tag

/-- The tags of a node, newest first, tell how many elements it has mentioned. -/
def Tag.Tell (level : List Tag) (mentions : List Mention) : Prop :=
  ∀ name, Name.isReserved name = false → Tag.valuesSince name level = Mention.elements mentions name

/-- The scope and the tags of a node tell its mentions. -/
structure Scope.Tracks (scope : Scope) (level : List Tag) (draft : Draft) : Prop where
  counts : scope.Counts draft.mentions
  values : Tag.Tell level draft.mentions
  last : ∀ edge, draft.stage = .waiting edge →
    scope.lastReference = some edge.name ∧ Tag.lastName level = some edge.name

/-- The scopes and the tags of all open nodes tell their mentions. -/
inductive ScopeStack.Tracks : ScopeStack → List (List Tag) → List Draft → Prop where
  | nil : Tracks [] [] []
  | cons {scope : Scope} {scopes : ScopeStack} {level : List Tag} {levels : List (List Tag)}
    {draft : Draft} {drafts : List Draft} (h : scope.Tracks level draft)
    (hrest : Tracks scopes levels drafts) :
    Tracks (scope :: scopes) (level :: levels) (draft :: drafts)

/-- The tags of a node give a reference the index that the mentions give it. -/
theorem Tag.Tell.element_eq {level : List Tag} {mentions : List Mention}
    (h : Tag.Tell level mentions) (edge : Reference) :
    Tag.element level (.reference edge) = Mention.indexOf mentions edge := by
  rw [Tag.element, Mention.indexOf]
  cases hr : edge.isReserved with
  | true => rfl
  | false =>
    rw [h edge.name hr]
    cases edge.isArray <;> rfl

namespace Scope.Tracks

variable {level : List Tag} {draft after : Draft} {tag : Tag} (h : scope.Tracks level draft)

include h

/-- A node in which nothing is mentioned is told as before. -/
theorem congr (hmentions : after.mentions = draft.mentions)
    (hstage : ∀ edge, after.stage = .waiting edge → draft.stage = .waiting edge) :
    scope.Tracks level after where
  counts := hmentions ▸ h.counts
  values := hmentions ▸ h.values
  last edge hedge := h.last edge (hstage edge hedge)

theorem cons (htag : tag.isPlain = true) : scope.Tracks (tag :: level) draft := by
  cases tag with
  | opening | closing | reference | arrayStart => cases htag
  | _ => exact ⟨h.counts, h.values, h.last⟩

/-- A reference that may come is counted. -/
theorem reference (hi : draft.Idle)
    (hr : Mention.Referable (Segment.mentions draft.allSegments) edge) :
    ∃ next, scope.consume edge = (next, .ok (Tag.element level (.reference edge))) ∧
      next.Tracks (.reference edge :: level) (draft.settled.inStage (.waiting edge)) := by
  have hvalues := h.values
  rw [hi.mentions] at hvalues
  obtain ⟨next, hconsume, hcounts, hlast⟩ := consume_of_waiting (hi.mentions ▸ h.counts) hr
  rw [hvalues.element_eq]
  refine ⟨next, hconsume, by simpa using hcounts, fun name hname => ?_, ?_⟩
  · cases hres : edge.isReserved with
    | true =>
      have hne : edge.name ≠ name := by
        rintro rfl
        exact Bool.noConfusion (hres.symm.trans hname)
      simpa [Tag.valuesSince, hres, hne] using hvalues name hname
    | false => simp [Tag.valuesSince, hres, hvalues name hname]
  · rintro _ ⟨⟩
    exact ⟨hlast, rfl⟩

/-- The start of the array that the waiting reference names. -/
theorem arrayStart (hs : draft.stage = .waiting edge)
    (hm : Mention.Startable (Segment.mentions draft.segments) edge) :
    (scope.startArray edge.name).Tracks (.arrayStart :: level)
      (draft.add (.arrayStart (edge.marked false))) := by
  have hmentions : draft.mentions =
      Segment.mentions draft.segments ++ [.value (edge.marked false)] := by
    simp [Draft.mentions, Draft.allSegments, hs, hm.1]
  have hcounts := h.counts
  have hvalues := h.values
  rw [hmentions] at hcounts hvalues
  refine ⟨by simpa [mention?] using hcounts.startArray hm, fun name hname => ?_, by rintro _ ⟨⟩⟩
  rw [Tag.valuesSince, (h.last edge hs).2, hvalues name hname]
  by_cases hn : edge.name = name
  · simp [← hn, mention?, Mention.elements_eq_zero hm.2.2]
  · simp [hn, mention?]

/-- A node that is received is no new mention. -/
theorem receive {frame : Frame} (hp : frame.Passive draft) (node : Node) :
    scope.Tracks level (draft.receive node) := by
  have hstage := hp.2.2
  refine h.congr ?_ ?_ <;> cases hs : draft.stage with
  | resting | shifting =>
    simp [Draft.receive, Draft.mentions, Draft.allSegments, Draft.add, Draft.inStage, hs,
      bound, mention?]
  | bound => simp [hs] at hstage
  | waiting edge =>
    cases hr : edge.isReserved <;>
      simp [Draft.receive, Draft.mentions, Draft.allSegments, Draft.add, Draft.inStage, hs, hr,
        bound, mention?]

end Scope.Tracks

namespace ScopeStack

variable {levels : List (List Tag)} {frames : List Frame} {drafts after : List Draft} {tag : Tag}

theorem observe_arrayStart {name : String} (h : scope.lastReference = some name)
    (scopes : ScopeStack) :
    observe (scope :: scopes) .arrayStart = (scope.startArray name :: scopes, .ok none) := by
  simp [observe, Scope.observe, top, setTop, h]

theorem observe_reference {next : Scope}
    (h : scope.consume edge = (next, .ok index)) (scopes : ScopeStack) :
    observe (scope :: scopes) (.reference edge) = (next :: scopes, .ok index) := by
  simp [observe, consume, top, setTop, h]

/-- What a tag within a node does to scopes and tags. -/
theorem Tracks.step (h : stack.Tracks levels drafts) (hstep : Step drafts tag after)
    (hrunning : Frame.Running frames drafts) :
    (stack.observe tag).2 = .ok (tag.element (levels.headD [])) ∧
    Tracks (stack.observe tag).1 (Tag.record levels tag) after := by
  obtain _ | ⟨h, hrest⟩ := h
  · cases hstep
  cases hstep with
  | content hi =>
    refine ⟨rfl, .cons ((h.cons rfl).congr ?_ (by rintro _ ⟨⟩)) hrest⟩
    simp [hi.mentions, mention?]
  | reference hi hr =>
    obtain ⟨next, hconsume, hnext⟩ := h.reference hi hr
    rw [observe_reference hconsume]
    exact ⟨rfl, .cons hnext hrest⟩
  | arrayStart hs hm =>
    rw [observe_arrayStart (h.last _ hs).1]
    exact ⟨rfl, .cons (h.arrayStart hs hm) hrest⟩
  | null hs hb | literal hs hb | gap hs hb | hold hs hb =>
    refine ⟨rfl, .cons ((h.cons rfl).congr ?_ (by rintro _ ⟨⟩)) hrest⟩
    simp [Draft.mentions, Draft.allSegments, Draft.add, Draft.inStage, Draft.hold, hs, hb.1,
      bound, mention?]
  | shift hs =>
    refine ⟨rfl, .cons ((h.cons rfl).congr ?_ (by rintro _ ⟨⟩)) hrest⟩
    simp [Draft.mentions, Draft.allSegments, Draft.inStage, hs, bound, mention?]
  | @opening draft parent rest start owed hc ho =>
    refine ⟨rfl, .cons ⟨Scope.counts_empty, fun _ _ => rfl, by rintro _ ⟨⟩⟩ (.cons ?_ hrest)⟩
    generalize start.flags.isEmbedded = embedded at ho
    cases ho with
    | beside hi =>
      refine h.congr ?_ (by rintro _ ⟨⟩)
      rw [hi.mentions, Draft.idle_settled.mentions, Draft.allSegments_settled]
    | reserved | value | shifted => exact h
  | closing hi ho =>
    obtain _ | ⟨hparent, hrest⟩ := hrest
    obtain _ | ⟨frame, _ | ⟨parent, frames⟩⟩ := frames
    · exact hrunning.elim
    · exact hrunning.2.elim
    · exact ⟨rfl, .cons (hparent.receive hrunning.2.1.2.1 _) hrest⟩

/-- The scopes and the tags of the open nodes tell what a builder has come to. -/
def Follows (stack : ScopeStack) (levels : List (List Tag)) : Phase → Prop
  | .within _ drafts => stack.Tracks levels drafts
  | _ => stack = [] ∧ levels = []

/-- Every tag that is taken has the index that the tags of its node give it. -/
theorem Follows.advance {builder : Builder} {phase next : Phase} (h : stack.Follows levels phase)
    (hb : builder.In phase) (hadv : Advance phase tag next) :
    (stack.observe tag).2 = .ok (tag.element (levels.headD [])) ∧
    Follows (stack.observe tag).1 (Tag.record levels tag) next := by
  cases hadv with
  | effect =>
    refine ⟨rfl, ?_⟩
    cases phase with
    | before | after =>
      obtain ⟨rfl, rfl⟩ := h
      exact ⟨rfl, rfl⟩
    | within =>
      cases h with
      | nil => exact .nil
      | cons h hrest => exact .cons (h.cons rfl) hrest
  | doctype =>
    obtain ⟨rfl, rfl⟩ := h
    exact ⟨rfl, rfl, rfl⟩
  | openRoot =>
    obtain ⟨rfl, rfl⟩ := h
    exact ⟨rfl, .cons ⟨Scope.counts_empty, fun _ _ => rfl, by rintro _ ⟨⟩⟩ .nil⟩
  | inside hstep => exact Tracks.step h hstep hb.holds.2.2
  | closeRoot =>
    cases h with
    | cons _ hrest =>
      cases hrest
      exact ⟨rfl, rfl, rfl⟩

end ScopeStack

namespace Tag

variable {next later : Option Tag}

theorem withIndex_reference (edge : Reference) (index : Option Nat) (next : Option Tag) :
    (reference edge).withIndex index next = reference { edge with
      index := if next.any startsArray then edge.index else index.or edge.index } := by
  cases next with
  | none => cases index <;> rfl
  | some next => cases index <;> cases next <;> rfl

theorem startsArray_withIndex (tag : Tag) (index : Option Nat) (next : Option Tag) :
    (tag.withIndex index next).startsArray = tag.startsArray := by
  cases tag with
  | reference edge => rw [withIndex_reference]; rfl
  | _ => rfl

theorem withIndex_withIndex (tag : Tag) (index : Option Nat)
    (h : later.any startsArray = next.any startsArray) :
    (tag.withIndex index next).withIndex index later = tag.withIndex index next := by
  cases tag with
  | reference edge =>
    rw [withIndex_reference, withIndex_reference, h]
    cases next.any startsArray <;> cases index <;> rfl
  | _ => rfl

theorem numbered_eq (before : List Tag) (next : Option Tag) (tag : Tag) :
    tag.numbered before next = tag.withIndex (tag.element (siblings before)) next := by
  cases tag with
  | reference edge =>
    rw [withIndex_reference, numbered, element]
    cases edge.isReserved || !edge.isArray <;> cases next.any startsArray <;> rfl
  | _ => rfl

end Tag

/-- A reference that is given the index that it comes to comes to the same again. -/
theorem Scope.exists_withIndex (h : (scope.consume edge).2 = .ok index) (next : Option Tag) :
    ∃ found, (Tag.reference edge).withIndex index next = .reference { edge with index := found } ∧
      scope.consume { edge with index := found } = scope.consume edge := by
  refine ⟨_, Tag.withIndex_reference edge index next, ?_⟩
  cases next.any Tag.startsArray with
  | true => rfl
  | false =>
    cases index with
    | none => rfl
    | some index =>
      have hpair : scope.consume edge = ((scope.consume edge).1, .ok (some index)) := Prod.ext rfl h
      exact (consume_withIndex hpair).trans hpair.symm

namespace ScopeStack

/-- A tag with its index comes to the same as without. -/
theorem observe_withIndex {tag : Tag} (h : (stack.observe tag).2 = .ok index) (next : Option Tag) :
    stack.observe (tag.withIndex index next) = stack.observe tag := by
  cases tag with
  | reference edge =>
    obtain ⟨found, hedge, hconsume⟩ := Scope.exists_withIndex h next
    rw [hedge, observe, observe, consume, consume, hconsume]
  | _ => rfl

/-- Where nothing is refused, each tag is given its index in turn. -/
theorem indexTags_cons_iff {tag : Tag} {tags indexed : List Tag} :
    stack.indexTags (tag :: tags) = indexed.map .ok ↔
      ∃ index rest, (stack.observe tag).2 = .ok index ∧
        indexed = tag.withIndex index tags.head? :: rest ∧
        (stack.observe tag).1.indexTags tags = rest.map .ok := by
  have hcons : stack.indexTags (tag :: tags) =
      (stack.observe tag).2.map (tag.withIndex · tags.head?) ::
        (stack.observe tag).1.indexTags tags := rfl
  rw [hcons]
  constructor
  · intro h
    obtain _ | ⟨first, rest⟩ := indexed
    · cases h
    · obtain ⟨hfirst, hrest⟩ := List.cons.inj h
      cases hindex : (stack.observe tag).2 with
      | error error =>
        rw [hindex] at hfirst
        cases hfirst
      | ok index =>
        rw [hindex] at hfirst
        exact ⟨index, rest, rfl, congrArg (· :: rest) (Except.ok.inj hfirst).symm, hrest⟩
  · rintro ⟨index, rest, hindex, rfl, hrest⟩
    rw [hindex, hrest]
    rfl

theorem length_indexTags (stack : ScopeStack) (tags : List Tag) :
    (stack.indexTags tags).length = tags.length := by
  induction tags generalizing stack with
  | nil => rfl
  | cons tag tags ih => exact congrArg (· + 1) (ih _)

/-- To write the indexes out a second time changes nothing. -/
theorem indexTags_idem {tags indexed : List Tag} (h : stack.indexTags tags = indexed.map .ok) :
    indexed.head?.any Tag.startsArray = tags.head?.any Tag.startsArray ∧
    stack.indexTags indexed = indexed.map .ok := by
  induction tags generalizing stack indexed with
  | nil =>
    obtain rfl : indexed = [] := List.map_eq_nil_iff.mp h.symm
    exact ⟨rfl, rfl⟩
  | cons tag tags ih =>
    obtain ⟨index, rest, hindex, rfl, hrest⟩ := indexTags_cons_iff.mp h
    obtain ⟨hhead, hidem⟩ := ih hrest
    have hobserve := observe_withIndex hindex tags.head?
    refine ⟨Tag.startsArray_withIndex tag index tags.head?, indexTags_cons_iff.mpr ?_⟩
    refine ⟨index, rest, hobserve ▸ hindex, ?_, hobserve ▸ hidem⟩
    rw [Tag.withIndex_withIndex tag index hhead]

end ScopeStack

namespace Builder

variable {builder last : Builder} {phase after : Phase}
  {levels : List (List Tag)} {tag : Tag} {tags : List Tag}

/-- A builder takes a tag with the index that the tags of its node give it as without. -/
theorem push_withIndex (hb : builder.In phase) (h : stack.Follows levels phase)
    (hadv : Advance phase tag after) (next : Option Tag) :
    builder.push (tag.withIndex (tag.element (levels.headD [])) next) = builder.push tag := by
  cases tag with
  | reference edge =>
    cases hadv with
    | inside hstep =>
      cases hstep with
      | @reference draft rest edge hi hr =>
        cases h with
        | @cons scope scopes level levels _ _ h _ =>
          cases hf : builder.frames with
          | nil => exact (hf ▸ hb.holds.2.2).elim
          | cons frame below =>
            have hrunning := hb.holds.2.2
            rw [hf] at hrunning
            have hscope := hrunning.1.1.scope
            have hvalues := h.values
            rw [hi.mentions] at hscope hvalues
            obtain ⟨found, hconsume, -⟩ := Scope.consume_of_waiting hscope hr
            have hindex : (frame.scope.consume edge).2 =
                .ok (Tag.element level (.reference edge)) := by
              rw [hconsume, hvalues.element_eq]
            obtain ⟨index, hedge, hsame⟩ := Scope.exists_withIndex hindex next
            have hreference : frame.reference { edge with index := index } =
                frame.reference edge := by
              rw [Frame.reference, Frame.reference, hsame]
            show builder.push ((Tag.reference edge).withIndex
              (Tag.element level (.reference edge)) next) = _
            simp only [hedge, push, hf, pushInside, hreference]
            rfl
  | _ => rfl

/-- A waiting reference that the start of an array comes to, be it after effects, may start one. -/
theorem startable_of_pushAll {doctype : Option Doctype} {draft : Draft} {rest : List Draft}
    (hb : builder.In (.within doctype (draft :: rest)))
    (he : builder.expressions = false) (hs : draft.stage = .waiting edge) {effects : List Effect}
    (hpush : builder.pushAll (effects.map .effect ++ .arrayStart :: tags) [] = .ok last) :
    Mention.Startable (Segment.mentions draft.segments) edge := by
  induction effects with
  | nil =>
    obtain ⟨_, hadv, -⟩ := advances_of_pushAll hb he hpush
    cases hadv with
    | cons hfirst _ =>
      cases hfirst with
      | inside hstep =>
        cases hstep with
        | arrayStart hwaits hm =>
          cases hs.symm.trans hwaits
          exact hm
  | cons effect effects ih => exact ih (pushAll_effect hpush)

/-- The reference that starts an array is the first to it. -/
theorem element_of_arrayStart {effects : List Effect}
    (hb : builder.In phase) (he : builder.expressions = false) (h : stack.Follows levels phase)
    (hpush : builder.pushAll
      (.reference edge :: (effects.map .effect ++ .arrayStart :: tags)) [] = .ok last) :
    Tag.element (levels.headD []) (.reference edge) = some 0 := by
  obtain ⟨_, _, -, hadv, htook, hexpr, hpush⟩ := cons_of_pushAll hb he hpush
  cases hadv with
  | inside hstep =>
    cases hstep with
    | reference hi hr =>
      cases h with
      | cons h _ =>
        obtain ⟨hres, harray, hnamed⟩ := startable_of_pushAll htook.inPhase hexpr rfl hpush
        have hvalues := h.values
        rw [hi.mentions] at hvalues
        have hzero := Mention.elements_eq_zero hnamed
        refine (hvalues.element_eq edge).trans ?_
        rw [Mention.indexOf, hres, harray]
        exact congrArg some hzero

/-- The tags that a builder takes are given their indexes without failure, and the builder takes
them with their indexes as without. -/
theorem exists_indexed (hb : builder.In phase) (he : builder.expressions = false)
    (h : stack.Follows levels phase) (hpush : builder.pushAll tags [] = .ok last) :
    ∃ indexed, stack.indexTags tags = indexed.map .ok ∧ builder.pushAll indexed [] = .ok last ∧
      (∀ before tag after, tags = before ++ tag :: after → indexed[before.length]? =
        some (tag.withIndex (tag.element ((before.foldl Tag.record levels).headD []))
          after.head?)) ∧
      ∀ before edge (effects : List Effect) after,
        tags = before ++ .reference edge :: (effects.map .effect ++ .arrayStart :: after) →
          Tag.element ((before.foldl Tag.record levels).headD []) (.reference edge) = some 0 := by
  induction tags generalizing builder phase stack levels with
  | nil =>
    refine ⟨[], rfl, hpush, fun before tag after h => ?_, fun before edge effects after h => ?_⟩ <;>
      simp at h
  | cons tag tags ih =>
    obtain ⟨next, after, hfirst, hadv, htook, hexpr, hlater⟩ := cons_of_pushAll hb he hpush
    obtain ⟨hindex, hfollows⟩ := h.advance hb hadv
    obtain ⟨indexed, hindexed, hrest, hat, hstart⟩ := ih htook.inPhase hexpr hfollows hlater
    refine ⟨tag.withIndex (tag.element (levels.headD [])) tags.head? :: indexed,
      ScopeStack.indexTags_cons_iff.mpr ⟨_, _, hindex, rfl, hindexed⟩, ?_, ?_, ?_⟩
    · rw [pushAll, push_withIndex hb h hadv, hfirst]
      exact hrest
    · rintro (_ | ⟨first, before⟩) other rest hsplit <;> cases hsplit
      · rfl
      · exact hat before other rest rfl
    · rintro (_ | ⟨first, before⟩) edge effects rest hsplit <;> cases hsplit
      · exact element_of_arrayStart hb he h hpush
      · exact hstart before edge effects rest rfl

end Builder

namespace Tag

/-- The tags that make a tree are given their indexes without failure, tag by tag: a reference to an
array, unless the array is started by the next tag, has the number of references to the array in the
same node since its start. Where only effects stand before the start, that is none. A second time
nothing changes, and the tags with their indexes make the same tree. -/
theorem withIndexes_of_built {tags : List Tag} {tree : Tree} (h : Tree.ofTags tags = .ok tree) :
    ∃ indexed, withIndexes tags = indexed.map .ok ∧ indexed.length = tags.length ∧
      (∀ before tag after, tags = before ++ tag :: after →
        indexed[before.length]? = some (tag.numbered before after.head?)) ∧
      (∀ before edge effect effects after, tags = before ++ reference edge ::
          ((effect :: effects).map .effect ++ arrayStart :: after) →
        indexed[before.length]? = some (reference { edge with index := some 0 })) ∧
      withIndexes indexed = indexed.map .ok ∧ Tree.ofTags indexed = .ok tree := by
  obtain ⟨builder, hpush, hfinish⟩ := bind_eq_ok.mp h
  obtain ⟨indexed, hindexed, hsame, hat, hstart⟩ :=
    Builder.exists_indexed (Builder.in_before false) rfl
      (show ScopeStack.Follows [] [] (.before none) from ⟨rfl, rfl⟩) hpush
  refine ⟨indexed, hindexed, ?_, ?_, ?_, (ScopeStack.indexTags_idem hindexed).2,
    bind_eq_ok.mpr ⟨builder, hsame, hfinish⟩⟩
  · rw [← ScopeStack.length_indexTags [] tags, hindexed, List.length_map]
  · intro before tag after htags
    rw [numbered_eq]
    exact hat before tag after htags
  · intro before edge effect effects after htags
    rw [hat before _ _ htags, hstart before edge (effect :: effects) after htags,
      withIndex_reference]
    rfl

/-- Two arrays, one of which starts after an effect, with a node among the elements of the other. -/
def arraysTags : List Tag :=
  let start (name : String) : Tag := .opening ⟨{}, none, some name, []⟩
  let edge (name : String) : Tag := .reference ⟨name, true, none, {}⟩
  [start "P", edge "a", .arrayStart, edge "a", start "X", edge "a", .arrayStart, edge "a", .null,
    .closing, edge "b", .effect .popStyle, .arrayStart, edge "b", .null, edge "a", .null, .closing]

theorem withIndexes_of_built_of_arrays :
    ∃ tree indexed, Tree.ofTags arraysTags = .ok tree ∧ withIndexes arraysTags = indexed.map .ok ∧
      indexed[1]? = some (reference ⟨"a", true, none, {}⟩) ∧
      indexed[10]? = some (reference ⟨"b", true, some 0, {}⟩) ∧
      indexed[15]? = some (reference ⟨"a", true, some 1, {}⟩) ∧
      withIndexes indexed = indexed.map .ok ∧ Tree.ofTags indexed = .ok tree := by
  obtain ⟨tree, htree, -⟩ : ∃ tree, Tree.ofTags arraysTags = .ok tree ∧ True := by decide +kernel
  obtain ⟨indexed, hindexed, -, hat, hstart, hidem, hsame⟩ := withIndexes_of_built htree
  exact ⟨tree, indexed, htree, hindexed, hat (arraysTags.take 1) _ _ rfl,
    hstart (arraysTags.take 10) _ _ [] _ rfl, hat (arraysTags.take 15) _ _ rfl, hidem, hsame⟩

end Tag

end TagTree
