import TagTree.Proofs.Expression
import TagTree.Proofs.Parts
import TagTree.Proofs.Replacement

/-!
# Nodes whose history can be traced

A node is sound if it is made of orderly segments, all the way down, and if for each of its values
with shifts the nodes that took the value back can be traced, one within the other. Whatever a
builder makes, from tags alone or from a template, is sound (`Tree.Built.sound`).
-/

namespace TagTree

/-- The node is well made, and a number of values can be traced back from it: the one that it took
back, the one that this took back, and so on. -/
inductive Node.Sound : Nat → Node → Prop where
  | gap : Sound 0 .gap
  | null : Sound 0 .null
  | literal {text : String} : Sound 0 (.literal text)
  | element {outline : Outline} (hl : outline.Laid)
    (hembedded : ∀ edge node, .embedded edge node ∈ outline.segments → Sound 0 node)
    (hvalue : ∀ edge node shifts, .value edge node shifts ∈ outline.segments →
      Sound shifts node) : Sound 0 outline.toNode
  | holding {outline : Outline} {before after : List (Segment Node)} {edge : Reference}
    {inner : Node} {shifts depth : Nat} (hl : outline.Laid)
    (hembedded : ∀ edge node, .embedded edge node ∈ outline.segments → Sound 0 node)
    (hvalue : ∀ edge node shifts, .value edge node shifts ∈ outline.segments → Sound shifts node)
    (hs : outline.segments = before ++ .value edge inner shifts :: after)
    (hheld : outline.held = some ((Segment.allItems before).length + 1))
    (h : Sound depth inner) : Sound (depth + 1) outline.toNode

/-- The node of a segment is sound, with all the shifts that the segment has. -/
def Segment.IsSound : Segment Node → Prop
  | embedded _ node => node.Sound 0
  | value _ node shifts => node.Sound shifts
  | _ => True

namespace Node.Sound

variable {node : Node} {depth : Nat}

/-- Fewer values can be traced too. -/
theorem of_succ (h : Sound (depth + 1) node) : Sound depth node := by
  induction depth generalizing node with
  | zero =>
    cases h with
    | holding hl hembedded hvalue hs hheld h => exact .element hl hembedded hvalue
  | succ depth ih =>
    cases h with
    | holding hl hembedded hvalue hs hheld h => exact .holding hl hembedded hvalue hs hheld (ih h)

theorem zero (h : Sound depth node) : Sound 0 node := by
  induction depth with
  | zero => exact h
  | succ depth ih => exact ih h.of_succ

/-- A sound node that is no stub is made of sound segments. -/
theorem exists_outline {body : Element Node} (h : Sound depth (.element body)) :
    ∃ outline : Outline, outline.toNode = .element body ∧ outline.Laid ∧
      ∀ segment ∈ outline.segments, segment.IsSound := by
  have h := h.zero
  generalize hb : Node.element body = node at h
  generalize hd : 0 = depth at h
  cases h with
  | gap | null | literal => cases hb
  | element hl hembedded hvalue =>
    refine ⟨_, rfl, hl, fun segment hmem => ?_⟩
    cases segment with
    | content | arrayStart => trivial
    | embedded edge node => exact hembedded edge node hmem
    | value edge node shifts => exact hvalue edge node shifts hmem
  | holding => cases hd

/-- If the node mixes no name, neither do its segments. -/
theorem exists_unmixed (h : Sound depth node) (hstub : node.isStub = false)
    (hu : node.isUnmixed = true) :
    ∃ outline : Outline, node = outline.toNode ∧ outline.Laid ∧
      (∀ segment ∈ outline.segments, segment.IsSound) ∧
      Mention.Unmixed (Segment.mentions outline.segments) := by
  cases node with
  | gap | null | literal => cases hstub
  | element body =>
    obtain ⟨outline, houtline, hl, hs⟩ := h.exists_outline
    exact ⟨outline, houtline.symm, hl, hs, Outline.unmixed_of_isUnmixed hl.orderly (houtline ▸ hu)⟩

theorem of_outline {outline : Outline} (hl : outline.Laid)
    (hs : ∀ segment ∈ outline.segments, segment.IsSound) : Sound 0 outline.toNode :=
  .element hl (fun edge node hmem => hs (.embedded edge node) hmem)
    fun edge node shifts hmem => hs (.value edge node shifts) hmem

/-- The record of what a node took back does not matter to the rest. -/
theorem withoutHold (h : Sound depth node) : Sound 0 node.withoutHold := by
  cases node with
  | gap => exact .gap
  | null => exact .null
  | literal text => exact .literal
  | element body =>
    obtain ⟨outline, houtline, hl, hs⟩ := h.exists_outline
    have hsound : Sound 0 ({ outline with held := none } : Outline).toNode :=
      of_outline ⟨hl.plain, hl.orderly⟩ hs
    rw [← houtline]
    exact hsound

/-- What a sound node binds and embeds is sound. -/
theorem of_mem_kids {kid : Node} (h : Sound depth node) (hkid : kid ∈ node.kids) : Sound 0 kid := by
  cases node with
  | gap | null | literal => cases hkid
  | element body =>
    obtain ⟨outline, houtline, hl, hs⟩ := h.exists_outline
    rw [← houtline] at hkid
    have hmem := (Outline.perm_kids hl.orderly).subset (List.mem_append_left _ hkid)
    obtain ⟨segment, hsegment, hnode⟩ := List.mem_filterMap.mp hmem
    have hsound := hs segment hsegment
    cases segment with
    | content | arrayStart => cases hnode
    | embedded edge node =>
      cases hnode
      exact hsound
    | value edge node shifts =>
      cases hnode
      exact zero hsound

end Node.Sound

/-- What a sound tree gives to a gap is sound. -/
theorem Tree.sound_fillers {tree : Tree} (h : tree.root.Sound 0) :
    ∀ node ∈ tree.fillers, node.Sound 0 := by
  intro node hmem
  rw [fillers] at hmem
  split at hmem
  · obtain ⟨value, hvalue, rfl⟩ := List.mem_map.mp hmem
    have hbound := Directory.mem_boundNodes_of_mem_values hvalue
    exact (h.of_mem_kids (List.mem_append_left _ hbound)).withoutHold
  · obtain rfl := List.mem_singleton.mp hmem
    exact h.withoutHold

namespace Draft

/-- The segments of an open node are sound. What it has to take back, or has taken back, came from
the given value: from what took that back, at least as many values can be traced. -/
structure Sound (draft : Draft) (origin : Option Node) : Prop where
  plain : ∀ segment ∈ draft.allSegments, segment.IsPlain
  segments : ∀ segment ∈ draft.allSegments, segment.IsSound
  owed : ∀ node ∈ draft.owed, origin = some node ∧ node.Sound 0
  held : ∀ position ∈ draft.held, ∃ first before edge node shifts after, origin = some first ∧
    draft.allSegments = before ++ .value edge node shifts :: after ∧
    position = (Segment.allItems before).length + 1 ∧ ∀ depth, first.Sound depth → node.Sound depth

/-- The node has been opened in the one around it, and takes back the value that is shifted there.
-/
def Reattaches (draft : Draft) (origin : Option Node) : List Draft → Prop
  | [] => True
  | parent :: _ =>
    match parent.stage with
    | .bound _ _ _ => False
    | .shifting _ node _ =>
      origin = some node ∧ (draft.owed.isSome = true ∨ draft.held.isSome = true)
    | _ => True

/-- All open nodes are sound. -/
def AllSound : List Draft → Prop
  | [] => True
  | draft :: below =>
    (∃ origin, draft.Sound origin ∧ draft.Reattaches origin below) ∧ AllSound below

namespace Sound

variable {draft other : Draft} {origin : Option Node} {edge : Reference} {node : Node}

variable (h : draft.Sound origin)

include h

/-- Only the segments and what is taken back matter. -/
theorem congr (hsegments : other.allSegments = draft.allSegments)
    (howed : other.owed = draft.owed) (hheld : other.held = draft.held) : other.Sound origin := by
  refine ⟨hsegments ▸ h.plain, hsegments ▸ h.segments, howed ▸ h.owed, ?_⟩
  rw [hsegments, hheld]
  exact h.held

/-- One more sound segment. -/
theorem extend {segment : Segment Node}
    (hsegments : other.allSegments = draft.allSegments ++ [segment])
    (howed : other.owed = draft.owed) (hheld : other.held = draft.held)
    (hplain : segment.IsPlain) (hsound : segment.IsSound) : other.Sound origin := by
  refine ⟨?_, ?_, howed ▸ h.owed, ?_⟩
  · rw [hsegments]
    exact List.forall_mem_append.mpr ⟨h.plain, List.forall_mem_singleton.mpr hplain⟩
  · rw [hsegments]
    exact List.forall_mem_append.mpr ⟨h.segments, List.forall_mem_singleton.mpr hsound⟩
  · intro position hmem
    rw [hheld] at hmem
    obtain ⟨first, before, edge, node, shifts, after, horigin, hall, hposition, htrace⟩ :=
      h.held position hmem
    exact ⟨first, before, edge, node, shifts, after ++ [segment], horigin,
      by rw [hsegments, hall, List.append_assoc, List.cons_append], hposition, htrace⟩

/-- A value is bound to the reference that waits. -/
theorem bound (hs : draft.stage = .waiting edge) (hn : node.Sound 0) :
    (draft.inStage (.bound edge node 0)).Sound origin := by
  have hall := Draft.allSegments_of_waiting hs
  have hsegments : (draft.inStage (.bound edge node 0)).allSegments =
      draft.allSegments ++ [.bound edge node 0] := by
    rw [hall]
    rfl
  exact h.extend hsegments rfl rfl ⟨rfl, rfl⟩ hn

/-- A finished segment is added where nothing of it was there before. -/
theorem add {segment : Segment Node}
    (hall : draft.allSegments = draft.segments) (hplain : segment.IsPlain)
    (hsound : segment.IsSound) : (draft.add segment).Sound origin := by
  have hsegments : (draft.add segment).allSegments = draft.allSegments ++ [segment] := by
    rw [allSegments_add, hall]
  exact h.extend hsegments rfl rfl hplain hsound

theorem settled : draft.settled.Sound origin :=
  h.congr allSegments_settled rfl rfl

/-- A value that was shifted before is taken back. -/
theorem hold (hs : draft.stage = .waiting edge)
    (ho : draft.owed = some node) : (draft.hold.inStage (.bound edge node 0)).Sound origin := by
  obtain ⟨horigin, hnode⟩ := h.owed node ho
  have hall := Draft.allSegments_of_waiting hs
  have hbound := h.bound hs hnode
  refine ⟨hbound.plain, hbound.segments, by rintro _ ⟨⟩, ?_⟩
  rintro position ⟨⟩
  refine ⟨node, draft.segments, edge.marked node.hasGap, node, 0, [], horigin, rfl, ?_, fun _ => id⟩
  rw [Draft.items, hall, hs]
  simp

/-- The finished node is sound. -/
theorem toNode (ho : Mention.Orderly [] (Segment.mentions draft.allSegments)) :
    draft.toNode.Sound 0 :=
  .of_outline ⟨h.plain, ho⟩ h.segments

/-- From a node that took a value back, one value more can be traced than from that. -/
theorem toNode_succ {first : Node} {depth : Nat}
    (ho : Mention.Orderly [] (Segment.mentions draft.allSegments))
    (hheld : draft.held.isSome = true)
    (horigin : origin = some first) (hf : first.Sound depth) : draft.toNode.Sound (depth + 1) := by
  obtain ⟨position, hposition⟩ := Option.isSome_iff_exists.mp hheld
  obtain ⟨found, before, edge, node, shifts, after, hfound, hall, rfl, htrace⟩ :=
    h.held position hposition
  obtain rfl : first = found := Option.some.inj (horigin.symm.trans hfound)
  exact .holding ⟨h.plain, ho⟩ (fun edge node hmem => h.segments (.embedded edge node) hmem)
    (fun edge node shifts hmem => h.segments (.value edge node shifts) hmem) hall hposition
    (htrace depth hf)

end Sound

variable {draft other parent : Draft} {rest drafts after : List Draft} {tag : Tag}
  {edge : Reference}

/-- The innermost node changes, and takes back what it has to. -/
theorem AllSound.replace (h : AllSound (draft :: rest))
    (hsound : ∀ origin, draft.Sound origin → other.Sound origin)
    (htakes : draft.owed.isSome = true ∨ draft.held.isSome = true →
      other.owed.isSome = true ∨ other.held.isSome = true) : AllSound (other :: rest) := by
  obtain ⟨⟨origin, hdraft, hreattaches⟩, hrest⟩ := h
  refine ⟨⟨origin, hsound origin hdraft, ?_⟩, hrest⟩
  cases rest with
  | nil => trivial
  | cons parent rest =>
    rw [Reattaches] at hreattaches ⊢
    cases hs : parent.stage with
    | resting | waiting => trivial
    | bound =>
      rw [hs] at hreattaches
      exact hreattaches
    | shifting =>
      rw [hs] at hreattaches
      exact ⟨hreattaches.1, htakes hreattaches.2⟩

theorem sound_fresh {start : OpenTag} {inherited : Option String} {owed : Option Node}
    (h : ∀ node ∈ owed, node.Sound 0) : (Draft.fresh start inherited owed).Sound owed :=
  ⟨nofun, nofun, fun node hmem => ⟨hmem, h node hmem⟩, nofun⟩

/-- A node opens within the innermost one. -/
theorem AllSound.opens {start : OpenTag} {embedded : Bool} {owed : Option Node}
    (h : AllSound (draft :: rest)) (ho : draft.Opens embedded parent owed) :
    AllSound (.fresh start.plain none owed :: parent :: rest) := by
  cases ho with
  | beside hi =>
    exact ⟨⟨none, sound_fresh nofun, trivial⟩, h.replace (fun _ hsound => hsound.settled) id⟩
  | reserved hs | value hs =>
    refine ⟨⟨none, sound_fresh nofun, ?_⟩, h⟩
    rw [Reattaches, hs]
    trivial
  | @shifted edge node shifts hs =>
    obtain ⟨⟨origin, hdraft, -⟩, -⟩ := id h
    have hmem : .bound edge node shifts ∈ draft.allSegments := by
      rw [allSegments, hs]
      exact List.mem_append_cons_self
    have hnode : node.Sound shifts := hdraft.segments _ hmem
    refine ⟨⟨some node, sound_fresh ?_, ?_⟩, h⟩
    · rintro _ ⟨⟩
      exact hnode.zero
    · rw [Reattaches, hs]
      exact ⟨rfl, .inl rfl⟩

/-- A node that took back the value shifted in another one is bound there in its place. -/
theorem Sound.reattach {origin : Option Node} {present node : Node}
    {shifts : Nat} (h : draft.Sound origin) (hs : draft.stage = .shifting edge present shifts)
    (hn : ∀ depth, present.Sound depth → node.Sound (depth + 1)) :
    (draft.inStage (.bound edge node (shifts + 1))).Sound origin := by
  have hall := allSegments_of_shifting hs
  have hpresent : present.Sound shifts :=
    h.segments (.bound edge present shifts) (by rw [hall]; simp)
  refine ⟨?_, ?_, h.owed, ?_⟩
  · exact List.forall_mem_append.mpr
      ⟨(List.forall_mem_append.mp h.plain).1, List.forall_mem_singleton.mpr ⟨rfl, rfl⟩⟩
  · exact List.forall_mem_append.mpr
      ⟨(List.forall_mem_append.mp h.segments).1, List.forall_mem_singleton.mpr (hn shifts hpresent)⟩
  · intro position hmem
    obtain ⟨first, before, found, inner, count, after, horigin, hsplit, hposition, htrace⟩ :=
      h.held position hmem
    rw [hall] at hsplit
    rcases List.eq_nil_or_concat after with rfl | ⟨after, last, rfl⟩
    · -- the value shifted is the one that this node itself took back
      obtain ⟨hbefore, hlast⟩ := List.append_inj' hsplit rfl
      cases hlast
      exact ⟨first, before, _, node, _, [], horigin, by rw [← hbefore]; rfl, hposition,
        fun depth hfirst => (hn depth (htrace depth hfirst)).of_succ⟩
    · rw [List.concat_eq_append, ← List.cons_append, ← List.append_assoc] at hsplit
      obtain ⟨hbefore, -⟩ := List.append_inj' hsplit rfl
      refine ⟨first, before, found, inner, count, after ++ [.bound edge node (shifts + 1)], horigin,
        ?_, hposition, htrace⟩
      rw [← List.cons_append, ← List.append_assoc, ← hbefore]
      rfl

/-- The innermost node is finished. -/
theorem AllSound.closes (h : AllSound (draft :: parent :: rest))
    (horderly : Mention.Orderly [] (Segment.mentions draft.allSegments))
    (ho : draft.owed = none) : AllSound (parent.receive draft.toNode :: rest) := by
  obtain ⟨⟨origin, hdraft, hreattaches⟩, hparent⟩ := h
  have hnode := hdraft.toNode horderly
  rw [Reattaches] at hreattaches
  rw [receive]
  cases hs : parent.stage with
  | resting =>
    refine hparent.replace (fun _ hsound => ?_) id
    exact hsound.add (by simp [allSegments, hs]) (by rintro _ ⟨⟩) hnode
  | bound edge present shifts => simp [hs] at hreattaches
  | waiting edge =>
    cases hr : edge.isReserved with
    | true =>
      simp only [hr, if_true]
      refine hparent.replace (fun _ hsound => ?_) id
      refine hsound.add (allSegments_of_waiting hs) ?_ hnode
      rintro _ ⟨⟩
      exact ⟨hr, rfl⟩
    | false =>
      simp only [hr, Bool.false_eq_true, if_false]
      exact hparent.replace (fun _ hsound => hsound.bound hs hnode) id
  | shifting edge present shifts =>
    simp only [hs, ho, Option.isSome_none, Bool.false_eq_true, false_or] at hreattaches
    refine hparent.replace (fun _ hsound => hsound.reattach hs fun depth hpresent => ?_) id
    exact hdraft.toNode_succ horderly hreattaches.2 hreattaches.1 hpresent

/-- A tag keeps all open nodes sound. -/
theorem AllSound.step (h : AllSound drafts)
    (horderly : ∀ draft ∈ drafts.head?, Mention.Orderly [] (Segment.mentions draft.allSegments))
    (hs : Step drafts tag after) : AllSound after := by
  cases hs with
  | content hi =>
    exact h.replace (fun _ hsound => hsound.settled.add (List.append_nil _) trivial trivial) id
  | reference hi hr => exact h.replace (fun _ hsound => hsound.congr (List.append_nil _) rfl rfl) id
  | arrayStart hs hm =>
    exact h.replace (fun _ hsound => hsound.add (allSegments_of_waiting hs) ⟨rfl, rfl⟩ trivial) id
  | null hs hb =>
    exact h.replace
      (fun _ hsound => hsound.add (allSegments_of_waiting hs) ⟨rfl, rfl⟩ Node.Sound.null) id
  | literal hs hb => exact h.replace (fun _ hsound => hsound.bound hs .literal) id
  | gap hs hb ho => exact h.replace (fun _ hsound => hsound.bound hs .gap) id
  | hold hs hb ho hrest => exact h.replace (fun _ hsound => hsound.hold hs ho) fun _ => .inr rfl
  | shift hs =>
    refine h.replace (fun _ hsound => hsound.congr ?_ rfl rfl) id
    rw [allSegments, allSegments, hs]
    rfl
  | opening hc ho => exact h.opens ho
  | closing hi ho => exact h.closes (horderly _ rfl) ho

/-- A value that is given to a node keeps it sound. -/
theorem Sound.give {origin : Option Node} {node : Node}
    (h : draft.Sound origin) (hn : node.Sound 0) : (draft.give edge node).Sound origin :=
  h.extend rfl rfl rfl ⟨rfl, rfl⟩ hn

/-- The values that fill a gap keep all open nodes sound. -/
theorem AllSound.fill {kept : Reference} {nodes : List Node} (h : AllSound (draft :: rest))
    (hs : draft.stage = .waiting edge) (hnodes : ∀ node ∈ nodes, node.Sound 0) :
    AllSound (draft.fill kept nodes :: rest) := by
  have hgive : ∀ (nodes : List Node) (draft : Draft), AllSound (draft :: rest) →
      (∀ node ∈ nodes, node.Sound 0) →
        AllSound (nodes.foldl (fun draft node => draft.give kept node) draft :: rest) := by
    intro nodes
    induction nodes with
    | nil => exact fun _ h _ => h
    | cons node nodes ih =>
      intro draft h hnodes
      refine ih (draft.give kept node) ?_ (List.forall_mem_cons.mp hnodes).2
      exact h.replace (fun _ hsound => hsound.give (hnodes node List.mem_cons_self)) id
  refine hgive nodes _ (h.replace (fun _ hsound => hsound.congr ?_ rfl rfl) id) hnodes
  rw [allSegments_of_waiting hs]
  exact List.append_nil _

end Draft

/-- The phase has sound nodes only. -/
def Phase.Sound : Phase → Prop
  | before _ => True
  | within _ drafts => Draft.AllSound drafts
  | after _ root => root.Sound 0

namespace Phase

variable {builder next : Builder} {phase after : Phase} {tag : Tag}

theorem Sound.advance (h : phase.Sound) (hb : builder.In phase) (ha : Advance phase tag after) :
    after.Sound := by
  cases ha with
  | effect => exact h
  | doctype => trivial
  | openRoot hc => exact ⟨⟨none, Draft.sound_fresh nofun, trivial⟩, trivial⟩
  | inside hs => exact Draft.AllSound.step h (fun _ => hb.holds.2.2.orderly) hs
  | closeRoot hi ho =>
    obtain ⟨⟨origin, hdraft, -⟩, -⟩ := h
    exact hdraft.toNode (hb.holds.2.2.orderly rfl)

theorem Sound.fills {expression : Option Tree} (h : phase.Sound) (hf : Fills phase expression after)
    (he : ∀ tree ∈ expression, tree.root.Sound 0) : after.Sound := by
  cases hf with
  | gap hs hb ho => exact Draft.AllSound.replace h (fun _ hsound => hsound.bound hs .gap) id
  | tree hs hb ho => exact Draft.AllSound.fill h hs (Tree.sound_fillers (he _ rfl))

/-- Whatever a builder is given, its nodes are sound. -/
theorem Sound.pushAll {tags : List Tag} {expressions : List (Option Tree)} (h : phase.Sound)
    (hb : builder.In phase)
    (he : ∀ expression ∈ expressions, ∀ tree ∈ expression, tree.root.Sound 0)
    (hp : builder.pushAll tags expressions = .ok next) : ∃ after, next.In after ∧ after.Sound := by
  induction tags generalizing builder phase expressions with
  | nil =>
    cases hp
    exact ⟨phase, hb, h⟩
  | cons tag tags ih =>
    rw [Builder.pushAll] at hp
    split at hp
    · cases hp
    · rename_i middle hpush
      obtain ⟨after, hadv, hin, -⟩ := Builder.advance_of_push hb hpush
      exact ih (h.advance hb hadv) hin he hp
    · rename_i middle hpush
      split at hp
      · cases hp
      · rename_i supplied hsupply
        obtain ⟨after, hfills, hin, -⟩ := Builder.fills_of_supply hb hpush hsupply
        refine ih (h.fills hfills fun tree hmem => ?_) hin
          (fun expression hmem => he expression (List.mem_of_mem_tail hmem)) hp
        cases expressions with
        | nil => cases hmem
        | cons expression expressions => exact he expression List.mem_cons_self tree hmem

end Phase

/-- The tree was built, from tags alone or from a template whose expressions were built too. -/
inductive Tree.Built : Tree → Prop where
  | ofTags {tags : List Tag} {tree : Tree} (h : Tree.ofTags tags = .ok tree) : Built tree
  | ofTemplate {tags : List Tag} {expressions : List (Option Tree)} {tree : Tree}
    (he : ∀ expression ∈ expressions, ∀ inner ∈ expression, Built inner)
    (h : Tree.ofTemplate tags expressions = .ok tree) : Built tree

/-- A tree that was built is sound. -/
theorem Tree.Built.sound {tree : Tree} (h : tree.Built) : tree.root.Sound 0 := by
  have hstart : (Phase.before none).Sound := trivial
  induction h with
  | ofTags h =>
    obtain ⟨builder, hpush, hfinish⟩ := bind_eq_ok.mp h
    obtain ⟨after, hin, hsound⟩ :=
      hstart.pushAll (Builder.in_before false) (List.forall_mem_nil _) hpush
    rw [hin.of_finish hfinish] at hsound
    exact hsound
  | ofTemplate he h ih =>
    obtain ⟨builder, hpush, hfinish⟩ := bind_eq_ok.mp h
    obtain ⟨after, hin, hsound⟩ := hstart.pushAll (Builder.in_before true) ih hpush
    rw [hin.of_finish hfinish] at hsound
    exact hsound

/-- A tree that is built from a template, with another one for its gap, is found by evaluation. -/
theorem Tree.exists_built (tags template : List Tag) (kind : Tree → Prop)
    (hok : ∃ inner, ofTags tags = .ok inner ∧
      ∃ tree, ofTemplate template [some inner] = .ok tree ∧ kind tree) :
    ∃ inner tree, ofTags tags = .ok inner ∧ ofTemplate template [some inner] = .ok tree ∧
      tree.Built ∧ kind tree := by
  obtain ⟨inner, hinner, tree, htree, hkind⟩ := hok
  refine ⟨inner, tree, hinner, htree, .ofTemplate ?_ htree, hkind⟩
  rintro expression hmem found rfl
  cases List.mem_singleton.mp hmem
  exact .ofTags hinner

end TagTree
