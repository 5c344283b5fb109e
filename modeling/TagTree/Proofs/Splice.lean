import TagTree.Proofs.Answer
import TagTree.Proofs.RoundTrip
import TagTree.Proofs.Sound

/-!
# Templates that are built again

Where a template has been filled, tags alone can lead too: those of the template with the tags of
every value in place of the gap, each after a reference of its own (`Builder.retraced_of_pushAll`).
The tree can therefore be flattened and built again (`Tree.ofTags_tags_of_template`), with two
exceptions. A value that a fragment has shifted twice is not the same afterwards, and `null` can be
shifted only where it was spliced (`Tree.losesFragment_of_shifts`).
-/

namespace TagTree

open Mention (Referable Bindable)

/-- The phase is one that tags alone lead to. -/
inductive Phase.Reached : Phase → Prop where
  | start : Reached (.before none)
  | advance {phase after : Phase} {tag : Tag} (h : Reached phase) (ha : Advance phase tag after) :
    Reached after

namespace Phase.Reached

variable {phase after : Phase} {tags : List Tag} {doctype : Option Doctype} {draft : Draft}
  {rest : List Draft} {edge : Reference}

theorem advances (h : Reached phase) (ha : Advances phase tags after) : Reached after := by
  induction ha with
  | nil => exact h
  | cons hfirst _ ih => exact ih (h.advance hfirst)

theorem exists_advances (h : Reached phase) : ∃ tags, Advances (.before none) tags phase := by
  induction h with
  | start => exact ⟨[], .nil⟩
  | advance _ ha ih =>
    obtain ⟨tags, htags⟩ := ih
    exact ⟨_, htags.append (.single ha)⟩

/-- A reference that waits came last. -/
theorem before_reference (h : Reached (.within doctype (draft :: rest)))
    (hs : draft.stage = .waiting edge) :
    ∃ earlier : Draft, earlier.Idle ∧ Reached (.within doctype (earlier :: rest)) ∧
      draft = earlier.settled.inStage (.waiting edge) ∧
      Referable (Segment.mentions earlier.allSegments) edge := by
  generalize hphase : Phase.within doctype (draft :: rest) = phase at h
  induction h with
  | start => cases hphase
  | @advance before after tag hbefore ha ih =>
    subst hphase
    cases ha with
    | effect => exact ih rfl
    | openRoot => cases hs
    | inside hstep =>
      cases hstep with
      | @reference earlier rest edge hi hr =>
        cases hs
        exact ⟨earlier, hi, hbefore, rfl, hr⟩
      | opening | content | arrayStart | null | literal | gap | hold | shift => cases hs
      | @closing inner parent rest hi ho =>
        have hstage := (parent.receive_stage inner.toNode).2.1
        rw [hs] at hstage
        cases hstage

end Phase.Reached

section Settled

variable {doctype : Option Doctype} {draft other : Draft} {rest after : List Draft} {tag : Tag}

theorem Draft.Idle.stage_ne_waiting (h : draft.Idle) (edge : Reference) :
    draft.stage ≠ .waiting edge := by
  rcases h with h | ⟨edge, node, shifts, h⟩ <;> rw [h] <;> nofun

/-- Where values have taken the place of a reference, no segment has been begun. -/
theorem Draft.idle_fill (draft : Draft) (edge : Reference) (nodes : List Node) :
    (draft.fill edge nodes).Idle := by
  obtain ⟨-, hwaiting, hshifting⟩ := draft.fill_stage edge nodes
  cases hs : (draft.fill edge nodes).stage with
  | resting => exact .inl hs
  | bound edge node shifts => exact .inr ⟨edge, node, shifts, hs⟩
  | waiting edge => simp [hs, Stage.isWaiting] at hwaiting
  | shifting edge node shifts => simp [hs, Stage.isShifting] at hshifting

/-- Where no segment has been begun, only a shift depends on whether the last value may be
detached. -/
theorem Step.of_settled (h : Step (draft :: rest) tag after) (hi : draft.Idle) (hi' : other.Idle)
    (heq : draft.settled = other.settled) (hshift : ∀ index, tag ≠ .shift index) :
    Step (other :: rest) tag after := by
  have hsegments : draft.allSegments = other.allSegments := congrArg (·.segments) heq
  cases h with
  | content =>
    rw [heq]
    exact .content hi'
  | reference _ hr =>
    rw [heq]
    rw [hsegments] at hr
    exact .reference hi' hr
  | arrayStart hs | null hs | literal hs | gap hs | hold hs =>
    exact absurd hs (hi.stage_ne_waiting _)
  | shift => exact absurd rfl (hshift _)
  | @opening _ parent _ start owed hc ho =>
    generalize he : start.flags.isEmbedded = embedded at ho
    cases ho with
    | beside =>
      rw [heq]
      exact .opening hc (he ▸ .beside hi')
    | reserved hs | value hs => exact absurd hs (hi.stage_ne_waiting _)
    | shifted hs => rcases hi with hi | ⟨_, _, _, hi⟩ <;> cases hi.symm.trans hs
  | closing _ ho =>
    have howed : other.owed = none := by
      have hsame : draft.owed = other.owed := congrArg (·.owed) heq
      exact hsame.symm.trans ho
    have hnode : draft.toNode = other.toNode := by rw [Draft.toNode, Draft.toNode, heq]
    rw [hnode]
    exact .closing hi' howed

theorem Advance.of_settled {last : Phase} (h : Advance (.within doctype (draft :: rest)) tag last)
    (hi : draft.Idle) (hi' : other.Idle) (heq : draft.settled = other.settled)
    (hshift : ∀ index, tag ≠ .shift index) (heffect : ∀ effect, tag ≠ .effect effect) :
    Advance (.within doctype (other :: rest)) tag last := by
  cases h with
  | effect => exact absurd rfl (heffect _)
  | inside hstep => exact .inside (hstep.of_settled hi hi' heq hshift)
  | closeRoot _ ho =>
    have hsame : draft.owed = other.owed := congrArg (·.owed) heq
    have hnode : draft.toNode = other.toNode := by rw [Draft.toNode, Draft.toNode, heq]
    rw [hnode]
    exact .closeRoot hi' (hsame.symm.trans ho)

end Settled

/-- The form is that of a value, which is the given node. -/
structure Form.Makes (form : Form) (node : Node) : Prop where
  valid : form.Valid
  bound : form.isEmbedded = false
  node : form.toNode none none = node

/-- Values of the same reference do not keep it from being given another one. -/
theorem Draft.bindable_foldl_give {edge : Reference} (nodes : List Node) {draft : Draft}
    (hb : Bindable (Segment.mentions draft.allSegments) edge) :
    Bindable (Segment.mentions
        (nodes.foldl (fun draft node => draft.give edge node) draft).allSegments) edge ∧
      (nodes.foldl (fun draft node => draft.give edge node) draft).owed = draft.owed := by
  induction nodes generalizing draft with
  | nil => exact ⟨hb, rfl⟩
  | cons node nodes ih =>
    have hfurther : Bindable (Segment.mentions (draft.give edge node).allSegments) edge := by
      simpa [Draft.give, Segment.bound, Segment.mention?] using hb.value
    exact ih hfurther

namespace Phase.Reached

variable {doctype : Option Doctype} {draft : Draft} {rest : List Draft} {edge : Reference}
  {form : Form} {node : Node}

section Give

variable (h : Reached (.within doctype (draft :: rest))) (hi : draft.Idle)
  (hr : Referable (Segment.mentions draft.allSegments) edge)
  (hb : Bindable (Segment.mentions draft.allSegments) edge)
  (howed : Draft.anyOwed (draft :: rest) = false)
include h hi hr hb howed

/-- The tags of a value lead to the phase in which it has been given, or, after `null`, to one in
which it cannot be detached. -/
theorem give (hf : form.Makes node) :
    ∃ after : Draft, Reached (.within doctype (after :: rest)) ∧ after.Idle ∧
      after.settled = (draft.give edge node).settled ∧
      (node ≠ .null → after = draft.give edge node) := by
  obtain ⟨hnone, hrest⟩ := Draft.anyOwed_cons_eq_false.mp howed
  have hwaiting : Reached (.within doctype (draft.settled.inStage (.waiting edge) :: rest)) :=
    h.advance (.inside (.reference hi hr))
  have hb' : Bindable (Segment.mentions (draft.settled.inStage (.waiting edge)).segments) edge := hb
  by_cases hnull : form = .null
  · subst hnull
    obtain rfl := hf.node
    refine ⟨_, hwaiting.advance (.inside (.null rfl hb')), .inl rfl, ?_, fun hne => absurd rfl hne⟩
    rw [Draft.settled_add]
    rfl
  · have hfirst : Advances (.within doctype (draft.settled.inStage (.waiting edge) :: rest))
        form.tags _ :=
      Form.advances_first rfl hb' hf.valid.runs hf.bound hnull (by simp [hrest])
        (by simp [Draft.inStage, Draft.settled, hnone])
    have hsame : (Form.holdAt form (draft.settled.inStage (.waiting edge))).inStage
        (.bound edge (form.toNode none
          (if form.isGap then (draft.settled.inStage (.waiting edge)).owed else none)) 0) =
        draft.give edge node := by
      have howed' : (draft.settled.inStage (.waiting edge)).owed = none := hnone
      rw [howed', ite_self, hf.node, Form.holdAt, howed']
      rfl
    rw [hsame] at hfirst
    exact ⟨_, hwaiting.advances hfirst, .inr ⟨_, _, _, rfl⟩, rfl, fun _ => rfl⟩

/-- The tags of values lead to the phase in which all of them have been given, each with a reference
of its own. -/
theorem giveAll (hmarked : edge.marked false = edge) {nodes : List Node}
    (hn : edge.isArray = false → nodes.length ≤ 1)
    (hf : ∀ node ∈ nodes, ∃ form : Form, form.Makes node) :
    ∃ after : Draft, Reached (.within doctype (after :: rest)) ∧ after.Idle ∧
      after.settled = (nodes.foldl (fun draft node => draft.give edge node) draft.settled).settled ∧
      ∀ last, nodes.getLast? = some last → last ≠ .null →
        after = nodes.foldl (fun draft node => draft.give edge node) draft.settled := by
  induction nodes using List.reverseRecOn with
  | nil => exact ⟨draft, h, hi, by simp, nofun⟩
  | append_singleton nodes node ih =>
    have hall : draft.settled.allSegments = draft.allSegments := Draft.allSegments_settled
    have hfewer : edge.isArray = false → nodes.length ≤ 1 := by
      intro hscalar
      have hlength := hn hscalar
      rw [List.length_append] at hlength
      omega
    obtain ⟨middle, hmiddle, hidle, hsettled, -⟩ :=
      ih hfewer fun node hmem => hf node (List.mem_append_left _ hmem)
    obtain ⟨hbind, hsame⟩ := Draft.bindable_foldl_give nodes (hall ▸ hb)
    have hsegments : middle.allSegments =
        (nodes.foldl (fun draft node => draft.give edge node) draft.settled).allSegments :=
      congrArg (·.segments) hsettled
    -- A second value comes to an array only, whose name may be referred to again.
    have hrefer : Referable (Segment.mentions middle.allSegments) edge := by
      cases nodes with
      | nil =>
        rw [hsegments]
        exact hall ▸ hr
      | cons first nodes =>
        have harray : edge.isArray = true := by
          rw [← Bool.not_eq_false]
          intro hscalar
          have hlength := hn hscalar
          simp at hlength
        have hindex : edge.index = none := by rw [← hmarked]; rfl
        exact .inr (by simp [harray, hindex])
    obtain ⟨form, hform⟩ := hf node (List.mem_append_right _ (List.mem_singleton_self _))
    have howed' : Draft.anyOwed (middle :: rest) = false := by
      obtain ⟨hnone, hrest⟩ := Draft.anyOwed_cons_eq_false.mp howed
      have hmiddleOwed : middle.owed = _ := congrArg (·.owed) hsettled
      exact Draft.anyOwed_cons_eq_false.mpr ⟨hmiddleOwed.trans (hsame.trans hnone), hrest⟩
    obtain ⟨after, hafter, hidle', hlast, hexact⟩ :=
      hmiddle.give hidle hrefer (hsegments ▸ hbind) howed' hform
    have hgive : middle.give edge node =
        (nodes.foldl (fun draft node => draft.give edge node) draft.settled).give edge node := by
      rw [Draft.give, hsettled, Draft.give]
    rw [hgive] at hlast hexact
    rw [List.foldl_append]
    refine ⟨after, hafter, hidle', hlast, ?_⟩
    intro last hmem hne
    rw [List.getLast?_append, List.getLast?_singleton] at hmem
    obtain rfl : node = last := Option.some.inj hmem
    exact hexact hne

end Give

/-- Where a reference waits, tags lead to the phase in which values have taken its place. If there
is none, or the last is `null`, they do so up to whether the last value may be detached. -/
theorem fill (h : Reached (.within doctype (draft :: rest))) (hs : draft.stage = .waiting edge)
    (hb : Bindable (Segment.mentions draft.segments) edge)
    (howed : Draft.anyOwed (draft :: rest) = false) {nodes : List Node}
    (hn : edge.isArray = false → nodes.length = 1)
    (hf : ∀ node ∈ nodes, ∃ form : Form, form.Makes node) :
    ∃ after : Draft, Reached (.within doctype (after :: rest)) ∧ after.Idle ∧
      after.settled = (draft.fill edge.asExpression nodes).settled ∧
      ∀ last, nodes.getLast? = some last → last ≠ .null →
        after = draft.fill edge.asExpression nodes := by
  obtain ⟨earlier, hidle, hearlier, rfl, hr⟩ := h.before_reference hs
  have hr' : Referable (Segment.mentions earlier.allSegments) edge.asExpression := hr.marked false
  exact hearlier.giveAll hidle hr' hb howed rfl (fun hscalar => Nat.le_of_eq (hn hscalar)) hf

end Phase.Reached

namespace Form

theorem segments_none (phrases : List (Phrase Form)) :
    segments none phrases = phrases.map (segment none) := by
  induction phrases with
  | nil => rw [segments, List.map_nil]
  | cons phrase phrases ih =>
    have hnone : owedAfter none phrase = none := by simp [owedAfter]
    rw [segments, hnone, ih, List.map_cons]

/-- A node that took a value back makes, without the record of it, what the node with the value in
place of the gap makes. -/
theorem exists_makes_of_takesBack {form first : Form} (hform : form.Valid)
    (hbound : form.isEmbedded = false) (htakes : form.TakesBack) (hfirst : first.Valid)
    (hembedded : first.isEmbedded = false) (hnull : first ≠ null) :
    ∃ filled : Form,
      filled.Makes (form.toNode none (some (first.toNode none none))).withoutHold := by
  cases form with
  | gap | null | literal => exact htakes.elim
  | node start phrases =>
    obtain ⟨before, edge, later, after, rfl, hgap⟩ := htakes
    obtain ⟨hstart, horder, hfits, hvalid⟩ := hform.of_node
    have hown := hasOwnGap_eq_false hgap
    -- the phrase with the gap is the only one that changes
    have hphrase : ∀ phrase ∈ before ++ .value edge first later :: after,
        phrase = .value edge first later ∨ phrase ∈ before ++ .value edge gap later :: after := by
      intro phrase hmem
      simp only [List.mem_append, List.mem_cons] at hmem ⊢
      rcases hmem with hmem | rfl | hmem
      · exact .inr (.inl hmem)
      · exact .inl rfl
      · exact .inr (.inr (.inr hmem))
    have hgapPhrase : .value edge gap later ∈ before ++ .value edge gap later :: after := by simp
    refine ⟨node start (before ++ .value edge first later :: after), ?_, hbound, ?_⟩
    · refine .node hstart ?_ ?_ ?_
      · simpa [Phrase.mention?] using horder
      · intro phrase hmem
        rcases hphrase phrase hmem with rfl | hmem
        · obtain ⟨-, -, hlater⟩ := hfits _ hgapPhrase
          exact ⟨hembedded, fun heq => absurd heq hnull, hlater⟩
        · exact hfits phrase hmem
      · intro phrase hmem inner hinner
        rcases hphrase phrase hmem with rfl | hmem
        · rcases List.mem_cons.mp hinner with rfl | hinner
          · exact hfirst
          · exact hvalid _ hgapPhrase inner (List.mem_cons_of_mem _ hinner)
        · exact hvalid phrase hmem inner hinner
    · have hsegments : segments none (before ++ .value edge first later :: after) =
          segments (some (first.toNode none none)) (before ++ .value edge gap later :: after) := by
        rw [segments_append hown, segments_append hown, segments, segments]
        have hnone : owedAfter none (.value edge first later) = none := by simp [owedAfter]
        have htaken : owedAfter (some (first.toNode none none)) (.value edge gap later) =
            none := rfl
        rw [hnone, htaken, segment, segment, ite_self]
        rfl
      rw [toNode_node, toNode_node, outline, hsegments]
      rfl

/-- The values of a node that shifts each at most once can be built alone. -/
theorem exists_makes_of_mem_values {start : OpenTag} {phrases : List (Phrase Form)}
    {inherited : Option String} {value : Node} (hvalid : (node start phrases).Valid)
    (hshifts : ∀ index, .shift index ∈ ((node start phrases).toNode inherited none).items →
      index ≤ 1) (hmem : value ∈ ((node start phrases).toNode inherited none).directory.values) :
    ∃ form : Form, form.Makes value.withoutHold := by
  obtain ⟨-, -, hfits, hinner⟩ := hvalid.of_node
  rw [toNode_node] at hmem hshifts
  obtain ⟨entry, hentry, hvalue⟩ := List.mem_flatMap.mp
    (Directory.mem_boundNodes_of_mem_values hmem)
  obtain ⟨binding, hbinding, rfl⟩ := List.mem_map.mp hvalue
  obtain ⟨shifts, hsegment⟩ := Segment.yield_properties _ _ hentry binding hbinding
  have hitems : ∀ item ∈ (Segment.value binding.reference binding.node shifts).items,
      item ∈ (outline inherited none start phrases).toNode.items := by
    intro item hitem
    show item ∈ (Segment.allItems (outline inherited none start phrases).segments).toArray
    rw [List.mem_toArray]
    exact List.mem_flatMap.mpr ⟨_, hsegment, hitem⟩
  have hsegment : _ ∈ segments none phrases := hsegment
  rw [segments_none] at hsegment
  obtain ⟨phrase, hphrase, hsame⟩ := List.mem_map.mp hsegment
  cases phrase with
  | content | embedded | arrayStart => cases hsame
  | value edge first later =>
    rw [segment, ite_self] at hsame
    obtain ⟨-, hnode, rfl⟩ := Segment.value.inj hsame
    obtain ⟨hembedded, hnull, hlater⟩ := hfits _ hphrase
    have hfirst := hinner _ hphrase first List.mem_cons_self
    rw [← hnode]
    cases later with
    | nil =>
      refine ⟨first, hfirst, hembedded, ?_⟩
      rw [shifted, withoutHold_toNode_none]
    | cons form later =>
      cases later with
      | nil =>
        obtain ⟨hbound, htakes⟩ := hlater form (List.mem_singleton_self _)
        have hform := hinner _ hphrase form (List.mem_cons_of_mem _ (List.mem_singleton_self _))
        rw [shifted, shifted]
        refine exists_makes_of_takesBack hform hbound htakes hfirst hembedded fun heq => ?_
        cases hnull heq
      | cons second later =>
        have htwice := hshifts 2 (hitems _ (by simp [Segment.items, Segment.shiftItems_succ]))
        omega

end Form

/-- The tree can be given for a gap such that the whole can be built again: it was built from tags
without a header, its root is bound and not embedded, and a fragment shifts each value at most
once. -/
structure Tree.Spliceable (tree : Tree) : Prop where
  built : ∃ tags, ofTags tags = .ok tree
  doctype : tree.doctype = none
  bound : tree.root.flags.isEmbedded = false
  shifts : tree.root.type = .fragment → ∀ index, .shift index ∈ tree.root.items → index ≤ 1

/-- Whatever such a tree gives for a gap can be built from tags. -/
theorem Tree.Spliceable.exists_makes {tree : Tree} (h : tree.Spliceable) {node : Node}
    (hmem : node ∈ tree.fillers) : ∃ form : Form, form.Makes node := by
  obtain ⟨tags, htags⟩ := h.built
  obtain ⟨form, hnode, hvalid, -, hroot⟩ := exists_form htags
  rw [h.doctype] at hroot
  have hroot : tree.root = form.toNode none none := hroot
  rw [fillers] at hmem
  split at hmem
  · rename_i htype
    obtain ⟨value, hvalue, rfl⟩ := List.mem_map.mp hmem
    cases form with
    | gap | null | literal => cases hnode
    | node start phrases =>
      rw [hroot] at hvalue
      exact Form.exists_makes_of_mem_values hvalid (hroot ▸ h.shifts htype) hvalue
  · obtain rfl := List.mem_singleton.mp hmem
    refine ⟨form, hvalid, ?_, ?_⟩
    · have hbound := h.bound
      cases form with
      | gap | null | literal => rfl
      | node start phrases =>
        rw [hroot, Form.toNode_node] at hbound
        exact hbound
    · rw [hroot, Form.withoutHold_toNode_none]

namespace Tag

/-- The next tag, effects apart, is a shift. -/
def startsWithShift : List (Tag × Option Tree) → Bool
  | (.effect _, _) :: rest => startsWithShift rest
  | (.shift _, _) :: _ => true
  | _ => false

/-- A shift comes right after a gap that was given values of which the last is `null`. -/
def shiftsNull : List (Tag × Option Tree) → Bool
  | [] => false
  | (_, some tree) :: rest =>
    (tree.fillers.getLast?.any fun last => last.type == .null) && startsWithShift rest ||
      shiftsNull rest
  | (_, none) :: rest => shiftsNull rest

end Tag

namespace Phase

/-- Tags alone lead to the phase, or to one that differs only in whether the last value may be
detached; then the tags that follow do not detach it. -/
inductive Retraced (tags : List (Tag × Option Tree)) : Phase → Prop where
  | exact {phase : Phase} (h : Reached phase) : Retraced tags phase
  | settled {doctype : Option Doctype} {draft other : Draft} {rest : List Draft}
    (h : Reached (.within doctype (other :: rest))) (hi : draft.Idle) (hi' : other.Idle)
    (heq : draft.settled = other.settled)
    (hnext : draft.stage = .resting ∨ Tag.startsWithShift tags = false) :
    Retraced tags (.within doctype (draft :: rest))

variable {phase after : Phase} {tag : Tag} {answer : Option Tree} {tags : List (Tag × Option Tree)}

/-- What a tag does can be retraced. -/
theorem Retraced.advance (h : Retraced ((tag, answer) :: tags) phase)
    (ha : Advance phase tag after) :
    Retraced tags after := by
  cases h with
  | exact h => exact .exact (h.advance ha)
  | @settled doctype draft other rest h hi hi' heq hnext =>
    cases tag with
    | effect effect =>
      cases ha with
      | effect => exact .settled h hi hi' heq hnext
      | inside hstep => cases hstep
    | shift index =>
      -- the last value would have to be one that may be detached
      rcases hnext with hresting | hnext
      · cases ha with
        | inside hstep =>
          cases hstep with
          | shift hs =>
            rw [hresting] at hs
            cases hs
      · cases hnext
    | _ => exact .exact (h.advance (ha.of_settled hi hi' heq (by simp) (by simp)))

/-- What an answer does can be retraced. -/
theorem Retraced.fills (h : Retraced ((.gap, answer) :: tags) phase)
    (hf : Fills phase answer after) (hasks : phase.watch.asks .gap = true)
    (hanswer : ∀ tree ∈ answer, tree.Spliceable)
    (hnull : Tag.shiftsNull ((.gap, answer) :: tags) = false) : Retraced tags after := by
  obtain ⟨-, doctype, draft, rest, edge, rfl, hstage, howed⟩ := asks_iff.mp hasks
  cases h with
  | settled _ hi => exact absurd hstage (hi.stage_ne_waiting edge)
  | exact h =>
    cases hf with
    | gap hs hb => exact .exact (h.advance (.inside (.gap hs hb howed)))
    | @tree _ _ _ edge tree hs hb ho hn =>
      obtain ⟨other, hreached, hidle, hsettled, hexact⟩ := h.fill hs hb howed hn
        fun node hmem => (hanswer tree rfl).exists_makes hmem
      cases hlast : tree.fillers.getLast? with
      | none =>
        have hnil : tree.fillers = [] := List.getLast?_eq_none_iff.mp hlast
        rw [hnil] at hsettled ⊢
        exact .settled hreached (.inl rfl) hidle hsettled.symm (.inl rfl)
      | some last =>
        by_cases hvalue : last = .null
        · have hquiet : Tag.startsWithShift tags = false := by
            subst hvalue
            simpa [Tag.shiftsNull, hlast, Node.type] using (Bool.or_eq_false_iff.mp hnull).1
          exact .settled hreached (draft.idle_fill _ _) hidle hsettled.symm (.inr hquiet)
        · rw [hexact last hlast hvalue] at hreached
          exact .exact hreached

end Phase

/-- What a builder does with a template can be retraced by tags alone. -/
theorem Builder.retraced_of_pushAll {builder last : Builder} {phase : Phase} {tags : List Tag}
    {answers : List (Option Tree)} (hb : builder.In phase) (he : builder.expressions = true)
    (hanswers : ∀ tree, some tree ∈ answers → tree.Spliceable)
    (hnull : Tag.shiftsNull (phase.watch.answered tags answers) = false)
    (h : phase.Retraced (phase.watch.answered tags answers))
    (hp : builder.pushAll tags answers = .ok last) :
    ∃ after : Phase, last.In after ∧ after.Retraced [] := by
  induction tags generalizing builder phase answers with
  | nil =>
    cases hp
    exact ⟨phase, hb, h⟩
  | cons tag tags ih =>
    rw [pushAll] at hp
    split at hp
    · cases hp
    · rename_i next hpush
      have hasks := not_asks_of_push hb he hpush
      obtain ⟨after, hadvance, hin, hexpressions⟩ := advance_of_push hb hpush
      rw [Watch.answered_of_not_asks hasks, ← Phase.watch_of_advance hadvance] at hnull h
      exact ih hin (hexpressions.trans he) hanswers hnull (h.advance hadvance) hp
    · rename_i next hpush
      split at hp
      · cases hp
      · rename_i filled hsupply
        have hasks := asks_of_push hb hpush
        obtain ⟨rfl, -⟩ := Phase.asks_iff.mp hasks
        obtain ⟨after, hfills, hin, hexpressions⟩ := fills_of_supply hb hpush hsupply
        rw [Watch.answered_of_asks hasks, ← Phase.watch_of_fills hfills] at hnull h
        have hanswer : ∀ tree ∈ answers.head?.join, tree.Spliceable := fun tree hmem =>
          hanswers tree (List.mem_of_head? (Option.join_eq_some_iff.mp hmem))
        have hrest : Tag.shiftsNull (after.watch.answered tags answers.tail) = false := by
          cases hhead : answers.head?.join with
          | none =>
            rw [hhead] at hnull
            exact hnull
          | some tree =>
            rw [hhead] at hnull
            exact (Bool.or_eq_false_iff.mp hnull).2
        exact ih hin (hexpressions.trans he)
          (fun tree hmem => hanswers tree (List.mem_of_mem_tail hmem)) hrest
          (h.fills hfills hasks hanswer hnull) hp

namespace Tree

/-- A template that has been filled can be flattened, and from the tags the same tree is built
again. This holds if every tree given for a gap was built from tags without a header, is not
embedded and, if a fragment, shifts each value at most once, if no `null` that was given for a gap
is shifted, and if the result uses no name for an array and for a single property of the same node
and shifts no value right after it was taken back. -/
theorem ofTags_tags_of_template {tags : List Tag} {answers : List (Option Tree)} {tree : Tree}
    (h : ofTemplate tags answers = .ok tree)
    (hanswers : ∀ answer, some answer ∈ answers → answer.Spliceable)
    (hnull : Tag.shiftsNull (({} : Watch).answered tags answers) = false)
    (hunmixed : tree.root.all Node.isUnmixed = true)
    (hkeeps : tree.root.all Node.keepsHeld = true) :
    ∃ out again, tree.tags = .ok out ∧ ofTags out = .ok again ∧ again.doctype = tree.doctype ∧
      again.root = tree.root := by
  obtain ⟨builder, hpush, hfinish⟩ := bind_eq_ok.mp h
  obtain ⟨after, hin, hretraced⟩ :=
    Builder.retraced_of_pushAll (Builder.in_before true) rfl hanswers hnull (.exact .start) hpush
  rw [hin.of_finish hfinish] at hretraced
  cases hretraced with
  | exact hreached =>
    obtain ⟨plain, hadvances⟩ := hreached.exists_advances
    obtain ⟨created, hbuilt⟩ := ofTags_eq_ok_iff.mpr hadvances
    obtain ⟨out, hout, hflat⟩ := exists_tags hbuilt ⟨hunmixed, hkeeps⟩
    exact ⟨out, _, hout, ofTags_of_flattened hbuilt hflat, rfl, rfl⟩

/-- A fragment with one value, which nodes of the given types have taken back one after the other.
-/
def shiftedFragment (types : List String) : List Tag :=
  let start (type : Option String) : Tag := .opening ⟨{}, none, type, []⟩
  let left : Tag := .reference ⟨"left", false, none, {}⟩
  let shifts := types.zipIdx.flatMap fun (type, index) =>
    [.shift (index + 1), start (some type), left, .gap, .closing]
  [start none, left, start (some "Digit"), .closing] ++ shifts ++ [.closing]

/-- A node with an array and a single property, each with a gap. The second gap is shifted. -/
def gapsTemplate : List Tag :=
  let start : Tag := .opening ⟨{}, none, some "Sum", []⟩
  let left : Tag := .reference ⟨"left", false, none, {}⟩
  let part : Tag := .reference ⟨"parts", true, none, {}⟩
  [start, part, .arrayStart, part, .gap, left, .gap, .shift 1, start, left, .gap,
    .closing, .closing]

/-- The item is no second shift of a value. -/
def shiftsOnce : Item Node → Bool
  | .shift index => index ≤ 1
  | _ => true

theorem ofTags_tags_of_spliced :
    ∃ fragment tree out again, ofTags (shiftedFragment ["Sum"]) = .ok fragment ∧
      fragment.Spliceable ∧ fragment.root.type = .fragment ∧
      ofTemplate gapsTemplate [some fragment, some fragment] = .ok tree ∧
      tree.tags = .ok out ∧ ofTags out = .ok again ∧ again.root = tree.root := by
  obtain ⟨fragment, hfragment, hdoctype, hbound, htype, hitems, hnull, tree, htree, hunmixed,
      hkeeps⟩ : ∃ fragment, ofTags (shiftedFragment ["Sum"]) = .ok fragment ∧
        fragment.doctype = none ∧ fragment.root.flags.isEmbedded = false ∧
        fragment.root.type = .fragment ∧ fragment.root.items.all shiftsOnce = true ∧
        Tag.shiftsNull (({} : Watch).answered gapsTemplate [some fragment, some fragment]) = false ∧
        ∃ tree, ofTemplate gapsTemplate [some fragment, some fragment] = .ok tree ∧
          tree.root.all Node.isUnmixed = true ∧ tree.root.all Node.keepsHeld = true := by
    decide +kernel
  rw [Array.all_eq_true_iff_forall_mem] at hitems
  have hspliceable : fragment.Spliceable :=
    ⟨⟨_, hfragment⟩, hdoctype, hbound, fun _ index hmem => of_decide_eq_true (hitems _ hmem)⟩
  have hanswers : ∀ answer, some answer ∈ [some fragment, some fragment] → answer.Spliceable := by
    simpa using hspliceable
  obtain ⟨out, again, hout, hagain, -, hroot⟩ :=
    ofTags_tags_of_template htree hanswers hnull hunmixed hkeeps
  exact ⟨fragment, tree, out, again, hfragment, hspliceable, htype, htree, hout, hagain, hroot⟩

/-- The tree can be flattened, and a tree that agrees with it is built from the tags. -/
def isRebuilt (tree : Tree) : Bool :=
  tree.tags.toOption.any fun out => (ofTags out).toOption.any fun again => again.same tree

/-- The template is filled with a fragment that is not embedded. Neither the fragment nor the result
uses a name for an array and for a single property of the same node, or shifts a value that was just
taken back. Still the result is not built again from its tags. -/
def LosesFragment (template fragment : List Tag) : Prop :=
  ∃ answer tree, ofTags fragment = .ok answer ∧ answer.doctype = none ∧
    answer.root.flags.isEmbedded = false ∧ answer.root.all Node.isUnmixed = true ∧
    answer.root.all Node.keepsHeld = true ∧ ofTemplate template [some answer] = .ok tree ∧
    tree.root.all Node.isUnmixed = true ∧ tree.root.all Node.keepsHeld = true ∧
    tree.isRebuilt = false

/-- A value that was shifted twice is not built again where it was spliced, since the node beneath
it records what it took back. Nor is a spliced `null` that was shifted. -/
theorem losesFragment_of_shifts :
    LosesFragment
        [.opening ⟨{}, none, some "Sum", []⟩, .reference ⟨"left", false, none, {}⟩, .gap, .closing]
        (shiftedFragment ["Sum", "Sum"]) ∧
      LosesFragment
        [.opening ⟨{}, none, some "Sum", []⟩, .reference ⟨"left", false, none, {}⟩, .gap, .shift 1,
          .opening ⟨{}, none, some "Sum", []⟩, .reference ⟨"left", false, none, {}⟩, .gap, .closing,
          .closing]
        [.opening ⟨{}, none, none, []⟩, .reference ⟨"left", false, none, {}⟩, .null, .closing] := by
  unfold LosesFragment
  simp only [exists_and_left]
  constructor <;> decide +kernel

end Tree

end TagTree
