import TagTree.Proofs.Form
import TagTree.Proofs.Run

/-!
# The run of a form

The tags of a valid form lead a builder from any state in which the node may open to the state in
which the finished node has been received (`Form.Valid.advances`). The finished node is the one that
the form stands for, `Form.toNode`.
-/

namespace TagTree

open Draft (anyOwed anyOwed_cons)

variable {phrase : Phrase Form} {later : List Form} {first form : Form}

/-- The draft after a phrase. -/
def Draft.extend (draft : Draft) (phrase : Phrase Form) : Draft :=
  { draft with
    segments := draft.allSegments ++ [Form.segment draft.owed phrase]
    held :=
      if draft.owed.isSome && Form.hasOwnGap phrase then
        some ((Segment.allItems draft.allSegments).length + 1)
      else draft.held
    owed := Form.owedAfter draft.owed phrase
    stage := .resting }

namespace Draft

variable {draft : Draft}

@[simp] theorem settled_add (segment : Segment Node) :
    (draft.add segment).settled = draft.add segment := by
  simp [settled, add, allSegments]

/-- A phrase without a gap of the node itself adds a segment. -/
theorem extend_eq_add (h : Form.hasOwnGap phrase = false) :
    draft.extend phrase = draft.settled.add (Form.segment draft.owed phrase) := by
  simp [extend, h, Form.owedAfter, settled, add]

@[simp] theorem allSegments_extend (phrase : Phrase Form) :
    (draft.extend phrase).allSegments = draft.allSegments ++ [Form.segment draft.owed phrase] :=
  List.append_nil _

@[simp] theorem settled_settled : draft.settled.settled = draft.settled := by
  simp [settled, allSegments]

/-- The draft after some phrases. -/
def extendAll (draft : Draft) (phrases : List (Phrase Form)) : Draft :=
  phrases.foldl extend draft.settled

theorem extendAll_cons (phrase : Phrase Form) (rest : List (Phrase Form)) :
    draft.extendAll (phrase :: rest) = (draft.extend phrase).extendAll rest := by
  have hextend : draft.settled.extend phrase = (draft.extend phrase).settled := by
    simp [extend, settled, allSegments]
  rw [extendAll, List.foldl_cons, hextend, extendAll]

end Draft

namespace Form

variable {doctype : Option Doctype} {draft : Draft} {rest : List Draft}
  {phrases : List (Phrase Form)} {edge : Reference} {start : OpenTag}

/-- The tags of a node run wherever the node may open. -/
def Runs (doctype : Option Doctype) (form : Form) : Prop :=
  ∀ (draft parent : Draft) (rest : List Draft) (owed : Option Node),
    draft.Opens form.isEmbedded parent owed → (owed.isSome = true → form.TakesBack) →
    (anyOwed (parent :: rest) = true → Tag.gap ∉ form.tags) →
      Advances (.within doctype (draft :: rest)) form.tags
        (.within doctype (parent.receive (form.toNode none owed) :: rest))

/-- The nodes after a value run, each after a shift. -/
theorem advances_shiftTags (hruns : ∀ form ∈ later, Runs doctype form)
    (hlater : ∀ form ∈ later, form.isEmbedded = false ∧ form.TakesBack) (value : Node)
    (shifts : Nat)
    (hgap : anyOwed (draft :: rest) = true → Tag.gap ∉ shiftTags (shifts + 1) later) :
    Advances (.within doctype (draft.inStage (.bound edge value shifts) :: rest))
      (shiftTags (shifts + 1) later) (.within doctype (draft.inStage
        (.bound edge (shifted value later) (shifts + later.length)) :: rest)) := by
  induction later generalizing value shifts with
  | nil => exact .nil
  | cons form later ih =>
    obtain ⟨hembedded, htakes⟩ := hlater form List.mem_cons_self
    have hfree : anyOwed (draft :: rest) = true →
        Tag.gap ∉ form.tags ∧ Tag.gap ∉ shiftTags (shifts + 1 + 1) later := by
      intro howed
      simpa [shiftTags] using hgap howed
    have hopens : (draft.inStage (.shifting edge value shifts)).Opens form.isEmbedded
        (draft.inStage (.shifting edge value shifts)) (some value) := by
      rw [hembedded]
      exact .shifted rfl
    have hrun := hruns form List.mem_cons_self _ _ rest _ hopens (fun _ => htakes)
      fun howed => (hfree howed).1
    have hrest := ih (List.forall_mem_cons.mp hruns).2 (List.forall_mem_cons.mp hlater).2
      (toNode none (some value) form) (shifts + 1) fun howed => (hfree howed).2
    have hcount : shifts + 1 + later.length = shifts + (form :: later).length := by
      rw [List.length_cons]
      omega
    rw [hcount] at hrest
    exact .cons (.inside (.shift rfl)) (hrun.append hrest)

/-- The draft that takes back what it is owed at a gap, and stays as it is at another value. -/
def holdAt (first : Form) (draft : Draft) : Draft :=
  if draft.owed.isSome && first.isGap then draft.hold else draft

theorem owed_holdAt (first : Form) (draft : Draft) :
    (holdAt first draft).owed = if first.isGap then none else draft.owed := by
  unfold holdAt
  cases ho : draft.owed <;> cases first.isGap <;> simp [ho, Draft.hold]

/-- The draft whose last value is finished is the one with the phrase added. -/
theorem settled_holdAt (edge : Reference) (first : Form) (later : List Form) (draft : Draft) :
    ((holdAt first (draft.settled.inStage (.waiting edge))).inStage (.bound edge
      (shifted (first.toNode none (if first.isGap then draft.owed else none)) later)
        later.length)).settled = draft.extend (.value edge first later) := by
  unfold holdAt
  have howed : (draft.settled.inStage (.waiting edge)).owed = draft.owed := rfl
  rw [howed]
  cases ho : draft.owed <;> cases hg : first.isGap <;>
    simp [Draft.extend, Draft.settled, Draft.inStage, Draft.hold, Draft.items, hasOwnGap, hg, ho,
      owedAfter, segment, Draft.allSegments, Nat.add_assoc]

/-- The tags of the first value of a reference run where the reference waits. -/
theorem advances_first (hs : draft.stage = .waiting edge)
    (hb : Mention.Bindable (Segment.mentions draft.segments) edge)
    (hruns : first.isNode = true → Runs doctype first) (hembedded : first.isEmbedded = false)
    (hnull : first ≠ null) (hrest : anyOwed rest = true → Tag.gap ∉ first.tags)
    (howed : draft.owed.isSome = true → first.isGap = true ∨ Tag.gap ∉ first.tags) :
    Advances (.within doctype (draft :: rest)) first.tags
      (.within doctype ((holdAt first draft).inStage (.bound edge
        (first.toNode none (if first.isGap then draft.owed else none)) 0) :: rest)) := by
  unfold holdAt
  cases first with
  | gap =>
    have hfree : anyOwed rest = false := by
      rw [← Bool.not_eq_true]
      exact fun hany => hrest hany (List.mem_singleton_self _)
    cases ho : draft.owed with
    | none => exact .single (.inside (.gap hs hb (Draft.anyOwed_cons_eq_false.mpr ⟨ho, hfree⟩)))
    | some value => exact .single (.inside (.hold hs hb ho hfree))
  | null => exact absurd rfl hnull
  | literal text =>
    simp only [isGap, Bool.and_false, Bool.false_eq_true, if_false]
    exact .single (.inside (.literal hs hb))
  | node start phrases =>
    simp only [isGap, Bool.and_false, Bool.false_eq_true, if_false]
    have hrun := hruns rfl draft draft rest none (hembedded ▸ .value hs hb) (by rintro ⟨⟩) ?_
    · simpa [Draft.receive, hs, hb.1] using hrun
    · intro hany
      rcases anyOwed_cons.mp hany with hsome | hany
      · exact (howed hsome).resolve_left Bool.false_ne_true
      · exact hrest hany

/-- An embedded node runs, with the reserved reference before it. -/
theorem advances_embedded {edge : Option Reference} (hi : draft.Idle) (hrun : Runs doctype form)
    (hedge : ∀ reserved ∈ edge, reserved.isReserved = true) (hembedded : form.isEmbedded = true)
    (hgap : anyOwed (draft :: rest) = true → Tag.gap ∉ form.tags) :
    Advances (.within doctype (draft :: rest)) (phraseTags (.embedded edge form))
      (.within doctype (draft.settled.add (segment draft.owed (.embedded edge form)) :: rest)) := by
  cases edge with
  | none =>
    have hopens : draft.Opens form.isEmbedded draft.settled none := by
      rw [hembedded]
      exact .beside hi
    exact hrun draft draft.settled rest none hopens nofun hgap
  | some edge =>
    have hres := hedge edge rfl
    have hopens : (draft.settled.inStage (.waiting edge)).Opens form.isEmbedded
        (draft.settled.inStage (.waiting edge)) none := by
      rw [hembedded]
      exact .reserved rfl hres
    have hinner := hrun _ _ rest none hopens nofun hgap
    rw [Draft.receive] at hinner
    simp only [Draft.inStage, hres, if_true] at hinner
    exact .cons (.inside (.reference hi (.inl hres))) hinner

/-- A reference runs with its first value and those that took it back. -/
theorem advances_value (hi : draft.Idle)
    (hruns : ∀ form ∈ first :: later, form.isNode = true → Runs doctype form)
    (hr : Mention.Referable (Segment.mentions draft.allSegments) edge)
    (hb : Mention.Bindable (Segment.mentions draft.allSegments) edge)
    (hfits : Fits (.value edge first later)) (hnull : first ≠ null)
    (hrest : anyOwed rest = true → Tag.gap ∉ phraseTags (.value edge first later))
    (howed : draft.owed.isSome = true →
      first.isGap = true ∨ Tag.gap ∉ phraseTags (.value edge first later)) :
    ∃ after : Draft, after.Idle ∧ after.settled = draft.extend (.value edge first later) ∧
      Advances (.within doctype (draft :: rest)) (phraseTags (.value edge first later))
        (.within doctype (after :: rest)) := by
  obtain ⟨hembedded, -, hlater⟩ := hfits
  have hparts : Tag.gap ∉ phraseTags (.value edge first later) →
      Tag.gap ∉ first.tags ∧ Tag.gap ∉ shiftTags 1 later := by
    simp [phraseTags]
  have hfirst : Advances (.within doctype (draft.settled.inStage (.waiting edge) :: rest))
      first.tags _ :=
    advances_first rfl hb (hruns first List.mem_cons_self) hembedded hnull
      (fun hany => (hparts (hrest hany)).1)
      (fun hsome => (howed hsome).imp_right fun hfree => (hparts hfree).1)
  have hlast : Advances (.within doctype
      ((holdAt first (draft.settled.inStage (.waiting edge))).inStage (.bound edge
        (first.toNode none (if first.isGap then draft.owed else none)) 0) :: rest))
      (shiftTags 1 later) _ :=
    advances_shiftTags
      (fun form hmem => hruns form (List.mem_cons_of_mem _ hmem) (hlater form hmem).2.isNode)
      hlater _ 0 fun hany => ?_
  · rw [Nat.zero_add] at hlast
    exact ⟨_, .inr ⟨_, _, _, rfl⟩, settled_holdAt edge first later draft,
      .cons (.inside (.reference hi hr)) (hfirst.append hlast)⟩
  · rcases anyOwed_cons.mp hany with hsome | hany
    · rw [owed_holdAt] at hsome
      cases hg : first.isGap with
      | true => simp [hg] at hsome
      | false =>
        rw [hg] at hsome howed
        exact (hparts ((howed hsome).resolve_left Bool.false_ne_true)).2
    · exact (hparts (hrest hany)).2

/-- The tags of a phrase run in a node in which nothing waits. -/
theorem advances_phraseTags (hi : draft.Idle)
    (hruns : ∀ form ∈ phrase.forms, form.isNode = true → Runs doctype form)
    (hadmissible : ∀ mention ∈ phrase.mention?,
      mention.Admissible (Segment.mentions draft.allSegments)) (hfits : Fits phrase)
    (hrest : anyOwed rest = true → Tag.gap ∉ phraseTags phrase)
    (howed : draft.owed.isSome = true → hasOwnGap phrase = true ∨ Tag.gap ∉ phraseTags phrase) :
    ∃ after : Draft, after.Idle ∧ after.settled = draft.extend phrase ∧
      Advances (.within doctype (draft :: rest)) (phraseTags phrase)
        (.within doctype (after :: rest)) := by
  cases phrase with
  | content text =>
    refine ⟨draft.settled.add (.content text), .inl rfl, ?_, .single (.inside (.content hi))⟩
    rw [Draft.settled_add, Draft.extend_eq_add rfl]
    rfl
  | embedded edge form =>
    obtain ⟨hedge, hembedded⟩ := hfits
    have hnode : form.isNode = true := by
      cases form <;> first | rfl | cases hembedded
    refine ⟨_, .inl rfl, ?_, advances_embedded hi
      (hruns form (List.mem_singleton_self _) hnode) hedge hembedded ?_⟩
    · rw [Draft.settled_add, Draft.extend_eq_add rfl]
    · intro hany
      have hfree : Tag.gap ∉ phraseTags (.embedded edge form) := by
        rcases anyOwed_cons.mp hany with hsome | hany
        · exact (howed hsome).resolve_left Bool.false_ne_true
        · exact hrest hany
      exact fun hmem => hfree (List.mem_append_right _ hmem)
  | arrayStart edge =>
    obtain ⟨hr, hm⟩ := hadmissible _ rfl
    refine ⟨(draft.settled.inStage (.waiting edge)).add (.arrayStart (edge.marked false)),
      .inl rfl, ?_, .cons (.inside (.reference hi hr)) (.single (.inside (.arrayStart rfl hm)))⟩
    rw [Draft.settled_add, Draft.extend_eq_add rfl]
    rfl
  | value edge first later =>
    obtain ⟨hr, hb⟩ := hadmissible _ rfl
    by_cases hnull : first = null
    · subst hnull
      obtain rfl : later = [] := hfits.2.1 rfl
      refine ⟨(draft.settled.inStage (.waiting edge)).add (.bound edge .null 0),
        .inl rfl, ?_, .cons (.inside (.reference hi hr)) (.single (.inside (.null rfl hb)))⟩
      rw [Draft.settled_add, Draft.extend_eq_add rfl]
      rfl
    · exact advances_value hi hruns hr hb hfits hnull hrest howed

/-- No gap of an inner node comes before the first gap of the node itself. -/
def Clear : List (Phrase Form) → Prop
  | [] => True
  | phrase :: rest => hasOwnGap phrase = true ∨ Tag.gap ∉ phraseTags phrase ∧ Clear rest

/-- The tags of phrases run in a node in which nothing waits. -/
theorem advances_allTags {earlier : List Mention} (hi : draft.Idle)
    (hruns : ∀ phrase ∈ phrases, ∀ form ∈ phrase.forms, form.isNode = true → Runs doctype form)
    (hmentions : Segment.mentions draft.allSegments = earlier.map Mention.plain)
    (horderly : Mention.Orderly earlier (Phrase.mentions phrases))
    (hfits : ∀ phrase ∈ phrases, Fits phrase)
    (hrest : anyOwed rest = true → Tag.gap ∉ allTags phrases)
    (howed : draft.owed.isSome = true → Clear phrases) :
    ∃ after : Draft, after.Idle ∧ after.settled = draft.extendAll phrases ∧
      Advances (.within doctype (draft :: rest)) (allTags phrases)
        (.within doctype (after :: rest)) := by
  induction phrases generalizing draft earlier with
  | nil => exact ⟨draft, hi, rfl, .nil⟩
  | cons phrase phrases ih =>
    rw [Phrase.mentions_cons, Mention.orderly_append] at horderly
    have hfree : anyOwed rest = true → Tag.gap ∉ phraseTags phrase ∧ Tag.gap ∉ allTags phrases := by
      intro hany
      simpa [allTags] using hrest hany
    have hadmissible : ∀ mention ∈ phrase.mention?,
        mention.Admissible (Segment.mentions draft.allSegments) := by
      intro mention hmem
      rw [hmentions, Mention.admissible_map_plain]
      exact Mention.orderly_toList.mp horderly.1 mention hmem
    obtain ⟨middle, hidle, hsettled, hfirst⟩ := advances_phraseTags hi
      (hruns phrase List.mem_cons_self) hadmissible (hfits phrase List.mem_cons_self)
      (fun hany => (hfree hany).1) (fun hsome => (howed hsome).imp_right And.left)
    have hmentions : Segment.mentions middle.allSegments =
        (earlier ++ phrase.mention?.toList).map Mention.plain := by
      rw [← Draft.allSegments_settled, hsettled, Draft.allSegments_extend,
        Segment.mentions_append, hmentions, List.map_append]
      simp only [Segment.mentions_cons, mention?_segment]
      cases phrase.mention? <;> rfl
    have howed : middle.owed.isSome = true → Clear phrases := by
      intro hsome
      have heq : middle.owed = owedAfter draft.owed phrase := congrArg Draft.owed hsettled
      rw [heq, owedAfter] at hsome
      split at hsome
      · cases hsome
      · rename_i hown
        exact ((howed hsome).resolve_left hown).2
    obtain ⟨after, hlast, heq, hmore⟩ := ih hidle (List.forall_mem_cons.mp hruns).2 hmentions
      horderly.2 (List.forall_mem_cons.mp hfits).2 (fun hany => (hfree hany).2) howed
    refine ⟨after, hlast, ?_, hfirst.append hmore⟩
    rw [heq, Draft.extendAll_cons, ← hsettled, Draft.extendAll, Draft.extendAll,
      Draft.settled_settled]

/-- A node that takes a value back has no deeper gap before. -/
theorem TakesBack.clear (h : (node start phrases).TakesBack) : Clear phrases := by
  obtain ⟨before, edge, later, after, rfl, hgap⟩ := h
  induction before with
  | nil => exact .inl rfl
  | cons phrase before ih =>
    rw [allTags, List.mem_append, not_or] at hgap
    exact .inr ⟨hgap.1, ih hgap.2⟩

section ClosedForm

variable (phrases : List (Phrase Form))

/-- Phrases change neither the opening tag of a node nor its label. -/
theorem start_extendAll (draft : Draft) : (draft.extendAll phrases).start = draft.start ∧
    (draft.extendAll phrases).label = draft.label := by
  induction phrases generalizing draft with
  | nil => exact ⟨rfl, rfl⟩
  | cons phrase phrases ih => exact Draft.extendAll_cons phrase phrases ▸ ih (draft.extend phrase)

theorem segments_extendAll (draft : Draft) :
    (draft.extendAll phrases).segments = draft.allSegments ++ segments draft.owed phrases := by
  induction phrases generalizing draft with
  | nil => rw [segments, List.append_nil]; rfl
  | cons phrase phrases ih =>
    rw [Draft.extendAll_cons, ih, segments, Draft.allSegments_extend, List.append_assoc]
    rfl

/-- The value that the node was owed is held at its first gap. -/
theorem held_extendAll (draft : Draft) :
    (draft.extendAll phrases).held =
      (draft.owed.bind fun _ =>
        gapPosition? (Segment.width draft.allSegments) phrases).or draft.held := by
  induction phrases generalizing draft with
  | nil => cases draft.owed <;> rfl
  | cons phrase phrases ih =>
    have howed : (draft.extend phrase).owed = owedAfter draft.owed phrase := rfl
    have hheld : (draft.extend phrase).held =
        if draft.owed.isSome && hasOwnGap phrase then
          some (Segment.width draft.allSegments + 1)
        else draft.held := rfl
    have hlength : Segment.width (draft.extend phrase).allSegments =
        Segment.width draft.allSegments + width phrase := by
      simp [length_items_segment]
    rw [Draft.extendAll_cons, ih, howed, hheld, hlength, gapPosition?, owedAfter]
    cases draft.owed <;> cases hasOwnGap phrase <;> simp

/-- A node with a gap of its own is owed nothing any more. -/
theorem owed_extendAll (draft : Draft)
    (h : draft.owed.isSome = true → phrases.any hasOwnGap = true) :
    (draft.extendAll phrases).owed = none := by
  induction phrases generalizing draft with
  | nil =>
    cases ho : draft.owed with
    | none => exact ho
    | some value => simp [ho] at h
  | cons phrase phrases ih =>
    rw [Draft.extendAll_cons]
    apply ih
    intro hsome
    have howed : (draft.extend phrase).owed = owedAfter draft.owed phrase := rfl
    rw [howed, owedAfter] at hsome
    cases hown : hasOwnGap phrase with
    | true => simp [hown] at hsome
    | false =>
      rw [hown] at hsome
      simpa [hown] using h hsome

end ClosedForm

/-- A node in which all phrases have been read is the node of its form. -/
theorem toNode_eq_of_settled {draft : Draft} (inherited : Option String) (owed : Option Node)
    (h : draft.settled = (Draft.fresh start.plain inherited owed).extendAll phrases) :
    draft.toNode = (node start phrases).toNode inherited owed := by
  obtain ⟨hstart, hlabel⟩ := start_extendAll phrases (.fresh start.plain inherited owed)
  rw [Draft.toNode, h, toNode, Outline.toNode, hstart, hlabel, segments_extendAll, held_extendAll,
    Outline.toNode]
  have hfresh : (Draft.fresh start.plain inherited owed).allSegments = [] := rfl
  rw [hfresh, List.nil_append]
  simp only [Draft.fresh, Option.or_none]
  rfl

/-- The interior of a valid node runs, and leaves nothing to take back. -/
theorem advances_interior (doctype : Option Doctype) (rest : List Draft) (inherited : Option String)
    (owed : Option Node)
    (hruns : ∀ phrase ∈ phrases, ∀ form ∈ phrase.forms, form.isNode = true → Runs doctype form)
    (hvalid : (node start phrases).Valid)
    (htakes : owed.isSome = true → (node start phrases).TakesBack)
    (hgap : anyOwed rest = true → Tag.gap ∉ (node start phrases).tags) :
    ∃ after : Draft, after.Idle ∧ after.owed = none ∧
      after.toNode = (node start phrases).toNode inherited owed ∧
      Advances (.within doctype (.fresh start.plain inherited owed :: rest)) (allTags phrases)
        (.within doctype (after :: rest)) := by
  obtain ⟨-, horder, hfits, -⟩ := hvalid.of_node
  have hinner : anyOwed rest = true → Tag.gap ∉ allTags phrases := by
    intro hany
    simpa [tags] using hgap hany
  have hidle : (Draft.fresh start.plain inherited owed).Idle := .inl rfl
  obtain ⟨after, hidle, hsettled, hadv⟩ := advances_allTags hidle hruns rfl horder hfits hinner
    fun hsome => (htakes hsome).clear
  refine ⟨after, hidle, ?_, toNode_eq_of_settled inherited owed hsettled, hadv⟩
  have howed : after.settled.owed = _ := congrArg Draft.owed hsettled
  refine howed.trans (owed_extendAll phrases _ fun hsome => ?_)
  obtain ⟨before, edge, later, after, rfl, -⟩ := htakes hsome
  simp [hasOwnGap, isGap]

/-- The tags of a valid node run wherever the node may open. -/
theorem Valid.runs (h : form.Valid) (hnode : form.isNode = true) : Runs doctype form := by
  induction form using Form.inductionOn with
  | gap | null | literal => cases hnode
  | node start phrases ih =>
    intro draft parent rest owed hopens htakes hgap
    obtain ⟨hstart, -, -, hvalid⟩ := h.of_node
    obtain ⟨after, hidle, howed, hnode, hadv⟩ :=
      advances_interior doctype (parent :: rest) none owed
      (fun phrase hphrase form hform => ih phrase hphrase form hform
        (hvalid phrase hphrase form hform))
      h htakes hgap
    have hopen : Step (draft :: rest) (.opening start) _ :=
      .opening (by simpa [Builder.isContradictory] using hstart) hopens
    rw [← hnode]
    exact .cons (.inside hopen) (hadv.append (.single (.inside (.closing hidle howed))))

end Form

end TagTree
