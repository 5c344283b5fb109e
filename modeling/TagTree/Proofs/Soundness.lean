import TagTree.Proofs.Form
import TagTree.Proofs.Run

/-!
# What the builder admits

Every sequence of tags that makes a tree is the yield of a valid form. The proof follows the run of
the builder with the forms of all open nodes, as far as their tags have come (`PartialForm`).
`Grown.step` is the step of the induction, and `exists_form_of_advances` its result.
-/

namespace TagTree

open Mention (Orderly Referable orderly_append Bindable bindable_map_plain)
open Form (allTags Fits phraseTags shiftTags)

variable {stage : Stage} {draft parent : Draft} {start : OpenTag} {owed : Option Node}

/-- How far the next phrase of an open node has come. -/
inductive PartialPhrase where
  | resting
  | bound (edge : Reference) (first : Form) (later : List Form)
  | waiting (edge : Reference)
  | shifting (edge : Reference) (first : Form) (later : List Form)

namespace PartialPhrase

/-- The phrase as it stands. -/
def phrases : PartialPhrase → List (Phrase Form)
  | bound edge first later | shifting edge first later => [.value edge first later]
  | _ => []

/-- The tags after the phrase as it stands. -/
def tags : PartialPhrase → List Tag
  | waiting edge => [.reference edge]
  | shifting _ _ later => [.shift (later.length + 1)]
  | _ => []

attribute [simp] phrases

section Tags

variable (edge : Reference) (first : Form) (later : List Form)

@[simp] theorem tags_resting : tags resting = [] := rfl

@[simp] theorem tags_waiting : tags (waiting edge) = [.reference edge] := rfl

@[simp] theorem tags_bound : tags (bound edge first later) = [] := rfl

@[simp] theorem tags_shifting :
    tags (shifting edge first later) = [.shift (later.length + 1)] := rfl

end Tags

/-- The draft of the node has come as far. -/
inductive Matches : PartialPhrase → Stage → Prop where
  | resting : Matches resting .resting
  | bound {edge : Reference} {first : Form} {later : List Form} {node : Node}
    (hfirst : first ≠ .null) : Matches (bound edge first later) (.bound edge node later.length)
  | waiting {edge : Reference} : Matches (waiting edge) (.waiting edge)
  | shifting {edge : Reference} {first : Form} {later : List Form} {node : Node}
    (hfirst : first ≠ .null) :
    Matches (shifting edge first later) (.shifting edge node later.length)

theorem Matches.mentions {next : PartialPhrase} (h : next.Matches stage) :
    Segment.mentions stage.segments = (Phrase.mentions next.phrases).map Mention.plain := by
  cases h <;> rfl

section Inversion

variable {next : PartialPhrase} {edge : Reference} {node : Node} {shifts : Nat}

theorem Matches.of_waiting (h : next.Matches (.waiting edge)) : next = .waiting edge := by
  cases h
  rfl

theorem Matches.of_bound (h : next.Matches (.bound edge node shifts)) :
    ∃ first later, next = .bound edge first later ∧ shifts = later.length ∧ first ≠ .null := by
  cases h with
  | bound hfirst => exact ⟨_, _, rfl, rfl, hfirst⟩

theorem Matches.of_shifting (h : next.Matches (.shifting edge node shifts)) :
    ∃ first later, next = .shifting edge first later ∧ shifts = later.length ∧ first ≠ .null := by
  cases h with
  | shifting hfirst => exact ⟨_, _, rfl, rfl, hfirst⟩

theorem Matches.of_idle (h : next.Matches draft.stage) (hi : draft.Idle) : next.tags = [] := by
  rcases hi with hs | ⟨edge, node, shifts, hs⟩ <;> rw [hs] at h <;> cases h <;> rfl

end Inversion

end PartialPhrase

/-- The form of an open node, as far as its tags have come. -/
structure PartialForm where
  start : OpenTag
  phrases : List (Phrase Form)
  next : PartialPhrase
  /-- The node has to take a value back. -/
  takes : Bool

namespace PartialForm

/-- The phrases, with the last as it stands. -/
def allPhrases (form : PartialForm) : List (Phrase Form) :=
  form.phrases ++ form.next.phrases

/-- The tags so far. -/
def tags (form : PartialForm) : List Tag :=
  .opening form.start :: (allTags form.allPhrases ++ form.next.tags)

/-- The form of the node if it closes now. -/
def toForm (form : PartialForm) : Form :=
  .node form.start form.allPhrases

/-- The form grows with the draft of its node. -/
structure Grows (form : PartialForm) (draft : Draft) : Prop where
  start : Builder.isContradictory form.start = false
  mentions : Segment.mentions draft.segments = (Phrase.mentions form.phrases).map Mention.plain
  next : form.next.Matches draft.stage
  orderly : Orderly [] (Phrase.mentions form.allPhrases)
  referable : ∀ edge, form.next = .waiting edge → Referable (Phrase.mentions form.phrases) edge
  fits : ∀ phrase ∈ form.allPhrases, Fits phrase
  valid : ∀ phrase ∈ form.allPhrases, ∀ inner ∈ phrase.forms, inner.Valid
  owed : draft.owed.isSome = true → Tag.gap ∉ allTags form.allPhrases
  taken : form.takes = true → draft.owed = none → form.toForm.TakesBack

variable {form : PartialForm} {edge : Reference} {node : Node} {first : Form} {later : List Form}

/-- The form with the last phrase finished. -/
def settled (form : PartialForm) : PartialForm :=
  { form with phrases := form.allPhrases, next := .resting }

/-- The form with the next phrase at another stage. -/
def inStage (form : PartialForm) (next : PartialPhrase) : PartialForm :=
  { form with next := next }

/-- The form with a finished phrase more. -/
def add (form : PartialForm) (phrase : Phrase Form) : PartialForm :=
  { form with phrases := form.phrases ++ [phrase], next := .resting }

@[simp] theorem allPhrases_settled : form.settled.allPhrases = form.allPhrases :=
  List.append_nil _

@[simp] theorem allPhrases_add (phrase : Phrase Form) :
    (form.add phrase).allPhrases = form.phrases ++ [phrase] :=
  List.append_nil _

@[simp] theorem allPhrases_inStage (next : PartialPhrase) :
    (form.inStage next).allPhrases = form.phrases ++ next.phrases := rfl

@[simp] theorem tags_settled :
    form.settled.tags = .opening form.start :: allTags form.allPhrases := by
  simp [tags, settled, allPhrases]

@[simp] theorem tags_add (phrase : Phrase Form) :
    (form.add phrase).tags =
      .opening form.start :: (allTags form.phrases ++ phraseTags phrase) := by
  simp [tags, add, allPhrases]

@[simp] theorem tags_inStage (next : PartialPhrase) :
    (form.inStage next).tags =
      .opening form.start :: (allTags (form.phrases ++ next.phrases) ++ next.tags) := rfl

theorem allPhrases_of_waiting (hn : form.next = .waiting edge) :
    form.allPhrases = form.phrases := by
  simp [allPhrases, hn]

theorem allPhrases_of_shifting (hn : form.next = .shifting edge first later) :
    form.allPhrases = form.phrases ++ [.value edge first later] := by
  simp [allPhrases, hn]

theorem tags_of_next (next : PartialPhrase) (hn : form.next = next) :
    form.tags = .opening form.start :: (allTags (form.phrases ++ next.phrases) ++ next.tags) := by
  rw [tags, allPhrases, hn]

section Grown

variable (h : form.Grows draft)

include h

/-- All mentions so far are those of the draft. -/
theorem Grows.allMentions :
    Segment.mentions draft.allSegments = (Phrase.mentions form.allPhrases).map Mention.plain := by
  rw [Draft.allSegments, Segment.mentions_append, h.mentions, h.next.mentions, allPhrases,
    Phrase.mentions_append, List.map_append]

/-- A node in which nothing waits is finished as it stands. -/
theorem Grows.settled : form.settled.Grows draft.settled where
  start := h.start
  mentions := h.allMentions
  next := .resting
  orderly := by rw [allPhrases_settled]; exact h.orderly
  referable := nofun
  fits := by rw [allPhrases_settled]; exact h.fits
  valid := by rw [allPhrases_settled]; exact h.valid
  owed := by rw [allPhrases_settled]; exact h.owed
  taken := by rw [toForm, allPhrases_settled]; exact h.taken

/-- One more phrase. -/
theorem Grows.add {phrase : Phrase Form} {segment : Segment Node}
    (hphrases : form.next.phrases = [])
    (hmention : segment.mention? = phrase.mention?.map Mention.plain)
    (hadmissible : ∀ mention ∈ phrase.mention?, mention.Admissible (Phrase.mentions form.phrases))
    (hfits : Fits phrase) (hvalid : ∀ inner ∈ phrase.forms, inner.Valid)
    (howed : draft.owed.isSome = true → Tag.gap ∉ phraseTags phrase) :
    (form.add phrase).Grows (draft.add segment) := by
  have hall : form.allPhrases = form.phrases := by
    rw [allPhrases, hphrases, List.append_nil]
  obtain ⟨hstart, hmentions, -, horderly, -, hfits', hvalid', howed', htaken⟩ := h
  rw [hall] at horderly hfits' hvalid' howed'
  rw [toForm, hall] at htaken
  refine ⟨hstart, ?_, .resting, ?_, nofun, ?_, ?_, ?_, ?_⟩
  · show Segment.mentions (draft.segments ++ [segment]) =
      (Phrase.mentions (form.phrases ++ [phrase])).map Mention.plain
    rw [Segment.mentions_append, hmentions, Phrase.mentions_append, List.map_append]
    simp only [Segment.mentions_cons, hmention, Phrase.mentions_cons]
    cases phrase.mention? <;> rfl
  · rw [allPhrases_add, Phrase.mentions_append, orderly_append]
    refine ⟨horderly, ?_⟩
    cases hm : phrase.mention? with
    | none => simp [hm, Orderly]
    | some mention => simpa [hm, Orderly] using hadmissible mention hm
  · simpa [allPhrases_add, or_imp, forall_and, hfits] using hfits'
  · simpa [allPhrases_add, or_imp, forall_and] using ⟨hvalid', hvalid⟩
  · intro hsome
    rw [allPhrases_add, Form.allTags_append, Form.allTags_singleton, List.mem_append, not_or]
    exact ⟨howed' hsome, howed hsome⟩
  · intro htakes hnone
    rw [toForm, allPhrases_add]
    exact (htaken htakes hnone).append _

/-- A value that may still be shifted. -/
theorem Grows.bound {after : Draft} (hsegments : after.segments = draft.segments)
    (hstage : after.stage = .bound edge node later.length) (hfirst : first ≠ .null)
    (hadmissible : (Mention.value edge).Admissible (Phrase.mentions form.phrases))
    (hfits : Fits (.value edge first later)) (hvalid : ∀ inner ∈ first :: later, inner.Valid)
    (howed : after.owed.isSome = true →
      Tag.gap ∉ allTags (form.phrases ++ [.value edge first later]))
    (htaken : form.takes = true → after.owed = none →
      (Form.node form.start (form.phrases ++ [.value edge first later])).TakesBack) :
    (form.inStage (.bound edge first later)).Grows after where
  start := h.start
  mentions := hsegments ▸ h.mentions
  next := hstage ▸ .bound hfirst
  orderly := by
    have horder := h.orderly
    rw [allPhrases, Phrase.mentions_append, orderly_append] at horder
    rw [allPhrases_inStage, Phrase.mentions_append, orderly_append]
    exact ⟨horder.1, hadmissible, trivial⟩
  referable := nofun
  fits := List.forall_mem_append.mpr
    ⟨(List.forall_mem_append.mp h.fits).1, List.forall_mem_singleton.mpr hfits⟩
  valid := List.forall_mem_append.mpr
    ⟨(List.forall_mem_append.mp h.valid).1, List.forall_mem_singleton.mpr hvalid⟩
  owed := howed
  taken := htaken

/-- The value of a reference that waited. -/
theorem Grows.bind (hs : form.next = .waiting edge) (hfirst : first ≠ .null)
    (hb : Bindable (Phrase.mentions form.phrases) edge)
    (hembedded : first.isEmbedded = false) (hvalid : first.Valid)
    (howed : draft.owed.isSome = true → Tag.gap ∉ first.tags) :
    (form.inStage (.bound edge first [])).Grows (draft.inStage (.bound edge node 0)) := by
  have hall := allPhrases_of_waiting hs
  refine h.bound rfl rfl hfirst ⟨h.referable edge hs, hb⟩ ⟨hembedded, fun _ => rfl, nofun⟩
    (by simpa using hvalid) ?_ ?_
  · intro hsome
    have hgap := h.owed hsome
    rw [hall] at hgap
    simpa [phraseTags, shiftTags, hgap] using howed hsome
  · intro htakes hnone
    have htaken := h.taken htakes hnone
    rw [toForm, hall] at htaken
    exact htaken.append _

/-- The gap at which a node takes back what it is owed. -/
theorem Grows.hold (hs : form.next = .waiting edge)
    (hb : Bindable (Phrase.mentions form.phrases) edge) (howed : draft.owed = some node) :
    (form.inStage (.bound edge .gap [])).Grows (draft.hold.inStage (.bound edge node 0)) := by
  have hall := allPhrases_of_waiting hs
  refine h.bound rfl rfl nofun ⟨h.referable edge hs, hb⟩ ⟨rfl, nofun, nofun⟩
    (by simpa using .gap) nofun fun _ _ => ⟨form.phrases, edge, [], [], rfl, ?_⟩
  rw [← hall]
  exact h.owed (by rw [howed]; rfl)

/-- A node that took the value before back. -/
theorem Grows.reattach {inner : Form} {present : Node} (hn : form.next = .shifting edge first later)
    (hs : draft.stage = .shifting edge present later.length)
    (hembedded : inner.isEmbedded = false) (htakes : inner.TakesBack) (hvalid : inner.Valid)
    (howed : draft.owed.isSome = true → Tag.gap ∉ inner.tags) :
    (form.inStage (.bound edge first (later ++ [inner]))).Grows
      (draft.inStage (.bound edge node (later.length + 1))) := by
  have hall := allPhrases_of_shifting hn
  have hmem : .value edge first later ∈ form.allPhrases := by
    rw [hall]
    exact List.mem_append_right _ (List.mem_singleton_self _)
  have hfirst : first ≠ .null := by
    have hnext := h.next
    rw [hn, hs] at hnext
    cases hnext with
    | shifting hfirst => exact hfirst
  have horder := h.orderly
  rw [hall, Phrase.mentions_append, orderly_append] at horder
  obtain ⟨hplain, hnull, hlater⟩ := h.fits _ hmem
  have hstage : (draft.inStage (.bound edge node (later.length + 1))).stage =
      .bound edge node (later ++ [inner]).length := by
    rw [List.length_append]
    rfl
  refine h.bound rfl hstage hfirst horder.2.1
    ⟨hplain, fun hnull => absurd hnull hfirst, ?_⟩ ?_ ?_ ?_
  · exact List.forall_mem_append.mpr
      ⟨hlater, List.forall_mem_singleton.mpr ⟨hembedded, htakes⟩⟩
  · rw [← List.cons_append]
    exact List.forall_mem_append.mpr ⟨h.valid _ hmem, List.forall_mem_singleton.mpr hvalid⟩
  · intro hsome
    have hgap := h.owed hsome
    rw [hall] at hgap
    simp only [Form.allTags_append, Form.allTags_singleton, phraseTags,
      Form.shiftTags_concat, List.mem_append, List.mem_cons, not_or] at hgap ⊢
    exact ⟨hgap.1, hgap.2.1, hgap.2.2.1, hgap.2.2.2, by rintro ⟨⟩, howed hsome⟩
  · intro htakes hnone
    have htaken := h.taken htakes hnone
    rw [toForm, hall] at htaken
    exact htaken.replaceLater _

end Grown

/-- The tags of an idle node are those of its form, up to the closing tag. -/
theorem tags_toForm (hn : form.next.tags = []) : form.toForm.tags = form.tags ++ [.closing] := by
  rw [tags, hn, toForm, Form.tags, List.append_nil, List.cons_append]

/-- A node may close as a valid form. -/
theorem Grows.valid_toForm (h : form.Grows draft) : form.toForm.Valid :=
  .node (by simpa [Builder.isContradictory] using h.start) h.orderly h.fits h.valid

/-- The next phrase comes to another stage with the forms that it has. -/
theorem Grows.restage (h : form.Grows draft) {next : PartialPhrase}
    (hphrases : form.next.phrases = next.phrases) (hnext : next.Matches stage)
    (hr : ∀ edge, next = .waiting edge → Referable (Phrase.mentions form.phrases) edge) :
    (form.inStage next).Grows (draft.inStage stage) := by
  have hall : form.allPhrases = (form.inStage next).allPhrases := by
    rw [allPhrases, hphrases]
    rfl
  obtain ⟨hstart, hmentions, -, horderly, -, hfits, hvalid, howed, htaken⟩ := h
  rw [toForm] at htaken
  rw [hall] at horderly hfits hvalid howed htaken
  exact ⟨hstart, hmentions, hnext, horderly, hr, hfits, hvalid, howed, htaken⟩

/-- The form of a node that has just been opened. -/
def fresh (start : OpenTag) (takes : Bool) : PartialForm :=
  { start := start, phrases := [], next := .resting, takes := takes }

@[simp] theorem tags_fresh (start : OpenTag) (takes : Bool) :
    (fresh start takes).tags = [.opening start] := rfl

theorem grows_fresh {inherited : Option String} (hc : Builder.isContradictory start = false) :
    (fresh start owed.isSome).Grows (.fresh start.plain inherited owed) where
  start := hc
  mentions := rfl
  next := .resting
  orderly := trivial
  referable := nofun
  fits := nofun
  valid := nofun
  owed := nofun
  taken htakes hnone := by
    have hnone : owed = none := hnone
    subst hnone
    cases htakes

/-- The node stands where nodes of its kind may stand. -/
def StandsIn (form : PartialForm) : List PartialForm → Prop
  | [] => form.takes = false
  | parent :: _ =>
    match parent.next with
    | .resting => form.start.flags.isEmbedded = true ∧ form.takes = false
    | .waiting edge =>
      form.takes = false ∧ if edge.isReserved then form.start.flags.isEmbedded = true
      else form.start.flags.isEmbedded = false ∧ Bindable (Phrase.mentions parent.phrases) edge
    | .shifting _ _ _ => form.start.flags.isEmbedded = false ∧ form.takes = true
    | .bound _ _ _ => False

/-- The forms of all open nodes, innermost first, have grown with the drafts. While an outer node
has a value to take back, there are no gaps. -/
def Grown : List PartialForm → List Draft → Prop
  | [], [] => True
  | form :: forms, draft :: drafts =>
    (form.Grows draft ∧ form.StandsIn forms ∧
      (Draft.anyOwed drafts = true → Tag.gap ∉ allTags form.allPhrases)) ∧ Grown forms drafts
  | _, _ => False

/-- The tags of all open nodes so far. -/
def stackTags : List PartialForm → List Tag
  | [] => []
  | form :: forms => stackTags forms ++ form.tags

variable {forms : List PartialForm} {drafts after : List Draft} {tag : Tag}

/-- The innermost node has grown by a step that leaves the others alone. -/
theorem Grown.replace {other : PartialForm} {next : Draft}
    (h : Grown (form :: forms) (draft :: drafts)) (hg : other.Grows next)
    (hstart : other.start = form.start) (htakes : other.takes = form.takes)
    (hgap : Draft.anyOwed drafts = true → Tag.gap ∉ allTags form.allPhrases →
      Tag.gap ∉ allTags other.allPhrases) : Grown (other :: forms) (next :: drafts) := by
  obtain ⟨⟨-, hstands, hquiet⟩, hrest⟩ := h
  refine ⟨⟨hg, ?_, fun howed => hgap howed (hquiet howed)⟩, hrest⟩
  cases forms with
  | nil => exact htakes.trans hstands
  | cons parent forms => simpa only [StandsIn, hstart, htakes] using hstands

/-- Where a node opens, its form may stand. -/
theorem Grown.opens (h : Grown (form :: forms) (draft :: drafts))
    (ho : draft.Opens start.flags.isEmbedded parent owed) :
    ∃ outer, Grown (outer :: forms) (parent :: drafts) ∧
      (fresh start owed.isSome).StandsIn (outer :: forms) ∧ outer.tags = form.tags := by
  have hg := h.1.1
  generalize he : start.flags.isEmbedded = embedded at ho
  cases ho with
  | beside hi =>
    refine ⟨form.settled, h.replace hg.settled rfl rfl (by simp), ⟨he, rfl⟩, ?_⟩
    rw [tags_settled, tags, hg.next.of_idle hi, List.append_nil]
  | @reserved edge hs hr =>
    have hn := (hs ▸ hg.next).of_waiting
    refine ⟨form, h, ?_, rfl⟩
    simp [StandsIn, hn, hr, fresh, he]
  | @value edge hs hb =>
    have hn := (hs ▸ hg.next).of_waiting
    rw [hg.mentions, bindable_map_plain] at hb
    refine ⟨form, h, ?_, rfl⟩
    simp [StandsIn, hn, hb.1, fresh, he, hb]
  | @shifted edge node shifts hs =>
    obtain ⟨first, later, hn, -, -⟩ := (hs ▸ hg.next).of_shifting
    refine ⟨form, h, ?_, rfl⟩
    simp [StandsIn, hn, fresh, he]

/-- A node that closes becomes a part of the form around it. -/
theorem Grown.closes {outer : PartialForm}
    (h : Grown (form :: outer :: forms) (draft :: parent :: drafts)) (ho : draft.owed = none) :
    ∃ grown, Grown (grown :: forms) (parent.receive node :: drafts) ∧
      grown.tags = outer.tags ++ form.toForm.tags := by
  obtain ⟨⟨hg, hstands, hquiet⟩, hrest⟩ := h
  have hparent := hrest.1.1
  have hembedded : form.toForm.isEmbedded = form.start.flags.isEmbedded := rfl
  have hvalid := hg.valid_toForm
  -- A gap in the node would have been refused while a node around it has a value to take back.
  have hgap : Draft.anyOwed (parent :: drafts) = true → Tag.gap ∉ form.toForm.tags := by
    intro howed
    simpa [toForm, Form.tags] using hquiet howed
  have howed : parent.owed.isSome = true → Tag.gap ∉ form.toForm.tags := by
    intro hsome
    exact hgap (by simp [Draft.anyOwed, hsome])
  have hbelow : Draft.anyOwed drafts = true → Tag.gap ∉ form.toForm.tags := by
    intro hany
    simp only [Draft.anyOwed] at hany
    exact hgap (by simp only [Draft.anyOwed, List.any_cons, hany, Bool.or_true])
  have hembeds : ∀ edge edge', outer.next.phrases = [] →
      Fits (.embedded edge form.toForm) →
      Grown (outer.add (.embedded edge form.toForm) :: forms)
        (parent.add (.embedded edge' node) :: drafts) := by
    intro edge edge' hphrases hfits
    have hall : outer.allPhrases = outer.phrases := by
      rw [allPhrases, hphrases, List.append_nil]
    refine hrest.replace (hparent.add hphrases rfl (by rintro _ ⟨⟩) hfits ?_ ?_) rfl rfl ?_
    · simpa [Phrase.forms] using hvalid
    · simpa [phraseTags] using howed
    · simpa [phraseTags, hall] using fun hany hfree => ⟨hfree, hbelow hany⟩
  have hnext := hparent.next
  cases hs : parent.stage with
  | resting =>
    rw [hs] at hnext
    have hn : outer.next = .resting := by
      generalize outer.next = next at hnext
      cases hnext
      rfl
    simp only [StandsIn, hn] at hstands
    refine ⟨outer.add (.embedded none form.toForm), ?_, ?_⟩
    · rw [Draft.receive, hs]
      exact hembeds none none (by simp [hn]) ⟨by rintro _ ⟨⟩, hstands.1⟩
    · simp [tags_of_next _ hn, phraseTags]
  | bound edge present shifts =>
    rw [hs] at hnext
    -- No node stands open where the value of the last reference is there.
    obtain ⟨first, later, hn, -, -⟩ := hnext.of_bound
    simp [StandsIn, hn] at hstands
  | waiting edge =>
    rw [hs] at hnext
    have hn := hnext.of_waiting
    have hall := allPhrases_of_waiting hn
    simp only [StandsIn, hn] at hstands
    cases hres : edge.isReserved with
    | true =>
      simp only [hres, if_true] at hstands
      refine ⟨outer.add (.embedded (some edge) form.toForm), ?_, ?_⟩
      · simp only [Draft.receive, hs, hres, if_true]
        exact hembeds (some edge) _ (by simp [hn]) ⟨by simp [hres], hstands.2⟩
      · simp [tags_of_next _ hn, phraseTags]
    | false =>
      simp only [hres, Bool.false_eq_true, if_false] at hstands
      refine ⟨outer.inStage (.bound edge form.toForm []), ?_, ?_⟩
      · simp only [Draft.receive, hs, hres, Bool.false_eq_true, if_false]
        refine hrest.replace (hparent.bind hn (by rintro ⟨⟩) hstands.2.2 hstands.2.1 hvalid howed)
          rfl rfl ?_
        simpa [phraseTags, shiftTags, hall] using fun hany hfree => ⟨hfree, hbelow hany⟩
      · simp [tags_of_next _ hn, phraseTags, shiftTags]
  | shifting edge present shifts =>
    rw [hs] at hnext
    -- The node took the shifted value back, and is one more of the nodes that did so.
    obtain ⟨first, later, hn, rfl, -⟩ := hnext.of_shifting
    have hall := allPhrases_of_shifting hn
    simp only [StandsIn, hn] at hstands
    refine ⟨outer.inStage (.bound edge first (later ++ [form.toForm])), ?_, ?_⟩
    · simp only [Draft.receive, hs]
      refine hrest.replace (hparent.reattach hn hs hstands.1 (hg.taken hstands.2 ho) hvalid howed)
        rfl rfl ?_
      intro hany hfree
      simp [phraseTags, Form.shiftTags_concat, hall] at hfree ⊢
      exact ⟨hfree.1, hfree.2.1, hfree.2.2, hbelow hany⟩
    · simp [tags_of_next _ hn, phraseTags, Form.shiftTags_concat, Nat.add_comm]

/-- What one tag does to the forms of the open nodes. -/
theorem Grown.step (h : Grown forms drafts) (hs : Step drafts tag after) :
    ∃ grown, Grown grown after ∧ stackTags grown = stackTags forms ++ [tag] := by
  obtain _ | ⟨form, forms⟩ := forms
  · cases hs <;> exact h.elim
  obtain _ | ⟨draft, rest⟩ := drafts
  · exact h.elim
  have hg := h.1.1
  -- Only the innermost form grows, unless a node opens or closes.
  cases hs with
  | @content _ _ text hi =>
    have htags := hg.next.of_idle hi
    refine ⟨form.settled.add (.content text) :: forms,
      h.replace (hg.settled.add rfl rfl (by rintro _ ⟨⟩) trivial (by rintro _ ⟨⟩) ?_) rfl rfl ?_,
      ?_⟩
    · simp [phraseTags]
    · simp [phraseTags, settled]
    · simp [stackTags, tags, htags, phraseTags, settled, add, allPhrases]
  | @reference _ _ edge hi hr =>
    have htags := hg.next.of_idle hi
    rw [hg.allMentions, Mention.referable_map_plain] at hr
    refine ⟨form.settled.inStage (.waiting edge) :: forms,
      h.replace (hg.settled.restage rfl .waiting (by rintro _ ⟨⟩; exact hr)) rfl rfl ?_, ?_⟩
    · simp [settled]
    · simp [stackTags, tags, htags, settled, inStage, allPhrases]
  | @arrayStart _ _ edge hs hm =>
    have hn := (hs ▸ hg.next).of_waiting
    have hall := allPhrases_of_waiting hn
    rw [hg.mentions, Mention.startable_map_plain] at hm
    refine ⟨form.add (.arrayStart edge) :: forms,
      h.replace (hg.add (by simp [hn]) rfl ?_ trivial (by rintro _ ⟨⟩) ?_) rfl rfl ?_, ?_⟩
    · rintro _ ⟨⟩
      exact ⟨hg.referable edge hn, hm⟩
    · simp [phraseTags]
    · simp [phraseTags, hall]
    · simp [stackTags, tags_of_next _ hn, phraseTags]
  | @null _ _ edge hs hb =>
    have hn := (hs ▸ hg.next).of_waiting
    have hall := allPhrases_of_waiting hn
    rw [hg.mentions, bindable_map_plain] at hb
    refine ⟨form.add (.value edge .null []) :: forms,
      h.replace (hg.add (by simp [hn]) rfl ?_ ⟨rfl, fun _ => rfl, by rintro _ ⟨⟩⟩ ?_ ?_)
        rfl rfl ?_, ?_⟩
    · rintro _ ⟨⟩
      exact ⟨hg.referable edge hn, hb⟩
    · simpa [Phrase.forms] using Form.Valid.null
    · simp [phraseTags, Form.tags, shiftTags]
    · simp [phraseTags, Form.tags, shiftTags, hall]
    · simp [stackTags, tags_of_next _ hn, phraseTags, Form.tags, shiftTags]
  | @literal _ _ edge text hs hb =>
    have hn := (hs ▸ hg.next).of_waiting
    have hall := allPhrases_of_waiting hn
    rw [hg.mentions, bindable_map_plain] at hb
    refine ⟨form.inStage (.bound edge (.literal text) []) :: forms,
      h.replace (hg.bind hn (by rintro ⟨⟩) hb rfl .literal (by simp [Form.tags])) rfl rfl ?_, ?_⟩
    · simp [phraseTags, Form.tags, shiftTags, hall]
    · simp [stackTags, tags_of_next _ hn, phraseTags, Form.tags, shiftTags]
  | @gap _ _ edge hs hb ho =>
    have hn := (hs ▸ hg.next).of_waiting
    obtain ⟨howed, hrest⟩ := Draft.anyOwed_cons_eq_false.mp ho
    rw [hg.mentions, bindable_map_plain] at hb
    refine ⟨form.inStage (.bound edge .gap []) :: forms,
      h.replace (hg.bind hn (by rintro ⟨⟩) hb rfl .gap (by simp [howed])) rfl rfl
        (by simp [hrest]), ?_⟩
    simp [stackTags, tags_of_next _ hn, phraseTags, Form.tags, shiftTags]
  | @hold _ _ edge node hs hb ho hrest =>
    have hn := (hs ▸ hg.next).of_waiting
    rw [hg.mentions, bindable_map_plain] at hb
    refine ⟨form.inStage (.bound edge .gap []) :: forms,
      h.replace (hg.hold hn hb ho) rfl rfl (by simp [hrest]), ?_⟩
    simp [stackTags, tags_of_next _ hn, phraseTags, Form.tags, shiftTags]
  | @shift _ _ edge node shifts hs =>
    obtain ⟨first, later, hn, rfl, hfirst⟩ := (hs ▸ hg.next).of_bound
    refine ⟨form.inStage (.shifting edge first later) :: forms,
      h.replace (hg.restage (by rw [hn]; rfl) (.shifting hfirst) (by rintro _ ⟨⟩)) rfl rfl
        (by rw [allPhrases, hn]; exact fun _ hfree => hfree), ?_⟩
    simp [stackTags, tags_of_next _ hn]
  | @opening _ parent _ start owed hc ho =>
    obtain ⟨outer, hgrown, hnext, htags⟩ := h.opens ho
    refine ⟨fresh start owed.isSome :: outer :: forms,
      ⟨⟨grows_fresh hc, hnext, by simp [fresh, allPhrases, allTags]⟩, hgrown⟩, ?_⟩
    simp [stackTags, htags]
  | closing hi ho =>
    obtain _ | ⟨outer, forms⟩ := forms
    · exact h.2.elim
    obtain ⟨grown, hgrown, htags⟩ := h.closes ho
    refine ⟨grown :: forms, hgrown, ?_⟩
    simp [stackTags, htags, tags_toForm (hg.next.of_idle hi)]

end PartialForm

/-- The tag is an effect. -/
def Tag.isEffect : Tag → Bool
  | effect _ => true
  | _ => false

/-- The tags that are part of a tree. -/
def Tag.withoutEffects (tags : List Tag) : List Tag :=
  tags.filter fun tag => !tag.isEffect

/-- The header of a document as tags. -/
def Doctype.headerTags (doctype : Option Doctype) : List Tag :=
  doctype.toList.map .doctype

@[simp] theorem Tag.withoutEffects_append (first second : List Tag) :
    withoutEffects (first ++ second) = withoutEffects first ++ withoutEffects second :=
  List.filter_append ..

/-- The tags read so far are those of a header and of forms that have come as far as the phase. -/
def Phase.Yields (tags : List Tag) : Phase → Prop
  | before doctype => Tag.withoutEffects tags = Doctype.headerTags doctype
  | within doctype drafts => ∃ forms, PartialForm.Grown forms drafts ∧
    Tag.withoutEffects tags = Doctype.headerTags doctype ++ PartialForm.stackTags forms
  | after doctype _ => ∃ form : Form, form.isNode = true ∧ form.Valid ∧
    Tag.withoutEffects tags = Doctype.headerTags doctype ++ form.tags

theorem Step.withoutEffects {drafts after : List Draft} {tag : Tag} (h : Step drafts tag after) :
    Tag.withoutEffects [tag] = [tag] := by
  cases h <;> rfl

/-- What one tag does to the yield. -/
theorem Advance.yields {phase after : Phase} {tag : Tag} {tags : List Tag}
    (h : Advance phase tag after) (hy : phase.Yields tags) : after.Yields (tags ++ [tag]) := by
  cases h with
  | @effect _ effect =>
    have htags : Tag.withoutEffects (tags ++ [.effect effect]) = Tag.withoutEffects tags := by
      rw [Tag.withoutEffects_append]
      exact List.append_nil _
    cases phase <;> simpa only [Phase.Yields, htags] using hy
  | doctype =>
    have hy : Tag.withoutEffects tags = [] := hy
    rw [Phase.Yields, Tag.withoutEffects_append, hy]
    rfl
  | @openRoot doctype start hc =>
    have hy : Tag.withoutEffects tags = _ := hy
    have hroot : (PartialForm.fresh start (none : Option Node).isSome).Grows
        (.root doctype start) := PartialForm.grows_fresh hc
    refine ⟨[.fresh start false], ⟨⟨hroot, rfl, nofun⟩, trivial⟩, ?_⟩
    rw [Tag.withoutEffects_append, hy]
    rfl
  | inside h =>
    obtain ⟨forms, hgrown, htags⟩ := hy
    obtain ⟨grown, hnext, hstack⟩ := hgrown.step h
    refine ⟨grown, hnext, ?_⟩
    rw [Tag.withoutEffects_append, htags, h.withoutEffects, hstack, List.append_assoc]
  | closeRoot hi ho =>
    obtain ⟨forms, hgrown, htags⟩ := hy
    obtain _ | ⟨form, _ | ⟨_, _⟩⟩ := forms
    · exact hgrown.elim
    · obtain ⟨⟨hg, -, -⟩, -⟩ := hgrown
      refine ⟨form.toForm, rfl, hg.valid_toForm, ?_⟩
      rw [Tag.withoutEffects_append, htags, PartialForm.tags_toForm (hg.next.of_idle hi),
        List.append_assoc]
      rfl
    · exact hgrown.2.elim

/-- What a run does to the yield. -/
theorem Advances.yields {phase after : Phase} {tags : List Tag} (h : Advances phase tags after)
    (earlier : List Tag) (hy : phase.Yields earlier) : after.Yields (earlier ++ tags) := by
  induction h generalizing earlier with
  | nil => rwa [List.append_nil]
  | cons h _ ih =>
    have := ih _ (h.yields hy)
    rwa [List.append_assoc] at this

/-- Tags that make a tree are those of a valid form. -/
theorem exists_form_of_advances {tags : List Tag} {doctype : Option Doctype} {root : Node}
    (h : Advances (.before none) tags (.after doctype root)) :
    ∃ form : Form, form.isNode = true ∧ form.Valid ∧
      Tag.withoutEffects tags = Doctype.headerTags doctype ++ form.tags :=
  h.yields [] rfl

end TagTree
