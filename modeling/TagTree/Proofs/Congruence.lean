import TagTree.Proofs.Matching

/-!
# Trees of matching tags

The rules of building look at the marks and the language of an opening tag and at the language of a
header, and at nothing else in them. Where tags are alike in a way that keeps these, matching tags
lead by the rules from drafts that match to drafts that match (`Step.matches`), and the trees of
matching tags match (`Tree.agree_ofTags`).
-/

namespace TagTree

/-- Tags, labels and headers that are alike are so to a builder. -/
structure Indistinct (like : Likeness) (headers : Doctype → Doctype → Prop) : Prop where
  flags {first second : OpenTag} : like.start first second → first.flags = second.flags
  typeName {first second : OpenTag} : like.start first second → first.typeName = second.typeName
  marked {first second : OpenTag} (hasGap : Bool) : like.start first second →
    like.start (first.marked hasGap) (second.marked hasGap)
  label {first second : OpenTag} (inherited : Option String) : like.start first second →
    like.label (first.label inherited) (second.label inherited)
  labelFlags {first second : OpenTag} : like.label first second → first.flags = second.flags
  labelMarked {first second : OpenTag} (hasGap : Bool) : like.label first second →
    like.label (first.marked hasGap) (second.marked hasGap)
  header {first second : Doctype} : headers first second → first.language = second.language

variable {like : Likeness} {headers : Doctype → Doctype → Prop}

/-- Where both computations succeed, their results are related. -/
inductive Consistent {ε δ α β : Type} (R : α → β → Prop) : Except ε α → Except δ β → Prop where
  | ok {first : α} {second : β} (h : R first second) : Consistent R (.ok first) (.ok second)
  | left (error : ε) (second : Except δ β) : Consistent R (.error error) second
  | right (first : Except ε α) (error : δ) : Consistent R first (.error error)

/-! ### Segments -/

section Lists

variable {α β : Type} {R : α → β → Prop}

theorem forall₂_push {first : Array α} {second : Array β}
    (h : List.Forall₂ R first.toList second.toList) {a : α} {b : β} (hab : R a b) :
    List.Forall₂ R (first.push a).toList (second.push b).toList := by
  rw [Array.toList_push, Array.toList_push]
  exact List.rel_append h (.cons hab .nil)

theorem any_eq_of_forall₂ {first : List α} {second : List β} (h : List.Forall₂ R first second)
    {p : α → Bool} {q : β → Bool} (hpq : ∀ a b, R a b → p a = q b) :
    first.any p = second.any q := by
  induction h with
  | nil => rfl
  | cons hhead _ ih => rw [List.any_cons, List.any_cons, hpq _ _ hhead, ih]

end Lists

theorem Property.forall₂_insert {ν : Type} {same : ν → ν → Prop}
    {first second : Entries (Property ν)}
    (h : List.Forall₂ (MatchesNamed same) first second) {property other : Property ν}
    (hproperty : property.Matches same other) (name : String) :
    List.Forall₂ (MatchesNamed same) (first.insert name property) (second.insert name other) := by
  induction h with
  | nil => exact .cons (.of name hproperty) .nil
  | cons hentry hrest ih =>
    obtain ⟨present, hpresent⟩ := hentry
    rw [Entries.insert, Entries.insert]
    split
    · exact .cons (.of present hproperty) hrest
    · exact .cons (.of present hpresent) ih

/-- The segments are the same but for their nodes, which are related. -/
inductive Segment.Matches {ν : Type} (same : ν → ν → Prop) : Segment ν → Segment ν → Prop where
  | content (text : String) : Matches same (.content text) (.content text)
  | embedded (edge : Option Reference) {first second : ν} (h : same first second) :
    Matches same (.embedded edge first) (.embedded edge second)
  | arrayStart (edge : Reference) : Matches same (.arrayStart edge) (.arrayStart edge)
  | value (edge : Reference) (shifts : Nat) {first second : ν} (h : same first second) :
    Matches same (.value edge first shifts) (.value edge second shifts)

namespace Segment

variable {ν : Type} {same : ν → ν → Prop}

/-- Segments that match have items that match. -/
theorem Matches.items {first second : Segment ν} (h : first.Matches same second) :
    List.Forall₂ (Item.Matches same) first.items second.items := by
  have hshifts : ∀ first count, List.Forall₂ (Item.Matches same) (shiftItems first count)
      (shiftItems first count) := by
    intro first count
    induction count generalizing first with
    | zero => exact .nil
    | succ count ih => exact .cons (.shift first) (.cons .gap (ih (first + 1)))
  cases h with
  | content text => exact .cons (.literal text) .nil
  | embedded edge h =>
    cases edge with
    | none => exact .cons (.embedded h) .nil
    | some edge => exact .cons (.reference edge) (.cons (.embedded h) .nil)
  | arrayStart edge => exact .cons (.reference edge) (.cons .arrayStart .nil)
  | value edge shifts => exact .cons (.reference edge) (.cons .gap (hshifts 1 shifts))

/-- Segments that match bind values that match. -/
theorem Matches.addTo {first second : Segment ν} {entries others : Entries (Property ν)}
    (h : first.Matches same second)
    (hentries : List.Forall₂ (Property.MatchesNamed same) entries others) :
    List.Forall₂ (Property.MatchesNamed same) (first.addTo entries) (second.addTo others) := by
  cases h with
  | content | embedded => exact hentries
  | arrayStart edge => exact Property.forall₂_insert hentries (.array .nil) edge.name
  | value edge shifts h =>
    simp only [Segment.addTo, bindTo]
    split
    · have hproperty := Property.rel_get? hentries edge.name
      generalize entries.get? edge.name = found, others.get? edge.name = found' at hproperty
      cases hproperty with
      | none => exact hentries
      | some hproperty =>
        cases hproperty with
        | single => exact hentries
        | array hbindings =>
          exact Property.forall₂_insert hentries (.array (forall₂_push hbindings (.of edge h))) _
    · exact Property.forall₂_insert hentries (.single (.of edge h)) _

variable {first second : List (Segment ν)} (h : List.Forall₂ (Matches same) first second)

include h

theorem forall₂_allItems : List.Forall₂ (Item.Matches same) (allItems first) (allItems second) :=
  List.rel_flatMap h fun _ _ hsegment => hsegment.items

theorem forall₂_properties :
    List.Forall₂ (Property.MatchesNamed same) (properties first) (properties second) :=
  List.rel_foldl (fun _ _ hentries _ _ hsegment => hsegment.addTo hentries) .nil h

end Segment

/-! ### Drafts -/

theorem Node.Matches.hasGap_eq {node other : Node} (h : node.Matches like other)
    (hindistinct : Indistinct like headers) : node.hasGap = other.hasGap := by
  cases h with
  | element _ label => exact congrArg NodeFlags.hasGap (hindistinct.labelFlags label)
  | _ => rfl

/-- The stages are the same but for their nodes, which match. -/
inductive Stage.Matches (like : Likeness) : Stage → Stage → Prop where
  | resting : Matches like .resting .resting
  | bound (edge : Reference) (shifts : Nat) {first second : Node}
    (h : first.Matches like second) :
    Matches like (.bound edge first shifts) (.bound edge second shifts)
  | waiting (edge : Reference) : Matches like (.waiting edge) (.waiting edge)
  | shifting (edge : Reference) (shifts : Nat) {first second : Node}
    (h : first.Matches like second) :
    Matches like (.shifting edge first shifts) (.shifting edge second shifts)

/-- The drafts are the same but for opening tags and labels, which are alike. -/
structure Draft.Matches (like : Likeness) (first second : Draft) : Prop where
  start : like.start first.start second.start
  label : like.label first.label second.label
  segments : List.Forall₂ (Segment.Matches (Node.Matches like)) first.segments second.segments
  held : first.held = second.held
  owed : Option.Rel (Node.Matches like) first.owed second.owed
  stage : first.stage.Matches like second.stage

/-- No reference waits where no segment has been begun. -/
theorem Draft.not_idle {draft : Draft} {edge : Reference} (hs : draft.stage = .waiting edge) :
    ¬ draft.Idle := by
  simp [Idle, hs]

namespace Draft.Matches

variable {first second : Draft} {node other : Node}

variable (hindistinct : Indistinct like headers)

include hindistinct in
theorem fresh {start start' : OpenTag} {owed owed' : Option Node} (hstart : like.start start start')
    (inherited : Option String) (howed : Option.Rel (Node.Matches like) owed owed') :
    (Draft.fresh start.plain inherited owed).Matches like (.fresh start'.plain inherited owed') :=
  have hplain : like.start start.plain start'.plain := hindistinct.marked false hstart
  ⟨hplain, hindistinct.label inherited hplain, .nil, rfl, howed, .resting⟩

variable (h : first.Matches like second)

include h

theorem inStage {stage stage' : Stage} (hstage : stage.Matches like stage') :
    (first.inStage stage).Matches like (second.inStage stage') :=
  { h with stage := hstage }

theorem add {segment segment' : Segment Node}
    (hsegment : segment.Matches (Node.Matches like) segment') :
    (first.add segment).Matches like (second.add segment') :=
  { h with segments := List.rel_append h.segments (.cons hsegment .nil), stage := .resting }

theorem idle_iff : first.Idle ↔ second.Idle := by
  have hstage := h.stage
  unfold Idle
  generalize first.stage = stage, second.stage = stage' at hstage
  cases hstage <;> simp

theorem receive (hnode : node.Matches like other) :
    (first.receive node).Matches like (second.receive other) := by
  have hstage := h.stage
  unfold Draft.receive
  generalize first.stage = stage, second.stage = stage' at hstage
  cases hstage with
  | resting | bound => exact h.add (.embedded none hnode)
  | waiting edge =>
    dsimp only
    split
    · exact h.add (.embedded _ hnode)
    · exact h.inStage (.bound edge 0 hnode)
  | shifting edge shifts => exact h.inStage (.bound edge (shifts + 1) hnode)

include hindistinct

theorem allSegments :
    List.Forall₂ (Segment.Matches (Node.Matches like)) first.allSegments second.allSegments := by
  refine List.rel_append h.segments ?_
  have hstage := h.stage
  generalize first.stage = stage, second.stage = stage' at hstage
  cases hstage with
  | resting | waiting => exact .nil
  | bound edge shifts h | shifting edge shifts h =>
    rw [Stage.segments, Stage.segments, Segment.bound, Segment.bound, h.hasGap_eq hindistinct]
    exact .cons (.value _ shifts h) .nil

theorem settled : first.settled.Matches like second.settled :=
  { h with segments := h.allSegments hindistinct, stage := .resting }

theorem hold (hstage : first.stage.items.length = second.stage.items.length) :
    first.hold.Matches like second.hold := by
  refine { h with owed := .none, held := congrArg some ?_ }
  rw [items, items, List.length_append, List.length_append, hstage,
    (Segment.forall₂_allItems (h.allSegments hindistinct)).length_eq]

/-- Drafts that match are finished as nodes that match. -/
theorem toNode : first.toNode.Matches like second.toNode := by
  have hitems := Segment.forall₂_allItems (h.allSegments hindistinct)
  have hproperties := Segment.forall₂_properties (h.allSegments hindistinct)
  have hbindings : ∀ binding binding' : Binding Node,
      binding.Matches (Node.Matches like) binding' →
        binding.node.hasGap = binding'.node.hasGap := by
    rintro _ _ ⟨edge, hnode⟩
    exact hnode.hasGap_eq hindistinct
  suffices hgap : Node.anyGap (Segment.properties first.allSegments)
      (Segment.allItems first.allSegments) = Node.anyGap (Segment.properties second.allSegments)
        (Segment.allItems second.allSegments) from
    .element (hgap ▸ hindistinct.marked _ h.start) (hgap ▸ hindistinct.labelMarked _ h.label) h.held
      hitems hproperties
  refine congrArg₂ (· || ·) (any_eq_of_forall₂ hproperties ?_) (any_eq_of_forall₂ hitems ?_)
  · rintro _ _ ⟨name, hproperty⟩
    cases hproperty with
    | single hbinding => exact any_eq_of_forall₂ (.cons hbinding .nil) hbindings
    | array hbinding => exact any_eq_of_forall₂ hbinding hbindings
  · rintro _ _ ⟨⟩
    case embedded hnode => exact hnode.hasGap_eq hindistinct
    all_goals rfl

end Draft.Matches

/-! ### Steps -/

section Steps

variable (hindistinct : Indistinct like headers)

include hindistinct

/-- A node may open in drafts that match in one way only. -/
theorem Draft.Opens.matches {first second parent parent' : Draft} {embedded : Bool}
    {owed owed' : Option Node} (h : first.Matches like second)
    (ho : first.Opens embedded parent owed) (ho' : second.Opens embedded parent' owed') :
    parent.Matches like parent' ∧ Option.Rel (Node.Matches like) owed owed' := by
  have hstage := h.stage
  cases ho with
  | beside hi =>
    cases ho' with
    | beside => exact ⟨h.settled hindistinct, .none⟩
    | reserved hs' => exact absurd (h.idle_iff.mp hi) (Draft.not_idle hs')
  | reserved hs =>
    cases ho' with
    | reserved => exact ⟨h, .none⟩
    | beside hi => exact absurd (h.idle_iff.mpr hi) (Draft.not_idle hs)
  | value hs =>
    cases ho' with
    | value => exact ⟨h, .none⟩
    | shifted hs' =>
      rw [hs, hs'] at hstage
      cases hstage
  | shifted hs =>
    cases ho' with
    | value hs' =>
      rw [hs, hs'] at hstage
      cases hstage
    | shifted hs' =>
      rw [hs, hs'] at hstage
      cases hstage with
      | shifting _ _ hnode => exact ⟨h, .some hnode⟩

/-- Matching tags lead by the rules from drafts that match to drafts that match. -/
theorem Step.matches {drafts drafts' after after' : List Draft} {tag tag' : Tag}
    (hdrafts : List.Forall₂ (Draft.Matches like) drafts drafts')
    (htag : tag.Matches like headers tag') (h : Step drafts tag after)
    (h' : Step drafts' tag' after') : List.Forall₂ (Draft.Matches like) after after' := by
  obtain _ | ⟨hdraft, hrest⟩ := hdrafts
  · cases h
  have hstage := hdraft.stage
  -- The stages match, so both steps are by one rule, and the other pairs are absurd.
  cases h with
  | content hi =>
    cases htag
    cases h' with
    | content => exact .cons ((hdraft.settled hindistinct).add (.content _)) hrest
    | literal hs' => exact absurd (hdraft.idle_iff.mp hi) (Draft.not_idle hs')
  | reference hi =>
    cases htag
    cases h'
    exact .cons ((hdraft.settled hindistinct).inStage (.waiting _)) hrest
  | arrayStart hs =>
    cases htag
    cases h' with
    | arrayStart hs' =>
      rw [hs, hs'] at hstage
      cases hstage
      exact .cons (hdraft.add (.arrayStart _)) hrest
  | null hs =>
    cases htag
    cases h' with
    | null hs' =>
      rw [hs, hs'] at hstage
      cases hstage
      exact .cons (hdraft.add (.value _ 0 .null)) hrest
  | literal hs =>
    cases htag
    cases h' with
    | content hi => exact absurd (hdraft.idle_iff.mpr hi) (Draft.not_idle hs)
    | literal hs' =>
      rw [hs, hs'] at hstage
      cases hstage
      exact .cons (hdraft.inStage (.bound _ 0 (.literal _))) hrest
  | gap hs _ ho =>
    cases htag
    have howed := hdraft.owed
    cases h' with
    | gap hs' =>
      rw [hs, hs'] at hstage
      cases hstage
      exact .cons (hdraft.inStage (.bound _ 0 .gap)) hrest
    | hold _ _ ho' =>
      rw [(Draft.anyOwed_cons_eq_false.mp ho).1, ho'] at howed
      cases howed
  | hold hs _ ho =>
    cases htag
    have howed := hdraft.owed
    cases h' with
    | gap _ _ ho' =>
      rw [ho, (Draft.anyOwed_cons_eq_false.mp ho').1] at howed
      cases howed
    | hold hs' _ ho' =>
      rw [ho, ho'] at howed
      rw [hs, hs'] at hstage
      cases hstage
      cases howed with
      | some hnode =>
        refine .cons ((hdraft.hold hindistinct ?_).inStage (.bound _ 0 hnode)) hrest
        rw [hs, hs']
  | shift hs =>
    cases htag
    cases h' with
    | shift hs' =>
      rw [hs, hs'] at hstage
      cases hstage with
      | bound _ _ hnode => exact .cons (hdraft.inStage (.shifting _ _ hnode)) hrest
  | @opening _ parent _ start owed _ ho =>
    cases htag with
    | opening hstart =>
      cases h' with
      | opening _ ho' =>
        rw [← hindistinct.flags hstart] at ho'
        obtain ⟨hparent, howed⟩ := ho.matches hindistinct hdraft ho'
        exact .cons (.fresh hindistinct hstart none howed) (.cons hparent hrest)
  | closing =>
    cases htag
    obtain _ | ⟨hparent, hrest⟩ := hrest
    cases h'
    exact .cons (hparent.receive (hdraft.toNode hindistinct)) hrest

/-- The phases are the same but for opening tags and headers, which are alike. -/
inductive Phase.Matches (like : Likeness) (headers : Doctype → Doctype → Prop) :
    Phase → Phase → Prop where
  | before {doctype doctype' : Option Doctype} (h : Option.Rel headers doctype doctype') :
    Matches like headers (.before doctype) (.before doctype')
  | within {doctype doctype' : Option Doctype} {drafts drafts' : List Draft}
    (h : Option.Rel headers doctype doctype')
    (hdrafts : List.Forall₂ (Draft.Matches like) drafts drafts') :
    Matches like headers (.within doctype drafts) (.within doctype' drafts')
  | after {doctype doctype' : Option Doctype} {root root' : Node}
    (h : Option.Rel headers doctype doctype') (hroot : root.Matches like root') :
    Matches like headers (.after doctype root) (.after doctype' root')

/-- Tags that match lead to phases that match. -/
theorem Advance.matches {phase phase' after after' : Phase} {tag tag' : Tag}
    (hphase : phase.Matches like headers phase') (htag : tag.Matches like headers tag')
    (h : Advance phase tag after) (h' : Advance phase' tag' after') :
    after.Matches like headers after' := by
  cases h with
  | effect => cases htag
  | doctype =>
    cases hphase
    cases htag with
    | doctype hheader =>
      cases h'
      exact .before (.some hheader)
  | openRoot =>
    cases hphase with
    | before hdoctype =>
      cases htag with
      | opening hstart =>
        cases h'
        refine .within hdoctype (.cons ?_ .nil)
        cases hdoctype with
        | none => exact .fresh hindistinct hstart none .none
        | some hheader =>
          rw [Draft.root, Draft.root, Option.bind_some, Option.bind_some,
            hindistinct.header hheader]
          exact .fresh hindistinct hstart _ .none
  | inside hstep =>
    cases hphase with
    | within hdoctype hdrafts =>
      cases h' with
      | inside hstep' => exact .within hdoctype (hstep.matches hindistinct hdrafts htag hstep')
      | effect => cases htag
      | closeRoot =>
        obtain _ | ⟨-, ⟨⟩⟩ := hdrafts
        cases htag
        cases hstep
  | closeRoot =>
    cases hphase with
    | within hdoctype hdrafts =>
      obtain _ | ⟨hdraft, ⟨⟩⟩ := hdrafts
      cases htag
      cases h' with
      | inside hstep => cases hstep
      | closeRoot => exact .after hdoctype (hdraft.toNode hindistinct)

theorem Advances.matches {phase phase' last last' : Phase} {tags tags' : List Tag}
    (hphase : phase.Matches like headers phase')
    (htags : List.Forall₂ (Tag.Matches like headers) tags tags')
    (h : Advances phase tags last) (h' : Advances phase' tags' last') :
    last.Matches like headers last' := by
  induction h generalizing phase' tags' with
  | nil =>
    cases htags
    cases h'
    exact hphase
  | cons hfirst _ ih =>
    cases htags with
    | cons htag htags =>
      cases h' with
      | cons hfirst' hrest' =>
        exact ih (hfirst.matches hindistinct hphase htag hfirst') htags hrest'

/-- The trees of matching tags match, where both are built. -/
theorem Tree.agree_ofTags {tags tags' : List Tag}
    (htags : List.Forall₂ (Tag.Matches like headers) tags tags') :
    Consistent (Tree.Matches like headers) (ofTags tags) (ofTags tags') := by
  cases h : ofTags tags with
  | error error => exact .left error _
  | ok tree =>
    cases h' : ofTags tags' with
    | error error => exact .right _ error
    | ok tree' =>
      have hlast := (ofTags_eq_ok_iff.mp ⟨tree.created, h⟩).matches hindistinct (.before .none)
        htags (ofTags_eq_ok_iff.mp ⟨tree'.created, h'⟩)
      cases hlast with
      | after hdoctype hroot => exact .ok ⟨hdoctype, hroot⟩

end Steps

end TagTree
