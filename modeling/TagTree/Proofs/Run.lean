import TagTree.Proofs.Step

/-!
# Runs of building

A builder without expressions is, before, within or after the root, in a phase, and each tag
advances it to the next. `Tree.ofTags_eq_ok_iff` says that a sequence of tags makes a tree if and
only if it leads by the rules from the first phase to the last.
-/

namespace TagTree

variable {tags : List Tag}

/-- How far the building of a tree has come. -/
inductive Phase where
  /-- The root has not been opened. -/
  | before (doctype : Option Doctype)
  /-- The root is open, and the drafts are those of all open nodes, innermost first. -/
  | within (doctype : Option Doctype) (drafts : List Draft)
  /-- The root is closed. -/
  | after (doctype : Option Doctype) (root : Node)

/-- The drafts of all open nodes, innermost first. -/
def Phase.drafts : Phase → List Draft
  | within _ drafts => drafts
  | _ => []

/-- The draft of a root that has just been opened. -/
def Draft.root (doctype : Option Doctype) (start : OpenTag) : Draft :=
  .fresh start.plain (doctype.bind Doctype.language) none

/-- The frame of a root that has just been opened. -/
def Frame.root (doctype : Option Doctype) (start : OpenTag) : Frame where
  start := start.plain
  label := start.plain.label (doctype.bind Doctype.language)
  destination := none
  owed := none

theorem Frame.running_root (doctype : Option Doctype) (start : OpenTag) :
    Frame.Running [.root doctype start] [.root doctype start] :=
  ⟨⟨⟨rfl, rfl, rfl, rfl, rfl, rfl, Scope.counts_empty, trivial, nofun⟩, ⟨rfl, rfl, nofun⟩,
    rfl, rfl⟩, trivial⟩

/-- What a tag does. -/
inductive Advance : Phase → Tag → Phase → Prop where
  | effect {phase : Phase} {effect : Effect} : Advance phase (.effect effect) phase
  | doctype {header : Doctype} : Advance (.before none) (.doctype header) (.before (some header))
  | openRoot {doctype : Option Doctype} {start : OpenTag}
    (hc : Builder.isContradictory start = false) :
    Advance (.before doctype) (.opening start) (.within doctype [.root doctype start])
  | inside {doctype : Option Doctype} {drafts after : List Draft} {tag : Tag}
    (h : Step drafts tag after) : Advance (.within doctype drafts) tag (.within doctype after)
  | closeRoot {doctype : Option Doctype} {draft : Draft} (hi : draft.Idle)
    (ho : draft.owed = none) :
    Advance (.within doctype [draft]) .closing (.after doctype draft.toNode)

/-- What a sequence of tags does. -/
inductive Advances : Phase → List Tag → Phase → Prop where
  | nil {phase : Phase} : Advances phase [] phase
  | cons {first middle last : Phase} {tag : Tag} {tags : List Tag}
    (h : Advance first tag middle) (hrest : Advances middle tags last) :
    Advances first (tag :: tags) last

namespace Advances

variable {first middle last : Phase} {more : List Tag}

theorem single {tag : Tag} (h : Advance first tag last) : Advances first [tag] last :=
  .cons h .nil

theorem append (h : Advances first tags middle) (hmore : Advances middle more last) :
    Advances first (tags ++ more) last := by
  induction h with
  | nil => exact hmore
  | cons h _ ih => exact .cons h (ih hmore)

end Advances

namespace Step

variable {drafts after : List Draft} {tag : Tag}

theorem ne_doctype (h : Step drafts tag after) (header : Doctype) : tag ≠ .doctype header := by
  rintro rfl
  cases h

theorem ne_effect (h : Step drafts tag after) (effect : Effect) : tag ≠ .effect effect := by
  rintro rfl
  cases h

end Step

namespace Builder

variable {builder next : Builder} {phase after : Phase} {tag : Tag}

/-- The builder is in the phase. -/
structure In (builder : Builder) (phase : Phase) : Prop where
  awaiting : builder.awaiting = none
  holds : match phase with
    | .before doctype => builder.doctype = doctype ∧ builder.root = none ∧ builder.frames = []
    | .within doctype drafts =>
      builder.doctype = doctype ∧ builder.root = none ∧ Frame.Running builder.frames drafts
    | .after doctype root =>
      builder.doctype = doctype ∧ builder.root = some root ∧ builder.frames = []

/-- The builder after a tag that was taken in a phase. -/
structure Took (builder : Builder) (phase : Phase) (tag : Tag) (after : Phase) (next : Builder) :
    Prop where
  inPhase : next.In after
  expressions : next.expressions = builder.expressions
  created : next.created = builder.created + Draft.made phase.drafts tag

theorem needsExpression_of_awaiting (ha : builder.awaiting = none) :
    builder.needsExpression = false := by
  simp [needsExpression, ha]

variable {frame : Frame} {frames : List Frame} {doctype : Option Doctype} {drafts : List Draft}

/-- Within the root a node is open. -/
theorem In.exists_frames (hb : builder.In (.within doctype drafts)) :
    ∃ frame frames, builder.frames = frame :: frames ∧ Frame.Running (frame :: frames) drafts := by
  have hrunning := hb.holds.2.2
  cases hf : builder.frames with
  | nil => exact (hf ▸ hrunning).elim
  | cons frame frames => exact ⟨frame, frames, rfl, hf ▸ hrunning⟩

/-- Where a node is open, the phase is within the root. -/
theorem In.running (hb : builder.In phase) (hf : builder.frames = frame :: frames) :
    ∃ doctype draft rest, phase = .within doctype (draft :: rest) ∧
      Frame.Running (frame :: frames) (draft :: rest) := by
  cases phase with
  | before | after => exact absurd (hb.holds.2.2.symm.trans hf) nofun
  | within doctype drafts =>
    have hrunning := hb.holds.2.2
    rw [hf] at hrunning
    obtain _ | ⟨draft, rest⟩ := drafts
    · exact hrunning.elim
    · exact ⟨doctype, draft, rest, rfl, hrunning⟩

/-- A tag comes to the innermost open node, if there is one. -/
theorem push_eq (tag : Tag) (ha : builder.awaiting = none) (hd : ∀ header, tag ≠ .doctype header)
    (he : ∀ effect, tag ≠ .effect effect) :
    builder.push tag = match builder.frames with
      | frame :: frames => { builder with frames := [] }.pushInside frame frames tag
      | [] => do return (.accepted, ← builder.pushOutside tag) := by
  unfold push
  rw [needsExpression_of_awaiting ha]
  cases tag with
  | doctype header => exact absurd rfl (hd header)
  | effect effect => exact absurd rfl (he effect)
  | _ => cases builder.frames <;> rfl

/-- A builder takes every tag that the rules admit, unless it has an expression for the gap. -/
theorem push_of_advance (hb : builder.In phase) (he : builder.expressions = true → tag = .gap →
      ∀ doctype drafts, phase = .within doctype drafts → Draft.anyOwed drafts = true)
    (h : Advance phase tag after) :
    ∃ next, builder.push tag = .ok (.accepted, next) ∧ builder.Took phase tag after next := by
  have hn := needsExpression_of_awaiting hb.awaiting
  cases h with
  | effect => exact ⟨builder, by simp [push, hn], hb, rfl, rfl⟩
  | doctype =>
    obtain ⟨hdoctype, hroot, hframes⟩ := hb.holds
    refine ⟨{ builder with doctype := some _ }, ?_, ⟨hb.awaiting, rfl, hroot, hframes⟩, rfl, rfl⟩
    simp only [push, hn, pushDoctype, hasRoot, hdoctype, hroot, hframes, Bool.false_eq_true,
      if_false]
    rfl
  | @openRoot doctype start hc =>
    obtain ⟨hdoctype, hroot, hframes⟩ := hb.holds
    have hopen : builder.openRoot start = .ok (builder.make.withTop [] (.root doctype start)) := by
      simp only [openRoot, hc, hdoctype, Bool.false_eq_true, if_false]
      rfl
    refine ⟨builder.make.withTop [] (.root doctype start), ?_,
      ⟨hb.awaiting, hdoctype, hroot, Frame.running_root doctype start⟩, rfl, rfl⟩
    simp only [push, hn, hframes, pushOutside, hroot, hopen, Bool.false_eq_true, if_false]
    rfl
  | @inside doctype drafts after tag h =>
    obtain ⟨hdoctype, hroot, -⟩ := hb.holds
    obtain ⟨frame, frames, hf, hrunning⟩ := hb.exists_frames
    obtain ⟨next, hpush, hc, hnext, hmade⟩ := pushInside_of_step { builder with frames := [] }
      hrunning h fun hexpr hgap => he hexpr hgap doctype drafts rfl
    refine ⟨next, ?_, ⟨hc.awaiting.trans hb.awaiting, hc.doctype.trans hdoctype,
      hc.root.trans hroot, hnext⟩, hc.expressions, hmade⟩
    rw [push_eq _ hb.awaiting h.ne_doctype h.ne_effect, hf]
    exact hpush
  | @closeRoot doctype draft hi ho =>
    obtain ⟨hdoctype, hroot, -⟩ := hb.holds
    obtain ⟨frame, frames, hf, ⟨h, ha, -⟩, hbelow⟩ := hb.exists_frames
    cases frames with
    | cons => exact hbelow.elim
    | nil =>
      refine ⟨{ builder with frames := [], root := some draft.toNode }, ?_,
        ⟨hb.awaiting, hdoctype, rfl, rfl⟩, rfl, rfl⟩
      rw [push_eq .closing hb.awaiting (fun _ => nofun) (fun _ => nofun), hf]
      dsimp only
      rw [pushInside, if_neg (not_refused (ha.of_idle hi).2)]
      simp only [close, (Frame.checkClose_iff h ha).mpr ⟨hi, ho⟩, Frame.toNode_of_tells h hi]
      rfl

/-- What a builder without open nodes takes. -/
theorem advance_of_pushOutside (hb : builder.In phase) (hf : builder.frames = [])
    (hp : builder.pushOutside tag = .ok next) : ∃ after, Advance phase tag after := by
  unfold pushOutside at hp
  split at hp
  · cases hp
  · rename_i hroot
    cases tag with
    | opening start =>
      simp only [openRoot] at hp
      split at hp
      · cases hp
      · rename_i hc
        cases phase with
        | before doctype => exact ⟨_, .openRoot (by simpa using hc)⟩
        | within doctype drafts =>
          have hrunning := hb.holds.2.2
          rw [hf] at hrunning
          exact hrunning.elim
        | after doctype root => simp [hb.holds.2.1] at hroot
    | _ => cases hp

/-- The header comes first, and once. -/
theorem advance_of_pushDoctype {header : Doctype} (hb : builder.In phase)
    (hp : builder.pushDoctype header = .ok next) :
    ∃ after, Advance phase (.doctype header) after := by
  unfold pushDoctype at hp
  split at hp
  · cases hp
  · rename_i hfree
    cases phase with
    | before doctype =>
      obtain rfl : builder.doctype = doctype := hb.holds.1
      cases hdoctype : builder.doctype with
      | none => exact ⟨_, .doctype⟩
      | some => simp [hdoctype] at hfree
    | within doctype drafts =>
      obtain ⟨frame, frames, hf, -⟩ := hb.exists_frames
      simp [hasRoot, hf] at hfree
    | after doctype root => simp [hasRoot, hb.holds.2.1] at hfree

/-- A builder takes only what the rules admit. -/
theorem exists_advance_of_push (hb : builder.In phase)
    (hp : builder.push tag = .ok (.accepted, next)) : ∃ after, Advance phase tag after := by
  have hn := needsExpression_of_awaiting hb.awaiting
  by_cases hd : ∃ header, tag = .doctype header
  · obtain ⟨header, rfl⟩ := hd
    simp only [push, hn, Bool.false_eq_true, if_false] at hp
    obtain ⟨next, hp, -⟩ := bind_eq_ok.mp hp
    exact advance_of_pushDoctype hb hp
  by_cases he : ∃ effect, tag = .effect effect
  · obtain ⟨effect, rfl⟩ := he
    exact ⟨_, .effect⟩
  rw [not_exists] at hd he
  cases hf : builder.frames with
  | nil =>
    rw [push_eq tag hb.awaiting hd he, hf] at hp
    obtain ⟨next, hp, -⟩ := bind_eq_ok.mp hp
    exact advance_of_pushOutside hb hf hp
  | cons frame frames =>
    rw [push_eq tag hb.awaiting hd he, hf] at hp
    obtain ⟨doctype, draft, rest, rfl, hrunning⟩ := hb.running hf
    obtain ⟨after, hs⟩ | ⟨_, hdrafts, rfl, hi, ho, -⟩ := step_of_pushInside hrunning hd he hp
    · exact ⟨_, .inside hs⟩
    · cases hdrafts
      exact ⟨_, .closeRoot hi ho⟩

/-- A builder with expressions takes a gap only to take back a value. -/
theorem anyOwed_of_push (hb : builder.In (.within doctype drafts)) (he : builder.expressions = true)
    (hp : builder.push .gap = .ok (.accepted, next)) : Draft.anyOwed drafts = true := by
  obtain ⟨frame, frames, hf, -⟩ := hb.exists_frames
  obtain ⟨_, draft, rest, ⟨⟩, ⟨h, ha, habove⟩, -⟩ := hb.running hf
  rw [push_eq .gap hb.awaiting (fun _ => nofun) (fun _ => nofun), hf] at hp
  dsimp only [pushInside] at hp
  split at hp
  · cases hp
  · obtain ⟨edge, -, -, -, ⟨-, howed⟩ | ⟨hfeed, -⟩⟩ := gap_cases h ha habove hp
    · exact Draft.anyOwed_cons.mpr (.inl (howed he))
    · cases hfeed

/-- What a builder takes leads by the rules to the next phase. -/
theorem advance_of_push (hb : builder.In phase) (hp : builder.push tag = .ok (.accepted, next)) :
    ∃ after, Advance phase tag after ∧ builder.Took phase tag after next := by
  obtain ⟨after, hadv⟩ := exists_advance_of_push hb hp
  have he : builder.expressions = true → tag = .gap →
      ∀ doctype drafts, phase = .within doctype drafts → Draft.anyOwed drafts = true := by
    rintro hexpr rfl doctype drafts rfl
    exact anyOwed_of_push hb hexpr hp
  obtain ⟨found, hfound, htook⟩ := push_of_advance hb he hadv
  rw [hp] at hfound
  cases hfound
  exact ⟨after, hadv, htook⟩

/-- The builder asks for an expression: a reference waits for its value in the innermost open node,
and no open node has a value to take back. -/
structure Asks (builder : Builder) (draft : Draft) (rest : List Draft) (frame : Frame)
    (below : List Frame) (edge : Reference) (next : Builder) : Prop where
  frames : builder.frames = frame :: below
  running : Frame.Running (frame :: below) (draft :: rest)
  stage : draft.stage = .waiting edge
  bindable : Mention.Bindable (Segment.mentions draft.segments) edge
  owed : draft.owed = none
  anyOwed : Draft.anyOwed rest = false
  expressions : builder.expressions = true
  next : next = { builder with
    frames := frame.taken :: below, awaiting := some (draft.target edge) }

/-- An expression is asked for at a gap within the root. -/
theorem gap_of_push (hb : builder.In phase) (hp : builder.push tag = .ok (.needsExpression, next)) :
    ∃ doctype draft rest frame frames edge, phase = .within doctype (draft :: rest) ∧ tag = .gap ∧
      builder.Asks draft rest frame frames edge next := by
  have hn := needsExpression_of_awaiting hb.awaiting
  have hd : ∀ header, tag ≠ .doctype header := by
    rintro header rfl
    simp only [push, hn, Bool.false_eq_true, if_false] at hp
    obtain ⟨_, -, hp⟩ := bind_eq_ok.mp hp
    cases hp
  have he : ∀ effect, tag ≠ .effect effect := by
    rintro effect rfl
    simp only [push, hn, Bool.false_eq_true, if_false] at hp
    cases hp
  cases hf : builder.frames with
  | nil =>
    rw [push_eq tag hb.awaiting hd he, hf] at hp
    obtain ⟨_, -, hp⟩ := bind_eq_ok.mp hp
    cases hp
  | cons frame frames =>
    rw [push_eq tag hb.awaiting hd he, hf] at hp
    obtain ⟨rfl, hgap⟩ := gap_of_needsExpression hp
    obtain ⟨doctype, draft, rest, rfl, hrunning⟩ := hb.running hf
    obtain ⟨edge, hstage, hbind, hrest, ⟨hfeed, -⟩ | ⟨-, hexpr, howed, rfl⟩⟩ :=
      gap_cases hrunning.1.1 hrunning.1.2.1 hrunning.1.2.2 hgap
    · cases hfeed
    · exact ⟨doctype, draft, rest, frame, frames, edge, rfl, rfl, hf, hrunning, hstage,
        hbind, howed,
        hrest, hexpr, rfl⟩

section Unasked

variable {expressions : List (Option Tree)} (hb : builder.In phase)
  (he : builder.expressions = false)

include hb he

/-- Without expressions no gap asks for one. -/
theorem push_ne_needsExpression : builder.push tag ≠ .ok (.needsExpression, next) := by
  intro hp
  obtain ⟨_, _, _, _, _, _, -, -, hasks⟩ := gap_of_push hb hp
  exact absurd (he.symm.trans hasks.expressions) nofun

/-- A builder without expressions runs by the rules. -/
theorem pushAll_of_advances (h : Advances phase tags after) :
    ∃ next, builder.pushAll tags expressions = .ok next ∧ next.In after ∧
      next.expressions = false := by
  induction h generalizing builder with
  | nil => exact ⟨builder, rfl, hb, he⟩
  | cons h _ ih =>
    obtain ⟨next, hpush, hnext, hexpr⟩ :=
      push_of_advance hb (fun htrue => absurd (he.symm.trans htrue) nofun) h
    obtain ⟨last, hlast⟩ := ih hnext (hexpr.trans he)
    refine ⟨last, ?_, hlast.2⟩
    rw [pushAll, hpush]
    exact hlast.1

/-- The first of the tags that a builder without expressions takes. -/
theorem cons_of_pushAll (h : builder.pushAll (tag :: tags) expressions = .ok next) :
    ∃ middle after, builder.push tag = .ok (.accepted, middle) ∧ Advance phase tag after ∧
      builder.Took phase tag after middle ∧ middle.expressions = false ∧
      middle.pushAll tags expressions = .ok next := by
  rw [pushAll] at h
  split at h
  · cases h
  · rename_i middle hpush
    obtain ⟨after, hadv, htook⟩ := advance_of_push hb hpush
    exact ⟨middle, after, hpush, hadv, htook, htook.expressions.trans he, h⟩
  · rename_i hpush
    exact absurd hpush (push_ne_needsExpression hb he)

theorem advances_of_pushAll (h : builder.pushAll tags expressions = .ok next) :
    ∃ after, Advances phase tags after ∧ next.In after := by
  induction tags generalizing builder phase with
  | nil =>
    cases h
    exact ⟨phase, .nil, hb⟩
  | cons tag tags ih =>
    obtain ⟨middle, after, -, hadv, htook, hexpr, h⟩ := cons_of_pushAll hb he h
    obtain ⟨last, hrest, hlast⟩ := ih htook.inPhase hexpr h
    exact ⟨last, .cons hadv hrest, hlast⟩

end Unasked

/-- A builder that takes an effect is left as it was. -/
theorem pushAll_effect {effect : Effect} {expressions : List (Option Tree)}
    {after : Builder} (h : builder.pushAll (.effect effect :: tags) expressions = .ok after) :
    builder.pushAll tags expressions = .ok after := by
  rw [pushAll, push] at h
  cases hwaits : builder.needsExpression with
  | true => simp [hwaits, refuse] at h
  | false => simpa [hwaits] using h

/-- A builder that is finished has closed the root. -/
theorem In.of_finish {tree : Tree} (hb : builder.In phase) (h : builder.finish = .ok tree) :
    phase = .after tree.doctype tree.root := by
  obtain ⟨hframes, hroot, hdoctype, -⟩ := Builder.of_finish h
  cases phase with
  | before doctype => cases hroot.symm.trans hb.holds.2.1
  | within doctype drafts => exact (hframes ▸ hb.holds.2.2).elim
  | after doctype root =>
    obtain ⟨hsame, hfound, -⟩ := hb.holds
    cases hfound.symm.trans hroot
    rw [hdoctype, hsame]

/-- A fresh builder has seen nothing. -/
theorem in_before (expressions : Bool) :
    ({ expressions := expressions } : Builder).In (.before none) :=
  ⟨rfl, rfl, rfl, rfl⟩

end Builder

/-- The tags of a sequence make a tree if and only if they lead by the rules to its root. -/
theorem Tree.ofTags_eq_ok_iff {doctype : Option Doctype} {root : Node} :
    (∃ created, Tree.ofTags tags = .ok ⟨doctype, root, created⟩) ↔
      Advances (.before none) tags (.after doctype root) := by
  constructor
  · rintro ⟨created, h⟩
    obtain ⟨builder, hpush, hfinish⟩ := bind_eq_ok.mp h
    obtain ⟨phase, hadv, hin⟩ := Builder.advances_of_pushAll (Builder.in_before false) rfl hpush
    rw [hin.of_finish hfinish] at hadv
    exact hadv
  · intro h
    obtain ⟨builder, hpush, hin, -⟩ := Builder.pushAll_of_advances (Builder.in_before false) rfl h
    obtain ⟨hdoctype, hroot, hframes⟩ := hin.holds
    refine ⟨builder.created, bind_eq_ok.mpr ⟨builder, hpush, ?_⟩⟩
    simp [Builder.finish, Builder.needsExpression, hin.awaiting, hroot, hframes, hdoctype]

end TagTree
