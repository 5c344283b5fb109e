import TagTree.Proofs.Expression

/-!
# Builders that agree

Two computations agree if both succeed, with results that are related, or both fail in the same way.
A builder that asks for expressions agrees with one that does not, up to the gaps that ask
(`Builder.Alike.push`). A node can be built within any other (`Step.within`), and when it is
complete, the one around it receives it (`Builder.pushAll_within`).
-/

namespace TagTree

variable {α β : Type} {doctype : Option Doctype} {root : Node} {tags : List Tag}
  {drafts : List Draft} {tag : Tag}

/-- Both computations succeed with related results, or both fail with related errors. -/
inductive Agree {ε δ α β : Type} (E : ε → δ → Prop) (R : α → β → Prop) :
    Except ε α → Except δ β → Prop where
  | ok {first : α} {second : β} (h : R first second) : Agree E R (.ok first) (.ok second)
  | error {first : ε} {second : δ} (h : E first second) : Agree E R (.error first) (.error second)

namespace Agree

variable {ε ε' δ α' β' : Type} {E : ε → δ → Prop} {R : α → β → Prop} {S : α' → β' → Prop}
  {first : Except ε α} {second : Except δ β}

/-- Where the first computation succeeds, the second one does. -/
theorem exists_second {value : α} (h : Agree E R first second) (hfirst : first = .ok value) :
    ∃ result, second = .ok result ∧ R value result := by
  subst hfirst
  cases h with
  | ok h => exact ⟨_, rfl, h⟩

theorem exists_first {result : β} (h : Agree E R first second) (hsecond : second = .ok result) :
    ∃ value, first = .ok value ∧ R value result := by
  subst hsecond
  cases h with
  | ok h => exact ⟨_, rfl, h⟩

theorem mono {R' : α → β → Prop} (h : Agree E R first second) (hr : ∀ a b, R a b → R' a b) :
    Agree E R' first second := by
  cases h with
  | ok h => exact .ok (hr _ _ h)
  | error h => exact .error h

/-- Computations that go on in the same way agree. -/
theorem bind {next : α → Except ε α'} {next' : β → Except δ β'} (h : Agree E R first second)
    (hnext : ∀ a b, R a b → Agree E S (next a) (next' b)) :
    Agree E S (first >>= next) (second >>= next') := by
  cases h with
  | ok h => exact hnext _ _ h
  | error h => exact .error h

/-- Computations still agree when their errors are put in other words. -/
theorem mapError {wording : ε → ε'} {second : Except ε β} (h : Agree Eq R first second) :
    Agree Eq R (first.mapError wording) (second.mapError wording) := by
  cases h with
  | ok h => exact .ok h
  | error h => exact .error (congrArg wording h)

theorem ite_iff {p q : Prop} [Decidable p] [Decidable q] {other : Except ε α}
    {other' : Except δ β} (hpq : p ↔ q) (h : p → Agree E R first second)
    (hnot : ¬ p → Agree E R other other') :
    Agree E R (if p then first else other) (if q then second else other') := by
  by_cases hp : p
  · rw [if_pos hp, if_pos (hpq.mp hp)]
    exact h hp
  · rw [if_neg hp, if_neg (hp ∘ hpq.mpr)]
    exact hnot hp

theorem ite {p : Prop} [Decidable p] {other : Except ε α} {other' : Except δ β}
    (h : p → Agree E R first second) (hnot : ¬ p → Agree E R other other') :
    Agree E R (if p then first else other) (if p then second else other') :=
  ite_iff .rfl h hnot

end Agree

/-- Both attempts succeed with related results, or both are refused for the same reason. -/
abbrev Attempt.Agree {σ τ α β : Type} (R : α → β → Prop) : Attempt σ α → Attempt τ β → Prop :=
  TagTree.Agree (fun first second => first.error = second.error) R

namespace Builder

variable {first second : Builder} {frame other : Frame} {below below' : List Frame}

/-- Steps of frames that agree are steps of builders that agree. -/
theorem agree_lift {R : α → β → Prop} {attempt : Attempt Frame α} {attempt' : Attempt Frame β}
    (h : attempt.Agree R attempt') :
    (first.lift below attempt).Agree R (second.lift below' attempt') := by
  cases h with
  | ok h => exact .ok h
  | error h => exact .error h

theorem agree_lift_self (attempt : Attempt Frame α) :
    (first.lift below attempt).Agree Eq (second.lift below' attempt) := by
  refine agree_lift ?_
  cases attempt with
  | ok value => exact .ok rfl
  | error refusal => exact .error rfl

end Builder

namespace Builder

/-- The two builders have the same nodes. -/
structure Alike (first second : Builder) : Prop where
  doctype : first.doctype = second.doctype
  root : first.root = second.root
  frames : first.frames = second.frames
  awaiting : first.awaiting = second.awaiting

/-- The two builders have the same nodes after both took a tag. -/
def AlikeAfter (first second : Feed × Builder) : Prop :=
  first.1 = second.1 ∧ first.2.Alike second.2

namespace Alike

variable {first second : Builder} (h : first.Alike second)

include h

theorem withTop (below : List Frame) (frame : Frame) :
    (first.withTop below frame).Alike (second.withTop below frame) :=
  ⟨h.doctype, h.root, rfl, h.awaiting⟩

theorem close (frame : Frame) (below : List Frame) :
    (first.close frame below).Agree Alike (second.close frame below) := by
  unfold Builder.close
  split
  · exact .error rfl
  · cases below with
    | nil => exact .ok ⟨h.doctype, rfl, rfl, h.awaiting⟩
    | cons parent outer =>
      refine (agree_lift_self _).bind ?_
      rintro parent _ rfl
      exact .ok (h.withTop ..)

theorem onTop (below : List Frame) (attempt : Attempt Frame Frame) :
    Attempt.Agree AlikeAfter
      (do return (Feed.accepted, first.withTop below (← first.lift below attempt)))
      (do return (Feed.accepted, second.withTop below (← second.lift below attempt))) := by
  refine (agree_lift_self attempt).bind ?_
  rintro next _ rfl
  exact .ok ⟨rfl, h.withTop ..⟩

theorem openChild (frame : Frame) (below : List Frame) (start : OpenTag) :
    (first.openChild frame below start).Agree Alike (second.openChild frame below start) := by
  refine .ite (fun _ => .error rfl) fun _ => (agree_lift_self _).bind ?_
  rintro parent _ rfl
  exact .ok ⟨h.doctype, h.root, rfl, h.awaiting⟩

/-- A value of the kind is made and bound alike to the reference that waits. -/
theorem value (frame : Frame) (below : List Frame) (kind : TagKind) (node : Node)
    (f : Frame → Frame) :
    Attempt.Agree Alike
      (first.lift below (frame.takePending kind) >>= fun found =>
        first.make.lift below (found.2.bind found.1 node) >>= fun next =>
          .ok (first.make.withTop below (f next)))
      (second.lift below (frame.takePending kind) >>= fun found =>
        second.make.lift below (found.2.bind found.1 node) >>= fun next =>
          .ok (second.make.withTop below (f next))) := by
  refine (agree_lift_self _).bind ?_
  rintro found _ rfl
  refine (agree_lift_self _).bind ?_
  rintro next _ rfl
  exact .ok ⟨h.doctype, h.root, rfl, h.awaiting⟩

/-- Two builders take a tag within a node alike, if it is no gap. -/
theorem pushInside (frame : Frame) (below : List Frame) (hgap : tag ≠ .gap) :
    (first.pushInside frame below tag).Agree AlikeAfter (second.pushInside frame below tag) := by
  refine .ite (fun _ => .error rfl) fun _ => ?_
  cases tag with
  | gap => exact absurd rfl hgap
  | opening start => exact (h.openChild frame below start).bind fun _ _ hnext => .ok ⟨rfl, hnext⟩
  | closing => exact (h.close frame below).bind fun _ _ hnext => .ok ⟨rfl, hnext⟩
  | reference | shift | arrayStart => exact h.onTop below _
  | null =>
    refine (h.value frame below .null .null fun next => { next with lastBound := none }).bind ?_
    exact fun _ _ hnext => .ok ⟨rfl, hnext⟩
  | literal text =>
    refine Agree.bind (R := Alike) (.ite (fun _ => .ok (h.withTop ..)) fun _ => ?_) ?_
    · exact h.value frame below .literal (.literal text) id
    · exact fun _ _ hnext => .ok ⟨rfl, hnext⟩
  | embedded => exact .error rfl
  | doctype | effect => exact .ok ⟨rfl, h.withTop ..⟩

theorem pushOutside (tag : Tag) : (first.pushOutside tag).Agree Alike (second.pushOutside tag) := by
  unfold Builder.pushOutside
  rw [h.root]
  split
  · exact .error rfl
  · cases tag with
    | opening start =>
      show (first.openRoot start).Agree Alike (second.openRoot start)
      unfold openRoot
      rw [h.doctype]
      split
      · exact .error rfl
      · exact .ok ⟨h.doctype, h.root, rfl, h.awaiting⟩
    | _ => exact .error rfl

theorem pushDoctype (header : Doctype) :
    (first.pushDoctype header).Agree Alike (second.pushDoctype header) := by
  unfold Builder.pushDoctype hasRoot
  rw [h.root, h.frames, h.doctype]
  split
  · exact .error rfl
  · exact .ok ⟨rfl, rfl, rfl, h.awaiting⟩

/-- Two builders take a tag alike, if it is no gap. -/
theorem push (hgap : tag ≠ .gap) : (first.push tag).Agree AlikeAfter (second.push tag) := by
  have hneeds : first.needsExpression = second.needsExpression := by
    rw [needsExpression, needsExpression, h.awaiting]
  unfold Builder.push
  rw [hneeds]
  split
  · exact .error rfl
  · cases tag with
    | effect effect => exact .ok ⟨rfl, h⟩
    | doctype header => exact (h.pushDoctype header).bind fun next next' hnext => .ok ⟨rfl, hnext⟩
    | _ =>
      have hbare : Alike { first with frames := [] } { second with frames := [] } :=
        ⟨h.doctype, h.root, rfl, h.awaiting⟩
      rw [h.frames]
      cases second.frames with
      | nil => exact (h.pushOutside _).bind fun next next' hnext => .ok ⟨rfl, hnext⟩
      | cons frame below => exact hbare.pushInside _ _ hgap

end Alike

end Builder

/-! ### Nodes within nodes -/

/-- What a tag does to open nodes it does within others too, if none of these has a value to take
back. -/
theorem Step.within {after outer : List Draft} (h : Step drafts tag after)
    (ho : Draft.anyOwed outer = false) : Step (drafts ++ outer) tag (after ++ outer) := by
  have hmore : ∀ drafts, Draft.anyOwed drafts = false →
      Draft.anyOwed (drafts ++ outer) = false := by
    intro drafts hnone
    simp only [Draft.anyOwed, List.any_append, Bool.or_eq_false_iff] at hnone ho ⊢
    exact ⟨hnone, ho⟩
  cases h with
  | content hi => exact .content hi
  | reference hi hr => exact .reference hi hr
  | arrayStart hs hm => exact .arrayStart hs hm
  | null hs hb => exact .null hs hb
  | literal hs hb => exact .literal hs hb
  | gap hs hb hnone => exact .gap hs hb (hmore _ hnone)
  | hold hs hb howed hnone => exact .hold hs hb howed (hmore _ hnone)
  | shift hs => exact .shift hs
  | opening hc hopens => exact .opening hc hopens
  | closing hi hnone => exact .closing hi hnone

theorem Frame.Suspended.length_eq {frames : List Frame}
    (h : Suspended frames drafts) : frames.length = drafts.length := by
  induction frames generalizing drafts with
  | nil =>
    cases drafts with
    | nil => rfl
    | cons => exact h.elim
  | cons frame frames ih =>
    cases drafts with
    | nil => exact h.elim
    | cons => exact congrArg (· + 1) (ih h.2)

namespace Builder

variable {builder next : Builder} {frame parent : Frame} {below outer : List Frame} {feed : Feed}

theorem push_of_frames (ha : builder.awaiting = none)
    (hf : builder.frames = frame :: below) (tag : Tag) :
    builder.push tag =
      match tag with
      | .effect _ => .ok (.accepted, builder)
      | .doctype _ => refuse .misplacedDoctype builder
      | tag => { builder with frames := [] }.pushInside frame below tag := by
  have hn := needsExpression_of_awaiting ha
  cases tag with
  | effect effect => simp [push, hn]
  | doctype header =>
    simp [push, hn, pushDoctype, hasRoot, hf]
    rfl
  | _ => simp [push, hn, hf]

end Builder

end TagTree
