import TagTree.Proofs.Agreement
import TagTree.Proofs.Answer
import TagTree.Proofs.RoundTrip

/-!
# Templates by substitution

To fill the gaps of a template with trees is to build a tree from other tags: those of the template,
with the tags of its answer in place of each gap that was answered (`Tree.ofTemplate_eq_ofTags`).
-/

namespace TagTree

variable {tree : Tree} {frame taken : Frame} {start : OpenTag} {phase' : Phase} {target : Target}

/-- The reference marked as that of an expression. -/
def Reference.toExpression (edge : Reference) : Reference :=
  { edge with flags := { edge.flags with expression := true } }

/-- The target with its reference marked as that of an expression. -/
def Target.toExpression (target : Target) : Target :=
  { target with reference := target.reference.toExpression }

namespace Tag

end Tag

namespace Tree

/-- The tree can answer for a gap as its tags would: it was built from tags without a header, its
root is a named node that is bound and not embedded, and it can be flattened. -/
structure IsAnswer (tree : Tree) : Prop where
  built : ∃ tags, ofTags tags = .ok tree
  doctype : tree.doctype = none
  named : ∃ name, tree.root.type = .named name
  bound : tree.root.flags.isEmbedded = false
  unmixed : tree.root.all Node.isUnmixed = true
  keepsHeld : tree.root.all Node.keepsHeld = true

/-- The tags of the tree are those of its root, which can be built from them. -/
structure Opened (tree : Tree) (start : OpenTag) (rest : List Tag) : Prop where
  tags : tree.tags = .ok (.opening start :: rest)
  items : tree.replay.items = .opening start :: rest
  bound : start.flags.isEmbedded = false
  runs : Advances (.within none [.root none start]) rest (.after none tree.root)

theorem replay_items_of_tags {out : List Tag} (h : tree.tags = .ok out) :
    tree.replay.items = out := by
  rw [Tree.tags, Run.toExcept] at h
  split at h
  · cases h
  · exact Except.ok.inj h

namespace IsAnswer

theorem exists_body (h : tree.IsAnswer) :
    ∃ body, tree.root = .element body ∧ body.start.flags.isEmbedded = false := by
  obtain ⟨name, hname⟩ := h.named
  obtain ⟨tags, htags⟩ := h.built
  obtain ⟨form, -, -, -, hform⟩ := exists_form htags
  have hbound := h.bound
  cases hroot : tree.root with
  | element body =>
    rw [hroot] at hbound hform
    have hlabel : body.label.flags = body.start.flags := by
      rw [Form.label_of_toNode hform.symm]
      rfl
    exact ⟨body, rfl, hlabel ▸ hbound⟩
  | gap | null | literal =>
    rw [hroot] at hname
    cases hname

theorem exists_opened (h : tree.IsAnswer) : ∃ start rest, tree.Opened start rest := by
  obtain ⟨tags, htags⟩ := h.built
  obtain ⟨out, hout, hflat⟩ := exists_tags htags ⟨h.unmixed, h.keepsHeld⟩
  obtain ⟨body, hbody, hbound⟩ := h.exists_body
  have hitems := replay_items_of_tags hout
  -- the first of the tags is the opening tag of the root
  have hfirst : ∃ rest, tree.replay.items = .opening body.start :: rest := by
    rw [replay, h.doctype, hbody]
    simp only [Node.replay_eq, Node.parts, List.foldr_cons]
    exact ⟨_, rfl⟩
  obtain ⟨rest, hrest⟩ := hfirst
  have hcons : out = .opening body.start :: rest := hitems.symm.trans hrest
  have hruns := ofTags_eq_ok_iff.mp ⟨_, ofTags_of_flattened htags hflat⟩
  rw [hcons, h.doctype] at hruns
  cases hruns with
  | cons hopen hruns =>
    cases hopen
    exact ⟨body.start, rest, hcons ▸ hout, hrest, hbound, hruns⟩

end IsAnswer

end Tree

namespace Watch

end Watch

namespace Frame

/-- The frame whose waiting reference is marked as that of an expression. -/
def toExpression (frame : Frame) (target : Target) : Frame :=
  { frame.withExpression target.position with pending := some target.toExpression }

/-- A reference waits in the first frame, and in the second it is marked as that of an
expression. -/
def MarksPending (first second : Frame) : Prop :=
  ∃ target, first.pending = some target ∧ second = first.toExpression target

theorem markReference_push (items : Array (Item Node)) (edge : Reference)
    (mark : ReferenceFlags → ReferenceFlags) :
    markReference (items.push (.reference edge)) items.size mark =
      items.push (.reference { edge with flags := mark edge.flags }) := by
  apply Array.ext'
  have hsplit : (items.push (.reference edge)).toList = items.toList ++ .reference edge :: [] := by
    simp
  have hmark := toList_markReference hsplit mark
  rw [Array.length_toList] at hmark
  rw [hmark, Array.toList_push]

/-- A reference waits in the same way with the mark of an expression. -/
theorem agree_reference_toExpression (frame : Frame) (edge : Reference) :
    (frame.reference edge).Agree MarksPending (frame.reference edge.toExpression) := by
  have hconsume : frame.scope.consume edge.toExpression = frame.scope.consume edge := rfl
  unfold reference
  rw [hconsume]
  cases frame.pending with
  | some first => exact .error rfl
  | none =>
    cases frame.scope.consume edge with
    | mk scope result =>
      cases result with
      | error error => exact .error rfl
      | ok index =>
        refine .ok ⟨_, rfl, ?_⟩
        simp only [toExpression, withExpression, Frame.push, markReference_push]
        rfl

end Frame

namespace Builder

variable {first second : Builder} {phase : Phase}

/-- The two builders have the same nodes, but for the reference that waits: in the second it is
marked as that of an expression. -/
structure AlikeMarked (first second : Builder) : Prop where
  doctype : first.doctype = second.doctype
  root : first.root = second.root
  frames : ∃ frame frame' below, first.frames = frame :: below ∧
    second.frames = frame' :: below ∧ frame.MarksPending frame'
  awaiting : first.awaiting = second.awaiting

variable {builder : Builder} {tag : Tag} {below : List Frame}

/-- No reference and no gap comes outside of every node. -/
theorem exists_refusal_of_outside (ha : builder.awaiting = none)
    (hf : builder.frames = []) (htag : tag = .gap ∨ ∃ edge, tag = .reference edge) :
    ∃ refusal, builder.push tag = .error refusal ∧
      refusal.error =
        if builder.root.isSome then .trailingTag tag.kind else .outsideNode tag.kind := by
  have hn := needsExpression_of_awaiting ha
  refine ⟨⟨if builder.root.isSome then .trailingTag tag.kind else .outsideNode tag.kind, builder⟩,
    ?_, rfl⟩
  rcases htag with rfl | ⟨edge, rfl⟩ <;> cases hr : builder.root <;>
    simp only [push, hn, hf, pushOutside, hr] <;> rfl

/-- A reference is taken alike with the mark of an expression. -/
theorem Alike.push_reference (h : first.Alike second) (ha : first.awaiting = none)
    (edge : Reference) :
    (first.push (.reference edge)).Agree
      (fun result result' => result.1 = .accepted ∧ result'.1 = .accepted ∧
        result.2.AlikeMarked result'.2) (second.push (.reference edge.toExpression)) := by
  have ha' : second.awaiting = none := h.awaiting.symm.trans ha
  cases hf : first.frames with
  | nil =>
    obtain ⟨refusal, hrefusal, herror⟩ := exists_refusal_of_outside ha hf (.inr ⟨edge, rfl⟩)
    obtain ⟨refusal', hrefusal', herror'⟩ :=
      exists_refusal_of_outside ha' (h.frames.symm.trans hf) (.inr ⟨edge.toExpression, rfl⟩)
    rw [hrefusal, hrefusal']
    refine .error (herror.trans ?_)
    rw [herror', h.root]
    rfl
  | cons frame below =>
    rw [push_of_frames ha hf, push_of_frames ha' (h.frames.symm.trans hf)]
    refine .ite (fun _ => .error rfl) fun _ => ?_
    refine (agree_lift (frame.agree_reference_toExpression edge)).bind ?_
    intro next next' hmarks
    exact .ok ⟨rfl, rfl, h.doctype, h.root, ⟨next, next', below, rfl, rfl, hmarks⟩, h.awaiting⟩

/-- What becomes of a builder that took a tag, and the answer if it asks. -/
def settle (answer : Option Tree) :
    Attempt Builder (Feed × Builder) → Except StructuralError Builder
  | .error refusal => .error refusal.error
  | .ok (.accepted, next) => .ok next
  | .ok (.needsExpression, next) => (next.supply answer).mapError Refusal.error

/-- Builders that have the same nodes finish alike. -/
theorem Alike.finish (h : first.Alike second) :
    Agree Eq (fun tree tree' => tree.doctype = tree'.doctype ∧ tree.root = tree'.root)
      first.finish second.finish := by
  have hneeds : first.needsExpression = second.needsExpression := by
    rw [needsExpression, needsExpression, h.awaiting]
  have hdepth : first.depth = second.depth := by rw [depth, depth, h.frames]
  unfold Builder.finish
  rw [hneeds, hdepth, h.frames, h.root, h.doctype]
  refine .ite (fun _ => .error rfl) fun _ => .ite (fun _ => .error rfl) fun _ => ?_
  cases second.root with
  | none => exact .error rfl
  | some root => exact .ok ⟨rfl, rfl⟩

end Builder

namespace Tree

end Tree

end TagTree
