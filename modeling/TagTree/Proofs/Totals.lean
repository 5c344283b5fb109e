import Mathlib.Algebra.BigOperators.Group.List.Basic
import TagTree.Proofs.Census
import TagTree.Proofs.Replacement

/-!
# Nodes kept

While a tree is built, the nodes that were made for it are those that are open, those that they hold
(`Draft.kept`), and what is beneath these, apart from what was replaced (`Step.weigh`). All of them
are in the tree exactly if no array gave way to a single value of the same name (`Tree.weighs`).
-/

namespace TagTree

variable {total created : Nat} {segments : List (Segment Node)} {tags : List Tag}

namespace Node

/-- The node has at most the given number of nodes, and as many exactly if nothing was replaced in
it or beneath it. -/
structure Weighs (node : Node) (total : Nat) : Prop where
  pos : 0 < node.size
  le : node.size ≤ total
  exact : node.size = total ↔ node.all replacesNothing = true

/-- The nodes together have at most the given number of nodes, and as many exactly if nothing was
replaced in them or beneath them. -/
structure AllWeigh (nodes : List Node) (total : Nat) : Prop where
  pos : ∀ node ∈ nodes, 0 < node.size
  le : (nodes.map size).sum ≤ total
  exact : (nodes.map size).sum = total ↔ ∀ node ∈ nodes, node.all replacesNothing = true

theorem sum_size_eq_zero {nodes : List Node} (h : ∀ node ∈ nodes, 0 < node.size) :
    (nodes.map size).sum = 0 ↔ nodes = [] := by
  cases nodes with
  | nil => simp
  | cons node rest =>
    have hpos := h node List.mem_cons_self
    simp
    omega

namespace AllWeigh

variable {nodes others : List Node} {node : Node}

theorem nil : AllWeigh [] 0 :=
  ⟨nofun, Nat.le_refl 0, fun _ => nofun, fun _ => rfl⟩

theorem perm (h : AllWeigh nodes total) (hperm : others.Perm nodes) : AllWeigh others total := by
  have hsum := (hperm.map size).sum_eq
  refine ⟨fun node hmem => h.pos node (hperm.subset hmem), hsum ▸ h.le, ?_⟩
  simp only [hsum, h.exact, hperm.mem_iff]

theorem single (h : AllWeigh [node] total) : node.Weighs total := by
  have hsum : ([node].map size).sum = node.size := by simp
  obtain ⟨hpos, hle, hexact⟩ := h
  rw [hsum] at hle hexact
  rw [List.forall_mem_singleton] at hpos hexact
  exact ⟨hpos, hle, hexact⟩

/-- A stub is all that is made for it. -/
theorem stub (h : AllWeigh nodes total) (hstub : node.isStub = true) :
    AllWeigh (node :: nodes) (total + 1) := by
  have hnode : node.size = 1 ∧ node.all replacesNothing = true := by
    cases node with
    | element body => cases hstub
    | _ => exact ⟨rfl, rfl⟩
  have hle := h.le
  refine ⟨List.forall_mem_cons.mpr ⟨by omega, h.pos⟩, ?_, ?_⟩ <;>
    rw [List.map_cons, List.sum_cons, hnode.1]
  · omega
  · rw [List.forall_mem_cons, ← h.exact, eq_true hnode.2, true_and]
    omega

/-- A node that is made of segments has itself and what it binds and embeds, and lacks what was
replaced in it. -/
theorem assemble {outline : Outline} (ho : Mention.Orderly [] (Segment.mentions outline.segments))
    (h : AllWeigh (outline.segments.filterMap Segment.node? ++ nodes) total) :
    AllWeigh (outline.toNode :: nodes) (total + 1) := by
  obtain ⟨hpos, hle, hexact⟩ := h
  obtain ⟨hown, hothers⟩ := List.forall_mem_append.mp hpos
  have hperm := Outline.perm_kids ho
  have hsum := (hperm.map size).sum_eq
  have hsize := outline.size_toNode
  rw [List.map_append, List.sum_append] at hsum hle hexact
  have hreplaced : ((Segment.replaced [] outline.segments).map size).sum = 0 ↔
      Segment.replaced [] outline.segments = [] :=
    sum_size_eq_zero fun node hmem => hown node (hperm.subset (List.mem_append_right _ hmem))
  refine ⟨List.forall_mem_cons.mpr ⟨by omega, hothers⟩, ?_, ?_⟩ <;>
    rw [List.map_cons, List.sum_cons]
  · omega
  · have hboth : outline.toNode.size + (nodes.map size).sum = total + 1 ↔
        ((Segment.replaced [] outline.segments).map size).sum = 0 ∧
        ((outline.segments.filterMap Segment.node?).map size).sum + (nodes.map size).sum =
          total := by omega
    rw [hboth, hreplaced, hexact, List.forall_mem_cons, List.forall_mem_append, all_iff,
      Outline.replacesNothing_iff, and_assoc]
    -- Where nothing was replaced, the nodes of the segments are those bound and embedded.
    refine and_congr_right fun hnone => and_congr_left fun _ => ?_
    rw [hnone, List.append_nil] at hperm
    simp only [hperm.mem_iff]

end AllWeigh

end Node

/-! ### Open nodes -/

namespace Draft

variable {draft next : Draft} {rest : List Draft}

/-- What the finished segments of an open node bind and embed, and what it has to take back. -/
def nodes (draft : Draft) : List Node :=
  draft.segments.filterMap Segment.node? ++ draft.owed.toList

/-- All nodes that the open nodes hold. A value that a further node was opened to take back is held
by that node, and no longer by the one around it. -/
def kept : List Draft → List Node
  | [] => []
  | draft :: rest =>
    draft.allSegments.filterMap Segment.node? ++ draft.owed.toList ++ rest.flatMap nodes

/-- The nodes made so far are those that are open, and those that they hold with all beneath. -/
def Weigh (drafts : List Draft) (created : Nat) : Prop :=
  ∃ total, created = drafts.length + total ∧ Node.AllWeigh (kept drafts) total

/-- One more segment, after those given. -/
theorem kept_perm {segment : Segment Node} (hnext : next.allSegments = segments ++ [segment])
    (howed : next.owed = draft.owed) :
    (kept (next :: rest)).Perm (segment.node?.toList ++
      (segments.filterMap Segment.node? ++ draft.owed.toList ++ rest.flatMap nodes)) := by
  have hnodes : [segment].filterMap Segment.node? = segment.node?.toList := by
    cases h : segment.node? <;> simp [h]
  rw [kept, hnext, howed, List.filterMap_append, hnodes, List.append_assoc, List.append_assoc,
    List.append_assoc]
  exact List.perm_append_comm_assoc ..

/-- A node that was opened here is one that the draft holds. -/
theorem kept_receive (draft : Draft) (node : Node) (rest : List Draft) :
    (kept (draft.receive node :: rest)).Perm (node :: (draft :: rest).flatMap nodes) := by
  have hsegments : ∃ segment, (draft.receive node).allSegments = draft.segments ++ [segment] ∧
      segment.node? = some node ∧ (draft.receive node).owed = draft.owed := by
    unfold receive
    split
    · split
      · exact ⟨_, allSegments_add _, rfl, rfl⟩
      · exact ⟨_, allSegments_inStage _, rfl, rfl⟩
    · exact ⟨_, allSegments_inStage _, rfl, rfl⟩
    · exact ⟨_, allSegments_add _, rfl, rfl⟩
  obtain ⟨segment, hnext, hnode, howed⟩ := hsegments
  have hperm : (kept (draft.receive node :: rest)).Perm _ := kept_perm hnext howed
  rw [hnode] at hperm
  exact hperm

/-- A node that closes holds what it held, as one node. -/
theorem allWeigh_close (h : Node.AllWeigh (kept (draft :: rest)) total)
    (horder : Mention.Orderly [] (Segment.mentions draft.allSegments)) (ho : draft.owed = none) :
    Node.AllWeigh (draft.toNode :: rest.flatMap nodes) (total + 1) := by
  rw [kept, ho, Option.toList_none, List.append_nil] at h
  exact .assemble horder h

section Top

variable {segment : Segment Node} (h : Weigh (draft :: rest) created)
  (hall : draft.allSegments = segments) (howed : next.owed = draft.owed)
include h hall howed

/-- The innermost node holds what it held. -/
theorem Weigh.same (hnext : next.allSegments = segments) : Weigh (next :: rest) created := by
  obtain ⟨total, hcreated, hw⟩ := h
  refine ⟨total, hcreated, ?_⟩
  rw [kept, hnext, howed, ← hall]
  exact hw

theorem Weigh.plain (hnext : next.allSegments = segments ++ [segment])
    (hnode : segment.node? = none) : Weigh (next :: rest) created := by
  obtain ⟨total, hcreated, hw⟩ := h
  have hperm : (kept (next :: rest)).Perm _ := kept_perm hnext howed
  rw [hnode, ← hall] at hperm
  exact ⟨total, hcreated, hw.perm hperm⟩

theorem Weigh.stub {node : Node} (hnext : next.allSegments = segments ++ [segment])
    (hnode : segment.node? = some node) (hstub : node.isStub = true) :
    Weigh (next :: rest) (created + 1) := by
  obtain ⟨total, rfl, hw⟩ := h
  have hperm : (kept (next :: rest)).Perm _ := kept_perm hnext howed
  rw [hnode, ← hall] at hperm
  exact ⟨total + 1, rfl, (hw.stub hstub).perm hperm⟩

end Top

end Draft

/-- A step weighs what it makes. -/
theorem Step.weigh {drafts after : List Draft} {tag : Tag} (h : Step drafts tag after)
    (horder : ∀ draft ∈ drafts.head?, Mention.Orderly [] (Segment.mentions draft.allSegments))
    (hw : Draft.Weigh drafts created) : Draft.Weigh after (created + Draft.made drafts tag) := by
  cases h with
  | content hi =>
    rw [hi.made_literal]
    exact hw.plain rfl rfl (Draft.allSegments_add _) rfl
  | reference hi => exact hw.same rfl rfl (List.append_nil _)
  | arrayStart hs =>
    exact hw.plain (Draft.allSegments_of_waiting hs) rfl (Draft.allSegments_add _) rfl
  | null hs => exact hw.stub (Draft.allSegments_of_waiting hs) rfl (Draft.allSegments_add _) rfl rfl
  | literal hs =>
    rw [Draft.made_literal hs]
    exact hw.stub (Draft.allSegments_of_waiting hs) rfl (Draft.allSegments_inStage _) rfl rfl
  | gap hs _ ho =>
    rw [Draft.made_gap (Draft.anyOwed_cons_eq_false.mp ho).1]
    exact hw.stub (Draft.allSegments_of_waiting hs) rfl (Draft.allSegments_inStage _) rfl rfl
  | hold hs _ ho =>
    rw [Draft.made_hold ho]
    obtain ⟨total, hcreated, hw⟩ := hw
    refine ⟨total, hcreated, hw.perm (.of_eq ?_)⟩
    rw [Draft.kept, Draft.kept, Draft.allSegments_inStage, Draft.allSegments_of_waiting hs, ho,
      List.filterMap_append]
    exact congrArg (· ++ _) (List.append_nil _)
  | shift hs => exact hw.same (Draft.allSegments_of_bound hs) rfl rfl
  | @opening draft _ rest start _ _ ho =>
    obtain ⟨total, rfl, hw⟩ := hw
    refine ⟨total, Nat.add_right_comm _ _ 1, hw.perm ?_⟩
    generalize start.flags.isEmbedded = embedded at ho
    cases ho with
    | beside => exact .refl _
    | reserved hs | value hs =>
      rw [Draft.kept, Draft.kept, Draft.allSegments_of_waiting hs]
      exact .refl _
    | @shifted edge node shifts hs =>
      -- The value is held by the node that takes it back.
      have hperm : (Draft.kept (draft :: rest)).Perm _ :=
        Draft.kept_perm (Draft.allSegments_of_shifting hs) rfl
      exact hperm.symm
  | closing hi ho =>
    obtain ⟨total, rfl, hw⟩ := hw
    have hnode := Draft.allWeigh_close hw (horder _ rfl) ho
    refine ⟨total + 1, ?_, hnode.perm (Draft.kept_receive ..)⟩
    simp only [List.length_cons, Draft.made]
    omega

/-! ### Runs -/

/-- The number of nodes made is that of the nodes open and held, or of the root. -/
def Phase.Weighs (created : Nat) : Phase → Prop
  | before _ => created = 0
  | within _ drafts => Draft.Weigh drafts created
  | after _ root => root.Weighs created

namespace Builder

variable {builder next : Builder} {phase after : Phase} {tag : Tag}

/-- What was created is known after each tag. -/
theorem Took.weighs (h : builder.Took phase tag after next) (hb : builder.In phase)
    (hadv : Advance phase tag after) (hw : phase.Weighs builder.created) :
    after.Weighs next.created := by
  rw [h.created]
  cases hadv with
  | effect | doctype => exact hw
  | openRoot => exact ⟨0, congrArg (· + 1) hw, .nil⟩
  | inside hstep => exact hstep.weigh (fun _ => hb.holds.2.2.orderly) hw
  | closeRoot hi ho =>
    obtain ⟨total, hcreated, hw⟩ := hw
    rw [hcreated, Nat.add_right_comm, Nat.add_comm]
    exact (Draft.allWeigh_close hw (hb.holds.2.2.orderly rfl) ho).single

theorem weighs_pushAll (hb : builder.In phase) (he : builder.expressions = false)
    (hw : phase.Weighs builder.created) (h : builder.pushAll tags [] = .ok next) :
    ∃ last, next.In last ∧ last.Weighs next.created := by
  induction tags generalizing builder phase with
  | nil =>
    cases h
    exact ⟨phase, hb, hw⟩
  | cons tag tags ih =>
    obtain ⟨middle, after, -, hadv, htook, hexpr, h⟩ := cons_of_pushAll hb he h
    exact ih htook.inPhase hexpr (htook.weighs hb hadv hw) h

end Builder

/-- A tree that was built has at most the nodes that were made for it, and as many exactly if
nothing was replaced. -/
theorem Tree.weighs {tree : Tree} (h : ofTags tags = .ok tree) : tree.root.Weighs tree.created := by
  obtain ⟨builder, hpush, hfinish⟩ := bind_eq_ok.mp h
  obtain ⟨last, hin, hw⟩ := Builder.weighs_pushAll (Builder.in_before false) rfl rfl hpush
  obtain rfl := hin.of_finish hfinish
  rw [(Builder.of_finish hfinish).2.2.2]
  exact hw

end TagTree
