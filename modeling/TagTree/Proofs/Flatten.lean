import Mathlib.Data.List.Induction
import TagTree.Proofs.Form
import TagTree.Proofs.Parts
import TagTree.Proofs.Replacement

/-!
# The replay of a form

The node of a valid form is replayed to the tags of the form, up to the marks of gaps and the
indexes of references (`Form.Valid.flattens`). Where a value was shifted, the nodes that took it
back one after the other are found again from the last one (`Form.history_shifted`).
-/

namespace TagTree

open Segment (mentions bound allParts)

variable {more : List Tag} {phrase : Phrase Form} {later : List Form} {phrases : List (Phrase Form)}
  {inherited : Option String} {tags : List Tag} {start : OpenTag} {form : Form}

/-- The run with items in front. -/
def Run.prepend {α : Type} (front : List α) (run : Run α) : Run α :=
  ⟨front ++ run.items, run.failure⟩

namespace Tag

/-- The tag without the mark of a gap. -/
def withoutGap : Tag → Tag
  | opening start => opening start.plain
  | reference edge => reference { edge with flags := { edge.flags with hasGap := false } }
  | tag => tag

/-- The tag without the mark of a gap and, for a reference, without its index. -/
def plain : Tag → Tag
  | opening start => opening start.plain
  | reference edge => reference (edge.marked false)
  | tag => tag

end Tag

namespace Part

/-- The tags of a part, and then those of a later run. -/
def run (part : Part) (later : Run Tag) : Run Tag :=
  match part with
  | .tag front => .cons front later
  | .failure error => .fail error
  | .value node bare => node.replay bare later

end Part

/-- To replay a node is to replay its parts in order. -/
theorem Node.replay_eq (bare : Option Nat) (node : Node) (later : Run Tag) :
    node.replay bare later = (node.parts bare).foldr Part.run later := by
  rw [replay]
  conv => rhs; rw [← List.attach_map_subtype_val (node.parts bare), List.foldr_map]
  congr 1
  funext ⟨part, _⟩ later
  cases part <;> rfl

namespace Part

/-- The parts give the tags, up to the marks of gaps and the indexes of references. -/
def Flatten (parts : List Part) (tags : List Tag) : Prop :=
  ∃ out : List Tag, out.map Tag.withoutGap = tags.map Tag.plain ∧
    ∀ later, parts.foldr run later = later.prepend out

theorem Flatten.nil : Flatten [] [] :=
  ⟨[], rfl, fun _ => rfl⟩

theorem Flatten.append {first second : List Part} (h : Flatten first tags)
    (h' : Flatten second more) : Flatten (first ++ second) (tags ++ more) := by
  obtain ⟨out, hout, hrun⟩ := h
  obtain ⟨out', hout', hrun'⟩ := h'
  refine ⟨out ++ out', by rw [List.map_append, List.map_append, hout, hout'], fun later => ?_⟩
  rw [List.foldr_append, hrun', hrun]
  simp [Run.prepend]

theorem Flatten.cons {part : Part} {parts : List Part} (h : Flatten [part] tags)
    (h' : Flatten parts more) : Flatten (part :: parts) (tags ++ more) :=
  h.append h'

theorem Flatten.tag {out original : Tag} (h : out.withoutGap = original.plain) :
    Flatten [.tag out] [original] :=
  ⟨[out], congrArg (fun tag => [tag]) h, fun _ => rfl⟩

/-- A value gives what its parts give. -/
theorem Flatten.value {node : Node} {bare : Option Nat}
    (h : Flatten (node.parts bare) tags) : Flatten [.value node bare] tags := by
  obtain ⟨out, hout, hrun⟩ := h
  refine ⟨out, hout, fun later => ?_⟩
  rw [← hrun later, ← Node.replay_eq]
  rfl

end Part

/-- The node can be flattened to the tags that it was built from: no name is mixed, and no value is
shifted right after it was taken back. -/
structure Node.Replayable (node : Node) : Prop where
  unmixed : node.all isUnmixed = true
  keeps : node.all keepsHeld = true

instance (node : Node) : Decidable node.Replayable :=
  decidable_of_iff (node.all Node.isUnmixed = true ∧ node.all Node.keepsHeld = true)
    ⟨fun h => ⟨h.1, h.2⟩, fun h => ⟨h.unmixed, h.keeps⟩⟩

namespace Node.Replayable

variable {outline : Outline}

theorem unmixed_mentions (h : outline.toNode.Replayable) (hl : outline.Laid) :
    Mention.Unmixed (mentions outline.segments) :=
  Outline.unmixed_of_isUnmixed hl.orderly (all_self h.unmixed)

/-- The nodes of the segments can be flattened with the node. -/
theorem of_mem {segment : Segment Node} {inner : Node} (h : outline.toNode.Replayable)
    (hl : outline.Laid) (hmem : segment ∈ outline.segments) (hnode : segment.node? = some inner) :
    inner.Replayable where
  unmixed := Outline.all_of_mem h.unmixed hl.orderly (h.unmixed_mentions hl) hmem hnode
  keeps := Outline.all_of_mem h.keeps hl.orderly (h.unmixed_mentions hl) hmem hnode

end Node.Replayable

namespace Form

theorem isPlain_segment (h : Fits phrase) (owed : Option Node) : (segment owed phrase).IsPlain := by
  cases phrase with
  | content text => trivial
  | embedded edge form =>
    intro reserved hmem
    obtain ⟨original, hedge, rfl⟩ := Option.map_eq_some_iff.mp hmem
    exact ⟨h.1 original hedge, rfl⟩
  | arrayStart | value => exact ⟨rfl, rfl⟩

theorem isPlain_segments (h : ∀ phrase ∈ phrases, Fits phrase)
    (owed : Option Node) : ∀ segment ∈ segments owed phrases, segment.IsPlain := by
  induction phrases generalizing owed with
  | nil =>
    rw [segments]
    exact List.forall_mem_nil _
  | cons phrase phrases ih =>
    obtain ⟨hphrase, hrest⟩ := List.forall_mem_cons.mp h
    rw [segments]
    exact List.forall_mem_cons.mpr ⟨isPlain_segment hphrase owed, ih hrest _⟩

/-- The references of a valid node are in order. -/
theorem Valid.laid
    (h : (Form.node start phrases).Valid) (inherited : Option String) (owed : Option Node) :
    (outline inherited owed start phrases).Laid := by
  obtain ⟨-, horder, hfits, -⟩ := h.of_node
  refine ⟨isPlain_segments hfits owed, ?_⟩
  show Mention.Orderly [] (mentions (segments owed phrases))
  rw [mentions_segments]
  exact horder.map_plain

/-! ### Values that were shifted -/

/-- Where a node took a value back, that is bound for good. -/
theorem TakesBack.split {value : Node} (h : (node start phrases).TakesBack)
    (hr : ((node start phrases).toNode inherited (some value)).Replayable) :
    ∃ before edge after, phrases = before ++ .value edge gap [] :: after ∧
      segments (some value) phrases =
        segments none before ++ .bound edge value 0 :: segments none after ∧
      gapPosition? 0 phrases = some (Segment.width (segments none before) + 1) := by
  obtain ⟨before, edge, later, after, rfl, hgap⟩ := h
  have hown := hasOwnGap_eq_false hgap
  have hsegments : segments (some value) (before ++ .value edge gap later :: after) =
      segments none before ++
        .bound edge (shifted value later) later.length :: segments none after := by
    rw [segments_append hown, segments, segment, toNode]
    rfl
  have hposition := gapPosition?_append hown 0 edge later after
  rw [Nat.zero_add] at hposition
  have hlength : later.length = 0 := by
    rw [toNode_node] at hr
    exact Outline.shifts_eq_zero hsegments hposition (Node.all_self hr.keeps)
  obtain rfl := List.eq_nil_of_length_eq_zero hlength
  exact ⟨before, edge, after, rfl, hsegments, hposition⟩

/-- What a node took back is found in it, and can be flattened with it. -/
theorem TakesBack.held {value : Node} (h : form.TakesBack) (hv : form.Valid)
    (hr : (form.toNode inherited (some value)).Replayable) :
    (form.toNode inherited (some value)).heldValue = .ok value ∧ value.Replayable := by
  cases form with
  | gap | null | literal => exact h.elim
  | node start phrases =>
    obtain ⟨before, edge, after, -, hsegments, hposition⟩ := h.split hr
    have hl := hv.laid inherited (some value)
    rw [toNode_node] at hr ⊢
    have hmem : .bound edge value 0 ∈ (outline inherited (some value) start phrases).segments := by
      show _ ∈ segments (some value) phrases
      rw [hsegments]
      exact List.mem_append_cons_self
    exact ⟨Outline.heldValue_toNode hsegments hposition hl.orderly (hr.unmixed_mentions hl),
      hr.of_mem hl hmem rfl⟩

/-- The values of a reference: the first, and then each node that took the one before it back. -/
def values (value : Node) : List Form → List Node
  | [] => [value]
  | form :: rest => value :: values (toNode none (some value) form) rest

theorem shifted_concat (value : Node) (later : List Form) (form : Form) :
    shifted value (later ++ [form]) = toNode none (some (shifted value later)) form := by
  induction later generalizing value with
  | nil => rw [List.nil_append, shifted, shifted, shifted]
  | cons first rest ih => rw [List.cons_append, shifted, ih, shifted]

theorem values_concat (value : Node) (later : List Form) (form : Form) :
    values value (later ++ [form]) = values value later ++ [shifted value (later ++ [form])] := by
  induction later generalizing value with
  | nil => rw [List.nil_append, values, values, shifted, shifted]; rfl
  | cons first rest ih => rw [List.cons_append, values, ih, values, shifted]; rfl

/-- All values of a reference are found again from the last one, and can be flattened if that
can. -/
theorem history_shifted {value : Node} (hv : ∀ form ∈ later, form.Valid ∧ form.TakesBack)
    (hr : (shifted value later).Replayable) :
    (∀ inner ∈ values value later, inner.Replayable) ∧
    ∀ tail, Node.historyOnto (.ok (shifted value later)) tail later.length =
      (values value later).map .ok ++ tail := by
  induction later using List.reverseRecOn with
  | nil =>
    rw [shifted] at hr ⊢
    exact ⟨List.forall_mem_singleton.mpr hr, fun tail => rfl⟩
  | append_singleton later form ih =>
    obtain ⟨hbefore, hform⟩ := List.forall_mem_append.mp hv
    obtain ⟨hvalid, htakes⟩ := List.forall_mem_singleton.mp hform
    have hlast := hr
    rw [shifted_concat] at hlast
    obtain ⟨hheld, hreplayable⟩ := htakes.held hvalid hlast
    obtain ⟨hearlier, hhistory⟩ := ih hbefore hreplayable
    have hback : (Except.ok (shifted value (later ++ [form]))).bind Node.heldValue =
        .ok (shifted value later) := by
      rw [shifted_concat]
      exact hheld
    rw [values_concat]
    refine ⟨?_, fun tail => ?_⟩
    · exact List.forall_mem_append.mpr ⟨hearlier, List.forall_mem_singleton.mpr hr⟩
    · rw [List.length_append, List.length_singleton, Node.historyOnto, hback, hhistory]
      simp

theorem values_eq_cons (value : Node) (later : List Form) :
    ∃ rest, values value later = value :: rest := by
  cases later with
  | nil => exact ⟨[], rfl⟩
  | cons form later => exact ⟨_, rfl⟩

/-! ### The parts of a form -/

/-- Nothing is recorded as taken back where nothing was owed. -/
theorem heldSlot_toNode_none (inherited : Option String) (form : Form) :
    (form.toNode inherited none).heldSlot = none := by
  cases form with
  | node start phrases => rw [toNode_node]; rfl
  | gap | null | literal => rw [toNode]; rfl

theorem withoutHold_toNode_none (inherited : Option String) (form : Form) :
    (form.toNode inherited none).withoutHold = form.toNode inherited none := by
  cases form with
  | node start phrases => rw [toNode_node]; rfl
  | gap | null | literal => rw [toNode]; rfl

/-- The node of the form gives its tags, whatever it takes back. -/
def Flattens (form : Form) : Prop :=
  ∀ (inherited : Option String) (owed : Option Node), (owed.isSome = true → form.TakesBack) →
    (form.toNode inherited owed).Replayable →
      Part.Flatten ((form.toNode inherited owed).parts (form.toNode inherited owed).heldSlot)
        form.tags

theorem Flattens.parts_none (h : form.Flattens) (hr : (form.toNode none none).Replayable) :
    Part.Flatten ((form.toNode none none).parts none) form.tags := by
  have hparts := h none none nofun hr
  rwa [heldSlot_toNode_none] at hparts

/-- The nodes that took a value back give their tags, each after its shift. -/
theorem flatten_shifts {value : Node} (slot index : Nat)
    (hf : ∀ form ∈ later, form.Flattens ∧ form.TakesBack)
    (hr : ∀ inner ∈ values value later, inner.Replayable) :
    Part.Flatten (Part.shifts none slot index later.length ((values value later).map .ok).tail)
      (shiftTags index later) := by
  induction later generalizing value slot index with
  | nil =>
    rw [shiftTags]
    exact .nil
  | cons form later ih =>
    obtain ⟨hflattens, htakes⟩ := hf form List.mem_cons_self
    have hinner : ∀ inner ∈ values (toNode none (some value) form) later, inner.Replayable :=
      (List.forall_mem_cons.mp hr).2
    have hrest := ih (slot + 2) (index + 1) (List.forall_mem_cons.mp hf).2 hinner
    obtain ⟨rest, hvalues⟩ := values_eq_cons (toNode none (some value) form) later
    have hhead := hflattens none (some value) (fun _ => htakes)
      (hinner _ (by rw [hvalues]; exact List.mem_cons_self ..))
    rw [hvalues] at hrest
    rw [shiftTags, values, hvalues]
    exact (Part.Flatten.tag rfl).cons (hhead.value.cons hrest)

/-- A segment gives the tags of its phrase if nothing is taken back there. -/
theorem flatten_segment (slot : Nat) (hfits : Fits phrase)
    (hvalid : ∀ form ∈ phrase.forms, form.Valid) (hf : ∀ form ∈ phrase.forms, form.Flattens)
    (hr : ∀ inner, (segment none phrase).node? = some inner → inner.Replayable) :
    Part.Flatten ((segment none phrase).parts none slot) (phraseTags phrase) := by
  cases phrase with
  | content text => exact .tag rfl
  | embedded edge form =>
    have hvalue := (hf form List.mem_cons_self).parts_none (hr _ rfl)
    cases edge with
    | none => exact hvalue.value
    | some edge => exact (Part.Flatten.tag rfl).cons hvalue.value
  | arrayStart edge => exact (Part.Flatten.tag rfl).cons (.tag rfl)
  | value edge first later =>
    obtain ⟨-, -, hlater⟩ := hfits
    have hvalues : ∀ form ∈ later, form.Valid ∧ form.TakesBack := fun form hmem =>
      ⟨hvalid form (List.mem_cons_of_mem _ hmem), (hlater form hmem).2⟩
    have hflat : ∀ form ∈ later, form.Flattens ∧ form.TakesBack := fun form hmem =>
      ⟨hf form (List.mem_cons_of_mem _ hmem), (hlater form hmem).2⟩
    have hfirst : toNode none (if first.isGap then none else none) first =
        toNode none none first := by
      rw [ite_self]
    have hlast := hr _ rfl
    rw [hfirst] at hlast
    obtain ⟨hinner, hhistory⟩ := history_shifted hvalues hlast
    have hhistory := hhistory []
    rw [List.append_nil] at hhistory
    obtain ⟨rest, hcons⟩ := values_eq_cons (toNode none none first) later
    have hhead := (hf first List.mem_cons_self).parts_none
      (hinner _ (by rw [hcons]; exact List.mem_cons_self ..))
    have hshifts := flatten_shifts (slot + 2) 1 hflat hinner
    rw [phraseTags, segment, hfirst, bound, Segment.parts, Node.history, hhistory]
    rw [hcons] at hshifts ⊢
    exact (Part.Flatten.tag rfl).cons (hhead.value.cons hshifts)

/-- Segments give the tags of their phrases if nothing is taken back there. -/
theorem flatten_segments (slot : Nat) (hfits : ∀ phrase ∈ phrases, Fits phrase)
    (hvalid : ∀ phrase ∈ phrases, ∀ form ∈ phrase.forms, form.Valid)
    (hf : ∀ phrase ∈ phrases, ∀ form ∈ phrase.forms, form.Flattens)
    (hr : ∀ segment ∈ segments none phrases, ∀ inner, segment.node? = some inner →
      inner.Replayable) :
    Part.Flatten (allParts none slot (segments none phrases)) (allTags phrases) := by
  induction phrases generalizing slot with
  | nil =>
    rw [segments, allTags]
    exact .nil
  | cons phrase phrases ih =>
    have howed : owedAfter none phrase = none := by simp [owedAfter]
    rw [segments, howed] at hr ⊢
    rw [allParts, allTags]
    rw [List.forall_mem_cons] at hfits hvalid hf hr
    exact (flatten_segment slot hfits.1 hvalid.1 hf.1 hr.1).append (ih _ hfits.2 hvalid.2 hf.2 hr.2)

/-- The segments of a node give the tags of its phrases. Where it took a value back stands a bare
gap. -/
theorem flatten_allParts {owed : Option Node} (hv : (node start phrases).Valid)
    (hf : ∀ phrase ∈ phrases, ∀ form ∈ phrase.forms, form.Flattens)
    (htakes : owed.isSome = true → (node start phrases).TakesBack)
    (hr : ((node start phrases).toNode inherited owed).Replayable) :
    Part.Flatten (allParts ((node start phrases).toNode inherited owed).heldSlot 1
      (segments owed phrases)) (allTags phrases) := by
  obtain ⟨-, -, hfits, hvalid⟩ := hv.of_node
  have hinner : ∀ segment ∈ segments owed phrases, ∀ inner, segment.node? = some inner →
      inner.Replayable := by
    rw [toNode_node] at hr
    exact fun segment hmem inner hnode => hr.of_mem (hv.laid inherited owed) hmem hnode
  cases owed with
  | none =>
    rw [heldSlot_toNode_none]
    exact flatten_segments 1 hfits hvalid hf hinner
  | some value =>
    -- The gap at the held slot is bare, and the parts on both sides are those without it.
    obtain ⟨before, edge, after, rfl, hsegments, hposition⟩ := (htakes rfl).split hr
    have hslot : ((node start (before ++ .value edge gap [] :: after)).toNode inherited
        (some value)).heldSlot = some (1 + Segment.width (segments none before) + 1) := by
      rw [toNode_node]
      show ((gapPosition? 0 (before ++ .value edge gap [] :: after)).map (· + 1)) = _
      rw [hposition, Option.map_some, Nat.add_comm 1]
    rw [hsegments, List.forall_mem_append, List.forall_mem_cons] at hinner
    rw [List.forall_mem_append, List.forall_mem_cons] at hfits hvalid hf
    rw [hsegments, hslot, Segment.allParts_append, allParts, allTags_append, allTags,
      Segment.allParts_eq_of_not_mem 1 (segments none before),
      Segment.allParts_eq_of_not_mem _ (segments none after)]
    · have hbefore := flatten_segments 1 hfits.1 hvalid.1 hf.1 hinner.1
      have hafter := fun slot =>
        flatten_segments slot hfits.2.2 hvalid.2.2 hf.2.2 hinner.2.2
      have hgap : (bound edge value 0).parts
          (some (1 + Segment.width (segments none before) + 1))
          (1 + Segment.width (segments none before)) =
          [.tag (.reference (edge.marked value.hasGap)), .tag .gap] := by
        rw [bound, Segment.parts, Part.atGap, if_pos rfl]
        rfl
      have htags : phraseTags (.value edge gap []) = [.reference edge, .gap] := by
        rw [phraseTags, tags, shiftTags]
        rfl
      rw [hgap, htags]
      exact hbefore.append (((Part.Flatten.tag rfl).cons (.tag rfl)).append (hafter _))
    · rintro found ⟨⟩
      exact .inl (Nat.lt_succ_self _)
    · rintro found ⟨⟩
      exact .inr (Nat.le_succ _)

/-- The node of a valid form is replayed to the tags of the form, up to the marks of gaps and the
indexes of references. -/
theorem Valid.flattens (h : form.Valid) : form.Flattens := by
  induction form using Form.inductionOn with
  | gap | null | literal =>
    intro inherited owed htakes hr
    cases owed with
    | none =>
      rw [toNode, tags]
      exact .tag rfl
    | some value => exact (htakes rfl).elim
  | node start phrases ih =>
    intro inherited owed htakes hr
    obtain ⟨-, -, -, hvalid⟩ := h.of_node
    have hinner := flatten_allParts h
      (fun phrase hphrase form hform => ih phrase hphrase form hform
        (hvalid phrase hphrase form hform)) htakes hr
    have hl := h.laid inherited owed
    rw [toNode_node] at hr hinner ⊢
    rw [Outline.parts_toNode hl (hr.unmixed_mentions hl), tags]
    exact (Part.Flatten.tag rfl).cons (hinner.append (.tag rfl))

end Form

end TagTree
