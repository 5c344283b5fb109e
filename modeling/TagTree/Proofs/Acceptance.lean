import TagTree.Proofs.Completeness
import TagTree.Proofs.Soundness

/-!
# Which tags make a tree

A sequence of tags makes a tree if and only if, apart from its effects, it is the header of a
document, or none, and the tags of one valid node (`Tree.exists_ofTags_iff`). The root of the tree
is then the node of the form (`Tree.exists_form`).
-/

namespace TagTree

variable {tags : List Tag}

/-- Effects can be added anywhere. -/
theorem Advances.of_withoutEffects {phase after : Phase}
    (h : Advances phase (Tag.withoutEffects tags) after) : Advances phase tags after := by
  induction tags generalizing phase with
  | nil => exact h
  | cons tag tags ih =>
    cases htag : tag.isEffect with
    | true =>
      rw [Tag.withoutEffects, List.filter_cons, htag] at h
      cases tag with
      | effect effect => exact .cons .effect (ih h)
      | _ => cases htag
    | false =>
      rw [Tag.withoutEffects, List.filter_cons, htag] at h
      cases h with
      | cons hfirst hrest => exact .cons hfirst (ih hrest)

/-- The header leads to the phase in which the root may open. -/
theorem Doctype.advances_headerTags (doctype : Option Doctype) :
    Advances (.before none) (headerTags doctype) (.before doctype) := by
  cases doctype with
  | none => exact .nil
  | some header => exact .single .doctype

/-- The tags of a valid node lead from its header to the tree. -/
theorem Form.Valid.advances {form : Form} (h : form.Valid) (hnode : form.isNode = true)
    (doctype : Option Doctype) :
    Advances (.before doctype) form.tags
      (.after doctype (form.toNode (doctype.bind Doctype.language) none)) := by
  cases form with
  | gap | null | literal => cases hnode
  | node start phrases =>
    obtain ⟨hstart, -, -, hvalid⟩ := h.of_node
    obtain ⟨after, hidle, howed, hroot, hadv⟩ :=
      advances_interior doctype [] (doctype.bind Doctype.language) none
        (fun phrase hphrase form hform => (hvalid phrase hphrase form hform).runs) h nofun nofun
    rw [← hroot]
    exact .cons (.openRoot (by simpa [Builder.isContradictory] using hstart))
      (hadv.append (.single (.closeRoot hidle howed)))

namespace Tree

/-- The tags of a valid node make the tree of its form. -/
theorem exists_ofTags_of_form {doctype : Option Doctype} {form : Form}
    (hnode : form.isNode = true) (hvalid : form.Valid)
    (htags : Tag.withoutEffects tags = Doctype.headerTags doctype ++ form.tags) :
    ∃ created, ofTags tags =
      .ok ⟨doctype, form.toNode (doctype.bind Doctype.language) none, created⟩ := by
  rw [ofTags_eq_ok_iff]
  apply Advances.of_withoutEffects
  rw [htags]
  exact (Doctype.advances_headerTags doctype).append (hvalid.advances hnode doctype)

/-- A tree is that of a form whose tags it was made from. -/
theorem exists_form {tree : Tree} (h : ofTags tags = .ok tree) :
    ∃ form : Form, form.isNode = true ∧ form.Valid ∧
      Tag.withoutEffects tags = Doctype.headerTags tree.doctype ++ form.tags ∧
      tree.root = form.toNode (tree.doctype.bind Doctype.language) none := by
  obtain ⟨form, hnode, hvalid, htags⟩ :=
    exists_form_of_advances (ofTags_eq_ok_iff.mp ⟨tree.created, h⟩)
  obtain ⟨created, hform⟩ := exists_ofTags_of_form hnode hvalid htags
  refine ⟨form, hnode, hvalid, htags, ?_⟩
  rw [h] at hform
  exact congrArg Tree.root (Except.ok.inj hform)

/-- A sequence of tags makes a tree if and only if, apart from its effects, it is the header of a
document, or none, and the tags of one valid node. -/
theorem exists_ofTags_iff (tags : List Tag) :
    (∃ tree, ofTags tags = .ok tree) ↔
      ∃ (header : Option Doctype) (form : Form), form.isNode = true ∧ form.Valid ∧
        Tag.withoutEffects tags = Doctype.headerTags header ++ form.tags := by
  constructor
  · rintro ⟨tree, h⟩
    obtain ⟨form, hnode, hvalid, htags, -⟩ := exists_form h
    exact ⟨tree.doctype, form, hnode, hvalid, htags⟩
  · rintro ⟨header, form, hnode, hvalid, htags⟩
    obtain ⟨created, h⟩ := exists_ofTags_of_form hnode hvalid htags
    exact ⟨_, h⟩

end Tree

end TagTree
