import Caret.Proofs.Document.Built
import Caret.Proofs.Rule.Yields
import Caret.Proofs.Text.Quoted

/-!
# What is read off a placed tree

What is found among the children of a place is told by the tree that it holds.
-/

namespace Caret

namespace Tree

theorem sizeAll_ofLeaf_textLeaves (raw : String) :
    sizeAll ((textLeaves raw).map ofLeaf) = raw.utf8ByteSize := by
  unfold textLeaves
  split
  · next h => simp [h, sizeAll]
  · simp [sizeAll, size, ofLeaf]

end Tree

namespace Locus

variable {locus : Locus} {kind : Kind} {trees : List Tree} {tree : Tree} {start : Nat}
  {name raw : String}

theorem kind_of_element (h : locus.element = tree.locate start) : locus.kind = tree.kind := by
  rw [Locus.kind, h, Tree.kind_locate]

theorem span_of_element (h : locus.element = tree.locate start) :
    locus.span = ⟨start, start + tree.size⟩ := by
  rw [Locus.span, h, Tree.span_locate]

theorem map_element_nodes (locus : Locus) :
    locus.nodes.map element = locus.element.children.filter Element.isNode := by
  rw [← map_element_children, List.filter_map]
  rfl

theorem map_element_tokens (locus : Locus) :
    locus.tokens.map element = locus.element.children.filter Element.isToken := by
  rw [← map_element_children, List.filter_map]
  rfl

/-! Names and quoted texts -/

theorem identText_of_element
    (h : locus.element = (Tree.node kind [.leaf .ident name]).locate start) :
    locus.identText = some name := by
  have hident := map_element_tokenOf locus .ident
  rw [h] at hident
  obtain ⟨token, htoken, helement⟩ := Option.map_eq_some_iff.1 hident
  rw [identText, ident, htoken, Option.map_some, Locus.text, helement]
  rfl

theorem isMultiline_of_element
    (h : locus.element = (Tree.node kind (.leaf .stringStart raw :: trees)).locate start) :
    locus.isMultiline = decide (raw = "\x27\x27\x27") := by
  have hfirst : locus.firstToken.map element =
      some ((Tree.leaf .stringStart raw).locate start) := by
    rw [firstToken, h]
    rfl
  obtain ⟨token, htoken, helement⟩ := Option.map_eq_some_iff.1 hfirst
  have hkind : token.kind = .stringStart := kind_of_element helement
  have htext : token.text = raw := by
    rw [Locus.text, helement]
    rfl
  simp [isMultiline, htoken, hkind, htext]

/-- The value of a string that is written as one piece between quotes. -/
theorem literalValue_of_element
    (h : locus.element = (Tree.node .string (.leaf .stringStart "\x27" ::
      ((textLeaves raw).map Tree.ofLeaf ++ [.leaf .stringEnd "\x27"]))).locate start) :
    locus.literalValue = some (unescape raw) := by
  have hnodes : locus.nodes = [] := by
    have helements := map_element_nodes locus
    rw [h] at helements
    refine List.map_eq_nil_iff.1 (helements.trans ?_)
    unfold textLeaves
    split <;> rfl
  have htext : locus.rawText = raw := by
    have htokens := map_element_tokens locus
    have hraw : locus.rawText = String.join (((locus.tokens.map element).filter fun element =>
        element.kind = .stringText).map Element.text) := by
      rw [rawText, List.filter_map, List.map_map]
      rfl
    rw [hraw, htokens, h]
    unfold textLeaves
    split
    · next hempty => rw [hempty]; rfl
    · simp [Tree.locate, Tree.locateAll, Tree.ofLeaf, Element.children, Element.isToken,
        Element.kind, Element.text]
  have hmultiline : locus.isMultiline = false := isMultiline_of_element h
  simp [literalValue, isInterpolated, interpolations, hnodes, hmultiline, htext]

theorem quotedValue_of_element
    (h : locus.element = (Tree.node kind [.node .string (.leaf .stringStart "\x27" ::
      ((textLeaves raw).map Tree.ofLeaf ++ [.leaf .stringEnd "\x27"]))]).locate start) :
    locus.quotedValue = some (unescape raw) := by
  have hstring := map_element_nodeOf locus .string
  rw [h] at hstring
  obtain ⟨string, hfound, helement⟩ := Option.map_eq_some_iff.1 hstring
  rw [quotedValue, hfound, Option.bind_some]
  exact literalValue_of_element helement

end Locus

end Caret
