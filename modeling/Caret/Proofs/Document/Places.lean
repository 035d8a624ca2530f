import Caret.Proofs.Document.Leaves
import Caret.Proofs.Lexer.Lengths

/-!
# The characters at a place

A place in the tree of a text holds characters of the text that stand side by side, so it starts and
ends between characters.
-/

namespace Caret

namespace Bytes

variable {start stop : Nat} {text : String} {before after : List Char}

theorem isBoundary_of_append (h : before ++ after = text.toList) :
    isBoundary (String.ofList before).utf8ByteSize text = true := by
  rw [isBoundary, drop_eq_some_iff.2 ⟨before, rfl, h⟩]
  rfl

/-- There is a text between two boundaries. -/
theorem exists_slice (hstart : isBoundary start text = true) (hstop : isBoundary stop text = true)
    (hle : start ≤ stop) : ∃ between, slice text start stop = some between := by
  obtain ⟨before, after, htext, rfl⟩ := exists_of_isBoundary hstart
  obtain ⟨left, right, htext', rfl⟩ := exists_of_isBoundary hstop
  obtain ⟨middle, rfl, -⟩ := exists_of_append_le (htext.trans htext'.symm) hle
  exact ⟨_, slice_of_append htext'⟩

end Bytes

namespace Tree

/-- The characters of a placed tree take up its bytes. -/
theorem utf8ByteSize_spelling (trees : List Tree) :
    (String.ofList (Lexer.spelling (leavesAll trees))).utf8ByteSize = sizeAll trees := by
  rw [← sum_leavesAll, Lexer.spelling]
  induction leavesAll trees with
  | nil => rfl
  | cons leaf leaves ih =>
      rw [List.flatMap_cons, Bytes.utf8ByteSize_append, ih, String.ofList_toList]
      rfl

end Tree

namespace Locus

variable {root locus : Locus} {text : String}

/-- A place that holds a tree at the bytes that its characters have in a text. -/
def Spells (text : String) (locus : Locus) : Prop :=
  ∃ before tree after, before ++ Lexer.spelling (Tree.leavesAll [tree]) ++ after = text.toList ∧
    locus.element = Tree.locate (String.ofList before).utf8ByteSize tree

theorem Spells.isBoundary (h : locus.Spells text) :
    Bytes.isBoundary locus.span.start text = true ∧
      Bytes.isBoundary locus.span.stop text = true := by
  obtain ⟨before, tree, after, htext, helement⟩ := h
  have hstop : (String.ofList before).utf8ByteSize + tree.size =
      (String.ofList (before ++ Lexer.spelling (Tree.leavesAll [tree]))).utf8ByteSize := by
    rw [Bytes.utf8ByteSize_append, Tree.utf8ByteSize_spelling]
    rfl
  rw [Locus.span, helement, Tree.span_locate]
  refine ⟨Bytes.isBoundary_of_append ((List.append_assoc ..).symm.trans htext), ?_⟩
  dsimp only
  rw [hstop]
  exact Bytes.isBoundary_of_append htext

theorem Spells.of_mem_children {child : Locus} (h : locus.Spells text)
    (hchild : child ∈ locus.children) : child.Spells text := by
  obtain ⟨before, tree, after, htext, helement⟩ := h
  obtain ⟨hchildren, -⟩ := mem_children_iff.1 hchild
  rw [helement] at hchildren
  cases tree with
  | leaf kind text => simp [Tree.locate, Element.children] at hchildren
  | node kind trees =>
      obtain ⟨front, inner, rest, rfl, -, hinner, -⟩ := Tree.locateAll_eq_append_cons hchildren
      refine ⟨before ++ Lexer.spelling (Tree.leavesAll front), inner,
        Lexer.spelling (Tree.leavesAll rest) ++ after, ?_, ?_⟩
      · rw [← htext]
        simp [Lexer.spelling, Tree.leavesAll, Tree.leaves, Tree.leavesAll_append]
      · rw [Bytes.utf8ByteSize_append, Tree.utf8ByteSize_spelling]
        exact hinner

theorem Under.spells (h : Under root locus) (hroot : root.Spells text) : locus.Spells text := by
  induction h with
  | root => exact hroot
  | child _ hchild ih => exact ih.of_mem_children hchild

end Locus

namespace Document

variable {text : String} {node : Locus}

/-- The leaves of the tree of a text spell it. -/
theorem spelling_leaves_parse (text : String) :
    Lexer.spelling (Tree.leavesAll [(parse text).tree]) = text.toList := by
  have hstands : ∀ (tokens : List Token) (leaves : List (Kind × String)),
      List.Forall₂ Token.Stands tokens leaves →
        Lexer.spelling leaves = tokens.flatMap fun token => token.text.toList := by
    intro tokens leaves h
    induction h with
    | nil => rfl
    | cons hfirst _ ih =>
        rw [Lexer.spelling, List.flatMap_cons, ← Lexer.spelling, ih, hfirst.2, List.flatMap_cons]
  have hjoin := congrArg String.toList (join_text_cutTokens text)
  rw [String.toList_join, List.flatMap_map, ← hstands _ _ (forall₂_stands_leaves_parse text)]
    at hjoin
  rw [← hjoin, Tree.leavesAll, Tree.leavesAll, List.append_nil]

theorem spells_locus (text : String) : (locus text).Spells text :=
  ⟨[], (parse text).tree, [], by rw [spelling_leaves_parse]; simp, rfl⟩

/-- A place in the tree of a text starts and ends between characters. -/
theorem isBoundary_of_under (h : Locus.Under (locus text) node) :
    Bytes.isBoundary node.span.start text = true ∧ Bytes.isBoundary node.span.stop text = true :=
  (h.spells (spells_locus text)).isBoundary

end Document

end Caret
