import Caret.Proofs.Document.Marks
import Caret.Proofs.Lexer.Breaks
import Caret.Proofs.Text.Bytes

/-!
# Lines

Whether a line break stands between two places is told by the leaves between them: a line break is
a part of a leaf that can hold one.
-/

namespace Caret

/-- No line break stands in the bytes of a span, or between them and an offset. -/
def OnLine (text : String) (offset : Nat) (span : Span) : Prop :=
  ∀ before c after, text.toList = before ++ c :: after → Lexer.isLineBreak c = true →
    (String.ofList before).utf8ByteSize < min span.start offset ∨
      max span.stop offset ≤ (String.ofList before).utf8ByteSize

namespace Lexer

/-- A character of some tokens belongs to one of them. -/
theorem exists_part_of_spelling {parts : List (Kind × String)} {before after : List Char} {c : Char}
    (h : spelling parts = before ++ c :: after) :
    ∃ left part right half more, parts = left ++ part :: right ∧
      part.2.toList = half ++ c :: more ∧ before = spelling left ++ half := by
  induction parts generalizing before with
  | nil => simp [spelling] at h
  | cons part parts ih =>
      rw [spelling, List.flatMap_cons] at h
      rcases List.append_eq_append_iff.1 h with ⟨middle, rfl, hrest⟩ | ⟨middle, hpart, hrest⟩
      · obtain ⟨left, other, right, half, more, rfl, hother, rfl⟩ := ih hrest
        exact ⟨part :: left, other, right, half, more, rfl, hother, by simp [spelling]⟩
      · cases middle with
        | nil =>
            obtain ⟨left, other, right, half, more, rfl, hother, hnil⟩ := @ih [] hrest.symm
            refine ⟨part :: left, other, right, half, more, rfl, hother, ?_⟩
            rw [List.append_nil] at hpart
            rw [spelling, List.flatMap_cons, hpart, List.append_assoc]
            exact (List.append_nil before).symm.trans (congrArg (before ++ ·) hnil)
        | cons first more =>
            obtain ⟨rfl, rfl⟩ := List.cons.inj hrest
            exact ⟨[], part, parts, before, more, rfl, hpart, rfl⟩

end Lexer

namespace Document

variable {text : String} {offset : Nat} {span : Span} {leaf : Locus}

/-- A line break is a part of a leaf of one of three kinds. -/
theorem exists_leaf_of_isLineBreak {before after : List Char} {c : Char}
    (h : text.toList = before ++ c :: after) (hbreak : Lexer.isLineBreak c = true) :
    ∃ leaf ∈ (locus text).leaves, leaf.kind.spansLines = true ∧ c ∈ leaf.text.toList ∧
      leaf.span.start ≤ (String.ofList before).utf8ByteSize ∧
        (String.ofList before).utf8ByteSize < leaf.span.stop := by
  rw [← Lexer.spelling_cutLeaves [] text.toList] at h
  obtain ⟨left, part, right, half, more, hparts, hpart, rfl⟩ := Lexer.exists_part_of_spelling h
  obtain ⟨others, leaf, rest, hleaves, hleft, htakes, -⟩ := exists_leaves_of_parts hparts
  obtain ⟨hstart, hstop⟩ := size_of_leaves hleaves hleft htakes
  have hc : c ∈ part.2.toList := by simp [hpart]
  have hkind : part.1.spansLines = true :=
    Lexer.spansLines_of_isLineBreak (by rw [hparts]; simp) hc hbreak
  have hsize : (String.ofList half).utf8ByteSize < part.2.utf8ByteSize := by
    have hpos := c.utf8Size_pos
    rw [← String.ofList_toList (s := part.2), hpart, Bytes.utf8ByteSize_append,
      Bytes.utf8ByteSize_cons]
    omega
  refine ⟨leaf, by simp [hleaves], ?_, ?_, ?_, ?_⟩
  · have hsame : leaf.kind = part.1 :=
      htakes.1.eq_of_not_isWord (Kind.not_isWord_of_spansLines hkind)
    rw [hsame, hkind]
  · rw [show leaf.text = part.2 from htakes.2]
    exact hc
  · rw [hstart, Bytes.utf8ByteSize_append]
    omega
  · rw [hstop, Bytes.utf8ByteSize_append]
    omega

/-- Leaves without line breaks keep to one line. -/
theorem onLine_of_leaves (h : ∀ leaf ∈ (locus text).leaves,
      min span.start offset < leaf.span.stop → leaf.span.start < max span.stop offset →
        leaf.kind.spansLines = true → ∀ c ∈ leaf.text.toList, Lexer.isLineBreak c = false) :
    OnLine text offset span := by
  intro before c after htext hbreak
  obtain ⟨leaf, hleaf, hkind, hc, hstart, hstop⟩ := exists_leaf_of_isLineBreak htext hbreak
  by_contra hinside
  rw [not_or, Nat.not_lt, Nat.not_le] at hinside
  have hnone := h leaf hleaf (by omega) (by omega) hkind c hc
  rw [hbreak] at hnone
  cases hnone

end Document

end Caret
