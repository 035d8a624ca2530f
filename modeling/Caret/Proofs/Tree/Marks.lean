import Caret.Proofs.Rule.Covered
import Caret.Proofs.Tree.Leaf

/-!
# The marks of trees

The leaves that the grammar looks at, each with the kind of the node that it is a child of. Trees
that have no tokens of their own have the same marks wherever they are put.
-/

namespace Caret

namespace Tree

/-- The leaves of some trees that are no trivia, as children of a node of the given kind. -/
def marks (home : Kind) (trees : List Tree) : List Leaf :=
  (homedAll home trees).filter fun leaf => !leaf.kind.isTrivia

variable {home kind : Kind}

@[simp]
theorem marks_nil (home : Kind) : marks home [] = [] := rfl

@[simp]
theorem marks_append (home : Kind) (left right : List Tree) :
    marks home (left ++ right) = marks home left ++ marks home right := by
  rw [marks, homedAll_append, List.filter_append]
  rfl

@[simp]
theorem marks_node (home kind : Kind) (children : List Tree) :
    marks home [node kind children] = marks kind children := by
  simp [marks, homedAll, homed]

theorem marks_leaf (home : Kind) {kind : Kind} (text : String) (h : kind.isTrivia = false) :
    marks home [leaf kind text] = [⟨home, kind, text⟩] := by
  simp [marks, homedAll, homed, h]

theorem marks_lead (home : Kind) {tokens : List Token}
    (h : ∀ token ∈ tokens, token.isTrivia = true) : marks home (tokens.map ofToken) = [] := by
  induction tokens with
  | nil => rfl
  | cons token tokens ih =>
      have htoken : token.kind.isTrivia = true := h token List.mem_cons_self
      have hrest := ih fun other hmem => h other (List.mem_cons_of_mem _ hmem)
      rw [List.map_cons, ← List.singleton_append, marks_append, hrest]
      simp [marks, homedAll, homed, ofToken, htoken]

theorem marks_tokens (home : Kind) {lexeme : Lexeme}
    (h : ∀ token ∈ lexeme.lead, token.isTrivia = true) (htoken : lexeme.token.isTrivia = false) :
    marks home (lexeme.tokens.map ofToken) = [⟨home, lexeme.kind, lexeme.token.text⟩] := by
  rw [Lexeme.tokens, List.map_append, marks_append, marks_lead home h]
  exact marks_leaf home _ htoken

theorem marks_of_isCovered {trees : List Tree} (h : ∀ tree ∈ trees, tree.IsCovered)
    (home other : Kind) : marks home trees = marks other trees := by
  induction trees with
  | nil => rfl
  | cons tree trees ih =>
      have hrest := ih fun tree hmem => h tree (List.mem_cons_of_mem _ hmem)
      rw [← List.singleton_append, marks_append, marks_append, hrest]
      have hfirst := h tree List.mem_cons_self
      cases tree with
      | leaf kind text =>
          have htrivia : kind.isTrivia = true := hfirst
          simp [marks, homedAll, homed, htrivia]
      | node kind children => simp

end Tree

end Caret
