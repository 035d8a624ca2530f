import Caret.Proofs.Ast.Written
import Caret.Proofs.Document.Trivia

/-!
# Programs are parsed as they are meant

The text of a program is parsed without a fault into the tree of the program, with blanks in it.
-/

namespace Caret

open Rule

/-- A token with nothing in front of it, wherever it stands. -/
def Lexeme.ofLeaf (leaf : Kind × String) : Lexeme := ⟨[], leaf.1, leaf.2, 0, false⟩

namespace Document

variable {text : String} {words : List (Kind × String)} {trees : List Tree}

/-- Blanks and comments in a text make no difference to what the other tokens are read as. -/
theorem parse_of_gives (hwords : (input text).map (fun lexeme => lexeme.token.leaf) = words)
    (h : (loop documentStep).Gives words trees [(.eof, "")]) :
    (parse text).errors = [] ∧ (parse text).tree.bare = .node .root (Tree.bareAll trees) := by
  let like := upToTrivia fun _ _ => True
  have hplain : words.map Lexeme.ofLeaf =
      (input text).map fun lexeme => Lexeme.ofLeaf lexeme.token.leaf := by
    rw [← hwords, List.map_map]
    rfl
  have hlexemes : List.Forall₂ like.lexeme (input text) (words.map Lexeme.ofLeaf) := by
    rw [hplain, List.forall₂_map_right_iff, List.forall₂_same]
    exact fun lexeme hmem => ⟨(Lexeme.led_group _ _ hmem).1, by simp [Lexeme.ofLeaf], rfl, trivial⟩
  have hinputs : like.Inputs (input text) (words.map Lexeme.ofLeaf) := by
    obtain ⟨⟨front, lead, hinput, hfront⟩, -⟩ := ends_group_tokenize text
    change input text = _ at hinput
    rw [hinput] at hlexemes ⊢
    exact Likeness.inputs_concat hlexemes hfront rfl
  have hpieces : (words.map Lexeme.ofLeaf).map Lexeme.piece = words.map Piece.ofLeaf := by
    rw [List.map_map]
    rfl
  obtain ⟨htrees, hcauses, -⟩ := h _ hpieces
  have houtcomes := Likeness.keeps_document hinputs
  have herrors : (document (words.map Lexeme.ofLeaf)).errors = [] := List.map_eq_nil_iff.1 hcauses
  have hdocument : (document (words.map Lexeme.ofLeaf)).trees = [.node .root trees] := by
    rw [← htrees]
    rfl
  have hbare : Tree.bareAll [(parse text).tree] =
      Tree.bareAll (document (words.map Lexeme.ofLeaf)).trees := houtcomes.trees
  have hfaults := houtcomes.errors
  rw [herrors] at hfaults
  rw [hdocument] at hbare
  exact ⟨List.forall₂_nil_right_iff.1 hfaults, List.singleton_inj.1 hbare⟩

end Document

namespace Ast

namespace Program

/-- The text of a program, with parentheses where it has them or an operand binds too loosely. -/
def text (program : Program) : String := String.ofList (spread program.grouped.words)

variable {program : Program} {taken : List String}

/-- The words of a program are the tokens of its text. -/
theorem map_leaf_input (hwritable : program.grouped.isWritable taken = true) :
    (Document.input program.text).map (fun lexeme => lexeme.token.leaf) =
      program.grouped.words ++ [(.eof, "")] := by
  have hwords := @Program.lexes taken _ hwritable [] [] rfl
  rw [List.append_nil, spread, Lexer.cutWords_nil, List.append_nil] at hwords
  rw [Document.map_leaf_input, text, String.toList_ofList]
  exact congrArg (· ++ [(Kind.eof, "")]) hwords

end Program

end Ast

end Caret
