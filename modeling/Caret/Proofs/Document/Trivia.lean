import Caret.Proofs.Document.Marks
import Caret.Proofs.Rule.Likeness

/-!
# Trivia makes no difference

Blanks and comments may stand between any two tokens. Two texts that are the same but for them have
the same tree but for them, and the same errors, each at the token that stands in the same place
among those that are no trivia.
-/

namespace Caret

namespace Tree

mutual

/-- A tree without the trivia in it. -/
def bare : Tree → Tree
  | leaf kind text => leaf kind text
  | node kind children => node kind (bareAll children)

def bareAll : List Tree → List Tree
  | [] => []
  | tree :: trees => if tree.kind.isTrivia then bareAll trees else tree.bare :: bareAll trees

end

theorem bareAll_append (left right : List Tree) :
    bareAll (left ++ right) = bareAll left ++ bareAll right := by
  induction left with
  | nil => rfl
  | cons tree trees ih =>
      rw [List.cons_append, bareAll, bareAll, ih]
      split <;> rfl

theorem bareAll_trivia {lead : List Token} (h : ∀ token ∈ lead, token.isTrivia = true) :
    bareAll (lead.map ofToken) = [] := by
  induction lead with
  | nil => rfl
  | cons token lead ih =>
      obtain ⟨htoken, hlead⟩ := List.forall_mem_cons.1 h
      rw [List.map_cons, bareAll, ih hlead]
      exact if_pos htoken

end Tree

namespace Rule

/-- Lexemes and trees that are the same but for trivia, where `mates` are the tokens that stand for
each other. -/
def upToTrivia (mates : Token → Token → Prop) : Likeness where
  lexeme x y := (∀ token ∈ x.lead, token.isTrivia = true) ∧ (∀ token ∈ y.lead, token.isTrivia = true) ∧
    x.token.leaf = y.token.leaf ∧ mates x.token y.token
  trees left right := Tree.bareAll left = Tree.bareAll right
  error first second := first.cause = second.cause ∧
    ∃ x y, mates x y ∧ first.span = x.span ∧ second.span = y.span
  kind_eq h := congrArg Prod.fst h.2.2.1
  text_eq h _ := congrArg Prod.snd h.2.2.1
  settled h := ⟨by simp, by simp, h.2.2⟩
  lead h := by rw [Tree.bareAll_trivia h.1, Tree.bareAll_trivia h.2.1]
  leaf {x y tag} h _ := by
    have htext : x.token.text = y.token.text := congrArg Prod.snd h.2.2.1
    rw [htext]
  located cause h := ⟨rfl, _, _, h.2.2.2, rfl, rfl⟩
  nil := rfl
  append hleft hright := by rw [Tree.bareAll_append, Tree.bareAll_append, hleft, hright]
  wrapped kind children children' h := by
    simp only [Tree.bareAll, Tree.bare, h]
    rfl

end Rule

namespace Document

/-- The tokens of a text that are no trivia, the end of the file included. -/
def significant (text : String) : List Token := (tokenize text).filter fun token => !token.isTrivia

/-- Tokens of two texts that have the same number among those that are no trivia. -/
def Mates (text other : String) (token token' : Token) : Prop :=
  ∃ i : Nat, (significant text)[i]? = some token ∧ (significant other)[i]? = some token'

/-- Two errors with one cause, noticed at tokens that stand for each other. -/
def Corresponds (text other : String) (error error' : SyntaxError) : Prop :=
  error.cause = error'.cause ∧ ∃ token token', Mates text other token token' ∧
    error.span = token.span ∧ error'.span = token'.span

variable {text other : String}

theorem map_token_input (text : String) : (input text).map Lexeme.token = significant text :=
  Lexeme.map_token_group _

/-- The lexemes of two texts that differ in trivia alone. -/
theorem inputs_of_significant_eq
    (h : (significant text).map Token.leaf = (significant other).map Token.leaf) :
    (Rule.upToTrivia (Mates text other)).Inputs (input text) (input other) := by
  have hlexemes : List.Forall₂ (Rule.upToTrivia (Mates text other)).lexeme
      (input text) (input other) := by
    rw [← map_token_input, ← map_token_input, List.map_map, List.map_map] at h
    have hlength : (input text).length = (input other).length := by
      simpa using congrArg List.length h
    refine List.forall₂_iff_get.2 ⟨hlength, fun i hi hi' => ⟨?_, ?_, ?_, i, ?_, ?_⟩⟩
    · exact (Lexeme.led_group _ _ (List.getElem_mem hi)).1
    · exact (Lexeme.led_group _ _ (List.getElem_mem hi')).1
    · have hleaf := congrArg (·[i]?) h
      simpa [hi, hi'] using hleaf
    · simp [← map_token_input, hi]
    · simp [← map_token_input, hi']
  obtain ⟨⟨front, lead, hinput, hfront⟩, -⟩ := ends_group_tokenize text
  change input text = _ at hinput
  rw [hinput] at hlexemes ⊢
  exact Rule.Likeness.inputs_concat hlexemes hfront rfl

/-- Texts that are the same but for trivia have the same trees but for trivia, and errors with the
same causes in the same order, at tokens that stand for each other. -/
theorem parse_eq_of_significant_eq
    (h : (significant text).map Token.leaf = (significant other).map Token.leaf) :
    (parse text).tree.bare = (parse other).tree.bare ∧
      List.Forall₂ (Corresponds text other) (parse text).errors (parse other).errors := by
  have houtcomes := Rule.Likeness.keeps_document (inputs_of_significant_eq h)
  have htrees : [(parse text).tree.bare] = [(parse other).tree.bare] := houtcomes.trees
  exact ⟨List.singleton_inj.1 htrees, houtcomes.errors⟩

/-- A comment in a list that is not closed moves the error behind it and changes nothing else. -/
theorem parse_eq_with_comment :
    (significant "var x=[1,/* two */2\n").map Token.leaf =
        (significant "var x = [1, 2\n").map Token.leaf ∧
      (parse "var x=[1,/* two */2\n").tree.bare = (parse "var x = [1, 2\n").tree.bare ∧
      List.Forall₂ (Corresponds "var x=[1,/* two */2\n" "var x = [1, 2\n")
        (parse "var x=[1,/* two */2\n").errors (parse "var x = [1, 2\n").errors := by
  have heq : (significant "var x=[1,/* two */2\n").map Token.leaf =
      (significant "var x = [1, 2\n").map Token.leaf := by decide +kernel
  exact ⟨heq, parse_eq_of_significant_eq heq⟩

end Document

end Caret
