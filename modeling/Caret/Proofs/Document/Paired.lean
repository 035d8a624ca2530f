import Caret.Proofs.Document.Marks
import Caret.Proofs.Rule.Likeness

/-!
# Texts with the same number of tokens

Where the tokens of two texts stand in a relation one by one, with the kinds the same, they are
grouped in the same way, and readings that cannot tell them apart are alike.
-/

namespace Caret

/-- Lexemes whose tokens stand in a relation one by one. -/
structure Lexeme.Paired (related : Token → Token → Prop) (lexeme other : Lexeme) : Prop where
  lead : List.Forall₂ related lexeme.lead other.lead
  token : related lexeme.token other.token

variable {related : Token → Token → Prop} {tokens others : List Token}

theorem Lexeme.forall₂_paired_group
    (hkind : ∀ {token other}, related token other → other.kind = token.kind)
    (h : List.Forall₂ related tokens others) :
    List.Forall₂ (Paired related) (group tokens) (group others) := by
  induction h with
  | nil => exact .nil
  | cons htoken _ ih =>
      rw [group, group, Token.isTrivia, Token.isTrivia, hkind htoken]
      split
      · generalize group _ = lexemes at ih
        generalize group _ = lexemes' at ih
        cases ih with
        | nil => exact .nil
        | cons hfirst hrest => exact .cons ⟨.cons htoken hfirst.lead, hfirst.token⟩ hrest
      · exact .cons ⟨.nil, htoken⟩ ih

/-- Tokens that stand in a relation with those of a text are read like them. -/
theorem Document.inputs_of_paired {text : String} {like : Rule.Likeness}
    (hkind : ∀ {token other}, related token other → other.kind = token.kind)
    (hlike : ∀ {lexeme other}, Lexeme.Paired related lexeme other → like.lexeme lexeme other)
    (h : List.Forall₂ related (tokenize text) others) :
    like.Inputs (input text) (Lexeme.group others) := by
  have hlexemes : List.Forall₂ like.lexeme (input text) (Lexeme.group others) :=
    (Lexeme.forall₂_paired_group hkind h).imp fun _ _ => hlike
  obtain ⟨front, lead, hinput, hfront⟩ := (ends_group_tokenize text).1
  change input text = _ at hinput
  rw [hinput] at hlexemes ⊢
  exact Rule.Likeness.inputs_concat hlexemes hfront rfl

end Caret
