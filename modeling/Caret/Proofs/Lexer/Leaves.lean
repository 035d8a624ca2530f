import Caret.Proofs.Lexer.Cover

/-!
# The leaves of the tokens

What the grammar and the tree take from a token is its kind and its text. Both depend on the
characters from the token on and on the constructs that are open, and not on the place.
-/

namespace Caret

namespace Lexer

/-- The leaves of the tokens that some characters are cut into, and what they leave open. -/
def cutLeaves (modes : List Mode) (cs : List Char) : List (Kind × String) :=
  (scan modes 0 cs).1.map Token.leaf

theorem cutLeaves_nil (modes : List Mode) : cutLeaves modes [] = [] := by
  simp [cutLeaves, scan]

theorem map_leaf_scan (modes : List Mode) (start : Nat) (cs : List Char) :
    (scan modes start cs).1.map Token.leaf = cutLeaves modes cs := by
  unfold cutLeaves
  generalize 0 = other
  fun_induction scan modes start cs generalizing other with
  | case1 => simp [scan]
  | case2 modes start c cs next text after ih =>
    rw [scan]
    exact congrArg (Token.leaf _ :: ·) (ih _)

theorem cutLeaves_cons (modes : List Mode) (c : Char) (cs : List Char) :
    cutLeaves modes (c :: cs) =
      ((cut modes c cs).kind, String.ofList (c :: cs.take (cut modes c cs).extra)) ::
        cutLeaves (cut modes c cs).modes (cs.drop (cut modes c cs).extra) := by
  rw [cutLeaves, scan, List.map_cons, map_leaf_scan]
  rfl

/-- Where a word starts in code, it reaches as far as its characters go. -/
theorem cutCode_of_startsWith (modes : List Mode) {c : Char} (cs : List Char)
    (h : Identifier.startsWith c = true) :
    cutCode modes c cs =
      { kind := (Kind.ofReserved (String.ofList (c :: cs.take
          (countWhile Identifier.continuesWith cs)))).getD .ident
        extra := countWhile Identifier.continuesWith cs, modes := modes } :=
  (CodeCut.word h).eq

theorem countWhile_append {test : Char → Bool} {left right : List Char}
    (hleft : ∀ c ∈ left, test c = true) (hright : ∀ c ∈ right.head?, test c = false) :
    countWhile test (left ++ right) = left.length := by
  induction left with
  | nil =>
      cases right with
      | nil => rfl
      | cons c cs => simp [countWhile, hright c rfl]
  | cons c cs ih =>
      rw [List.cons_append, countWhile, if_pos (hleft c List.mem_cons_self),
        ih fun d hd => hleft d (List.mem_cons_of_mem _ hd)]
      rfl
end Lexer

theorem map_leaf_tokenize (text : String) :
    (tokenize text).map Token.leaf = Lexer.cutLeaves [] text.toList ++ [(.eof, "")] := by
  have h := congrArg (List.map fun part => (part.1, part.2.1)) (map_unflagged_cutTokens text)
  rw [List.map_map, List.map_map] at h
  rw [tokenize_eq, List.map_append]
  exact congrArg (· ++ _) h

theorem Lexeme.map_token_group (tokens : List Token) :
    (group tokens).map Lexeme.token = tokens.filter fun token => !token.isTrivia := by
  induction tokens with
  | nil => rfl
  | cons token tokens ih =>
      by_cases htrivia : token.isTrivia = true
      · rw [List.filter_cons_of_neg (by simp [htrivia]), ← ih, group, if_pos htrivia]
        cases group tokens <;> rfl
      · rw [List.filter_cons_of_pos (by simp [htrivia]), ← ih,
          group_cons_of_not_trivia (by simpa using htrivia)]
        rfl

end Caret
