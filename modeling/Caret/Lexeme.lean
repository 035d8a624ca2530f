import Caret.Token

namespace Caret

/-- A token that the grammar looks at, with the trivia in front of it. -/
structure Lexeme where
  lead : List Token
  token : Token
  deriving DecidableEq, Repr, Inhabited

namespace Lexeme

def kind (lexeme : Lexeme) : Kind := lexeme.token.kind

def tokens (lexeme : Lexeme) : List Token := lexeme.lead ++ [lexeme.token]

/-- Attaches trivia to the token it precedes. Trivia that nothing follows is left out, so the tokens
should end with `eof`. -/
def group : List Token → List Lexeme
  | [] => []
  | token :: tokens =>
    if token.isTrivia then
      match group tokens with
      | [] => []
      | first :: rest => { first with lead := token :: first.lead } :: rest
    else ⟨[], token⟩ :: group tokens

theorem group_cons_of_not_trivia {token : Token} {tokens : List Token}
    (h : token.isTrivia = false) : group (token :: tokens) = ⟨[], token⟩ :: group tokens := by
  simp [group, h]

end Lexeme

end Caret
