import Caret.Proofs.Lexer.Cover
import Caret.Proofs.Rule.Progress

/-!
# The tree of a text holds the text

Reading stops at the end of the file and nowhere before it, whatever the text is, so the leaves of
the tree are the tokens of the text. A leaf differs from its token in the tag alone: the grammar
knows the contextual keywords by their place, and takes a reserved word where a name stands.
-/

namespace Caret

namespace Lexeme

theorem kind_mk (lead : List Token) (token : Token) : (Lexeme.mk lead token).kind = token.kind := rfl

/-- Tokens with one that is not trivia at the end are all in their lexemes, the last one alone at
the end. -/
theorem group_concat (tokens : List Token) {last : Token} (h : last.isTrivia = false) :
    ∃ front lead, group (tokens ++ [last]) = front ++ [⟨lead, last⟩] ∧
      front.flatMap Lexeme.tokens ++ lead = tokens := by
  induction tokens with
  | nil => exact ⟨[], [], group_cons_of_not_trivia h, rfl⟩
  | cons token tokens ih =>
      obtain ⟨front, lead, hgroup, htokens⟩ := ih
      by_cases htrivia : token.isTrivia = true
      · rw [List.cons_append, group, if_pos htrivia, hgroup]
        cases front with
        | nil => exact ⟨[], token :: lead, rfl, congrArg (token :: ·) htokens⟩
        | cons first front =>
            exact ⟨{ first with lead := token :: first.lead } :: front, lead, rfl,
              congrArg (token :: ·) htokens⟩
      · rw [List.cons_append, group_cons_of_not_trivia (by simpa using htrivia), hgroup]
        exact ⟨⟨[], token⟩ :: front, lead, rfl, congrArg (token :: ·) htokens⟩

/-- Tokens behind one that is no trivia are grouped on their own. -/
theorem group_append {last : Token} (h : last.isTrivia = false) (left right : List Token) :
    group (left ++ [last] ++ right) = group (left ++ [last]) ++ group right := by
  induction left with
  | nil => simp [group_cons_of_not_trivia h, group]
  | cons token tokens ih =>
      rw [List.cons_append, List.cons_append, group, group, ih]
      split
      · obtain ⟨front, lead, hgroup, -⟩ := group_concat tokens h
        rw [hgroup]
        cases front <;> rfl
      · rfl

end Lexeme

namespace Rule

/-- An input that one end of the file closes. -/
def Ends (eof : Token) (input : List Lexeme) : Prop :=
  ∃ front lead, input = front ++ [⟨lead, eof⟩] ∧ ∀ lexeme ∈ front, lexeme.kind ≠ .eof

variable {eof : Token} {input rest : List Lexeme} {leaves : List (Kind × String)}

theorem Ends.ne_nil (h : Ends eof input) : input ≠ [] := by
  obtain ⟨front, lead, rfl, -⟩ := h
  simp

/-- Where the end of the file is the current token, nothing else is left. -/
theorem Ends.eq_singleton (h : Ends eof input) (hkind : kind input = .eof) :
    ∃ lead, input = [⟨lead, eof⟩] := by
  obtain ⟨front, lead, rfl, hfront⟩ := h
  cases front with
  | nil => exact ⟨lead, rfl⟩
  | cons lexeme front => exact absurd hkind (hfront lexeme List.mem_cons_self)

/-- The end of the file is never taken. -/
theorem Reads.ends (h : Reads input leaves rest) (hinput : Ends eof input)
    (heof : eof.kind = .eof) : Ends eof rest := by
  induction h with
  | done input => exact hinput
  | settle lead token rest =>
      obtain ⟨front, last, hfront, hkinds⟩ := hinput
      cases front with
      | nil =>
          simp only [List.nil_append, List.cons.injEq, Lexeme.mk.injEq] at hfront
          obtain ⟨⟨rfl, rfl⟩, rfl⟩ := hfront
          exact ⟨[], [], rfl, by simp⟩
      | cons first front =>
          simp only [List.cons_append, List.cons.injEq] at hfront
          obtain ⟨rfl, rfl⟩ := hfront
          refine ⟨⟨[], token⟩ :: front, last, rfl, ?_⟩
          simpa [Lexeme.kind_mk] using hkinds
  | take lead rest hkind _ =>
      obtain ⟨front, last, hfront, hkinds⟩ := hinput
      cases front with
      | nil =>
          simp only [List.nil_append, List.cons.injEq, Lexeme.mk.injEq] at hfront
          obtain ⟨⟨rfl, rfl⟩, -⟩ := hfront
          exact absurd heof hkind
      | cons first front =>
          simp only [List.cons_append, List.cons.injEq] at hfront
          exact ⟨front, last, hfront.2, fun lexeme hmem =>
            hkinds lexeme (List.mem_cons_of_mem _ hmem)⟩
  | trans _ _ ihfirst ihsecond => exact ihsecond (ihfirst hinput)

theorem spells_documentStep (input : List Lexeme) :
    ((documentStep input).rule input).Spells [] input := by
  unfold documentStep
  split
  · exact spells_settle input
  · exact spells_take input
  · exact spells_declaration input

/-- A document is read to the end of the file. -/
theorem rest_document (heof : eof.kind = .eof) (h : Ends eof input) :
    (document input).rest = [⟨[], eof⟩] := by
  change (loop documentStep input).rest = _
  induction input using loop_induction progresses_documentStep with
  | last input inner hchoose =>
      rw [loop_of_last progresses_documentStep hchoose]
      unfold documentStep at hchoose
      split at hchoose
      · rename_i hkind
        cases hchoose
        obtain ⟨lead, rfl⟩ := h.eq_singleton hkind
        rfl
      · cases hchoose
      · cases hchoose
  | again input inner hchoose ih =>
      rw [loop_of_again progresses_documentStep hchoose]
      have hspells := spells_documentStep input
      rw [hchoose] at hspells
      obtain ⟨leaves, hreads, -⟩ := hspells
      exact ih (hreads.ends h heof)

end Rule

/-- A leaf that is a token, with the same tag, as a contextual keyword or as a name. -/
def Token.Tagged (token : Token) (leaf : Kind × String) : Prop :=
  leaf.2 = token.text ∧
    (leaf.1 = token.kind ∨ token.kind = .ident ∧ leaf.1.isContextual = true ∨
      token.kind.isReserved = true ∧ leaf.1 = .ident)

theorem Token.Stands.tagged {token : Token} {leaf : Kind × String} (h : token.Stands leaf)
    (hcut : token.kind.isCut = true) : token.Tagged leaf := by
  obtain ⟨tag, text⟩ := leaf
  obtain ⟨hbecomes, htext⟩ := h
  refine ⟨htext, ?_⟩
  revert hbecomes hcut
  generalize token.kind = kind
  intro hcut hbecomes
  cases hbecomes with
  | same => exact .inl rfl
  | keyword hleaf => exact .inr (.inl ⟨rfl, hleaf⟩)
  | name hword => cases kind <;> simp_all [Kind.isWord, Kind.isCut, Kind.isContextual, Kind.isReserved]

namespace Document

theorem leaves_parse (text : String) :
    (parse text).tree.leaves =
      Tree.leavesAll (Rule.document (Lexeme.group (tokenize text))).trees := by
  change (Tree.node .root _).leaves = Tree.leavesAll [Tree.node .root _]
  simp [Tree.leaves, Tree.leavesAll]

/-- The lexemes of a text end with the end of the file, and hold the tokens of the text. -/
theorem ends_group_tokenize (text : String) :
    Rule.Ends (Token.endOfFile text.utf8ByteSize) (Lexeme.group (tokenize text)) ∧
      (Lexeme.group (tokenize text)).flatMap Lexeme.tokens =
        cutTokens text ++ [Token.endOfFile text.utf8ByteSize] := by
  have htrivia : (Token.endOfFile text.utf8ByteSize).isTrivia = false := rfl
  obtain ⟨front, lead, hgroup, htokens⟩ := Lexeme.group_concat (cutTokens text) htrivia
  rw [tokenize_eq, hgroup]
  refine ⟨⟨front, lead, rfl, fun lexeme hmem heof => ?_⟩, ?_⟩
  · have htoken : lexeme.token ∈ cutTokens text := by
      rw [← htokens]
      exact List.mem_append_left _ (List.mem_flatMap.2 ⟨lexeme, hmem, by simp [Lexeme.tokens]⟩)
    have hcut := isCut_of_mem_cutTokens htoken
    rw [show lexeme.token.kind = .eof from heof] at hcut
    exact absurd hcut (by decide)
  · rw [List.flatMap_append, List.flatMap_singleton, Lexeme.tokens, ← List.append_assoc, htokens]

/-- The leaves of the tree of a text are its tokens, up to their tags. -/
theorem forall₂_stands_leaves_parse (text : String) :
    List.Forall₂ Token.Stands (cutTokens text) (parse text).tree.leaves := by
  obtain ⟨hends, htokens⟩ := ends_group_tokenize text
  obtain ⟨leaves, hreads, htrees⟩ := Rule.spells_document (Lexeme.group (tokenize text))
  rw [Rule.rest_document rfl hends] at hreads
  obtain ⟨taken, htaken, hstands⟩ := hreads.exists_taken
  have hcut : taken = cutTokens text := by
    rw [htokens] at htaken
    exact (List.append_cancel_right htaken).symm
  rw [leaves_parse, htrees, ← hcut]
  exact hstands

theorem text_eq_of_forall₂_tagged {tokens : List Token} {leaves : List (Kind × String)}
    (h : List.Forall₂ Token.Tagged tokens leaves) :
    leaves.map (·.2) = tokens.map Token.text := by
  induction h with
  | nil => rfl
  | cons htagged _ ih => rw [List.map_cons, List.map_cons, ih, htagged.1]

/-- Cutting a text and reading it loses nothing: the tokens cover the text, they are the leaves of
the tree in their order, and the tree spells the text. -/
theorem parse_lossless (text : String) :
    ∃ tokens, tokenize text = tokens ++ [Token.endOfFile text.utf8ByteSize] ∧
      (∀ token ∈ tokens, token.text ≠ "" ∧ token.kind ≠ .eof) ∧
      Token.Contiguous 0 (tokenize text) ∧
      String.join (tokens.map Token.text) = text ∧
      List.Forall₂ Token.Tagged tokens (parse text).tree.leaves ∧
      (parse text).tree.text = text := by
  have htagged : List.Forall₂ Token.Tagged (cutTokens text) (parse text).tree.leaves := by
    have hmem := (List.forall₂_and_left _ _).2
      ⟨fun _ => isCut_of_mem_cutTokens, forall₂_stands_leaves_parse text⟩
    exact hmem.imp fun _ _ h => h.2.tagged h.1
  refine ⟨cutTokens text, tokenize_eq text, fun token hmem => ⟨?_, ?_⟩, contiguous_tokenize text,
    join_text_cutTokens text, htagged, ?_⟩
  · exact text_ne_empty_of_mem_cutTokens hmem
  · intro heof
    have hcut := isCut_of_mem_cutTokens hmem
    rw [heof] at hcut
    exact absurd hcut (by decide)
  · rw [Tree.text, text_eq_of_forall₂_tagged htagged, join_text_cutTokens]

end Document

end Caret
