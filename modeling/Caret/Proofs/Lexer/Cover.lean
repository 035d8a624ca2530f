import Caret.Proofs.Lexer.Cuts
import Caret.Proofs.Rule.Reading
import Mathlib.Algebra.GroupWithZero.Nat
import Mathlib.Data.List.TakeWhile

/-!
# Tokens cover the text

Cutting a text gives tokens that are not empty, stand side by side from the first byte on, and spell
the text; one empty token marks its end. The flag on the last part of a string that is cut off is
set afterwards and changes nothing else.
-/

namespace Caret

namespace Kind

/-- The kinds of the tokens that cover a text: the end of the file covers nothing, and the keywords
that are known by their place are still identifiers. -/
def isCut (kind : Kind) : Bool := kind.isToken && !kind.isContextual && kind != .eof

end Kind

/-- Tokens that stand side by side, the first one at the given byte. -/
def Token.Contiguous : Nat → List Token → Prop
  | _, [] => True
  | start, token :: tokens => token.start = start ∧ Contiguous token.stop tokens

/-- The bytes in front of a token are those of the tokens in front of it. -/
theorem Token.Contiguous.sum_size {start : Nat} {before after : List Token} {token : Token}
    (h : Contiguous start (before ++ token :: after)) :
    start + (before.map size).sum = token.start := by
  induction before generalizing start with
  | nil => exact h.1.symm
  | cons first before ih =>
      have hstop : first.stop = start + first.size := by rw [stop, h.1]
      rw [List.map_cons, List.sum_cons, ← Nat.add_assoc, ← hstop, ih h.2]

theorem Token.Contiguous.append {start : Nat} {left right : List Token}
    (h : Contiguous start (left ++ right)) :
    Contiguous start left ∧ Contiguous (start + (left.map size).sum) right := by
  induction left generalizing start with
  | nil => exact ⟨trivial, h⟩
  | cons token tokens ih =>
      obtain ⟨hstart, hnext⟩ := h
      obtain ⟨hleft, hright⟩ := ih hnext
      refine ⟨⟨hstart, hleft⟩, ?_⟩
      rwa [List.map_cons, List.sum_cons, ← Nat.add_assoc, ← hstart]

namespace Lexer

theorem CodeCut.isCut {modes : List Mode} {c : Char} {cs : List Char} {next : Cut}
    (h : CodeCut modes c cs next) : next.kind.isCut = true := by
  cases h with
  | symbol h => exact (by decide : ∀ kind ∈ symbolKinds, kind.isCut = true) _ h.mem_symbolKinds
  | word => exact (by decide : ∀ kind ∈ wordKinds, kind.isCut = true) _ (mem_wordKinds _)
  | _ => rfl

theorem TokenCut.isCut {modes : List Mode} {c : Char} {cs : List Char} {next : Cut}
    (h : TokenCut modes c cs next) : next.kind.isCut = true := by
  cases h with
  | body h => cases h <;> rfl
  | code _ h => exact h.isCut

/-- Each token is told by one of the rules, wherever it is cut. -/
theorem exists_tokenCut_of_mem_scan {modes : List Mode} {start : Nat} {cs : List Char}
    {token : Token} (h : token ∈ (scan modes start cs).1) : ∃ modes c cs next, TokenCut modes c cs next ∧
      token.kind = next.kind ∧ token.text = String.ofList (c :: cs.take next.extra) ∧
        token.unterminated = next.unterminated := by
  fun_induction scan modes start cs with
  | case1 => simp at h
  | case2 modes start c cs next text after ih =>
      rcases List.mem_cons.1 h with rfl | h
      · exact ⟨modes, c, cs, next, tokenCut modes c cs, rfl, rfl, rfl⟩
      · exact ih h

theorem isCut_of_mem_scan {modes : List Mode} {start : Nat} {cs : List Char} {token : Token}
    (h : token ∈ (scan modes start cs).1) : token.kind.isCut = true := by
  obtain ⟨_, _, _, next, hnext, hkind, -⟩ := exists_tokenCut_of_mem_scan h
  rw [hkind]
  exact hnext.isCut

/-- The tokens of some characters reach from the byte at which cutting starts to the byte at which
the characters end. -/
theorem contiguous_scan_append (modes : List Mode) (start : Nat) (cs : List Char)
    {tokens : List Token}
    (h : Token.Contiguous (start + (String.ofList cs).utf8ByteSize) tokens) :
    Token.Contiguous start ((scan modes start cs).1 ++ tokens) := by
  fun_induction scan modes start cs with
  | case1 => simpa using h
  | case2 modes start c cs next text after ih =>
    refine ⟨rfl, ih ?_⟩
    have hsplit : String.ofList (c :: cs) = text ++ String.ofList (cs.drop next.extra) := by
      rw [← String.ofList_append, List.cons_append, List.take_append_drop]
    rw [hsplit, String.utf8ByteSize_append, ← Nat.add_assoc] at h
    exact h

/-- All that is in a token but the flag. -/
def unflagged (token : Token) : Kind × String × Nat := (token.kind, token.text, token.start)

/-- The mark is set on the last token that satisfies the test, if there is one. -/
theorem markLast_cases (test : Token → Bool) (tokens : List Token) :
    ((∀ token ∈ tokens, test token = false) ∧ markLast test tokens = tokens) ∨
      ∃ before token after, tokens = before ++ token :: after ∧ test token = true ∧
        (∀ other ∈ after, test other = false) ∧
          markLast test tokens = before ++ { token with unterminated := true } :: after := by
  unfold markLast
  dsimp only
  split
  · rename_i hdrop
    refine .inl ⟨fun token hmem => ?_, rfl⟩
    simpa using List.dropWhile_eq_nil_iff.1 hdrop token (List.mem_reverse.2 hmem)
  · rename_i token before hdrop
    have hsplit := List.takeWhile_append_dropWhile
      (p := fun token => !test token) (l := tokens.reverse)
    rw [hdrop] at hsplit
    refine .inr ⟨before.reverse, token, _, ?_, ?_, fun other hother => ?_, rfl⟩
    · rw [← List.reverse_inj]
      simpa using hsplit.symm
    · have hhead := List.head_dropWhile_not (fun token => !test token) (l := tokens.reverse)
        (by simp [hdrop])
      simpa [hdrop] using hhead
    · simpa using List.mem_takeWhile_imp (List.mem_reverse.1 hother)

theorem map_unflagged_markLast (test : Token → Bool) (tokens : List Token) :
    (markLast test tokens).map unflagged = tokens.map unflagged := by
  rcases markLast_cases test tokens with ⟨-, hmark⟩ | ⟨before, token, after, htokens, -, -, hmark⟩
  · rw [hmark]
  · rw [hmark, htokens]
    simp [unflagged]

end Lexer

/-- The tokens of a text without the end of the file. -/
def cutTokens (text : String) : List Token :=
  let scanned := Lexer.scan [] 0 text.toList
  if scanned.2.any Lexer.Mode.isBody then
    Lexer.markLast (fun token => Lexer.opensOrFills token.kind) scanned.1
  else scanned.1

theorem tokenize_eq (text : String) :
    tokenize text = cutTokens text ++ [Token.endOfFile text.utf8ByteSize] := rfl

theorem map_unflagged_cutTokens (text : String) :
    (cutTokens text).map Lexer.unflagged =
      (Lexer.scan [] 0 text.toList).1.map Lexer.unflagged := by
  unfold cutTokens
  dsimp only
  split
  · exact Lexer.map_unflagged_markLast _ _
  · rfl

theorem exists_mem_scan_of_mem_cutTokens {text : String} {token : Token}
    (h : token ∈ cutTokens text) :
    ∃ cut ∈ (Lexer.scan [] 0 text.toList).1, Lexer.unflagged cut = Lexer.unflagged token := by
  have hmem := List.mem_map_of_mem (f := Lexer.unflagged) h
  rw [map_unflagged_cutTokens] at hmem
  exact List.mem_map.1 hmem

theorem isCut_of_mem_cutTokens {text : String} {token : Token} (h : token ∈ cutTokens text) :
    token.kind.isCut = true := by
  obtain ⟨cut, hcut, heq⟩ := exists_mem_scan_of_mem_cutTokens h
  have hkind : cut.kind = token.kind := congrArg Prod.fst heq
  rw [← hkind]
  exact Lexer.isCut_of_mem_scan hcut

theorem text_ne_empty_of_mem_cutTokens {text : String} {token : Token}
    (h : token ∈ cutTokens text) : token.text ≠ "" := by
  obtain ⟨cut, hcut, heq⟩ := exists_mem_scan_of_mem_cutTokens h
  have htext : cut.text = token.text := congrArg (·.2.1) heq
  rw [← htext]
  exact Lexer.text_ne_empty_of_mem_scan hcut

theorem Token.contiguous_congr {start : Nat} {left right : List Token}
    (h : left.map Lexer.unflagged = right.map Lexer.unflagged) (hleft : Contiguous start left) :
    Contiguous start right := by
  induction left generalizing start right with
  | nil =>
      obtain rfl : right = [] := by simpa using h.symm
      exact hleft
  | cons token tokens ih =>
      obtain ⟨other, others, rfl, hother, hothers⟩ := List.map_eq_cons_iff.1 h.symm
      simp only [Lexer.unflagged, Prod.mk.injEq] at hother
      obtain ⟨-, htext, hstart⟩ := hother
      refine ⟨hstart.trans hleft.1, ?_⟩
      have hstop : other.stop = token.stop := by
        simp [stop, size, htext, hstart]
      rw [hstop]
      exact ih hothers.symm hleft.2

/-- The tokens of a text stand side by side from its first byte to its end. -/
theorem contiguous_tokenize (text : String) : Token.Contiguous 0 (tokenize text) := by
  have hend : Token.Contiguous (0 + (String.ofList text.toList).utf8ByteSize)
      [Token.endOfFile text.utf8ByteSize] := ⟨by simp [Token.endOfFile], trivial⟩
  have hscan := Lexer.contiguous_scan_append [] 0 text.toList hend
  refine Token.contiguous_congr ?_ hscan
  rw [tokenize_eq, List.map_append, List.map_append, map_unflagged_cutTokens]

theorem map_kind_cutTokens (text : String) :
    (cutTokens text).map Token.kind = (Lexer.scan [] 0 text.toList).1.map Token.kind := by
  have hcut := congrArg (List.map Prod.fst) (map_unflagged_cutTokens text)
  rw [List.map_map, List.map_map] at hcut
  exact hcut

theorem map_text_cutTokens (text : String) :
    (cutTokens text).map Token.text = (Lexer.scan [] 0 text.toList).1.map Token.text := by
  have h := congrArg (List.map (·.2.1)) (map_unflagged_cutTokens text)
  rw [List.map_map, List.map_map] at h
  exact h

/-- The tokens of a text, one after the other, are the text. -/
theorem join_text_cutTokens (text : String) :
    String.join ((cutTokens text).map Token.text) = text := by
  rw [map_text_cutTokens, ← String.toList_inj, String.toList_join, List.flatMap_map]
  exact Lexer.flatMap_text_scan [] 0 text.toList

end Caret
