import Caret.Proofs.Lexer.Cover
import Caret.Site

/-!
# Unclosed comments

A block comment that is never closed reaches to the end of the text. The tree keeps no flag of it, so
it is told from its own text, which is then no longer than its opening or ends in no closing.
-/

namespace Caret

namespace Lexer

/-- A closing of a comment is found wherever characters end in one. -/
theorem isSome_beforeCommentEnd {cs : List Char} (h : ['*', '/'] <:+ cs) :
    (beforeCommentEnd cs).isSome = true := by
  fun_induction beforeCommentEnd cs with
  | case1 => simp at h
  | case2 c => simpa using h.length_le
  | case3 c d cs hend => rfl
  | case4 c d cs hend ih =>
    rcases List.suffix_cons_iff.1 h with heq | htail
    · simp at heq
      simp [← heq.1, ← heq.2.1] at hend
    · rw [Option.isSome_map]
      exact ih htail

/-- Text that opens a block comment and has no closing after that is cut off. -/
theorem isCutOffComment_of_beforeCommentEnd {rest : List Char} (h : beforeCommentEnd rest = none) :
    Locus.isCutOffComment (String.ofList ('/' :: '*' :: rest)) = true := by
  unfold Locus.isCutOffComment
  rw [Bool.or_eq_true, decide_eq_true_eq, Bool.not_eq_true', ← Bool.not_eq_true]
  by_contra hcon
  rw [not_or, not_not] at hcon
  obtain ⟨hsize, hends⟩ := hcon
  have hsuffix : ['*', '/'] <:+ '/' :: '*' :: rest := by
    have hslice : (String.ofList ('/' :: '*' :: rest)).toSlice.endsWith "*/" = true := hends
    rw [String.Slice.endsWith_string_iff] at hslice
    simpa using hslice
  rcases List.suffix_cons_iff.1 hsuffix with heq | hsuffix
  · simp at heq
  · rcases List.suffix_cons_iff.1 hsuffix with heq | hsuffix
    · obtain rfl : rest = ['/'] := by simpa using heq.symm
      exact hsize (by decide)
    · rw [← Option.not_isSome_iff_eq_none] at h
      exact h (isSome_beforeCommentEnd hsuffix)

variable {modes : List Mode} {c : Char} {cs : List Char} {next : Cut}

/-- The only token that is marked while a text is cut is a block comment that is never closed. -/
theorem TokenCut.of_unterminated (h : TokenCut modes c cs next)
    (hmarked : next.unterminated = true) : next.kind = .blockComment ∧
      Locus.isCutOffComment (String.ofList (c :: cs.take next.extra)) = true := by
  cases h with
  | body h => cases h <;> cases hmarked
  | code _ h =>
      cases h with
      | @openComment _ rest hend =>
          refine ⟨rfl, ?_⟩
          rw [List.take_of_length_le (Nat.le_refl (rest.length + 1))]
          exact isCutOffComment_of_beforeCommentEnd hend
      | _ => cases hmarked

theorem exists_of_beforeCommentEnd {cs : List Char} {n : Nat} (h : beforeCommentEnd cs = some n) :
    ∃ before after, cs = before ++ '*' :: '/' :: after ∧ before.length = n := by
  fun_induction beforeCommentEnd cs generalizing n with
  | case1 => cases h
  | case2 c => cases h
  | case3 c d cs hend =>
      obtain ⟨rfl, rfl⟩ : c = '*' ∧ d = '/' := by simpa using hend
      exact ⟨[], cs, rfl, Option.some.inj h⟩
  | case4 c d cs hend ih =>
      obtain ⟨m, hm, rfl⟩ := Option.map_eq_some_iff.1 h
      obtain ⟨before, after, hcs, rfl⟩ := ih hm
      exact ⟨c :: before, after, by rw [hcs, List.cons_append], rfl⟩

/-- A comment with a closing behind its opening is not cut off. -/
theorem isCutOffComment_eq_false (before : List Char) :
    Locus.isCutOffComment (String.ofList ('/' :: '*' :: (before ++ ['*', '/']))) = false := by
  unfold Locus.isCutOffComment
  rw [Bool.or_eq_false_iff, decide_eq_false_iff_not, Bool.not_eq_false']
  constructor
  · have hsplit : String.ofList ('/' :: '*' :: (before ++ ['*', '/'])) =
        "/*" ++ (String.ofList before ++ "*/") := by
      rw [← String.toList_inj]
      simp
    have hopening : "/*".utf8ByteSize = 2 := by decide
    have hclosing : "*/".utf8ByteSize = 2 := by decide
    rw [hsplit, String.utf8ByteSize_append, String.utf8ByteSize_append, hopening, hclosing]
    omega
  · change (String.ofList ('/' :: '*' :: (before ++ ['*', '/']))).toSlice.endsWith "*/" = true
    rw [String.Slice.endsWith_string_iff]
    simpa using List.suffix_append ('/' :: '*' :: before) ['*', '/']

/-- A block comment that is not marked is closed. -/
theorem CodeCut.exists_body (h : CodeCut modes c cs next) (hkind : next.kind = .blockComment)
    (hmarked : next.unterminated = false) :
    ∃ body, c :: cs.take next.extra = '/' :: '*' :: (body ++ ['*', '/']) := by
  cases h with
  | symbol h =>
      exact absurd hkind
        ((by decide : ∀ kind ∈ symbolKinds, kind ≠ .blockComment) _ h.mem_symbolKinds)
  | blockComment hend =>
      obtain ⟨before, after, rfl, rfl⟩ := exists_of_beforeCommentEnd hend
      exact ⟨before, by simp [List.take_append, List.take_of_length_le]⟩
  | openComment => cases hmarked
  | word =>
      exact absurd hkind
        ((by decide : ∀ kind ∈ wordKinds, kind ≠ .blockComment) _ (mem_wordKinds _))
  | _ => cases hkind

theorem TokenCut.exists_body (h : TokenCut modes c cs next) (hkind : next.kind = .blockComment)
    (hmarked : next.unterminated = false) :
    ∃ body, c :: cs.take next.extra = '/' :: '*' :: (body ++ ['*', '/']) := by
  cases h with
  | body h => cases h <;> cases hkind
  | code _ h => exact h.exists_body hkind hmarked

/-- A block comment that its own text shows to be cut off is marked. -/
theorem TokenCut.unterminated (h : TokenCut modes c cs next) (hkind : next.kind = .blockComment)
    (hcut : Locus.isCutOffComment (String.ofList (c :: cs.take next.extra)) = true) :
    next.unterminated = true := by
  by_contra hmarked
  obtain ⟨body, hbody⟩ := h.exists_body hkind (by simpa using hmarked)
  rw [hbody, isCutOffComment_eq_false] at hcut
  cases hcut

/-- Only an unclosed comment is marked while a text is cut. -/
theorem of_unterminated_of_mem_scan {start : Nat} {token : Token}
    (h : token ∈ (scan modes start cs).1) (hmarked : token.unterminated = true) :
    token.kind = .blockComment ∧ Locus.isCutOffComment token.text = true := by
  obtain ⟨modes, c, cs, next, hnext, hkind, htext, hflag⟩ := exists_tokenCut_of_mem_scan h
  rw [hkind, htext]
  exact hnext.of_unterminated (hflag ▸ hmarked)

/-- A block comment of a text that its own text shows to be cut off is marked. -/
theorem unterminated_of_mem_scan {start : Nat} {token : Token} (h : token ∈ (scan modes start cs).1)
    (hkind : token.kind = .blockComment) (hcut : Locus.isCutOffComment token.text = true) :
    token.unterminated = true := by
  obtain ⟨modes, c, cs, next, hnext, hcutKind, htext, hflag⟩ := exists_tokenCut_of_mem_scan h
  rw [hflag]
  exact hnext.unterminated (hcutKind ▸ hkind) (htext ▸ hcut)

theorem mem_markLast {test : Token → Bool} {tokens : List Token} {token : Token}
    (h : token ∈ markLast test tokens) :
    token ∈ tokens ∨ ∃ other ∈ tokens, test other = true ∧
      token = { other with unterminated := true } := by
  rcases markLast_cases test tokens with ⟨-, hmark⟩ | ⟨before, last, after, rfl, htest, -, hmark⟩
  · exact .inl (hmark ▸ h)
  · rw [hmark, List.mem_append, List.mem_cons] at h
    rcases h with hbefore | rfl | hafter
    · exact .inl (List.mem_append_left _ hbefore)
    · exact .inr ⟨last, List.mem_append_right _ List.mem_cons_self, htest, rfl⟩
    · exact .inl (List.mem_append_right _ (List.mem_cons_of_mem _ hafter))

end Lexer

/-- A comment that is marked as cut off is one that its own text shows to be. -/
theorem isCutOffComment_of_mem_cutTokens {text : String} {token : Token}
    (h : token ∈ cutTokens text) (hcomment : token.kind.isComment = true)
    (hmarked : token.unterminated = true) : Locus.isCutOffComment token.text = true := by
  unfold cutTokens at h
  dsimp only at h
  split at h
  · rcases Lexer.mem_markLast h with hmem | ⟨other, -, htest, rfl⟩
    · exact (Lexer.of_unterminated_of_mem_scan hmem hmarked).2
    · cases hkind : other.kind <;> simp_all [Lexer.opensOrFills, Kind.isComment]
  · exact (Lexer.of_unterminated_of_mem_scan h hmarked).2

/-- A block comment is marked as cut off exactly if its own text shows it to be. -/
theorem unterminated_iff_isCutOffComment {text : String} {token : Token} (h : token ∈ cutTokens text)
    (hkind : token.kind = .blockComment) :
    token.unterminated = true ↔ Locus.isCutOffComment token.text = true := by
  refine ⟨isCutOffComment_of_mem_cutTokens h (by rw [hkind]; rfl), fun hcut => ?_⟩
  unfold cutTokens at h
  dsimp only at h
  split at h
  · rcases Lexer.mem_markLast h with hmem | ⟨other, -, -, rfl⟩
    · exact Lexer.unterminated_of_mem_scan hmem hkind hcut
    · rfl
  · exact Lexer.unterminated_of_mem_scan h hkind hcut

end Caret
