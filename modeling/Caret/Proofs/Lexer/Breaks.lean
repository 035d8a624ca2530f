import Caret.Proofs.Lexer.Constructs

/-!
# Where line breaks stand

A character that breaks a line is a part of a newline, of a block comment, or of the text of a
string. No other token reaches over the end of a line.
-/

namespace Caret

/-- The kinds of the tokens that can hold a line break. -/
def Kind.spansLines : Kind → Bool
  | newline | blockComment | stringText => true
  | _ => false

theorem Kind.not_isWord_of_spansLines {kind : Kind} (h : kind.spansLines = true) :
    kind.isWord = false := by
  cases kind <;> first | rfl | cases h

theorem Kind.eq_blockComment_of_isTrivia {kind : Kind} (h : kind.isTrivia = true)
    (hlines : kind.spansLines = true) : kind = .blockComment := by
  revert h hlines
  cases kind <;> decide

namespace Lexer

variable {modes : List Mode} {c : Char} {cs : List Char}

theorem not_isLineBreak_of_continuesWith {d : Char} (h : Identifier.continuesWith d = true) :
    isLineBreak d = false := by
  by_contra hbreak
  simp only [isLineBreak, Bool.not_eq_false, Bool.or_eq_true, decide_eq_true_eq] at hbreak
  rcases hbreak with rfl | rfl <;> cases h

theorem not_isLineBreak_of_isDigit {d : Char} (h : d.isDigit = true) : isLineBreak d = false := by
  by_contra hbreak
  simp only [isLineBreak, Bool.not_eq_false, Bool.or_eq_true, decide_eq_true_eq] at hbreak
  rcases hbreak with rfl | rfl <;> cases h

theorem not_isLineBreak_of_isBlank {d : Char} (h : isBlank d = true) : isLineBreak d = false := by
  simp only [isBlank, Bool.or_eq_true, decide_eq_true_eq] at h
  rcases h with rfl | rfl <;> rfl

theorem not_isLineBreak_of_not_mem (h : c ∉ punctuation) : isLineBreak c = false := by
  by_contra hbreak
  simp only [isLineBreak, Bool.not_eq_false, Bool.or_eq_true, decide_eq_true_eq] at hbreak
  rcases hbreak with rfl | rfl <;> exact h (by decide)

/-- The characters that a token takes as far as they satisfy a test that no line break does. -/
theorem not_isLineBreak_countWhile {test : Char → Bool} (hc : isLineBreak c = false)
    (htest : ∀ d, test d = true → isLineBreak d = false) :
    ∀ d ∈ c :: cs.take (countWhile test cs), isLineBreak d = false := by
  intro d hmem
  rcases List.mem_cons.1 hmem with rfl | hmem
  · exact hc
  · exact htest d (forall_mem_take_countWhile test cs d hmem)

theorem Symbol.not_isLineBreak {kind : Kind} {extra : Nat} (h : Symbol c cs kind extra)
    (hkind : kind.spansLines = false) : ∀ d ∈ c :: cs.take extra, isLineBreak d = false := by
  cases h with
  | sign cs hsign =>
      have hsigns : ∀ sign ∈ signs, sign.2.spansLines = false → isLineBreak sign.1 = false := by
        decide
      simpa using hsigns _ hsign hkind
  | pair rest hoperator =>
      have hoperators : ∀ operator ∈ operators, operator.pair.spansLines = false →
          isLineBreak operator.first = false ∧ isLineBreak operator.second = false := by decide
      simpa using hoperators _ hoperator hkind
  | alone hoperator _ =>
      have hoperators : ∀ operator ∈ operators, operator.alone.spansLines = false →
          isLineBreak operator.first = false := by decide
      simpa using hoperators _ hoperator hkind

theorem CodeCut.not_isLineBreak {next : Cut} (h : CodeCut modes c cs next)
    (hkind : next.kind.spansLines = false) :
    ∀ d ∈ c :: cs.take next.extra, isLineBreak d = false := by
  cases h with
  | blanks hblank =>
      exact not_isLineBreak_countWhile (not_isLineBreak_of_isBlank hblank) fun d =>
        not_isLineBreak_of_isBlank
  | symbol h => exact h.not_isLineBreak hkind
  | lineComment => exact not_isLineBreak_countWhile rfl (by simp)
  | blockComment => cases hkind
  | openComment => cases hkind
  | digits hdigit =>
      exact not_isLineBreak_countWhile (not_isLineBreak_of_isDigit hdigit) fun d =>
        not_isLineBreak_of_isDigit
  | word hstart =>
      have hcontinues := Identifier.continuesWith_of_startsWith hstart
      exact not_isLineBreak_countWhile (not_isLineBreak_of_continuesWith hcontinues) fun d =>
        not_isLineBreak_of_continuesWith
  | stray hc => simpa using not_isLineBreak_of_not_mem hc
  | _ => simp [isLineBreak]

theorem TokenCut.not_isLineBreak {next : Cut} (h : TokenCut modes c cs next)
    (hkind : next.kind.spansLines = false) :
    ∀ d ∈ c :: cs.take next.extra, isLineBreak d = false := by
  cases h with
  | body h =>
      cases h with
      | text => cases hkind
      | _ => simp [isLineBreak]
  | code _ h => exact h.not_isLineBreak hkind

/-- A line feed is a newline wherever code stands. -/
theorem cutLeaves_lineFeed (hcode : isInBody modes = false) (cs : List Char) :
    cutLeaves modes ('\n' :: cs) = (.newline, "\n") :: cutLeaves modes cs := by
  have hcut : cut modes '\n' cs = { kind := .newline, extra := 0, modes := modes } :=
    cut_of_not_isInBody hcode _ _
  rw [cutLeaves_cons, hcut]
  rfl

/-- A carriage return and a line feed are one newline. -/
theorem cutLeaves_return (hcode : isInBody modes = false) (cs : List Char) :
    cutLeaves modes ('\r' :: '\n' :: cs) = (.newline, "\r\n") :: cutLeaves modes cs := by
  have hcut : cut modes '\r' ('\n' :: cs) = { kind := .newline, extra := 1, modes := modes } :=
    cut_of_not_isInBody hcode _ _
  rw [cutLeaves_cons, hcut]
  rfl

theorem Symbol.of_newline {kind : Kind} {extra : Nat} (h : Symbol c cs kind extra)
    (hkind : kind = .newline) : isLineBreak c = true := by
  cases h with
  | sign cs hsign =>
      have hsigns : ∀ sign ∈ signs, sign.2 = .newline → isLineBreak sign.1 = true := by decide
      exact hsigns _ hsign hkind
  | pair rest hoperator =>
      have hoperators : ∀ operator ∈ operators, operator.pair = .newline →
          isLineBreak operator.first = true := by decide
      exact hoperators _ hoperator hkind
  | alone hoperator _ =>
      have hoperators : ∀ operator ∈ operators, operator.alone = .newline →
          isLineBreak operator.first = true := by decide
      exact hoperators _ hoperator hkind

/-- A newline is cut in code, at a line break. -/
theorem TokenCut.of_newline {next : Cut} (h : TokenCut modes c cs next)
    (hkind : next.kind = .newline) : isInBody modes = false ∧ isLineBreak c = true := by
  cases h with
  | body h => cases h <;> cases hkind
  | code hcode h =>
      refine ⟨hcode, ?_⟩
      cases h with
      | symbol h => exact h.of_newline hkind
      | word =>
          exact absurd hkind
            ((by decide : ∀ kind ∈ wordKinds, kind ≠ .newline) _ (mem_wordKinds _))
      | _ => cases hkind

/-- A line break is a part of a token of one of three kinds. -/
theorem spansLines_of_isLineBreak {part : Kind × String} (hmem : part ∈ cutLeaves modes cs)
    (hc : c ∈ part.2.toList) (hbreak : isLineBreak c = true) : part.1.spansLines = true := by
  by_contra hkind
  rw [Bool.not_eq_true] at hkind
  have hall : part.1.spansLines = false → ∀ d ∈ part.2.toList, isLineBreak d = false := by
    refine forall_cutLeaves (motive := fun part =>
      part.1.spansLines = false → ∀ d ∈ part.2.toList, isLineBreak d = false) ?_ modes cs part hmem
    intro modes c cs next h hkind
    rw [String.toList_ofList]
    exact h.not_isLineBreak hkind
  rw [hall hkind c hc] at hbreak
  cases hbreak

end Lexer

end Caret
