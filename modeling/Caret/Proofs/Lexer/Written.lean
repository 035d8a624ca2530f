import Caret.Proofs.Lexer.Breaks
import Caret.Proofs.Lexer.Joins
import Caret.Proofs.Text.Quoted

/-!
# What written tokens are cut into

Where a token is written down and what follows does not add to it, the token is cut off and cutting
goes on behind it.
-/

namespace Caret

/-- The text between two delimiters of a string, if there is any. -/
def textLeaves (raw : String) : List (Kind × String) :=
  if raw = "" then [] else [(.stringText, raw)]

namespace Lexer

variable {modes modes' : List Mode} {c : Char} {cs rest : List Char} {kind : Kind}

/-- A token of code that takes the given characters. -/
theorem cutLeaves_code (hcode : isInBody modes = false)
    (hcut : cutCode modes c (cs ++ rest) = { kind := kind, extra := cs.length, modes := modes' }) :
    cutLeaves modes (c :: (cs ++ rest)) =
      (kind, String.ofList (c :: cs)) :: cutLeaves modes' rest := by
  rw [cutLeaves_cons, cut_of_not_isInBody hcode, hcut]
  dsimp only
  rw [List.take_left, List.drop_left]

/-- A token of code of one character. -/
theorem cutLeaves_sign (hcode : isInBody modes = false)
    (hcut : cutCode modes c rest = { kind := kind, extra := 0, modes := modes' }) :
    cutLeaves modes (c :: rest) = (kind, String.singleton c) :: cutLeaves modes' rest :=
  @cutLeaves_code modes modes' c [] rest kind hcode hcut

theorem cutLeaves_blank (hcode : isInBody modes = false)
    (hrest : ∀ d ∈ rest.head?, isBlank d = false) :
    cutLeaves modes (' ' :: rest) = (.whitespace, " ") :: cutLeaves modes rest :=
  @cutLeaves_blanks modes hcode [' '] rest (by simp) (by simp; decide) hrest

/-! Strings in quotes -/

/-- The text of a string in single quotes that is escaped. -/
theorem textLength_escape (hend : closesBody false rest = true ∨ opensHole rest = true) :
    textLength false (cs.flatMap Quoted.escape ++ rest) = (cs.flatMap Quoted.escape).length := by
  induction cs with
  | nil => exact textLength_eq_zero hend
  | cons c cs ih =>
      rw [List.flatMap_cons, List.append_assoc, List.length_append]
      rcases Quoted.escape_cases c with ⟨hescape, hbackslash, hquote, hdollar⟩ | ⟨d, hescape, -⟩
      · rw [hescape, List.singleton_append, textLength_cons, if_neg, if_neg, ih, Nat.add_comm]
        · rfl
        · simp [hbackslash]
        · simp [closesBody, opensHole_cons, hquote, hdollar]
      · have hstep : textLength false ('\\' :: d :: (cs.flatMap Quoted.escape ++ rest)) =
            textLength false (cs.flatMap Quoted.escape ++ rest) + 2 := by
          rw [textLength_cons, if_neg (by simp [closesBody, opensHole_cons]), if_pos (by simp)]
        rw [hescape, List.cons_append, List.cons_append, List.nil_append, hstep, ih, Nat.add_comm]
        rfl

/-- A body of a string is one text up to where the string ends or a hole is opened. -/
theorem cutLeaves_text {multiline : Bool} {raw : List Char}
    (hlength : textLength multiline (raw ++ rest) = raw.length) :
    cutLeaves (.body multiline :: modes) (raw ++ rest) =
      textLeaves (String.ofList raw) ++ cutLeaves (.body multiline :: modes) rest := by
  cases raw with
  | nil => rfl
  | cons c cs =>
      have hends : ¬(closesBody multiline (c :: (cs ++ rest)) = true ∨
          opensHole (c :: (cs ++ rest)) = true) := fun hends => by
        rw [List.cons_append, textLength_eq_zero hends] at hlength
        cases hlength
      obtain ⟨hclose, hhole⟩ := not_or.1 hends
      have hcut : cut (.body multiline :: modes) c (cs ++ rest) =
          { kind := .stringText, extra := cs.length, modes := .body multiline :: modes } := by
        rw [List.cons_append] at hlength
        change cutBody _ _ _ _ = _
        rw [cutBody, if_neg hclose, if_neg hhole, hlength]
        rfl
      have hne : String.ofList (c :: cs) ≠ "" := by simp
      rw [List.cons_append, cutLeaves_cons, hcut, textLeaves, if_neg hne]
      dsimp only
      rw [List.take_left, List.drop_left]
      rfl

theorem cutLeaves_endQuote (rest : List Char) :
    cutLeaves (.body false :: modes) ('\x27' :: rest) =
      (.stringEnd, "\x27") :: cutLeaves modes rest := by
  have hcut : cut (.body false :: modes) '\x27' rest =
      { kind := .stringEnd, extra := 0, modes := modes } := rfl
  rw [cutLeaves_cons, hcut]
  rfl

theorem cutLeaves_startQuote (hcode : isInBody modes = false)
    (hrest : startsTripleQuote ('\x27' :: rest) = false) :
    cutLeaves modes ('\x27' :: rest) =
      (.stringStart, "\x27") :: cutLeaves (.body false :: modes) rest :=
  cutLeaves_sign hcode (if_neg (by simp [hrest]))

/-- What is escaped does not start with a quote. -/
theorem head_escape (cs : List Char) : (cs.flatMap Quoted.escape).head? ≠ some '\x27' := by
  cases cs with
  | nil => simp
  | cons c cs =>
      rw [List.flatMap_cons]
      rcases Quoted.escape_cases c with ⟨hescape, -, hquote, -⟩ | ⟨d, hescape, -⟩
      · simp [hescape, hquote]
      · simp [hescape]

/-- A literal is cut into its quotes and the text between them. -/
theorem cutLeaves_quote (hcode : isInBody modes = false) (text : String)
    (hrest : rest.head? ≠ some '\x27') :
    cutLeaves modes ((quote text).toList ++ rest) =
      (.stringStart, "\x27") :: (textLeaves (Quoted.body text) ++
        (.stringEnd, "\x27") :: cutLeaves modes rest) := by
  have htriple : startsTripleQuote
      ('\x27' :: (text.toList.flatMap Quoted.escape ++ '\x27' :: rest)) = false := by
    by_contra htrue
    rw [Bool.not_eq_false] at htrue
    obtain ⟨more, hmore⟩ := startsTripleQuote_eq_true htrue
    have hescaped := head_escape text.toList
    cases hbody : text.toList.flatMap Quoted.escape with
    | nil =>
        rw [hbody, List.nil_append] at hmore
        exact hrest (by simp_all)
    | cons c cs =>
        rw [hbody, List.cons_append] at hmore
        rw [hbody] at hescaped
        exact hescaped (by simp_all)
  have hlength : textLength false (text.toList.flatMap Quoted.escape ++ '\x27' :: rest) =
      (text.toList.flatMap Quoted.escape).length := textLength_escape (.inl rfl)
  rw [Quoted.toList_quote, Quoted.body, String.toList_ofList, List.cons_append, List.append_assoc,
    List.singleton_append, cutLeaves_startQuote hcode htriple, cutLeaves_text hlength,
    cutLeaves_endQuote]

end Lexer

end Caret
