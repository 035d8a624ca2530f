import Caret.Proofs.Lexer.Modes
import Caret.Proofs.Lexer.Written

/-!
# Words with blanks between them

Where tokens are written with a blank between each two, every token of code ends where it is meant
to end. Only around newlines and in the bodies of strings there is nothing between them.
-/

namespace Caret

/-- What stands between a token and those behind it: nothing around a newline and in the body of a
string, a blank elsewhere. -/
def gap (word : Kind × String) : List (Kind × String) → List Char
  | [] => []
  | next :: _ =>
    if word.1 = .newline || Lexer.continuesBody word.1 || next = (.newline, "\n") then [] else [' ']

/-- Tokens as they are written, with blanks between those of code. -/
def spread : List (Kind × String) → List Char
  | [] => []
  | word :: words => word.2.toList ++ (gap word words ++ spread words)

namespace Lexer

variable {modes modes' : List Mode} {cs rest : List Char} {word : Kind × String} {kind : Kind}
  {text : String} {words left right : List (Kind × String)} {multiline : Bool}

/-- The tokens that some characters are cut into, without trivia. -/
def cutWords (modes : List Mode) (cs : List Char) : List (Kind × String) :=
  (cutLeaves modes cs).filter fun leaf => !leaf.1.isTrivia

theorem cutWords_nil (modes : List Mode) : cutWords modes [] = [] := by
  rw [cutWords, cutLeaves_nil, List.filter_nil]

theorem cutWords_of_cutLeaves (h : cutLeaves modes cs = word :: cutLeaves modes' rest)
    (hword : word.1.isTrivia = false) : cutWords modes cs = word :: cutWords modes' rest := by
  rw [cutWords, h, List.filter_cons_of_pos (by simp [hword]), cutWords]

theorem cutWords_dropWhile (hcode : isInBody modes = false) (cs : List Char) :
    cutWords modes (cs.dropWhile isBlank) = cutWords modes cs := by
  have hall : cs.takeWhile isBlank ++ cs.dropWhile isBlank = cs := List.takeWhile_append_dropWhile
  by_cases hne : cs.takeWhile isBlank = []
  · rw [hne, List.nil_append] at hall
    rw [hall]
  · have hrest : ∀ c ∈ (cs.dropWhile isBlank).head?, isBlank c = false := by
      intro c hc
      have hnot := List.head?_dropWhile_not isBlank cs
      rw [Option.mem_def.1 hc] at hnot
      exact hnot
    have hcut := cutLeaves_blanks hcode hne (List.all_eq_true.1 List.all_takeWhile) hrest
    rw [hall] at hcut
    rw [cutWords, cutWords, hcut]
    exact (List.filter_cons_of_neg (by simp [Kind.isTrivia])).symm

/-- A blank in code makes no difference. -/
theorem cutWords_blank (hcode : isInBody modes = false) (cs : List Char) :
    cutWords modes (' ' :: cs) = cutWords modes cs := by
  rw [← cutWords_dropWhile hcode, ← cutWords_dropWhile hcode cs]
  rfl

theorem cutWords_gap (hmodes : isInBody modes = true → continuesBody word.1 = true)
    (words : List (Kind × String)) :
    cutWords modes (gap word words ++ spread words) = cutWords modes (spread words) := by
  unfold gap
  split
  · rfl
  · split
    · rfl
    · next htight =>
        cases hcode : isInBody modes
        · exact cutWords_blank hcode _
        · exact absurd (by simp [hmodes hcode]) htight

/-- A token and what stands behind it. -/
theorem cutWords_spread (hmodes : isInBody modes' = true → continuesBody word.1 = true)
    (hword : word.1.isTrivia = false)
    (hcut : cutLeaves modes (word.2.toList ++ (gap word words ++ spread words)) =
      word :: cutLeaves modes' (gap word words ++ spread words)) :
    cutWords modes (spread (word :: words)) = word :: cutWords modes' (spread words) := by
  rw [spread, cutWords_of_cutLeaves hcut hword, cutWords_gap hmodes]

/-! Tokens of code -/

/-- Characters that no token of code goes on with. -/
def Stops (cs : List Char) : Prop := ∀ c ∈ cs.head?, c = ' ' ∨ c = '\n'

theorem Stops.head_ne (h : Stops rest) {c : Char} (hblank : c ≠ ' ') (hline : c ≠ '\n') :
    rest.head? ≠ some c := by
  intro hc
  rcases h c hc with rfl | rfl
  · exact hblank rfl
  · exact hline rfl

theorem stops_gap (hline : word.1 ≠ .newline) (hbody : continuesBody word.1 = false)
    (words : List (Kind × String)) : Stops (gap word words ++ spread words) := by
  intro c hc
  cases words with
  | nil => simp [gap, spread] at hc
  | cons next words =>
      by_cases hnext : next = (.newline, "\n")
      · subst hnext
        simp only [gap, decide_true, Bool.or_true, if_true, spread, List.nil_append] at hc
        exact .inr (Option.some.inj hc).symm
      · simp only [gap, hline, hbody, hnext, decide_false, Bool.or_false, Bool.false_eq_true,
          if_false] at hc
        exact .inl (Option.some.inj hc).symm

/-- A token of code that ends where a blank or a newline follows. -/
def IsCut (word : Kind × String) : Prop :=
  ∀ ⦃modes : List Mode⦄ ⦃rest : List Char⦄, isInBody modes = false → Stops rest →
    cutLeaves modes (word.2.toList ++ rest) = word :: cutLeaves modes rest

/-- Tokens that are cut out of the text that they are written as, whatever follows them. -/
def Lexes (words : List (Kind × String)) : Prop :=
  ∀ ⦃modes : List Mode⦄ (rest : List (Kind × String)), isInBody modes = false →
    cutWords modes (spread (words ++ rest)) = words ++ cutWords modes (spread rest)

theorem lexes_nil : Lexes [] := fun _ _ _ => rfl

theorem Lexes.append (hleft : Lexes left) (hright : Lexes right) : Lexes (left ++ right) := by
  intro modes rest hcode
  rw [List.append_assoc, hleft _ hcode, hright _ hcode, List.append_assoc]

theorem Lexes.cons (hword : Lexes [word]) (hwords : Lexes words) : Lexes (word :: words) :=
  hword.append hwords

theorem IsCut.lexes (h : IsCut word)
    (hplain : (word.1 = .newline || continuesBody word.1 || word.1.isTrivia) = false) :
    Lexes [word] := by
  intro modes rest hcode
  simp only [Bool.or_eq_false_iff, decide_eq_false_iff_not] at hplain
  obtain ⟨⟨hline, hbody⟩, htrivia⟩ := hplain
  exact cutWords_spread (by simp [hcode]) htrivia (h hcode (stops_gap hline hbody rest))

theorem lexes_newline : Lexes [(.newline, "\n")] := fun _ rest hcode =>
  cutWords_spread (by simp [hcode]) rfl
    (cutLeaves_lineFeed hcode (gap (.newline, "\n") rest ++ spread rest))

/-- A sign that is told by its characters and by what follows. -/
theorem isCut_sign {c : Char} {cs : List Char} (htext : text.toList = c :: cs)
    (h : ∀ modes rest, Stops rest →
      cutCode modes c (cs ++ rest) = { kind := kind, extra := cs.length, modes := modes }) :
    IsCut (kind, text) := by
  intro modes rest hcode hstops
  have hall : String.ofList (c :: cs) = text := by rw [← htext, String.ofList_toList]
  rw [htext, List.cons_append, cutLeaves_code hcode (h modes rest hstops), hall]

/-- A sign that can be the first half of a longer one. -/
theorem isCut_half {c next : Char} {long : Kind} (htext : text.toList = [c]) (hblank : next ≠ ' ')
    (hline : next ≠ '\n')
    (h : ∀ modes rest, cutCode modes c rest =
      if rest.head? = some next then { kind := long, extra := 1, modes := modes }
      else { kind := kind, extra := 0, modes := modes }) :
    IsCut (kind, text) :=
  isCut_sign htext fun modes rest hstops =>
    (h modes rest).trans (if_neg (hstops.head_ne hblank hline))

theorem isCut_slash : IsCut (.slash, "/") :=
  have htext : "/".toList = '/' :: [] := rfl
  isCut_sign htext fun modes rest hstops => CodeCut.eq <| .slash fun d hd =>
    ⟨fun hslash => hstops.head_ne (c := '/') (by decide) (by decide) (hslash ▸ hd),
     fun hstar => hstops.head_ne (c := '*') (by decide) (by decide) (hstar ▸ hd)⟩

theorem isCut_word {c : Char} {cs : List Char} (hlist : text.toList = c :: cs)
    (hstart : Identifier.startsWith c = true) (hall : cs.all Identifier.continuesWith = true) :
    IsCut ((Kind.ofReserved text).getD .ident, text) := by
  intro modes rest hcode hstops
  refine cutLeaves_word hcode hlist hstart hall fun d hd => ?_
  rcases hstops d hd with rfl | rfl <;> decide

theorem isCut_digits (hne : text ≠ "") (hall : text.toList.all Char.isDigit = true) :
    IsCut (.integer, text) := by
  cases hlist : text.toList with
  | nil => exact absurd (String.toList_eq_nil_iff.1 hlist) hne
  | cons c cs =>
      rw [hlist, List.all_cons, Bool.and_eq_true] at hall
      refine isCut_sign hlist fun modes rest hstops => ?_
      have hcount : countWhile Char.isDigit (cs ++ rest) = cs.length :=
        countWhile_append (List.all_eq_true.1 hall.2) fun d hd => by
          rcases hstops d hd with rfl | rfl <;> decide
      rw [← hcount]
      exact (CodeCut.digits hall.1).eq

/-! Braces -/

theorem cutCloseBrace_openBrace (hcode : isInBody modes = false) :
    cutCloseBrace (openBrace modes) = { kind := .rBrace, extra := 0, modes := modes } := by
  match modes with
  | [] => rfl
  | .hole depth :: outer => rfl
  | .body multiline :: outer => cases hcode

/-- A pair of braces leaves open what is open in front of it. -/
theorem Lexes.braces (h : Lexes words) :
    Lexes ((.lBrace, "\x7b") :: (words ++ [(.rBrace, "\x7d")])) := by
  intro modes rest hcode
  have hinside : isInBody (openBrace modes) = false := isInBody_openBrace hcode
  have hopen : ∀ words, cutWords modes (spread ((.lBrace, "\x7b") :: words)) =
      (.lBrace, "\x7b") :: cutWords (openBrace modes) (spread words) := fun words =>
    cutWords_spread (by simp [hinside]) rfl (cutLeaves_sign hcode rfl)
  have hclose : cutWords (openBrace modes) (spread ((.rBrace, "\x7d") :: rest)) =
      (.rBrace, "\x7d") :: cutWords modes (spread rest) :=
    cutWords_spread (by simp [hcode]) rfl
      (cutLeaves_sign hinside (cutCloseBrace_openBrace hcode))
  simp only [List.cons_append, List.append_assoc, List.nil_append]
  rw [hopen, h _ hinside, hclose]

/-! Strings -/

/-- Tokens of a string behind its start that are cut out of the text that they are written as, up to
the end of the string. -/
def LexesBody (multiline : Bool) (words : List (Kind × String)) : Prop :=
  ∀ ⦃modes : List Mode⦄ (rest : List (Kind × String)), isInBody modes = false →
    cutWords (.body multiline :: modes) (spread (words ++ rest)) =
      words ++ cutWords modes (spread rest)

theorem gap_of_continuesBody (h : continuesBody word.1 = true) (words : List (Kind × String)) :
    gap word words = [] := by
  cases words with
  | nil => rfl
  | cons next words => rw [gap, if_pos (by simp [h])]

theorem spread_textLeaves (raw : String) (words : List (Kind × String)) :
    spread (textLeaves raw ++ words) = raw.toList ++ spread words := by
  unfold textLeaves
  split
  · next hempty => rw [hempty]; rfl
  · rw [List.singleton_append, spread, gap_of_continuesBody rfl, List.nil_append]

/-- A text in a string, in front of its end or of a hole. -/
theorem cutWords_text {raw : String}
    (hlength : textLength multiline (raw.toList ++ spread words) = raw.toList.length) :
    cutWords (.body multiline :: modes) (spread (textLeaves raw ++ words)) =
      textLeaves raw ++ cutWords (.body multiline :: modes) (spread words) := by
  have htrivia : (textLeaves raw).filter (fun leaf => !leaf.1.isTrivia) = textLeaves raw := by
    unfold textLeaves
    split <;> rfl
  rw [spread_textLeaves, cutWords, cutLeaves_text hlength, List.filter_append, String.ofList_toList,
    htrivia, cutWords]

theorem LexesBody.textLeaves_append {raw : String} (h : LexesBody multiline words)
    (hlength : ∀ rest, textLength multiline (raw.toList ++ spread (words ++ rest)) =
      raw.toList.length) : LexesBody multiline (textLeaves raw ++ words) := by
  intro modes rest hcode
  rw [List.append_assoc, cutWords_text (hlength rest), h rest hcode, List.append_assoc]

/-- A hole, behind which the string goes on. -/
theorem LexesBody.hole (hinner : Lexes left) (h : LexesBody multiline words) :
    LexesBody multiline ((.interpStart, "$\x7b") :: (left ++ (.interpEnd, "\x7d") :: words)) := by
  intro modes rest hcode
  have hopen : ∀ cs, cutLeaves (.body multiline :: modes) ('$' :: '\x7b' :: cs) =
      (.interpStart, "$\x7b") :: cutLeaves (.hole 0 :: .body multiline :: modes) cs := by
    intro cs
    cases multiline <;> exact cutLeaves_cons _ _ _
  have hstart : ∀ words, cutWords (.body multiline :: modes)
      (spread ((.interpStart, "$\x7b") :: words)) =
      (.interpStart, "$\x7b") :: cutWords (.hole 0 :: .body multiline :: modes) (spread words) :=
    fun words => cutWords_spread (fun hbody => hbody) rfl (hopen _)
  have hstop : cutWords (.hole 0 :: .body multiline :: modes)
      (spread ((.interpEnd, "\x7d") :: (words ++ rest))) =
      (.interpEnd, "\x7d") :: cutWords (.body multiline :: modes) (spread (words ++ rest)) :=
    cutWords_spread (fun _ => rfl) rfl (cutLeaves_sign rfl rfl)
  simp only [List.cons_append, List.append_assoc]
  rw [hstart, hinner _ rfl, hstop, h rest hcode]

end Lexer

end Caret
