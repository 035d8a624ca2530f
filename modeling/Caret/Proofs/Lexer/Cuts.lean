import Caret.Lexer
import Mathlib.Tactic.FinCases

/-!
# The rules of the lexer

The next token is told by a few rules, one for each way in which a token can start. What holds of
tokens is proved rule by rule, and a rule applies to other characters as well, where all that it
looks at is the same.
-/

namespace Caret

/-- A character that starts a word is no digit. -/
theorem Identifier.not_isDigit_of_startsWith {c : Char} (h : Identifier.startsWith c = true) :
    c.isDigit = false := by
  rcases Bool.or_eq_true_iff.1 h with halpha | hunder
  · have hletter : 65 ≤ c.val := by
      rcases Bool.or_eq_true_iff.1 halpha with hupper | hlower
      · exact (of_decide_eq_true hupper).1
      · have hle : 97 ≤ c.val := of_decide_eq_true (Bool.and_eq_true_iff.1 hlower).1
        exact UInt32.le_trans (by decide) hle
    refine Bool.eq_false_iff.2 fun hdigit => ?_
    have hle : c.val ≤ 57 := of_decide_eq_true (Bool.and_eq_true_iff.1 hdigit).2
    exact absurd (UInt32.le_trans hletter hle) (by decide)
  · rw [of_decide_eq_true hunder]
    decide

namespace Lexer

/-- The characters that are a token each, whatever comes behind them. -/
def signs : List (Char × Kind) :=
  [('\n', .newline), ('[', .lBrack), (']', .rBrack), ('(', .lParen), (')', .rParen), (',', .comma),
    ('.', .dot), (':', .colon), ('@', .atSign), ('+', .plus), ('-', .minus), ('*', .star),
    ('%', .percent)]

/-- A character that makes one token together with the next one: what the two are, and what the
first one is alone. -/
structure Operator where
  first : Char
  second : Char
  pair : Kind
  alone : Kind
  deriving DecidableEq, Repr

def operators : List Operator :=
  [⟨'\r', '\n', .newline, .newline⟩, ⟨'?', '?', .questionQuestion, .question⟩,
    ⟨'=', '=', .eqEq, .eq⟩, ⟨'!', '=', .bangEq, .bang⟩, ⟨'<', '=', .ltEq, .lt⟩,
    ⟨'>', '=', .gtEq, .gt⟩, ⟨'&', '&', .ampAmp, .errorToken⟩, ⟨'|', '|', .pipePipe, .errorToken⟩]

/-- The kinds of signs and of operators. -/
def symbolKinds : List Kind :=
  signs.map Prod.snd ++ operators.flatMap fun operator => [operator.pair, operator.alone]

/-- A character that is a sign or starts an operator, by the ones behind it: the kind of the token,
and how many of these it takes. -/
inductive Symbol : Char → List Char → Kind → Nat → Prop where
  | sign {c : Char} {kind : Kind} (cs : List Char) : (c, kind) ∈ signs → Symbol c cs kind 0
  | pair {operator : Operator} (rest : List Char) : operator ∈ operators →
      Symbol operator.first (operator.second :: rest) operator.pair 1
  | alone {operator : Operator} {cs : List Char} : operator ∈ operators →
      cs.head? ≠ some operator.second → Symbol operator.first cs operator.alone 0

theorem Symbol.mem_symbolKinds {c : Char} {cs : List Char} {kind : Kind} {extra : Nat}
    (h : Symbol c cs kind extra) : kind ∈ symbolKinds := by
  cases h with
  | sign _ hsign => exact List.mem_append_left _ (List.mem_map_of_mem hsign)
  | pair _ hoperator =>
      exact List.mem_append_right _ (List.mem_flatMap.2 ⟨_, hoperator, List.mem_cons_self⟩)
  | alone hoperator _ =>
      exact List.mem_append_right _
        (List.mem_flatMap.2 ⟨_, hoperator, List.mem_cons_of_mem _ List.mem_cons_self⟩)

/-- The kinds of the words that the lexer tells apart. -/
def wordKinds : List Kind := [.ident, .trueKw, .falseKw, .nullKw]

theorem mem_wordKinds (word : String) : (Kind.ofReserved word).getD .ident ∈ wordKinds := by
  unfold Kind.ofReserved
  split <;> decide

/-- The characters of code that are neither blank nor a part of a word or of a number. -/
def punctuation : List Char :=
  signs.map Prod.fst ++ operators.map Operator.first ++ ['/', '\x27', '\x7b', '\x7d']

/-- The next token outside of string bodies, by the constructs that are open, the first character
and the ones behind it. -/
inductive CodeCut : List Mode → Char → List Char → Cut → Prop where
  | blanks {modes : List Mode} {c : Char} {cs : List Char} : isBlank c = true →
      CodeCut modes c cs { kind := .whitespace, extra := countWhile isBlank cs, modes := modes }
  | symbol {modes : List Mode} {c : Char} {cs : List Char} {kind : Kind} {extra : Nat} :
      Symbol c cs kind extra → CodeCut modes c cs { kind := kind, extra := extra, modes := modes }
  | lineComment (modes : List Mode) (rest : List Char) :
      CodeCut modes '/' ('/' :: rest)
        { kind := .lineComment, extra := countWhile (fun d => !isLineBreak d) ('/' :: rest),
          modes := modes }
  | blockComment {modes : List Mode} {rest : List Char} {count : Nat} :
      beforeCommentEnd rest = some count →
      CodeCut modes '/' ('*' :: rest) { kind := .blockComment, extra := count + 3, modes := modes }
  | openComment {modes : List Mode} {rest : List Char} : beforeCommentEnd rest = none →
      CodeCut modes '/' ('*' :: rest)
        { kind := .blockComment, extra := rest.length + 1, modes := modes, unterminated := true }
  | slash {modes : List Mode} {cs : List Char} : (∀ d ∈ cs.head?, d ≠ '/' ∧ d ≠ '*') →
      CodeCut modes '/' cs { kind := .slash, extra := 0, modes := modes }
  | quotes (modes : List Mode) (rest : List Char) :
      CodeCut modes '\x27' ('\x27' :: '\x27' :: rest)
        { kind := .stringStart, extra := 2, modes := .body true :: modes }
  | quote {modes : List Mode} {cs : List Char} : startsTripleQuote ('\x27' :: cs) = false →
      CodeCut modes '\x27' cs { kind := .stringStart, extra := 0, modes := .body false :: modes }
  | openBrace (modes : List Mode) (cs : List Char) :
      CodeCut modes '\x7b' cs { kind := .lBrace, extra := 0, modes := openBrace modes }
  | endHole (outer : List Mode) (cs : List Char) :
      CodeCut (.hole 0 :: outer) '\x7d' cs { kind := .interpEnd, extra := 0, modes := outer }
  | closeBrace (depth : Nat) (outer : List Mode) (cs : List Char) :
      CodeCut (.hole (depth + 1) :: outer) '\x7d' cs
        { kind := .rBrace, extra := 0, modes := .hole depth :: outer }
  | looseBrace {modes : List Mode} (cs : List Char) :
      (∀ depth outer, modes ≠ .hole depth :: outer) →
      CodeCut modes '\x7d' cs { kind := .rBrace, extra := 0, modes := modes }
  | digits {modes : List Mode} {c : Char} {cs : List Char} : c.isDigit = true →
      CodeCut modes c cs { kind := .integer, extra := countWhile Char.isDigit cs, modes := modes }
  | word {modes : List Mode} {c : Char} {cs : List Char} : Identifier.startsWith c = true →
      CodeCut modes c cs
        { kind := (Kind.ofReserved (String.ofList (c :: cs.take
            (countWhile Identifier.continuesWith cs)))).getD .ident
          extra := countWhile Identifier.continuesWith cs, modes := modes }
  | stray {modes : List Mode} {c : Char} {cs : List Char} : c ∉ punctuation → isBlank c = false →
      c.isDigit = false → Identifier.startsWith c = false →
      CodeCut modes c cs { kind := .errorToken, extra := 0, modes := modes }

/-- The next token in the body of a string, by the kind of the string, what is open around it, the
first character and the ones behind it. -/
inductive BodyCut : Bool → List Mode → Char → List Char → Cut → Prop where
  | quote (outer : List Mode) (cs : List Char) :
      BodyCut false outer '\x27' cs { kind := .stringEnd, extra := 0, modes := outer }
  | quotes (outer : List Mode) (rest : List Char) :
      BodyCut true outer '\x27' ('\x27' :: '\x27' :: rest)
        { kind := .stringEnd, extra := 2, modes := outer }
  | hole (multiline : Bool) (outer : List Mode) (rest : List Char) :
      BodyCut multiline outer '$' ('\x7b' :: rest)
        { kind := .interpStart, extra := 1, modes := .hole 0 :: .body multiline :: outer }
  | text {multiline : Bool} {outer : List Mode} {c : Char} {cs : List Char} :
      closesBody multiline (c :: cs) = false → opensHole (c :: cs) = false →
      BodyCut multiline outer c cs
        { kind := .stringText, extra := textLength multiline (c :: cs) - 1,
          modes := .body multiline :: outer }

/-- The innermost construct is a string and not a hole in one. -/
def isInBody (modes : List Mode) : Bool := modes.head?.any Mode.isBody

/-- The next token, by the constructs that are open, the first character and the ones behind it. -/
inductive TokenCut : List Mode → Char → List Char → Cut → Prop where
  | body {multiline : Bool} {outer : List Mode} {c : Char} {cs : List Char} {next : Cut} :
      BodyCut multiline outer c cs next → TokenCut (.body multiline :: outer) c cs next
  | code {modes : List Mode} {c : Char} {cs : List Char} {next : Cut} : isInBody modes = false →
      CodeCut modes c cs next → TokenCut modes c cs next

theorem cut_of_not_isInBody {modes : List Mode} (h : isInBody modes = false) (c : Char)
    (cs : List Char) : cut modes c cs = cutCode modes c cs := by
  unfold cut
  split
  · simp [isInBody, Mode.isBody] at h
  · rfl

theorem eq_body_or_not_isInBody (modes : List Mode) :
    (∃ multiline outer, modes = .body multiline :: outer) ∨ isInBody modes = false := by
  cases modes with
  | nil => exact .inr rfl
  | cons mode modes =>
      cases mode with
      | body multiline => exact .inl ⟨multiline, modes, rfl⟩
      | hole depth => exact .inr rfl

theorem startsTripleQuote_eq_true {all : List Char} (h : startsTripleQuote all = true) :
    ∃ rest, all = '\x27' :: '\x27' :: '\x27' :: rest := by
  unfold startsTripleQuote at h
  split at h
  · exact ⟨_, rfl⟩
  · cases h

theorem opensHole_cons (c : Char) (cs : List Char) :
    opensHole (c :: cs) = (c = '$' && cs.head? = some '\x7b') := by
  by_cases hc : c = '$'
  · subst hc
    cases cs with
    | nil => rfl
    | cons d cs =>
        by_cases hd : d = '\x7b'
        · subst hd
          rfl
        · simp [opensHole, hd]
  · simp [opensHole, hc]

theorem codeCut_operator (modes : List Mode) (cs : List Char) {operator : Operator}
    (h : operator ∈ operators) :
    CodeCut modes operator.first cs
      (if cs.head? = some operator.second then
        { kind := operator.pair, extra := 1, modes := modes }
      else { kind := operator.alone, extra := 0, modes := modes }) := by
  split
  · rename_i hhead
    obtain ⟨rest, rfl⟩ := List.head?_eq_some_iff.1 hhead
    exact .symbol (.pair rest h)
  · exact .symbol (.alone h ‹_›)

/-- What a slash starts. -/
def cutSlash (modes : List Mode) (cs : List Char) : Cut :=
  match cs with
  | '/' :: _ =>
    { kind := .lineComment, extra := countWhile (fun d => !isLineBreak d) cs, modes := modes }
  | '*' :: rest =>
    match beforeCommentEnd rest with
    | some n => { kind := .blockComment, extra := n + 3, modes := modes }
    | none => { kind := .blockComment, extra := cs.length, modes := modes, unterminated := true }
  | _ => { kind := .slash, extra := 0, modes := modes }

theorem cutSlash_star (modes : List Mode) (rest : List Char) :
    cutSlash modes ('*' :: rest) =
      match beforeCommentEnd rest with
      | some n => { kind := .blockComment, extra := n + 3, modes := modes }
      | none =>
        { kind := .blockComment, extra := rest.length + 1, modes := modes, unterminated := true } :=
  rfl

theorem cutSlash_of_ne (modes : List Mode) {cs : List Char}
    (h : ∀ d ∈ cs.head?, d ≠ '/' ∧ d ≠ '*') :
    cutSlash modes cs = { kind := .slash, extra := 0, modes := modes } := by
  unfold cutSlash
  split
  · exact absurd rfl (h '/' rfl).1
  · exact absurd rfl (h '*' rfl).2
  · rfl

theorem cutCode_slash (modes : List Mode) (cs : List Char) :
    cutCode modes '/' cs = cutSlash modes cs := rfl

theorem codeCut_slash (modes : List Mode) (cs : List Char) :
    CodeCut modes '/' cs (cutSlash modes cs) := by
  unfold cutSlash
  split
  · exact .lineComment modes _
  · split
    · exact .blockComment ‹_›
    · exact .openComment ‹_›
  · rename_i hline hblock
    refine .slash fun d hd => ?_
    obtain ⟨rest, rfl⟩ := List.head?_eq_some_iff.1 hd
    exact ⟨fun hslash => hline rest (hslash ▸ rfl), fun hstar => hblock rest (hstar ▸ rfl)⟩

theorem cutCloseBrace_of_ne {modes : List Mode} (h : ∀ depth outer, modes ≠ .hole depth :: outer) :
    cutCloseBrace modes = { kind := .rBrace, extra := 0, modes := modes } := by
  unfold cutCloseBrace
  split
  · exact absurd rfl (h _ _)
  · exact absurd rfl (h _ _)
  · rfl

theorem codeCut_closeBrace (modes : List Mode) (cs : List Char) :
    CodeCut modes '\x7d' cs (cutCloseBrace modes) := by
  unfold cutCloseBrace
  split
  · exact .endHole _ cs
  · exact .closeBrace _ _ cs
  · rename_i hfirst hmore
    refine .looseBrace cs fun depth outer heq => ?_
    cases depth with
    | zero => exact hfirst outer heq
    | succ depth => exact hmore depth outer heq

theorem codeCut_quote (modes : List Mode) (cs : List Char) :
    CodeCut modes '\x27' cs (cutCode modes '\x27' cs) := by
  change CodeCut modes '\x27' cs (if _ then _ else _)
  split
  · rename_i htriple
    obtain ⟨rest, heq⟩ := startsTripleQuote_eq_true htriple
    obtain ⟨-, rfl⟩ := List.cons.inj heq
    exact .quotes modes rest
  · rename_i htriple
    exact .quote (by simpa using htriple)

/-- The next token outside of string bodies is told by one of the rules. -/
theorem codeCut (modes : List Mode) (c : Char) (cs : List Char) :
    CodeCut modes c cs (cutCode modes c cs) := by
  unfold cutCode
  dsimp only
  split
  case h_5 => exact codeCut_slash modes cs
  case h_6 => exact codeCut_quote modes cs
  case h_7 => exact .openBrace modes cs
  case h_8 => exact codeCut_closeBrace modes cs
  case h_28 =>
    split
    · exact .digits ‹_›
    · rename_i hdigit
      split
      · exact .word ‹_›
      · rename_i hword
        refine .stray ?_ ?_ (by simpa using hdigit) (by simpa using hword)
        · simp only [punctuation, signs, operators, List.map_cons, List.map_nil, List.cons_append,
            List.nil_append, List.mem_cons, List.not_mem_nil, or_false, not_or]
          and_intros <;> assumption
        · rw [isBlank, Bool.or_eq_false_iff, decide_eq_false_iff_not, decide_eq_false_iff_not]
          and_intros <;> assumption
  all_goals first
    | exact .blanks rfl
    | exact .symbol (.sign cs (by decide))
    | (refine @codeCut_operator modes cs ⟨_, _, _, _⟩ ?_; decide)

/-- The rules tell one token apart from all others. -/
theorem CodeCut.eq {modes : List Mode} {c : Char} {cs : List Char} {next : Cut}
    (h : CodeCut modes c cs next) : cutCode modes c cs = next := by
  cases h with
  | blanks hblank =>
      simp only [isBlank, Bool.or_eq_true, decide_eq_true_eq] at hblank
      rcases hblank with rfl | rfl <;> rfl
  | symbol hsymbol =>
      cases hsymbol with
      | sign cs hsign => fin_cases hsign <;> rfl
      | pair rest hoperator => fin_cases hoperator <;> rfl
      | alone hoperator hhead => fin_cases hoperator <;> exact if_neg hhead
  | lineComment => rfl
  | blockComment hend =>
      rw [cutCode_slash, cutSlash_star, hend]
  | openComment hend =>
      rw [cutCode_slash, cutSlash_star, hend]
  | slash hnext => exact cutSlash_of_ne modes hnext
  | quotes => rfl
  | quote htriple => exact if_neg (by simpa using htriple)
  | openBrace => rfl
  | endHole => rfl
  | closeBrace => rfl
  | looseBrace _ hloose => exact cutCloseBrace_of_ne hloose
  | digits hdigit =>
      unfold cutCode
      split
      case h_28 => rw [if_pos hdigit]
      all_goals cases hdigit
  | word hstart =>
      have hdigit := Identifier.not_isDigit_of_startsWith hstart
      unfold cutCode
      split
      case h_28 => rw [if_neg (by simp [hdigit]), if_pos hstart]
      all_goals cases hstart
  | stray hc hblank hdigit hstart =>
      unfold cutCode
      split
      case h_1 => cases hblank
      case h_2 => cases hblank
      case h_28 => rw [if_neg (by simp [hdigit]), if_neg (by simp [hstart])]
      all_goals exact absurd (by decide) hc

/-- The next token in the body of a string is told by one of the rules. -/
theorem bodyCut (multiline : Bool) (outer : List Mode) (c : Char) (cs : List Char) :
    BodyCut multiline outer c cs (cut (.body multiline :: outer) c cs) := by
  rw [cut, cutBody]
  split
  · rename_i hcloses
    cases multiline with
    | false =>
        obtain rfl : c = '\x27' := by simpa [closesBody] using hcloses
        exact .quote outer cs
    | true =>
        obtain ⟨rest, heq⟩ := startsTripleQuote_eq_true hcloses
        obtain ⟨rfl, rfl⟩ := List.cons.inj heq
        exact .quotes outer rest
  · rename_i hcloses
    split
    · rename_i hopens
      rw [opensHole_cons, Bool.and_eq_true, decide_eq_true_eq, decide_eq_true_eq] at hopens
      obtain ⟨rfl, hbrace⟩ := hopens
      obtain ⟨rest, rfl⟩ := List.head?_eq_some_iff.1 hbrace
      exact .hole multiline outer rest
    · rename_i hopens
      exact .text (by simpa using hcloses) (by simpa using hopens)

theorem BodyCut.eq {multiline : Bool} {outer : List Mode} {c : Char} {cs : List Char} {next : Cut}
    (h : BodyCut multiline outer c cs next) : cut (.body multiline :: outer) c cs = next := by
  cases h with
  | quote => rfl
  | quotes => rfl
  | hole => cases multiline <;> rfl
  | text hcloses hopens =>
      rw [cut, cutBody, if_neg (by simp [hcloses]), if_neg (by simp [hopens])]

/-- The next token is told by one of the rules. -/
theorem tokenCut (modes : List Mode) (c : Char) (cs : List Char) :
    TokenCut modes c cs (cut modes c cs) := by
  rcases eq_body_or_not_isInBody modes with ⟨multiline, outer, rfl⟩ | hcode
  · exact .body (bodyCut multiline outer c cs)
  · rw [cut_of_not_isInBody hcode]
    exact .code hcode (codeCut modes c cs)

theorem TokenCut.eq {modes : List Mode} {c : Char} {cs : List Char} {next : Cut}
    (h : TokenCut modes c cs next) : cut modes c cs = next := by
  cases h with
  | body h => exact h.eq
  | code hcode h => exact (cut_of_not_isInBody hcode c cs).trans h.eq

end Lexer

end Caret
