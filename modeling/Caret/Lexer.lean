import Caret.Text.Identifier
import Caret.Token

namespace Caret

namespace Lexer

/-- A construct that is open while characters are read: the body of a string, or a hole in one with
the number of braces open inside it. -/
inductive Mode where
  | body (multiline : Bool)
  | hole (depth : Nat)
  deriving DecidableEq, Repr

def Mode.isBody : Mode → Bool
  | .body _ => true
  | .hole _ => false

/-- The next token, as its kind and the number of characters it takes beyond the first. -/
structure Cut where
  kind : Kind
  extra : Nat
  modes : List Mode
  unterminated : Bool := false

def countWhile (test : Char → Bool) : List Char → Nat
  | [] => 0
  | c :: cs => if test c then countWhile test cs + 1 else 0

/-- How many characters come before the first `*/`, if there is one. -/
def beforeCommentEnd : List Char → Option Nat
  | [] => none
  | [_] => none
  | c :: d :: cs =>
    if c = '*' && d = '/' then some 0 else (beforeCommentEnd (d :: cs)).map (· + 1)

def isBlank (c : Char) : Bool := c = ' ' || c = '\t'

def isLineBreak (c : Char) : Bool := c = '\n' || c = '\r'

def startsTripleQuote : List Char → Bool
  | '\x27' :: '\x27' :: '\x27' :: _ => true
  | _ => false

def closesBody (multiline : Bool) (cs : List Char) : Bool :=
  if multiline then startsTripleQuote cs else cs.head? = some '\x27'

def opensHole : List Char → Bool
  | '$' :: '\x7b' :: _ => true
  | _ => false

/-- How many characters of a string body come before its end or its next hole. A backslash takes
the character after it along, except in a multi-line string. -/
def textLength (multiline : Bool) : List Char → Nat
  | [] => 0
  | c :: cs =>
    if closesBody multiline (c :: cs) || opensHole (c :: cs) then 0
    else if c = '\\' && !multiline then
      match cs with
      | [] => 1
      | _ :: rest => textLength multiline rest + 2
    else textLength multiline cs + 1

/-- The next token in the body of a string. -/
def cutBody (modes : List Mode) (multiline : Bool) (c : Char) (cs : List Char) : Cut :=
  if closesBody multiline (c :: cs) then
    { kind := .stringEnd, extra := if multiline then 2 else 0, modes := modes.tail }
  else if opensHole (c :: cs) then
    { kind := .interpStart, extra := 1, modes := .hole 0 :: modes }
  else
    { kind := .stringText, extra := textLength multiline (c :: cs) - 1, modes := modes }

def openBrace : List Mode → List Mode
  | .hole depth :: modes => .hole (depth + 1) :: modes
  | modes => modes

/-- A closing brace ends a hole when no brace is open inside it. -/
def cutCloseBrace (modes : List Mode) : Cut :=
  match modes with
  | .hole 0 :: outer => { kind := .interpEnd, extra := 0, modes := outer }
  | .hole (depth + 1) :: outer => { kind := .rBrace, extra := 0, modes := .hole depth :: outer }
  | modes => { kind := .rBrace, extra := 0, modes := modes }

/-- The next token outside of string bodies. -/
def cutCode (modes : List Mode) (c : Char) (cs : List Char) : Cut :=
  let one (kind : Kind) : Cut := { kind := kind, extra := 0, modes := modes }
  let oneOrTwo (next : Char) (long short : Kind) : Cut :=
    if cs.head? = some next then { kind := long, extra := 1, modes := modes } else one short
  match c with
  | ' ' | '\t' => { kind := .whitespace, extra := countWhile isBlank cs, modes := modes }
  | '\n' => one .newline
  | '\r' => oneOrTwo '\n' .newline .newline
  | '/' =>
    match cs with
    | '/' :: _ =>
      { kind := .lineComment, extra := countWhile (fun d => !isLineBreak d) cs, modes := modes }
    | '*' :: rest =>
      match beforeCommentEnd rest with
      | some n => { kind := .blockComment, extra := n + 3, modes := modes }
      | none =>
        { kind := .blockComment, extra := cs.length, modes := modes, unterminated := true }
    | _ => one .slash
  | '\x27' =>
    if startsTripleQuote (c :: cs) then
      { kind := .stringStart, extra := 2, modes := .body true :: modes }
    else
      { kind := .stringStart, extra := 0, modes := .body false :: modes }
  | '\x7b' => { kind := .lBrace, extra := 0, modes := openBrace modes }
  | '\x7d' => cutCloseBrace modes
  | '[' => one .lBrack
  | ']' => one .rBrack
  | '(' => one .lParen
  | ')' => one .rParen
  | ',' => one .comma
  | '.' => one .dot
  | ':' => one .colon
  | '@' => one .atSign
  | '+' => one .plus
  | '-' => one .minus
  | '*' => one .star
  | '%' => one .percent
  | '?' => oneOrTwo '?' .questionQuestion .question
  | '=' => oneOrTwo '=' .eqEq .eq
  | '!' => oneOrTwo '=' .bangEq .bang
  | '<' => oneOrTwo '=' .ltEq .lt
  | '>' => oneOrTwo '=' .gtEq .gt
  | '&' => oneOrTwo '&' .ampAmp .errorToken
  | '|' => oneOrTwo '|' .pipePipe .errorToken
  | _ =>
    if c.isDigit then
      { kind := .integer, extra := countWhile Char.isDigit cs, modes := modes }
    else if Identifier.startsWith c then
      let extra := countWhile Identifier.continuesWith cs
      let word := String.ofList (c :: cs.take extra)
      { kind := (Kind.ofReserved word).getD .ident, extra := extra, modes := modes }
    else one .errorToken

def cut (modes : List Mode) (c : Char) (cs : List Char) : Cut :=
  match modes with
  | .body multiline :: _ => cutBody modes multiline c cs
  | _ => cutCode modes c cs

/-- All tokens of the characters from the byte `start` on, and what they leave open. -/
def scan (modes : List Mode) (start : Nat) : List Char → List Token × List Mode
  | [] => ([], modes)
  | c :: cs =>
    let next := cut modes c cs
    let text := String.ofList (c :: cs.take next.extra)
    let after := scan next.modes (start + text.utf8ByteSize) (cs.drop next.extra)
    (⟨next.kind, text, start, next.unterminated⟩ :: after.1, after.2)
  termination_by cs => cs.length
  decreasing_by simp only [List.length_drop, List.length_cons]; omega

/-- No character is lost or moved. -/
theorem flatMap_text_scan (modes : List Mode) (start : Nat) (cs : List Char) :
    (scan modes start cs).1.flatMap (·.text.toList) = cs := by
  fun_induction scan modes start cs with
  | case1 => rfl
  | case2 modes start c cs next text after ih =>
    rw [List.flatMap_cons, ih, String.toList_ofList, List.cons_append, List.take_append_drop]

theorem text_ne_empty_of_mem_scan {modes : List Mode} {start : Nat} {cs : List Char}
    {token : Token} (h : token ∈ (scan modes start cs).1) : token.text ≠ "" := by
  fun_induction scan modes start cs with
  | case1 => simp at h
  | case2 modes start c cs next text after ih =>
    rcases List.mem_cons.1 h with rfl | h
    · simp [text]
    · exact ih h

/-- The tokens that a cut-off string is reported at. -/
def opensOrFills : Kind → Bool
  | .stringStart | .stringText | .interpStart => true
  | _ => false

/-- Marks the last token that satisfies `test`. -/
def markLast (test : Token → Bool) (tokens : List Token) : List Token :=
  let after := tokens.reverse.takeWhile (fun token => !test token)
  match tokens.reverse.dropWhile (fun token => !test token) with
  | [] => tokens
  | token :: before => before.reverse ++ { token with unterminated := true } :: after.reverse

end Lexer

/-- Cuts a text into tokens that cover it, the last one an empty `eof`. When the text ends inside a
string, the last token that opens or fills a string is marked. -/
def tokenize (text : String) : List Token :=
  let scanned := Lexer.scan [] 0 text.toList
  let tokens :=
    if scanned.2.any Lexer.Mode.isBody then
      Lexer.markLast (fun token => Lexer.opensOrFills token.kind) scanned.1
    else scanned.1
  tokens ++ [Token.endOfFile text.utf8ByteSize]

end Caret
