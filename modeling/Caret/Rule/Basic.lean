import Caret.Lexeme
import Caret.SyntaxError
import Caret.Tree

namespace Caret

/-- What reading leaves behind: the trees for the node that is open, the errors, and the rest. -/
structure Outcome where
  trees : List Tree
  errors : List SyntaxError
  rest : List Lexeme

/-- A way to read from the front of the input. It never fails: faults become errors, placeholders
and error nodes. -/
def Rule := List Lexeme → Outcome

namespace Rule

def current (input : List Lexeme) : Token :=
  match input with
  | [] => Token.endOfFile 0
  | lexeme :: _ => lexeme.token

def kind (input : List Lexeme) : Kind := (current input).kind

/-- The kind of the token after the current one. -/
def nextKind (input : List Lexeme) : Kind := kind input.tail

def isWordAt (input : List Lexeme) (word : String) : Bool :=
  kind input = .ident && (current input).text = word

/-- The kind of the first token that is not a newline. -/
def kindAfterNewlines : List Lexeme → Kind
  | [] => .eof
  | lexeme :: rest => if lexeme.kind = .newline then kindAfterNewlines rest else lexeme.kind

def done : Rule := fun input => ⟨[], [], input⟩

/-- Puts finished trees into the open node. -/
def keep (trees : List Tree) : Rule := fun input => ⟨trees, [], input⟩

def andThen (first second : Rule) : Rule := fun input =>
  let a := first input
  let b := second a.rest
  ⟨a.trees ++ b.trees, a.errors ++ b.errors, b.rest⟩

instance : Append Rule := ⟨andThen⟩

/-- Hands the trees of `first` over to what comes next instead of to the open node. -/
def into (first : Rule) (next : List Tree → Rule) : Rule := fun input =>
  let a := first input
  let b := next a.trees a.rest
  ⟨b.trees, a.errors ++ b.errors, b.rest⟩

def ifAt (wanted : Kind) (yes no : Rule) : Rule := fun input =>
  if kind input = wanted then yes input else no input

def unlessAt (kinds : List Kind) (rule : Rule) : Rule := fun input =>
  if kinds.contains (kind input) then done input else rule input

/-- Puts the pending trivia into the open node. -/
def settle : Rule
  | [] => ⟨[], [], []⟩
  | lexeme :: rest => ⟨lexeme.lead.map Tree.ofToken, [], { lexeme with lead := [] } :: rest⟩

/-- Takes the current token as a leaf of the given kind; the end of the file is never taken. -/
def takeAs (kind : Kind) : Rule
  | [] => ⟨[], [], []⟩
  | lexeme :: rest =>
    if lexeme.kind = .eof then settle (lexeme :: rest)
    else ⟨lexeme.lead.map Tree.ofToken ++ [.leaf kind lexeme.token.text], [], rest⟩

def take : Rule := fun input => takeAs (kind input) input

/-- Wraps `left` and what `body` reads in one node. -/
def wrap (kind : Kind) (left : List Tree) (body : Rule) : Rule := fun input =>
  let inner := body input
  { inner with trees := [.node kind (left ++ inner.trees)] }

/-- Trivia in front of a node stays outside of it. -/
def node (kind : Kind) (body : Rule) : Rule := settle ++ wrap kind [] body

def report (cause : SyntaxError.Cause) : Rule := fun input =>
  ⟨[], [⟨cause, (current input).span⟩], input⟩

/-- Leaves an empty placeholder where something was expected. -/
def absent (expected : Expected) : Rule := fun input =>
  (report (.absent expected (kind input)) ++ node .missing done) input

def expect (wanted : Kind) : Rule := ifAt wanted take (absent (.token wanted))

def takeNewlines : Rule
  | [] => ⟨[], [], []⟩
  | lexeme :: rest =>
    if lexeme.kind = .newline then
      let more := takeNewlines rest
      { more with trees := lexeme.tokens.map Tree.ofToken ++ more.trees }
    else ⟨[], [], lexeme :: rest⟩

/-- Takes newlines only when `wanted` follows them, which leaves the separators in front of the next
declaration alone when a construct is not closed. -/
def takeNewlinesBefore (wanted : Kind) : Rule := fun input =>
  if kindAfterNewlines input = wanted then takeNewlines input else done input

/-- Takes tokens up to the end of the file or to one of the given kinds. -/
def takeUntil (stop : List Kind) : Rule
  | [] => ⟨[], [], []⟩
  | lexeme :: rest =>
    if lexeme.kind = .eof || stop.contains lexeme.kind then ⟨[], [], lexeme :: rest⟩
    else
      let more := takeUntil stop rest
      { more with trees := lexeme.tokens.map Tree.ofToken ++ more.trees }

/-- Records an error and puts what comes before the next of the given kinds into an error node. -/
def skipTo (stop : List Kind) (cause : SyntaxError.Cause) : Rule :=
  report cause ++ unlessAt (.eof :: stop) (node .error (takeUntil stop))

/-- How a loop goes on. -/
inductive Step where
  | again (rule : Rule)
  | last (rule : Rule)

def loopFor (choose : List Lexeme → Step) : Nat → Rule
  | 0 => done
  | fuel + 1 => fun input =>
    match choose input with
    | .last rule => rule input
    | .again rule => (rule ++ loopFor choose fuel) input

/-- Goes on as `choose` says. Every round but the last one takes a token, so there are no more
rounds than tokens. -/
def loop (choose : List Lexeme → Step) : Rule := fun input =>
  loopFor choose (input.length + 1) input

end Rule

end Caret
