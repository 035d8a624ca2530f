import Caret.Kind
import Caret.Span

namespace Caret

/-- A piece of the text; `unterminated` marks a block comment or string that the text cuts off. -/
structure Token where
  kind : Kind
  text : String
  start : Nat
  unterminated : Bool := false
  deriving DecidableEq, Repr, Inhabited

namespace Token

def size (token : Token) : Nat := token.text.utf8ByteSize

def stop (token : Token) : Nat := token.start + token.size

def span (token : Token) : Span := ⟨token.start, token.stop⟩

def isTrivia (token : Token) : Bool := token.kind.isTrivia

def endOfFile (offset : Nat) : Token := { kind := .eof, text := "", start := offset }

end Token

end Caret
