import Caret.Kind

namespace Caret

namespace Identifier

def startsWith (c : Char) : Bool := c.isAlpha || c = '_'

def continuesWith (c : Char) : Bool := c.isAlphanum || c = '_'

theorem continuesWith_of_startsWith {c : Char} (h : startsWith c = true) :
    continuesWith c = true := by
  unfold startsWith at h
  unfold continuesWith Char.isAlphanum
  cases ha : c.isAlpha <;> simp_all

/-- A text that can be written without quotes as a key or a member name. -/
def isValid (text : String) : Bool :=
  (match text.toList with
   | [] => false
   | c :: cs => startsWith c && cs.all continuesWith) &&
  (Kind.ofReserved text).isNone

end Identifier

end Caret
