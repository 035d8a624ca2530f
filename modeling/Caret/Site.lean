import Caret.View

namespace Caret

/-- What sort of text an offset is in, when it is not plain code. -/
inductive Region where
  | literalText
  | delimiter
  | hole
  | comment
  deriving DecidableEq, Repr

/-- A place in a document: the node and the token at an offset, and the region around it. -/
structure Site where
  offset : Nat
  node : Locus
  token : Option Locus
  region : Option Region

namespace Locus

/-- At a boundary the token to the right counts, except in front of a string. -/
def pickToken : List Locus → Option Locus
  | [] => none
  | [token] => some token
  | left :: right :: _ => if right.kind = .stringStart then some left else some right

/-- The first placeholder that stands at an offset. -/
def missingAt (root : Locus) (offset : Nat) : Option Locus :=
  (root.search fun element => element.span.touches offset).find? fun locus =>
    locus.kind = .missing && locus.span.start = offset

def isCutOffComment (text : String) : Bool :=
  text.utf8ByteSize < 4 || !text.endsWith "*/"

/-- The end of a comment belongs to it, unless a block comment is closed there. -/
def isCommentAt (root : Locus) (offset : Nat) : Bool :=
  (root.tokensAt offset).any fun token =>
    token.span.start < offset &&
      match token.kind with
      | .lineComment => true
      | .blockComment => offset < token.span.stop || isCutOffComment token.text
      | _ => false

/-- A string around an offset. The name of a resource type does not count, and the end of a string
counts only while the string is not closed. -/
def isStringAround (offset : Nat) (locus : Locus) : Bool :=
  locus.kind = .string &&
    (match locus.parent with
     | none => true
     | some parent => parent.kind ≠ .resourceType) &&
    (offset < locus.span.stop || !isTerminated locus)

def innermostString (root : Locus) (offset : Nat) : Option Locus :=
  ((root.search fun element => element.span.start < offset && offset ≤ element.span.stop).filter
    (isStringAround offset)).getLast?

/-- Both ends of a hole belong to it; a hole that is not closed reaches to the end of its node. -/
def isInHole (offset : Nat) (interpolation : Locus) : Bool :=
  match interpolation.tokenOf .interpStart with
  | none => false
  | some opening =>
    let stop := match interpolation.tokenOf .interpEnd with
      | none => interpolation.span.stop
      | some closing => closing.span.start
    opening.span.stop ≤ offset && offset ≤ stop

def isInDelimiter (string : Locus) (offset : Nat) : Bool :=
  let own := string.tokens.filter fun token => token.kind.isStringDelimiter
  let openings := string.interpolations.flatMap fun hole =>
    hole.tokens.filter fun token => token.kind = .interpStart
  (own ++ openings).any fun token => token.span.strictlyContains offset

def regionInString (string : Locus) (offset : Nat) : Region :=
  if string.interpolations.any (isInHole offset) then .hole
  else if isInDelimiter string offset then .delimiter
  else .literalText

def regionAt (root : Locus) (offset : Nat) : Option Region :=
  if root.isCommentAt offset then some .comment
  else (innermostString root offset).map fun string => regionInString string offset

/-- The place at an offset of the text. A placeholder at the offset comes before the token there. -/
def resolve (root : Locus) (offset : Nat) : Site :=
  let token := pickToken (root.tokensAt offset)
  let node := (missingAt root offset).or (token.bind Locus.parent)
  ⟨offset, node.getD root, token, root.regionAt offset⟩

end Locus

namespace Site

def isInStringBody (site : Site) : Bool :=
  site.region = some .literalText || site.region = some .delimiter

def isInComment (site : Site) : Bool := site.region = some .comment

def isInHole (site : Site) : Bool := site.region = some .hole

end Site

end Caret
