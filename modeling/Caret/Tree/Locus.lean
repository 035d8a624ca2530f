import Caret.Tree.Element

namespace Caret

/-- An element among its siblings, those to the left nearest first. -/
structure Crumb where
  element : Element
  left : List Element
  right : List Element
  deriving Repr, Inhabited

/-- An element in its tree, with the way up to the root. -/
structure Locus where
  here : Crumb
  above : List Crumb
  deriving Repr, Inhabited

/-- A reference to a node by its kind and the bytes it covers. -/
structure NodeRef where
  kind : Kind
  span : Span
  deriving DecidableEq, Repr

def NodeRef.label (ref : NodeRef) : String :=
  ref.kind.label ++ "@" ++ toString ref.span.start ++ ".." ++ toString ref.span.stop

namespace Element

mutual

/-- The loci at and below an element in the order of the text, those that `enter` refuses left out
with all that is below them. -/
def search (enter : Element → Bool) (left right : List Element) (above : List Crumb) :
    Element → List Locus
  | .token kind span text =>
    let element := token kind span text
    if enter element then [⟨⟨element, left, right⟩, above⟩] else []
  | .node kind span children =>
    let element := node kind span children
    if enter element then
      let here : Crumb := ⟨element, left, right⟩
      ⟨here, above⟩ :: searchAll enter [] (here :: above) children
    else []

def searchAll (enter : Element → Bool) (left : List Element) (above : List Crumb) :
    List Element → List Locus
  | [] => []
  | element :: right =>
    element.search enter left right above ++ searchAll enter (element :: left) above right

end

/-- The token reached by going to the first child again and again. -/
def firstToken (left right : List Element) (above : List Crumb) : Element → Option Locus
  | .token kind span text => some ⟨⟨token kind span text, left, right⟩, above⟩
  | .node _ _ [] => none
  | .node kind span (first :: rest) =>
    first.firstToken [] rest (⟨node kind span (first :: rest), left, right⟩ :: above)

mutual

/-- The token reached by going to the last child again and again. -/
def lastToken (left right : List Element) (above : List Crumb) : Element → Option Locus
  | .token kind span text => some ⟨⟨token kind span text, left, right⟩, above⟩
  | .node kind span children =>
    lastTokenOf [] (⟨node kind span children, left, right⟩ :: above) children

def lastTokenOf (left : List Element) (above : List Crumb) : List Element → Option Locus
  | [] => none
  | element :: right =>
    match right with
    | [] => element.lastToken left [] above
    | _ :: _ => lastTokenOf (element :: left) above right

end

end Element

namespace Locus

def root (element : Element) : Locus := ⟨⟨element, [], []⟩, []⟩

def element (locus : Locus) : Element := locus.here.element

def kind (locus : Locus) : Kind := locus.element.kind

def span (locus : Locus) : Span := locus.element.span

def text (locus : Locus) : String := locus.element.text

def isToken (locus : Locus) : Bool := locus.element.isToken

def isNode (locus : Locus) : Bool := locus.element.isNode

def ref (locus : Locus) : NodeRef := ⟨locus.kind, locus.span⟩

def label (locus : Locus) : String := locus.ref.label

/-- The numbers of the children to follow from the root, the last one first. -/
def address (locus : Locus) : List Nat := (locus.here :: locus.above).map (·.left.length)

def parent (locus : Locus) : Option Locus :=
  match locus.above with
  | [] => none
  | crumb :: above => some ⟨crumb, above⟩

def ancestorsFrom (here : Crumb) : List Crumb → List Locus
  | [] => [⟨here, []⟩]
  | crumb :: above => ⟨here, crumb :: above⟩ :: ancestorsFrom crumb above

/-- The locus itself and all that is above it, nearest first. -/
def ancestors (locus : Locus) : List Locus := ancestorsFrom locus.here locus.above

def properAncestors (locus : Locus) : List Locus := locus.ancestors.tail

def spread (above : List Crumb) (left : List Element) : List Element → List Locus
  | [] => []
  | element :: right => ⟨⟨element, left, right⟩, above⟩ :: spread above (element :: left) right

def children (locus : Locus) : List Locus :=
  spread (locus.here :: locus.above) [] locus.element.children

def nodes (locus : Locus) : List Locus := locus.children.filter isNode

def tokens (locus : Locus) : List Locus := locus.children.filter isToken

def nodeOf (locus : Locus) (kind : Kind) : Option Locus :=
  locus.nodes.find? fun node => node.kind = kind

def tokenOf (locus : Locus) (kind : Kind) : Option Locus :=
  locus.tokens.find? fun token => token.kind = kind

def search (locus : Locus) (enter : Element → Bool) : List Locus :=
  locus.element.search enter locus.here.left locus.here.right locus.above

/-- The nodes at and below a locus in the order of the text. -/
def descendants (locus : Locus) : List Locus := (locus.search fun _ => true).filter isNode

/-- The tokens that an offset touches: two at a boundary between tokens, otherwise at most one. -/
def tokensAt (locus : Locus) (offset : Nat) : List Locus :=
  (locus.search fun element => !element.span.isEmpty && element.span.touches offset).filter isToken

def firstToken (locus : Locus) : Option Locus :=
  locus.element.firstToken locus.here.left locus.here.right locus.above

def lastToken (locus : Locus) : Option Locus :=
  locus.element.lastToken locus.here.left locus.here.right locus.above

def leftSibling (locus : Locus) : Option Locus :=
  match locus.here.left with
  | [] => none
  | element :: left =>
    some ⟨⟨element, left, locus.element :: locus.here.right⟩, locus.above⟩

/-- The last token of the nearest element to the left; an empty node there has none, and then there
is no answer. -/
def previousToken (locus : Locus) : Option Locus :=
  (locus.ancestors.findSome? leftSibling).bind lastToken

/-- The first node in the order of the text that a reference fits. -/
def find? (locus : Locus) (ref : NodeRef) : Option Locus :=
  locus.descendants.find? fun node => node.ref = ref

end Locus

end Caret
