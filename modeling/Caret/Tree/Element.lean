import Caret.Tree

namespace Caret

/-- A tree whose nodes and tokens know which bytes of the text they cover. -/
inductive Element where
  | token (kind : Kind) (span : Span) (text : String)
  | node (kind : Kind) (span : Span) (children : List Element)
  deriving Repr, Inhabited

namespace Element

def kind : Element → Kind
  | token kind _ _ => kind
  | node kind _ _ => kind

def span : Element → Span
  | token _ span _ => span
  | node _ span _ => span

def isToken : Element → Bool
  | token .. => true
  | node .. => false

def isNode (element : Element) : Bool := !element.isToken

def children : Element → List Element
  | token .. => []
  | node _ _ children => children

/-- The text of a token; nodes have none of their own. -/
def text : Element → String
  | token _ _ text => text
  | node .. => ""

end Element

namespace Tree

mutual

/-- Places a tree at a byte offset. -/
def locate (start : Nat) : Tree → Element
  | leaf kind text => .token kind ⟨start, start + text.utf8ByteSize⟩ text
  | node kind children =>
    .node kind ⟨start, start + sizeAll children⟩ (locateAll start children)

def locateAll (start : Nat) : List Tree → List Element
  | [] => []
  | tree :: trees => tree.locate start :: locateAll (start + tree.size) trees

end

theorem span_locate (tree : Tree) (start : Nat) :
    (tree.locate start).span = ⟨start, start + tree.size⟩ := by
  cases tree <;> simp [locate, Element.span, size]

theorem kind_locate (tree : Tree) (start : Nat) : (tree.locate start).kind = tree.kind := by
  cases tree <;> simp [locate, Element.kind, kind]

end Tree

end Caret
