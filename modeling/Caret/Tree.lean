import Caret.Token

namespace Caret

/-- A tree that covers a text: its leaves, in order, spell the text. -/
inductive Tree where
  | leaf (kind : Kind) (text : String)
  | node (kind : Kind) (children : List Tree)
  deriving Repr, Inhabited

namespace Tree

def kind : Tree → Kind
  | leaf kind _ => kind
  | node kind _ => kind

def ofToken (token : Token) : Tree := leaf token.kind token.text

mutual

/-- The leaves in the order of the text. -/
def leaves : Tree → List (Kind × String)
  | leaf kind text => [(kind, text)]
  | node _ children => leavesAll children

def leavesAll : List Tree → List (Kind × String)
  | [] => []
  | tree :: trees => tree.leaves ++ leavesAll trees

end

mutual

/-- The number of bytes that the leaves take. -/
def size : Tree → Nat
  | leaf _ text => text.utf8ByteSize
  | node _ children => sizeAll children

def sizeAll : List Tree → Nat
  | [] => 0
  | tree :: trees => tree.size + sizeAll trees

end

mutual

/-- The number of inner nodes, empty ones included. -/
def nodeCount : Tree → Nat
  | leaf _ _ => 0
  | node _ children => nodeCountAll children + 1

def nodeCountAll : List Tree → Nat
  | [] => 0
  | tree :: trees => tree.nodeCount + nodeCountAll trees

end

mutual

/-- The number of elements on a longest path from the root, leaves included. -/
def height : Tree → Nat
  | leaf _ _ => 1
  | node _ children => heightAll children + 1

def heightAll : List Tree → Nat
  | [] => 0
  | tree :: trees => max tree.height (heightAll trees)

end

def text (tree : Tree) : String := String.join (tree.leaves.map (·.2))

theorem leavesAll_append (left right : List Tree) :
    leavesAll (left ++ right) = leavesAll left ++ leavesAll right := by
  induction left with
  | nil => rfl
  | cons tree trees ih => simp [leavesAll, ih]

theorem sizeAll_append (left right : List Tree) :
    sizeAll (left ++ right) = sizeAll left + sizeAll right := by
  induction left with
  | nil => simp [sizeAll]
  | cons tree trees ih => simp [sizeAll, ih, Nat.add_assoc]

end Tree

end Caret
