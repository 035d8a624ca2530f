import Caret.Rule.Document

/-!
# The parser step by step

The rules say which trees come out of an input. The machine of this module builds them in the way of
a parser that walks over the input once: nodes are opened and finished one after the other, a node
can be opened late in front of trees that are there already, and the nesting is counted up and down.
A step that makes no sense is a fault.
-/

namespace Caret

namespace Machine

/-- The nodes that are open, the innermost one first, each with the number of trees in front of its
children. None of these numbers is above the number of trees, or above that of a node further in. -/
def Nested : Nat → List (Kind × Nat) → Prop
  | _, [] => True
  | count, (_, first) :: opened => first ≤ count ∧ Nested first opened

theorem Nested.mono {count more : Nat} {opened : List (Kind × Nat)} (h : Nested count opened)
    (hle : count ≤ more) : Nested more opened := by
  cases opened with
  | nil => trivial
  | cons node opened => exact ⟨Nat.le_trans h.1 hle, h.2⟩

end Machine

/-- The parser between two steps. The trees are those that no finished node holds. -/
@[ext]
structure Machine where
  opened : List (Kind × Nat)
  trees : List Tree
  input : List Lexeme
  errors : List SyntaxError
  depth : Nat
  nested : Machine.Nested trees.length opened
  depth_le : depth ≤ Rule.maxDepth

namespace Machine

/-- Why a step cannot be made. -/
inductive Fault where
  /-- No node is open that could be finished. -/
  | nothingOpen
  /-- The trees behind a mark are not all children of the node that is open. -/
  | staleMark
  /-- More levels would be left than were entered. -/
  | notEntered
  /-- A loop goes on without end. -/
  | endless
  /-- The functions call each other more often than there are levels. -/
  | tooManyCalls
deriving Repr, DecidableEq

def initial (input : List Lexeme) : Machine where
  opened := []
  trees := []
  input := input
  errors := []
  depth := 0
  nested := trivial
  depth_le := Nat.zero_le _

/-- The number of trees in front of the children of the node that is open. -/
def firstChild (p : Machine) : Nat :=
  match p.opened with
  | [] => 0
  | (_, first) :: _ => first

theorem firstChild_le (p : Machine) : p.firstChild ≤ p.trees.length := by
  have hnested := p.nested
  unfold firstChild
  split
  · exact Nat.zero_le _
  · rename_i hopened
    rw [hopened] at hnested
    exact hnested.1

theorem nested_of_firstChild_le {p : Machine} {count : Nat} (h : p.firstChild ≤ count) :
    Nested count p.opened := by
  have hnested := p.nested
  unfold firstChild at h
  cases hopened : p.opened with
  | nil => trivial
  | cons node opened =>
      rw [hopened] at hnested h
      exact ⟨h, hnested.2⟩

/-- The machine when a rule has read, and what it leaves behind stands in the node that is open. -/
def after (p : Machine) (o : Outcome) : Machine :=
  { p with
    trees := p.trees ++ o.trees
    input := o.rest
    errors := p.errors ++ o.errors
    nested := p.nested.mono (by simp) }

/-- The machine with a node opened in front of the trees behind a mark. -/
def opening (p : Machine) (mark : Nat) (kind : Kind) (hfirst : p.firstChild ≤ mark)
    (hmark : mark ≤ p.trees.length) : Machine :=
  { p with
    opened := (kind, mark) :: p.opened
    nested := ⟨hmark, nested_of_firstChild_le hfirst⟩ }

/-- The machine so many levels deeper. -/
def deeper (p : Machine) (levels : Nat) (h : p.depth + levels ≤ Rule.maxDepth) : Machine :=
  { p with
    depth := p.depth + levels
    depth_le := h }

/-- What a part of the parser does. -/
def Action := Machine → Except Fault Machine

namespace Action

def skip : Action := .ok

def andThen (first second : Action) : Action := fun p => first p >>= second

instance : Append Action := ⟨andThen⟩

/-- Goes on as the input says. -/
def look (choose : List Lexeme → Action) : Action := fun p => choose p.input p

def ifAt (wanted : Kind) (yes no : Action) : Action :=
  look fun input => if Rule.kind input = wanted then yes else no

def unlessAt (kinds : List Kind) (action : Action) : Action :=
  look fun input => if kinds.contains (Rule.kind input) then skip else action

/-! ### Tokens -/

/-- Reads tokens and trivia into the node that is open. -/
def read (rule : Rule) : Action := fun p => .ok (p.after (rule p.input))

def takeAs (kind : Kind) : Action := read (Rule.takeAs kind)

def take : Action := read Rule.take

def takeNewlines : Action := read Rule.takeNewlines

def takeNewlinesBefore (wanted : Kind) : Action := read (Rule.takeNewlinesBefore wanted)

def report (cause : SyntaxError.Cause) : Action := read (Rule.report cause)

/-! ### Nodes -/

/-- Opens a node behind the trees that are there. -/
def startHere (kind : Kind) : Action := fun p =>
  .ok (p.opening p.trees.length kind p.firstChild_le (Nat.le_refl _))

/-- Opens a node in front of the next token. -/
def start (kind : Kind) : Action := read Rule.settle ++ startHere kind

/-- Hands the place in front of the next token to what comes next. -/
def mark (next : Nat → Action) : Action := fun p =>
  let q := p.after (Rule.settle p.input)
  next q.trees.length q

/-- Opens a node late, in front of the trees behind the mark. -/
def startAt (mark : Nat) (kind : Kind) : Action := fun p =>
  if h : p.firstChild ≤ mark ∧ mark ≤ p.trees.length then .ok (p.opening mark kind h.1 h.2)
  else .error .staleMark

/-- Finishes the node that is open. -/
def finish : Action := fun p =>
  match h : p.opened with
  | [] => .error .nothingOpen
  | (kind, first) :: opened =>
    .ok { p with
      opened := opened
      trees := p.trees.take first ++ [.node kind (p.trees.drop first)]
      nested := by
        have hnested := p.nested
        rw [h] at hnested
        exact hnested.2.mono (by simp [hnested.1]) }

def placeholder : Action := start .missing ++ finish

def missing (expected : Expected) : Action :=
  look (fun input => report (.absent expected (Rule.kind input))) ++ placeholder

def expect (wanted : Kind) : Action := ifAt wanted take (missing (.token wanted))

def skipTo (stop : List Kind) (cause : SyntaxError.Cause) : Action :=
  report cause ++
    unlessAt (.eof :: stop) (start .error ++ read (Rule.takeUntil stop) ++ finish)

/-! ### Levels -/

def tooDeep : Action := skipTo [.newline] .nestingTooDeep ++ placeholder

/-- Goes on one level deeper, or puts what is left of the line into an error node and stops. -/
def enter (next stop : Action) : Action := fun p =>
  if h : p.depth + 1 ≤ Rule.maxDepth then next (p.deeper 1 h) else (tooDeep ++ stop) p

def leave (levels : Nat) : Action := fun p =>
  if levels ≤ p.depth then
    .ok { p with
      depth := p.depth - levels
      depth_le := Nat.le_trans (Nat.sub_le _ _) p.depth_le }
  else .error .notEntered

/-! ### Loops -/

inductive Step where
  | again (action : Action)
  | last (action : Action)

def loopFor (choose : List Lexeme → Step) : Nat → Action
  | 0 => fun _ => .error .endless
  | fuel + 1 => look fun input =>
    match choose input with
    | .last action => action
    | .again action => action ++ loopFor choose fuel

/-- Goes on as `choose` says, for no more rounds than there are tokens. -/
def loop (choose : List Lexeme → Step) : Action := fun p =>
  loopFor choose (p.input.length + 1) p

end Action

end Machine

end Caret
