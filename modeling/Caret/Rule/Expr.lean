import Caret.Rule.Literal

namespace Caret

namespace Rule

/-- What is left of a line that nests too deeply goes into an error node. -/
def tooDeep : Rule := skipTo [.newline] .nestingTooDeep ++ node .missing done

/-- The rules for expressions that still may open a certain number of levels. `links` continues a
chain of member accesses, indexes and calls, and `operators` a chain of binary operators that bind
at least so tightly; both start from the trees of what stands on the left. -/
structure Level where
  expr : Rule
  unary : Rule
  links : List Tree → Rule
  operators : Nat → List Tree → Rule

namespace Level

def binary (level : Level) (least : Nat) : Rule :=
  settle ++ level.unary.into (level.operators least)

def chain (level : Level) : Rule := settle ++ (primary level.expr).into level.links

/-- An expression and the choice that may follow it, read with the levels below. -/
def ternary (below : Level) : Rule :=
  settle ++ (below.binary 1).into fun test =>
    ifAt .question
      (wrap .ternaryExpr test (take ++ below.expr ++ expect .colon ++ below.expr))
      (keep test)

def member : Rule := fun input =>
  if (kind input).isWord then takeAs .ident input else absent .propertyName input

/-- One link of a chain: a member access, an index or a call. -/
def link (below : Level) (receiver : List Tree) : Rule := fun input =>
  match kind input with
  | .dot => wrap .propertyAccess receiver (take ++ member) input
  | .lBrack => wrap .arrayAccess receiver (take ++ below.expr ++ expect .rBrack) input
  | _ => wrap .callExpr receiver (arguments below.expr) input

def startsLink (kind : Kind) : Bool := kind = .dot || kind = .lBrack || kind = .lParen

/-- The rules with one level more than those of `below`, or with none left. Expressions, links and
operators each take a level, and a chain goes on with the levels that its links have left. -/
def above (below : Option Level) : Level :=
  let expr := match below with
    | none => tooDeep
    | some level => level.ternary
  let links (receiver : List Tree) : Rule := fun input =>
    if startsLink (kind input) then
      match below with
      | none => (keep receiver ++ tooDeep) input
      | some level => ((level.link receiver).into level.links) input
    else keep receiver input
  let chain := settle ++ (primary expr).into links
  let unary : Rule := fun input =>
    if kind input = .bang || kind input = .minus then
      match below with
      | none => tooDeep input
      | some level => node .unaryExpr (take ++ level.unary) input
    else chain input
  let operators (least : Nat) (left : List Tree) : Rule := fun input =>
    match (kind input).precedence with
    | none => keep left input
    | some precedence =>
      if precedence < least then keep left input
      else
        match below with
        | none => (keep left ++ tooDeep) input
        | some level =>
          ((wrap .binaryExpr left (take ++ level.binary (precedence + 1))).into
            (level.operators least)) input
  ⟨expr, unary, links, operators⟩

end Level

/-- The rules that may open so many levels. -/
def level : Nat → Level
  | 0 => Level.above none
  | budget + 1 => Level.above (some (level budget))

def maxDepth : Nat := 128

end Rule

end Caret
