import Caret.Machine.Basic

/-!
# The grammar on the machine

Each function of the grammar opens its nodes and finishes them. A chain of operators or links wraps
what stands on its left at a mark, once for each of them, and leaves all the levels together when it
ends.
-/

namespace Caret

namespace Machine.Action

/-! ### Literals -/

section Literals

variable (expr : Action)

def interpolation : Action :=
  start .interpolation ++
    (take ++ takeNewlines ++ expr ++ takeNewlines ++
      unlessAt [.interpEnd, .eof]
        (report .strayInHole ++ (start .error ++ read (Rule.takeStray 0) ++ finish)) ++
      expect .interpEnd) ++
    finish

def stringStep (input : List Lexeme) : Step :=
  match Rule.kind input with
  | .stringText => .again take
  | .interpStart => .again (interpolation expr)
  | .stringEnd => .last take
  | _ => .last (report .unterminatedString)

def string : Action := start .string ++ (take ++ loop (stringStep expr)) ++ finish

def propertyKey : Action :=
  start .propertyKey ++ ifAt .stringStart (string expr) (takeAs .ident) ++ finish

def propertyValue : Action :=
  ifAt .colon (take ++ expr)
    (missing (.token .colon) ++ unlessAt [.newline, .comma, .rBrace, .eof] expr)

def property : Action :=
  start .objectProperty ++
    (propertyKey expr ++ propertyValue expr ++
      unlessAt (.newline :: .comma :: Rule.closers)
        (skipTo [.newline, .comma, .rBrace] .afterProperty)) ++
    finish

def listStep (close : Kind) (startsItem : Kind → Bool) (item : Action)
    (cause : SyntaxError.Cause) (input : List Lexeme) : Step :=
  let kind := Rule.kind input
  if kind = .newline || kind = .comma then .again take
  else if kind = close then .last take
  else if Rule.closers.contains kind || Rule.startsDeclaration input then
    .last (missing (.token close))
  else if startsItem kind then .again item
  else .again (skipTo [.newline, .comma, close] cause)

def list (node : Kind) (close : Kind) (startsItem : Kind → Bool) (item : Action)
    (cause : SyntaxError.Cause) : Action :=
  start node ++ (take ++ loop (listStep close startsItem item cause)) ++ finish

def object : Action := list .object .rBrace Rule.startsProperty (property expr) .notAProperty

def array : Action :=
  list .array .rBrack Rule.startsExpr (start .arrayItem ++ expr ++ finish) .notAnItem

def arguments : Action := list .argList .rParen Rule.startsExpr expr .notAnArgument

def loopVariable : Action := look fun input =>
  if Rule.kind input = .ident && !Rule.isWordAt input "in" then start .name ++ take ++ finish
  else missing .loopVariable

def inKeyword : Action := look fun input =>
  if Rule.isWordAt input "in" then takeAs .inKw else missing .inKeyword

def forExpr : Action :=
  start .forExpr ++
    (take ++ takeAs .forKw ++ loopVariable ++ inKeyword ++ expr ++
      expect .colon ++ takeNewlines ++ expr ++
      unlessAt (.newline :: Rule.closers) (skipTo [.newline, .rBrack] .afterLoop) ++
      takeNewlinesBefore .rBrack ++ expect .rBrack) ++
    finish

def paren : Action :=
  start .parenExpr ++
    (take ++ takeNewlines ++ expr ++ takeNewlinesBefore .rParen ++ expect .rParen) ++
    finish

def primary : Action := look fun input =>
  match Rule.kind input with
  | .integer | .trueKw | .falseKw | .nullKw => start .literal ++ take ++ finish
  | .stringStart => string expr
  | .lBrace => object expr
  | .lBrack => if Rule.isWordAt input.tail "for" then forExpr expr else array expr
  | .lParen => paren expr
  | kind =>
    if kind.isWord then start .variableAccess ++ takeAs .ident ++ finish
    else missing .expression

end Literals

end Machine.Action

namespace Machine

/-! ### Operators and links -/

/-- The functions that call each other. `links` and `operators` go on with a chain: they are given
the mark in front of it and the number of levels that it has entered. -/
structure Routines where
  expr : Action
  unary : Action
  links (mark wraps : Nat) : Action
  operators (least mark wraps : Nat) : Action

namespace Routines

open Action

def binary (routines : Routines) (least : Nat) : Action :=
  mark fun mark => routines.unary ++ routines.operators least mark 0

def chain (routines : Routines) : Action :=
  mark fun mark => primary routines.expr ++ routines.links mark 0

def choice (below : Routines) (mark : Nat) : Action :=
  ifAt .question
    (startAt mark .ternaryExpr ++ (take ++ below.expr ++ expect .colon ++ below.expr) ++ finish)
    skip

def ternary (below : Routines) : Action := mark fun mark => below.binary 1 ++ below.choice mark

def member : Action := look fun input =>
  if (Rule.kind input).isWord then takeAs .ident else missing .propertyName

def link (below : Routines) (mark : Nat) : Action := look fun input =>
  match Rule.kind input with
  | .dot => startAt mark .propertyAccess ++ (take ++ member) ++ finish
  | .lBrack => startAt mark .arrayAccess ++ (take ++ below.expr ++ expect .rBrack) ++ finish
  | _ => startAt mark .callExpr ++ arguments below.expr ++ finish

/-- The functions that call those of `below` one level deeper. -/
def calling (below : Routines) : Routines :=
  let expr := enter (below.ternary ++ leave 1) skip
  let links (mark wraps : Nat) : Action := look fun input =>
    if Rule.Level.startsLink (Rule.kind input) then
      enter (below.link mark ++ below.links mark (wraps + 1)) (leave wraps)
    else leave wraps
  let chain := Action.mark fun mark => primary expr ++ links mark 0
  let unary := look fun input =>
    if Rule.kind input = .bang || Rule.kind input = .minus then
      enter (start .unaryExpr ++ (take ++ below.unary) ++ finish ++ leave 1) skip
    else chain
  let operators (least mark wraps : Nat) : Action := look fun input =>
    match (Rule.kind input).precedence with
    | none => leave wraps
    | some precedence =>
      if precedence < least then leave wraps
      else
        enter
          (startAt mark .binaryExpr ++ (take ++ below.binary (precedence + 1)) ++ finish ++
            below.operators least mark (wraps + 1))
          (leave wraps)
  ⟨expr, unary, links, operators⟩

end Routines

/-- The functions when their calls nest at most so deeply. -/
def routines : Nat → Routines
  | 0 =>
    let fault : Action := fun _ => .error .tooManyCalls
    ⟨fault, fault, fun _ _ => fault, fun _ _ _ => fault⟩
  | calls + 1 => (routines calls).calling

def grammar : Routines := routines (Rule.maxDepth + 1)

namespace Action

/-! ### Declarations -/

def decorator : Action :=
  start .decorator ++ (take ++ ifAt .ident grammar.chain (missing .decoratorName)) ++ finish ++
    unlessAt [.newline, .eof] (skipTo [.newline] .afterDecorator)

def decoratorStep (input : List Lexeme) : Step :=
  if Rule.kind input = .atSign then .again (decorator ++ takeNewlines) else .last skip

def name : Action := ifAt .ident (start .name ++ take ++ finish) (missing .name)

def typeName : Action := ifAt .ident (start .typeName ++ take ++ finish) (missing .type)

def quoted (kind : Kind) (expected : Expected) : Action :=
  ifAt .stringStart (start kind ++ string grammar.expr ++ finish) (missing expected)

def existing : Action := look fun input =>
  if Rule.isWordAt input "existing" then takeAs .existingKw else skip

def header : Kind → Action
  | .targetScopeDecl => expect .eq ++ grammar.expr
  | .paramDecl => name ++ typeName ++ ifAt .eq (take ++ grammar.expr) skip
  | .varDecl => name ++ expect .eq ++ grammar.expr
  | .outputDecl => name ++ typeName ++ expect .eq ++ grammar.expr
  | .resourceDecl =>
    name ++ quoted .resourceType .resourceType ++ existing ++ expect .eq ++ grammar.expr
  | .moduleDecl => name ++ quoted .modulePath .modulePath ++ expect .eq ++ grammar.expr
  | _ => skip

def endDeclaration : Action := look fun input =>
  if Rule.startsDeclaration input then skip
  else unlessAt [.newline, .eof, .atSign] (skipTo [.newline] .afterDeclaration)

def undecorated (mark : Nat) (decorated : Bool) : Action := look fun input =>
  match Rule.declarationWord input with
  | some (kind, keyword) =>
    startAt mark kind ++ (takeAs keyword ++ header kind) ++ finish ++ endDeclaration
  | none =>
    if decorated && Rule.kind input = .eof then skip
    else skipTo [.newline] .notADeclaration

/-- A declaration is decorated when there is a first decorator. -/
def declaration : Action := mark fun mark => look fun input =>
  loop decoratorStep ++ undecorated mark (Rule.kind input = .atSign)

def documentStep (input : List Lexeme) : Step :=
  match Rule.kind input with
  | .eof => .last (read Rule.settle)
  | .newline => .again take
  | _ => .again declaration

def document : Action := startHere .root ++ loop documentStep ++ finish

end Action

end Machine

end Caret
