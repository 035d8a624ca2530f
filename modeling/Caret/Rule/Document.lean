import Caret.Lexer
import Caret.Rule.Expr

namespace Caret

namespace Rule

def outermost : Level := level maxDepth

def expr : Rule := outermost.expr

def decorator : Rule :=
  node .decorator (take ++ ifAt .ident outermost.chain (absent .decoratorName)) ++
    unlessAt [.newline, .eof] (skipTo [.newline] .afterDecorator)

def decoratorStep (input : List Lexeme) : Step :=
  if kind input = .atSign then .again (decorator ++ takeNewlines) else .last done

def name : Rule := ifAt .ident (node .name take) (absent .name)

def typeName : Rule := ifAt .ident (node .typeName take) (absent .type)

def quoted (kind : Kind) (expected : Expected) : Rule :=
  ifAt .stringStart (node kind (string expr)) (absent expected)

def existing : Rule := fun input =>
  if isWordAt input "existing" then takeAs .existingKw input else done input

/-- What follows the keyword of a declaration. -/
def header : Kind → Rule
  | .targetScopeDecl => expect .eq ++ expr
  | .paramDecl => name ++ typeName ++ ifAt .eq (take ++ expr) done
  | .varDecl => name ++ expect .eq ++ expr
  | .outputDecl => name ++ typeName ++ expect .eq ++ expr
  | .resourceDecl =>
    name ++ quoted .resourceType .resourceType ++ existing ++ expect .eq ++ expr
  | .moduleDecl => name ++ quoted .modulePath .modulePath ++ expect .eq ++ expr
  | _ => done

def endDeclaration : Rule := fun input =>
  if startsDeclaration input then done input
  else unlessAt [.newline, .eof, .atSign] (skipTo [.newline] .afterDeclaration) input

/-- The declaration that `decorators` belong to; decorators at the end of the file stand alone. -/
def undecorated (decorators : List Tree) : Rule := fun input =>
  match declarationWord input with
  | some (kind, keyword) =>
    (wrap kind decorators (takeAs keyword ++ header kind) ++ endDeclaration) input
  | none =>
    if !decorators.isEmpty && kind input = .eof then keep decorators input
    else (keep decorators ++ skipTo [.newline] .notADeclaration) input

def declaration : Rule := settle ++ (loop decoratorStep).into undecorated

def documentStep (input : List Lexeme) : Step :=
  match kind input with
  | .eof => .last settle
  | .newline => .again take
  | _ => .again declaration

def document : Rule := wrap .root [] (loop documentStep)

end Rule

/-- A text as a tree, with the faults found on the way in the order of the text. -/
structure Document where
  tree : Tree
  errors : List SyntaxError

def Document.parse (text : String) : Document :=
  let outcome := Rule.document (Lexeme.group (tokenize text))
  ⟨outcome.trees.headD (.node .root []), outcome.errors⟩

end Caret
