import Caret.Rule.Basic

namespace Caret

namespace Rule

/-- Kinds that only ever close an enclosing construct. -/
def closers : List Kind := [.eof, .interpEnd, .rBrace, .rBrack, .rParen]

/-- The words that start a declaration, with the node and the keyword they become. -/
def declarationWords : List (String × Kind × Kind) :=
  [("targetScope", .targetScopeDecl, .targetScopeKw),
   ("param", .paramDecl, .paramKw),
   ("var", .varDecl, .varKw),
   ("output", .outputDecl, .outputKw),
   ("resource", .resourceDecl, .resourceKw),
   ("module", .moduleDecl, .moduleKw)]

def declarationWord (input : List Lexeme) : Option (Kind × Kind) :=
  if kind input = .ident then declarationWords.lookup (current input).text else none

/-- A declaration starts with its keyword and a name, or with `targetScope` and an equals sign. -/
def startsDeclaration (input : List Lexeme) : Bool :=
  if isWordAt input "targetScope" then nextKind input = .eq
  else (declarationWord input).isSome && nextKind input = .ident

def startsExpr (kind : Kind) : Bool :=
  kind.isWord || [.integer, .stringStart, .lBrace, .lBrack, .lParen, .bang, .minus].contains kind

/-- Takes what stands between an expression and the end of its hole, holes in it included. -/
def takeStray : Nat → Rule
  | _, [] => ⟨[], [], []⟩
  | depth, lexeme :: rest =>
    let take (more : Outcome) : Outcome :=
      { more with trees := lexeme.tokens.map Tree.ofToken ++ more.trees }
    match lexeme.kind, depth with
    | .eof, _ => ⟨[], [], lexeme :: rest⟩
    | .interpStart, depth => take (takeStray (depth + 1) rest)
    | .interpEnd, 0 => ⟨[], [], lexeme :: rest⟩
    | .interpEnd, depth + 1 => take (takeStray depth rest)
    | _, depth => take (takeStray depth rest)

def interpolation (expr : Rule) : Rule :=
  node .interpolation
    (take ++ takeNewlines ++ expr ++ takeNewlines ++
      unlessAt [.interpEnd, .eof] (report .strayInHole ++ node .error (takeStray 0)) ++
      expect .interpEnd)

def stringStep (expr : Rule) (input : List Lexeme) : Step :=
  match kind input with
  | .stringText => .again take
  | .interpStart => .again (interpolation expr)
  | .stringEnd => .last take
  | _ => .last (report .unterminatedString)

def string (expr : Rule) : Rule := node .string (take ++ loop (stringStep expr))

def propertyKey (expr : Rule) : Rule :=
  node .propertyKey (ifAt .stringStart (string expr) (takeAs .ident))

/-- Without a colon, a value is only looked for where something is left on the line. -/
def propertyValue (expr : Rule) : Rule :=
  ifAt .colon (take ++ expr)
    (absent (.token .colon) ++ unlessAt [.newline, .comma, .rBrace, .eof] expr)

def property (expr : Rule) : Rule :=
  node .objectProperty
    (propertyKey expr ++ propertyValue expr ++
      unlessAt (.newline :: .comma :: closers)
        (skipTo [.newline, .comma, .rBrace] .afterProperty))

/-- One round of a list in brackets: separators are taken, the closing bracket ends the list, and
so does what can only belong to an enclosing construct or to the next declaration. -/
def listStep (close : Kind) (startsItem : Kind → Bool) (item : Rule)
    (cause : SyntaxError.Cause) (input : List Lexeme) : Step :=
  let kind := kind input
  if kind = .newline || kind = .comma then .again take
  else if kind = close then .last take
  else if closers.contains kind || startsDeclaration input then .last (absent (.token close))
  else if startsItem kind then .again item
  else .again (skipTo [.newline, .comma, close] cause)

def list (node : Kind) (close : Kind) (startsItem : Kind → Bool) (item : Rule)
    (cause : SyntaxError.Cause) : Rule :=
  Rule.node node (take ++ loop (listStep close startsItem item cause))

def startsProperty (kind : Kind) : Bool := kind.isWord || kind = .stringStart

def object (expr : Rule) : Rule :=
  list .object .rBrace startsProperty (property expr) .notAProperty

def array (expr : Rule) : Rule :=
  list .array .rBrack startsExpr (node .arrayItem expr) .notAnItem

def arguments (expr : Rule) : Rule := list .argList .rParen startsExpr expr .notAnArgument

def loopVariable : Rule := fun input =>
  if kind input = .ident && !isWordAt input "in" then node .name take input
  else absent .loopVariable input

def inKeyword : Rule := fun input =>
  if isWordAt input "in" then takeAs .inKw input else absent .inKeyword input

def forExpr (expr : Rule) : Rule :=
  node .forExpr
    (take ++ takeAs .forKw ++ loopVariable ++ inKeyword ++ expr ++
      expect .colon ++ takeNewlines ++ expr ++
      unlessAt (.newline :: closers) (skipTo [.newline, .rBrack] .afterLoop) ++
      takeNewlinesBefore .rBrack ++ expect .rBrack)

def paren (expr : Rule) : Rule :=
  node .parenExpr
    (take ++ takeNewlines ++ expr ++ takeNewlinesBefore .rParen ++ expect .rParen)

/-- An operand without its operators, links and calls. -/
def primary (expr : Rule) : Rule := fun input =>
  match kind input with
  | .integer | .trueKw | .falseKw | .nullKw => node .literal take input
  | .stringStart => string expr input
  | .lBrace => object expr input
  | .lBrack => if isWordAt input.tail "for" then forExpr expr input else array expr input
  | .lParen => paren expr input
  | kind =>
    if kind.isWord then node .variableAccess (takeAs .ident) input else absent .expression input

end Rule

end Caret
