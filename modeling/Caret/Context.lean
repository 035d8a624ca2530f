import Caret.Site
import Caret.Text.Bytes

namespace Caret

/-- What can be completed at a place. `expression` knows whether a loop may start there. -/
inductive ContextKind where
  | resourceType
  | decoratorName
  | resourceHeader
  | typeName
  | propertyKey
  | propertyValue
  | memberAccess
  | resourceBody
  | declarations
  | expression (arrayStart : Bool)
  deriving DecidableEq, Repr

/-- What a completion is about. Scopes are looked up from `anchor`, and a suggestion that is picked
takes the place of `replacement`, of which `typed` stands in front of the cursor. -/
structure Context where
  kind : ContextKind
  node : Locus
  anchor : Locus
  replacement : Span
  typed : String
  trigger : Option Char

/-- The tokens around an offset. `word` is the word that the offset is in or at the end of.
`beforeOnLine` is the nearest token in front of the word that is no trivia, and `before` the nearest
one that is no newline either. -/
structure Vicinity where
  root : Locus
  offset : Nat
  word : Option Locus
  beforeOnLine : Option Locus
  before : Option Locus

namespace Locus

/-- The token that ends at an offset or goes across it. -/
def tokenBefore (root : Locus) (offset : Nat) : Option Locus :=
  match root.tokensAt offset with
  | [] => none
  | [token] => if token.span.start < offset then some token else token.previousToken
  | left :: _ :: _ => some left

def skipBackFor (skip : Kind → Bool) : Nat → Locus → Option Locus
  | 0, _ => none
  | fuel + 1, token =>
    if skip token.kind then token.previousToken.bind (skipBackFor skip fuel) else some token

/-- The nearest token at or before this one that `skip` does not refuse. Tokens are not empty, so
each one starts before the next. -/
def skipBack (skip : Kind → Bool) (token : Locus) : Option Locus :=
  skipBackFor skip (token.span.start + 1) token

def vicinity (root : Locus) (offset : Nat) : Vicinity :=
  let word := (root.tokensAt offset).find? fun token =>
    token.kind.isWord && token.span.start < offset
  let start := match word with
    | none => offset
    | some word => word.span.start
  let beforeOnLine := (root.tokenBefore start).bind (skipBack Kind.isTrivia)
  let before := beforeOnLine.bind (skipBack fun kind => kind.isTrivia || kind = .newline)
  ⟨root, offset, word, beforeOnLine, before⟩

end Locus

namespace Context

/-- A context as a rule finds it, with the offset where the typed text starts. -/
structure Finding where
  kind : ContextKind
  node : Locus
  replacement : Span
  typedFrom : Nat

end Context

namespace Vicinity

open Context (Finding)

/-- The node around the token in front, if token and node are of the given kinds. -/
def beforeIn (place : Vicinity) (token : Kind) (nodes : List Kind) : Option Locus := do
  let before ← place.before
  guard (before.kind = token)
  let parent ← before.parent
  guard (nodes.contains parent.kind)
  some parent

def wordKind (place : Vicinity) : Option Kind := place.word.map Locus.kind

def wordParentKind (place : Vicinity) : Option Kind := do (← (← place.word).parent).kind

/-- The word at the cursor is replaced, or the cursor alone. -/
def found (place : Vicinity) (kind : ContextKind) (node : Locus) : Finding :=
  match place.word with
  | some word => ⟨kind, node, word.span, word.span.start⟩
  | none => ⟨kind, node, .empty place.offset, place.offset⟩

/-- Inside the quotes of the type of a resource, where the whole string is replaced. -/
def insideTypeString (place : Vicinity) : Option Finding := do
  let typeNode ← (place.root.tokensAt place.offset).findSome? fun token =>
    token.properAncestors.find? fun ancestor => ancestor.kind = .resourceType
  let string ← typeNode.nodeOf .string
  let opening ← string.firstToken
  guard (opening.kind = .stringStart)
  guard (opening.span.stop ≤ place.offset &&
    (place.offset < string.span.stop || !string.isTerminated))
  some ⟨.resourceType, ← typeNode.parent, string.span, opening.span.stop⟩

/-- Behind the name of a resource that has no type yet. -/
def missingType (place : Vicinity) : Option Finding := do
  let name ← place.beforeIn .ident [.name]
  let declaration ← name.parent
  guard (declaration.kind = .resourceDecl)
  guard (declaration.resourceTypeNode.isNone && place.wordParentKind ≠ some .name)
  some (place.found .resourceType declaration)

def resourceType (place : Vicinity) : Option Finding :=
  place.insideTypeString.or place.missingType

def decoratorName (place : Vicinity) : Option Finding := do
  some (place.found .decoratorName (← place.beforeIn .atSign [.decorator]))

/-- Behind the type of a resource, but not right at the closing quote. -/
def resourceHeader (place : Vicinity) : Option Finding := do
  let before ← place.before
  guard (before.kind = .stringEnd)
  let typeNode ← (← before.parent).parent
  guard (typeNode.kind = .resourceType)
  let declaration ← typeNode.parent
  guard (declaration.kind = .resourceDecl)
  guard (place.word.isSome || before.span.stop < place.offset)
  guard (!declaration.isExisting || place.wordKind = some .existingKw)
  some (place.found .resourceHeader declaration)

def typeName (place : Vicinity) : Option Finding := do
  let name ← place.beforeIn .ident [.name]
  let declaration ← name.parent
  guard (declaration.kind = .paramDecl || declaration.kind = .outputDecl)
  guard (place.word.isNone || place.wordParentKind = some .typeName)
  some (place.found .typeName declaration)

def propertyKey (place : Vicinity) : Option Finding := do
  let before ← place.beforeOnLine
  guard (before.kind = .lBrace || before.kind = .newline || before.kind = .comma)
  let object ← before.parent
  guard (object.kind = .object)
  some (place.found .propertyKey object)

def propertyValue (place : Vicinity) : Option Finding := do
  some (place.found .propertyValue (← place.beforeIn .colon [.objectProperty]))

def memberAccess (place : Vicinity) : Option Finding := do
  some (place.found .memberAccess (← place.beforeIn .dot [.propertyAccess]))

def resourceBody (place : Vicinity) : Option Finding := do
  some (place.found .resourceBody (← place.beforeIn .eq [.resourceDecl, .moduleDecl]))

/-- A line starts at the top level or, behind a decorator, inside a declaration. -/
def startsLine (place : Vicinity) : Bool :=
  match place.beforeOnLine with
  | none => true
  | some token =>
    token.kind = .newline &&
      match token.parent with
      | none => false
      | some parent => parent.kind = .root || parent.kind.isDeclaration

def declarations (place : Vicinity) : Option Finding :=
  if place.startsLine then some (place.found .declarations place.root) else none

/-- Whether an expression may follow a token in a node of the given kinds, and if so whether a loop
may start there. -/
def expressionAfter (place : Vicinity) (token node : Kind) : Option Bool :=
  match token, node with
  | .eq, .varDecl | .eq, .outputDecl | .eq, .paramDecl | .eq, .targetScopeDecl => some false
  | .bang, .unaryExpr | .minus, .unaryExpr => some false
  | .question, .ternaryExpr | .colon, .ternaryExpr => some false
  | .colon, .forExpr | .inKw, .forExpr => some false
  | .lParen, .argList | .lParen, .parenExpr => some false
  | .comma, .argList | .comma, .array => some false
  | .lBrack, .arrayAccess => some false
  | .lBrack, .array => some true
  | .lBrack, .forExpr => if place.wordKind = some .forKw then some true else none
  | .interpStart, .interpolation => some false
  | token, .binaryExpr => if token.precedence.isSome then some false else none
  | _, _ => none

/-- After a line break an expression starts only in an array or among arguments; elsewhere the token
in front decides. -/
def expression (place : Vicinity) : Option Finding :=
  match place.beforeOnLine.filter fun token => token.kind = .newline with
  | some newline => do
    let list ← newline.parent
    guard (list.kind = .array || list.kind = .argList)
    some (place.found (.expression false) list)
  | none => do
    let before ← place.before
    let parent ← before.parent
    let arrayStart ← place.expressionAfter before.kind parent.kind
    some (place.found (.expression arrayStart) parent)

/-- The first of these that finds something decides. -/
def rules : List (Vicinity → Option Finding) :=
  [resourceType, decoratorName, resourceHeader, typeName, propertyKey, propertyValue, memberAccess,
   resourceBody, declarations, expression]

def finding (place : Vicinity) : Option Finding := rules.findSome? fun rule => rule place

end Vicinity

namespace Context

def triggers : List Char := ['.', '@', ':', '\x27', '[', '\x7b', '(', ',', '=']

/-- What can be completed at a site; nothing in the body of a string or in a comment. -/
def classify (root : Locus) (text : String) (site : Site) : Option Context :=
  if site.isInStringBody || site.isInComment then none
  else do
    let place := root.vicinity site.offset
    let finding ← place.finding
    let typedFrom := min finding.typedFrom site.offset
    some {
      kind := finding.kind
      node := finding.node
      anchor := (place.word.bind Locus.parent).getD site.node
      replacement := finding.replacement
      typed := (Bytes.slice text typedFrom site.offset).getD ""
      trigger := (Bytes.charBefore text site.offset).filter triggers.contains }

/-- What can be completed at an offset of a text with the given tree. -/
def at? (root : Locus) (text : String) (offset : Nat) : Option Context :=
  classify root text (root.resolve offset)

end Context

end Caret
