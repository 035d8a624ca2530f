import Caret.Text.Quoted
import Caret.Tree.Locus

namespace Caret

namespace Locus

/-- The first expression behind the first token or node of the given kind. -/
def exprAfter (locus : Locus) (kind : Kind) : Option Locus :=
  ((locus.children.dropWhile fun child => child.kind ≠ kind).filter isNode).find? fun node =>
    node.kind.isExpr

def firstExpr (locus : Locus) : Option Locus := locus.nodes.find? fun node => node.kind.isExpr

def ofKind (locus : Locus) (kind : Kind) : Option Locus :=
  if locus.kind = kind then some locus else none

/-! Strings -/

def interpolations (string : Locus) : List Locus :=
  string.nodes.filter fun node => node.kind = .interpolation

def isInterpolated (string : Locus) : Bool := !string.interpolations.isEmpty

def isMultiline (string : Locus) : Bool :=
  match string.firstToken with
  | none => false
  | some token => token.kind = .stringStart && token.text = "\x27\x27\x27"

def isTerminated (string : Locus) : Bool :=
  match string.lastToken with
  | none => false
  | some token => token.kind = .stringEnd

def rawText (string : Locus) : String :=
  String.join ((string.tokens.filter fun token => token.kind = .stringText).map text)

/-- The value of a string without holes. -/
def literalValue (string : Locus) : Option String :=
  if string.isInterpolated then none
  else if string.isMultiline then some string.rawText
  else some (unescape string.rawText)

/-! Names and headers -/

def ident (locus : Locus) : Option Locus := locus.tokenOf .ident

def identText (locus : Locus) : Option String := locus.ident.map text

def nameNode (locus : Locus) : Option Locus := locus.nodeOf .name

def typeNameNode (locus : Locus) : Option Locus := locus.nodeOf .typeName

def resourceTypeNode (locus : Locus) : Option Locus := locus.nodeOf .resourceType

def modulePathNode (locus : Locus) : Option Locus := locus.nodeOf .modulePath

/-- The value of the string in a header part, a resource type or a module path. -/
def quotedValue (locus : Locus) : Option String := (locus.nodeOf .string).bind literalValue

def isExisting (resource : Locus) : Bool := (resource.tokenOf .existingKw).isSome

/-! Declarations -/

def declarations (program : Locus) : List Locus :=
  program.nodes.filter fun node => node.kind.isDeclaration

/-- The expression behind the equals sign. -/
def declaredValue (declaration : Locus) : Option Locus := declaration.exprAfter .eq

def decorators (declaration : Locus) : List Locus :=
  declaration.nodes.filter fun node => node.kind = .decorator

/-- The function that a decorator names, called or not. -/
def decoratorName (decorator : Locus) : Option String := do
  let expr ← decorator.firstExpr
  let named ← if expr.kind = .callExpr then expr.nodes.head? else some expr
  (← named.ofKind .variableAccess).identText

/-! Objects and arrays -/

def properties (object : Locus) : List Locus :=
  object.nodes.filter fun node => node.kind = .objectProperty

def keyNode (property : Locus) : Option Locus := property.nodeOf .propertyKey

/-- A key as written, or the value of a string without holes. -/
def keyText (key : Locus) : Option String := key.identText.or key.quotedValue

def propertyName (property : Locus) : Option String := property.keyNode.bind keyText

def keys (object : Locus) : List String := object.properties.filterMap propertyName

def property? (object : Locus) (name : String) : Option Locus :=
  object.properties.find? fun property => property.propertyName = some name

def propertyValue (property : Locus) : Option Locus := property.exprAfter .colon

def items (array : Locus) : List Locus :=
  (array.nodes.filter fun node => node.kind = .arrayItem).filterMap firstExpr

/-! Loops -/

def loopIterable (loop : Locus) : Option Locus := loop.exprAfter .inKw

def loopBody (loop : Locus) : Option Locus := loop.exprAfter .colon

/-! Accesses and calls -/

/-- What a member is taken of, what an index is applied to, or what is called. -/
def operand (access : Locus) : Option Locus :=
  access.nodes.head?.filter fun node => node.kind.isExpr

def member (access : Locus) : Option Locus :=
  ((access.children.dropWhile fun child => child.kind ≠ .dot).filter isToken).find? fun token =>
    token.kind = .ident

def calledName (call : Locus) : Option String := do
  let callee ← call.operand
  (← callee.ofKind .variableAccess).identText

def callArguments (call : Locus) : List Locus :=
  (call.nodes.filter fun node => node.kind = .argList).flatMap fun list =>
    list.nodes.filter fun node => node.kind.isExpr

/-! What a view finds is smaller than what it looks at. -/

theorem mem_of_mem_spread {above : List Crumb} {left elements : List Element} {child : Locus}
    (h : child ∈ spread above left elements) : child.element ∈ elements := by
  induction elements generalizing left with
  | nil => simp [spread] at h
  | cons element right ih =>
    rcases List.mem_cons.1 h with rfl | h
    · exact List.mem_cons_self
    · exact List.mem_cons_of_mem _ (ih h)

theorem sizeOf_lt_of_mem_children {locus child : Locus} (h : child ∈ locus.children) :
    sizeOf child.element < sizeOf locus.element := by
  have hm := mem_of_mem_spread h
  cases he : locus.element with
  | token kind span text => simp [he, Element.children] at hm
  | node kind span children =>
    rw [he] at hm
    have := List.sizeOf_lt_of_mem hm
    simp only [Element.children] at this
    simp only [Element.node.sizeOf_spec]
    omega

theorem sizeOf_lt_of_mem_nodes {locus node : Locus} (h : node ∈ locus.nodes) :
    sizeOf node.element < sizeOf locus.element :=
  sizeOf_lt_of_mem_children (List.mem_filter.1 h).1

theorem sizeOf_lt_of_mem_properties {object property : Locus} (h : property ∈ object.properties) :
    sizeOf property.element < sizeOf object.element :=
  sizeOf_lt_of_mem_nodes (List.mem_filter.1 h).1

theorem sizeOf_lt_of_exprAfter {locus expr : Locus} {kind : Kind}
    (h : locus.exprAfter kind = some expr) : sizeOf expr.element < sizeOf locus.element := by
  have hm := (List.mem_filter.1 (List.mem_of_find?_eq_some h)).1
  exact sizeOf_lt_of_mem_children ((List.dropWhile_sublist _).subset hm)

theorem sizeOf_lt_of_firstExpr {locus expr : Locus} (h : locus.firstExpr = some expr) :
    sizeOf expr.element < sizeOf locus.element :=
  sizeOf_lt_of_mem_nodes (List.mem_of_find?_eq_some h)

theorem sizeOf_lt_of_firstNode {locus node : Locus} (h : locus.nodes.head? = some node) :
    sizeOf node.element < sizeOf locus.element :=
  sizeOf_lt_of_mem_nodes (List.mem_of_head? h)

theorem sizeOf_lt_of_operand {access node : Locus} (h : access.operand = some node) :
    sizeOf node.element < sizeOf access.element :=
  sizeOf_lt_of_firstNode (Option.filter_eq_some_iff.1 h).1

end Locus

end Caret
