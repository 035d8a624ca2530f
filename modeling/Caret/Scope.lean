import Caret.Distinct
import Caret.View

namespace Caret

inductive SymbolKind where
  | param
  | var
  | resource
  | moduleCall
  | loopVar
  deriving DecidableEq, Repr

def SymbolKind.label : SymbolKind → String
  | param => "Parameter"
  | var => "Variable"
  | resource => "Resource"
  | moduleCall => "Module"
  | loopVar => "LoopVariable"

/-- A name that an expression can refer to. -/
structure Symbol where
  name : String
  kind : SymbolKind
  declaration : NodeRef
  nameSpan : Span
  detail : Option String
  deriving DecidableEq, Repr

def Symbol.label (symbol : Symbol) : String := symbol.kind.label ++ "(" ++ symbol.name ++ ")"

/-- The symbols of one level, and the number of the scope around it. -/
structure Scope where
  parent : Option Nat
  symbols : List Symbol
  deriving Repr

/-- The scopes of a document. Scope 0 holds the declarations; every loop opens a scope for its body,
and enclosing loops come first. -/
structure ScopeTable where
  scopes : List Scope
  loops : List (NodeRef × Nat)

namespace Locus

/-- The kind and the short description of what a declaration introduces; outputs and the target
scope introduce no name. -/
def symbolKind (declaration : Locus) : Option (SymbolKind × Option String) :=
  match declaration.kind with
  | .paramDecl => some (.param, declaration.typeNameNode.bind identText)
  | .varDecl => some (.var, none)
  | .resourceDecl => some (.resource, declaration.resourceTypeNode.bind quotedValue)
  | .moduleDecl => some (.moduleCall, declaration.modulePathNode.bind quotedValue)
  | _ => none

def declaredSymbol (declaration : Locus) : Option Symbol := do
  let (kind, detail) ← declaration.symbolKind
  let ident ← (← declaration.nameNode).ident
  some ⟨ident.text, kind, declaration.ref, ident.span, detail⟩

def loopSymbol (loop : Locus) : Option Symbol := do
  let ident ← (← loop.nameNode).ident
  some ⟨ident.text, .loopVar, loop.ref, ident.span, none⟩

/-- A loop variable is known from the end of the colon that ends the loop's header. -/
def isInBodyOf (node loop : Locus) : Bool :=
  loop.kind = .forExpr &&
    match loop.tokenOf .colon with
    | none => false
    | some colon => colon.span.stop ≤ node.span.start

/-- The innermost loop whose variable is known at a node. -/
def enclosingLoop (node : Locus) : Option Locus :=
  node.properAncestors.find? fun ancestor => node.isInBodyOf ancestor

end Locus

namespace ScopeTable

/-- The number of the innermost scope that is visible from a node. -/
def scopeOf (table : ScopeTable) (node : Locus) : Nat :=
  match node.enclosingLoop with
  | none => 0
  | some loop => (table.loops.lookup loop.ref).getD 0

def addLoop (table : ScopeTable) (loop : Locus) : ScopeTable :=
  { scopes := table.scopes ++ [⟨some (table.scopeOf loop), loop.loopSymbol.toList⟩]
    loops := (loop.ref, table.scopes.length) :: table.loops }

def ofRoot (root : Locus) : ScopeTable :=
  let declared := root.declarations.filterMap Locus.declaredSymbol
  let loops := root.descendants.filter fun node => node.kind = .forExpr
  loops.foldl addLoop ⟨[⟨none, declared⟩], []⟩

def chainFor (table : ScopeTable) : Nat → Nat → List Scope
  | 0, _ => []
  | fuel + 1, number =>
    match table.scopes[number]? with
    | none => []
    | some scope =>
      scope :: match scope.parent with
        | none => []
        | some parent => chainFor table fuel parent

/-- A scope and those around it, from the inside out. A scope's parent has a smaller number, so
there are no more of them than scopes. -/
def chain (table : ScopeTable) (number : Nat) : List Scope :=
  table.chainFor table.scopes.length number

/-- The symbols that a node can refer to, innermost first. A declaration does not see itself, and an
inner name hides an outer one. -/
def visibleFrom (table : ScopeTable) (node : Locus) : List Symbol :=
  let own := (node.ancestors.find? fun ancestor => ancestor.kind.isDeclaration).map Locus.ref
  let symbols := (table.chain (table.scopeOf node)).flatMap Scope.symbols
  distinctBy Symbol.name (symbols.filter fun symbol => own ≠ some symbol.declaration)

end ScopeTable

end Caret
