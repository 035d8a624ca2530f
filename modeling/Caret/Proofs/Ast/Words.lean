import Caret.Proofs.Ast.Basic
import Caret.Proofs.Rule.Gives

/-!
# The words and the trees of a program

The tokens that a program is written with, and the tree that they are read as, both without trivia.
-/

namespace Caret

namespace Ast

def Name.leaf (name : Name) : Kind × String := (.ident, name.text)

def Word.leaf (word : Word) : Kind × String := ((Kind.ofReserved word.text).getD .ident, word.text)

def Digits.leaf (digits : Digits) : Kind × String := (.integer, digits.text)

def Constant.leaf (value : Constant) : Kind × String := (value.kind, value.text)

def Sign.leaf : Sign → Kind × String
  | .not => (.bang, "!")
  | .minus => (.minus, "-")

/-- How an operator is written. -/
def Operator.text (operator : Operator) : String :=
  match operator.kind with
  | .questionQuestion => "??"
  | .pipePipe => "||"
  | .ampAmp => "&&"
  | .eqEq => "=="
  | .bangEq => "!="
  | .lt => "<"
  | .ltEq => "<="
  | .gt => ">"
  | .gtEq => ">="
  | .plus => "+"
  | .minus => "-"
  | .star => "*"
  | .slash => "/"
  | _ => "%"

def Operator.leaf (operator : Operator) : Kind × String := (operator.kind, operator.text)

def Separator.leaf : Separator → Kind × String
  | .newline => (.newline, "\n")
  | .comma => (.comma, ",")

def quotes (multiline : Bool) : String := if multiline then "\x27\x27\x27" else "\x27"

/-- A text between the quotes or the holes of a string as it is written there. -/
def raw (multiline : Bool) (text : String) : String :=
  if multiline then text else Quoted.body text

mutual

def Expr.words : Expr → List (Kind × String)
  | .access name => [name.leaf]
  | .integer digits => [digits.leaf]
  | .constant value => [value.leaf]
  | .string multiline parts => (.stringStart, quotes multiline) :: parts.words multiline
  | .object properties => (.lBrace, "\x7b") :: (properties.words ++ [(.rBrace, "\x7d")])
  | .array items => (.lBrack, "[") :: (items.words ++ [(.rBrack, "]")])
  | .loop item iterable body =>
    (.lBrack, "[") :: (.ident, "for") :: item.leaf :: (.ident, "in") ::
      (iterable.words ++ (.colon, ":") :: (body.words ++ [(.rBrack, "]")]))
  | .paren inner => (.lParen, "(") :: (inner.words ++ [(.rParen, ")")])
  | .unary sign operand => sign.leaf :: operand.words
  | .binary operator left right => left.words ++ operator.leaf :: right.words
  | .ternary test yes no =>
    test.words ++ (.question, "?") :: (yes.words ++ (.colon, ":") :: no.words)
  | .member receiver name => receiver.words ++ [(.dot, "."), name.leaf]
  | .index receiver position =>
    receiver.words ++ (.lBrack, "[") :: (position.words ++ [(.rBrack, "]")])
  | .call callee arguments =>
    callee.words ++ (.lParen, "(") :: (arguments.words ++ [(.rParen, ")")])

def Parts.words (multiline : Bool) : Parts → List (Kind × String)
  | .last text => textLeaves (raw multiline text) ++ [(.stringEnd, quotes multiline)]
  | .hole text inner rest =>
    textLeaves (raw multiline text) ++ (.interpStart, "$\x7b") ::
      (inner.words ++ (.interpEnd, "\x7d") :: rest.words multiline)

def Items.words : Items → List (Kind × String)
  | .nil => []
  | .one item => item.words
  | .cons item separator rest => item.words ++ separator.leaf :: rest.words

def Key.words : Key → List (Kind × String)
  | .word name => [name.leaf]
  | .string multiline parts => (.stringStart, quotes multiline) :: parts.words multiline

def Properties.words : Properties → List (Kind × String)
  | .nil => []
  | .one key value => key.words ++ (.colon, ":") :: value.words
  | .cons key value separator rest =>
    key.words ++ (.colon, ":") :: (value.words ++ separator.leaf :: rest.words)

end

attribute [simp] Expr.words Parts.words Items.words Key.words Properties.words

/-- The items of an array stand in nodes of their own, arguments do not. -/
def asItem (inArray : Bool) (tree : Tree) : Tree := if inArray then .node .arrayItem [tree] else tree

mutual

def Expr.tree : Expr → Tree
  | .access name => .node .variableAccess [.leaf .ident name.text]
  | .integer digits => .node .literal [.leaf .integer digits.text]
  | .constant value => .node .literal [.leaf value.kind value.text]
  | .string multiline parts =>
    .node .string (.leaf .stringStart (quotes multiline) :: parts.trees multiline)
  | .object properties =>
    .node .object (.leaf .lBrace "\x7b" :: (properties.trees ++ [.leaf .rBrace "\x7d"]))
  | .array items => .node .array (.leaf .lBrack "[" :: (items.trees true ++ [.leaf .rBrack "]"]))
  | .loop item iterable body =>
    .node .forExpr
      [.leaf .lBrack "[", .leaf .forKw "for", .node .name [.leaf .ident item.text],
       .leaf .inKw "in", iterable.tree, .leaf .colon ":", body.tree, .leaf .rBrack "]"]
  | .paren inner => .node .parenExpr [.leaf .lParen "(", inner.tree, .leaf .rParen ")"]
  | .unary sign operand => .node .unaryExpr [.ofLeaf sign.leaf, operand.tree]
  | .binary operator left right =>
    .node .binaryExpr [left.tree, .ofLeaf operator.leaf, right.tree]
  | .ternary test yes no =>
    .node .ternaryExpr [test.tree, .leaf .question "?", yes.tree, .leaf .colon ":", no.tree]
  | .member receiver name =>
    .node .propertyAccess [receiver.tree, .leaf .dot ".", .leaf .ident name.text]
  | .index receiver position =>
    .node .arrayAccess [receiver.tree, .leaf .lBrack "[", position.tree, .leaf .rBrack "]"]
  | .call callee arguments =>
    .node .callExpr
      [callee.tree,
       .node .argList (.leaf .lParen "(" :: (arguments.trees false ++ [.leaf .rParen ")"]))]

def Parts.trees (multiline : Bool) : Parts → List Tree
  | .last text =>
    (textLeaves (raw multiline text)).map .ofLeaf ++ [.leaf .stringEnd (quotes multiline)]
  | .hole text inner rest =>
    (textLeaves (raw multiline text)).map .ofLeaf ++
      .node .interpolation [.leaf .interpStart "$\x7b", inner.tree, .leaf .interpEnd "\x7d"] ::
        rest.trees multiline

def Items.trees (inArray : Bool) : Items → List Tree
  | .nil => []
  | .one item => [asItem inArray item.tree]
  | .cons item separator rest =>
    asItem inArray item.tree :: .ofLeaf separator.leaf :: rest.trees inArray

def Key.tree : Key → Tree
  | .word name => .node .propertyKey [.leaf .ident name.text]
  | .string multiline parts =>
    .node .propertyKey
      [.node .string (.leaf .stringStart (quotes multiline) :: parts.trees multiline)]

def Properties.trees : Properties → List Tree
  | .nil => []
  | .one key value => [.node .objectProperty [key.tree, .leaf .colon ":", value.tree]]
  | .cons key value separator rest =>
    .node .objectProperty [key.tree, .leaf .colon ":", value.tree] :: .ofLeaf separator.leaf ::
      rest.trees

end

/-! Declarations -/

def Decorator.words (decorator : Decorator) : List (Kind × String) :=
  (.atSign, "@") :: (decorator.chain.words ++ [(.newline, "\n")])

def Decorator.trees (decorator : Decorator) : List Tree :=
  [.node .decorator [.leaf .atSign "@", decorator.chain.tree], .leaf .newline "\n"]

namespace Declaration

def word : Declaration → String
  | targetScope _ => "targetScope"
  | param .. => "param"
  | var .. => "var"
  | output .. => "output"
  | resource .. => "resource"
  | module .. => "module"

def kind : Declaration → Kind
  | targetScope _ => .targetScopeDecl
  | param .. => .paramDecl
  | var .. => .varDecl
  | output .. => .outputDecl
  | resource .. => .resourceDecl
  | module .. => .moduleDecl

def keyword : Declaration → Kind
  | targetScope _ => .targetScopeKw
  | param .. => .paramKw
  | var .. => .varKw
  | output .. => .outputKw
  | resource .. => .resourceKw
  | module .. => .moduleKw

/-- The words behind the keyword. -/
def headerWords : Declaration → List (Kind × String)
  | targetScope value => (.eq, "=") :: value.words
  | param name type none => [name.leaf, type.leaf]
  | param name type (some value) => name.leaf :: type.leaf :: (.eq, "=") :: value.words
  | var name value => name.leaf :: (.eq, "=") :: value.words
  | output name type value => name.leaf :: type.leaf :: (.eq, "=") :: value.words
  | resource name multiline type existing value =>
    name.leaf :: (.stringStart, quotes multiline) ::
      (type.words multiline ++ ((if existing then [(.ident, "existing")] else []) ++
        (.eq, "=") :: value.words))
  | module name multiline path value =>
    name.leaf :: (.stringStart, quotes multiline) ::
      (path.words multiline ++ (.eq, "=") :: value.words)

def headerTrees : Declaration → List Tree
  | targetScope value => [.leaf .eq "=", value.tree]
  | param name type none =>
    [.node .name [.leaf .ident name.text], .node .typeName [.leaf .ident type.text]]
  | param name type (some value) =>
    [.node .name [.leaf .ident name.text], .node .typeName [.leaf .ident type.text],
     .leaf .eq "=", value.tree]
  | var name value => [.node .name [.leaf .ident name.text], .leaf .eq "=", value.tree]
  | output name type value =>
    [.node .name [.leaf .ident name.text], .node .typeName [.leaf .ident type.text],
     .leaf .eq "=", value.tree]
  | resource name multiline type existing value =>
    .node .name [.leaf .ident name.text] ::
      .node .resourceType
        [.node .string (.leaf .stringStart (quotes multiline) :: type.trees multiline)] ::
      ((if existing then [.leaf .existingKw "existing"] else []) ++ [.leaf .eq "=", value.tree])
  | module name multiline path value =>
    [.node .name [.leaf .ident name.text],
     .node .modulePath
      [.node .string (.leaf .stringStart (quotes multiline) :: path.trees multiline)],
     .leaf .eq "=", value.tree]

end Declaration

def Decorated.words (decorated : Decorated) : List (Kind × String) :=
  decorated.decorators.flatMap Decorator.words ++
    (.ident, decorated.declaration.word) :: decorated.declaration.headerWords

/-- Decorators stand in the node of the declaration that they belong to. -/
def Decorated.tree (decorated : Decorated) : Tree :=
  .node decorated.declaration.kind
    (decorated.decorators.flatMap Decorator.trees ++
      .leaf decorated.declaration.keyword decorated.declaration.word ::
        decorated.declaration.headerTrees)

/-- The declarations with a newline between each two. -/
def Program.words (program : Program) : List (Kind × String) :=
  [(Kind.newline, "\n")].intercalate (program.declarations.map Decorated.words)

def Program.trees (program : Program) : List Tree :=
  (program.declarations.map Decorated.tree).intersperse (.leaf .newline "\n")

end Ast

end Caret
