namespace Caret

/-- The kinds of tokens and of tree nodes, tokens first. -/
inductive Kind where
  | whitespace | lineComment | blockComment
  | newline
  | ident | integer
  | stringStart | stringText | stringEnd | interpStart | interpEnd
  | lBrace | rBrace | lBrack | rBrack | lParen | rParen
  | comma | dot | colon | question | questionQuestion
  | eq | eqEq | bangEq | bang | lt | ltEq | gt | gtEq
  | plus | minus | star | slash | percent | ampAmp | pipePipe | atSign
  | trueKw | falseKw | nullKw
  | targetScopeKw | paramKw | varKw | outputKw | resourceKw | moduleKw
  | existingKw | forKw | inKw
  | errorToken | eof
  | root | decorator
  | targetScopeDecl | paramDecl | varDecl | outputDecl | resourceDecl | moduleDecl
  | name | typeName | resourceType | modulePath
  | object | objectProperty | propertyKey | array | arrayItem | forExpr
  | string | interpolation | literal
  | variableAccess | propertyAccess | arrayAccess | callExpr | argList
  | parenExpr | unaryExpr | binaryExpr | ternaryExpr
  | missing | error
  deriving DecidableEq, Repr, Inhabited

namespace Kind

def all : List Kind :=
  [whitespace, lineComment, blockComment, newline, ident, integer,
   stringStart, stringText, stringEnd, interpStart, interpEnd,
   lBrace, rBrace, lBrack, rBrack, lParen, rParen,
   comma, dot, colon, question, questionQuestion,
   eq, eqEq, bangEq, bang, lt, ltEq, gt, gtEq,
   plus, minus, star, slash, percent, ampAmp, pipePipe, atSign,
   trueKw, falseKw, nullKw,
   targetScopeKw, paramKw, varKw, outputKw, resourceKw, moduleKw, existingKw, forKw, inKw,
   errorToken, eof, root, decorator,
   targetScopeDecl, paramDecl, varDecl, outputDecl, resourceDecl, moduleDecl,
   name, typeName, resourceType, modulePath,
   object, objectProperty, propertyKey, array, arrayItem, forExpr,
   string, interpolation, literal,
   variableAccess, propertyAccess, arrayAccess, callExpr, argList,
   parenExpr, unaryExpr, binaryExpr, ternaryExpr, missing, error]

/-- The position of a kind in the order of declaration. -/
def index (kind : Kind) : Nat := kind.ctorIdx

theorem all_get_index (kind : Kind) : all[kind.index]? = some kind := by
  cases kind <;> rfl

/-- The tokens that the grammar never looks at. -/
def isTrivia : Kind → Bool
  | whitespace | lineComment | blockComment => true
  | _ => false

def isToken (kind : Kind) : Bool := kind.index ≤ eof.index

def isComment : Kind → Bool
  | lineComment | blockComment => true
  | _ => false

/-- Identifiers and keywords of every sort: what can be the word under the cursor. -/
def isWord : Kind → Bool
  | ident | trueKw | falseKw | nullKw
  | targetScopeKw | paramKw | varKw | outputKw | resourceKw | moduleKw
  | existingKw | forKw | inKw => true
  | _ => false

def isDeclaration : Kind → Bool
  | targetScopeDecl | paramDecl | varDecl | outputDecl | resourceDecl | moduleDecl => true
  | _ => false

def isExpr : Kind → Bool
  | literal | string | object | array | forExpr
  | variableAccess | propertyAccess | arrayAccess | callExpr
  | parenExpr | unaryExpr | binaryExpr | ternaryExpr => true
  | _ => false

def isStringDelimiter : Kind → Bool
  | stringStart | stringEnd | interpStart | interpEnd => true
  | _ => false

/-- How tightly a binary operator binds, a greater number binding tighter. -/
def precedence : Kind → Option Nat
  | questionQuestion => some 1
  | pipePipe => some 2
  | ampAmp => some 3
  | eqEq | bangEq => some 4
  | lt | ltEq | gt | gtEq => some 5
  | plus | minus => some 6
  | star | slash | percent => some 7
  | _ => none

/-- The reserved words; every other keyword is an identifier that the grammar knows in place. -/
def ofReserved : String → Option Kind
  | "true" => some trueKw
  | "false" => some falseKw
  | "null" => some nullKw
  | _ => none

/-- What an error message calls a token of this kind. -/
def describe (kind : Kind) : String :=
  match kind with
  | newline => "new line"
  | ident => "identifier"
  | integer => "integer"
  | stringStart | stringText | stringEnd => "string"
  | interpStart => "'$\x7b'"
  | interpEnd => "'\x7d'"
  | lBrace => "'\x7b'"
  | rBrace => "'\x7d'"
  | lBrack => "'['"
  | rBrack => "']'"
  | lParen => "'('"
  | rParen => "')'"
  | comma => "','"
  | dot => "'.'"
  | colon => "':'"
  | question => "'?'"
  | eq => "'='"
  | atSign => "'@'"
  | eof => "end of file"
  | _ => if kind.isWord then "keyword" else "token"

/-- The name of a kind in printed trees. -/
def label : Kind → String
  | whitespace => "WHITESPACE"
  | lineComment => "LINE_COMMENT"
  | blockComment => "BLOCK_COMMENT"
  | newline => "NEWLINE"
  | ident => "IDENT"
  | integer => "INTEGER"
  | stringStart => "STRING_START"
  | stringText => "STRING_TEXT"
  | stringEnd => "STRING_END"
  | interpStart => "INTERP_START"
  | interpEnd => "INTERP_END"
  | lBrace => "L_BRACE"
  | rBrace => "R_BRACE"
  | lBrack => "L_BRACK"
  | rBrack => "R_BRACK"
  | lParen => "L_PAREN"
  | rParen => "R_PAREN"
  | comma => "COMMA"
  | dot => "DOT"
  | colon => "COLON"
  | question => "QUESTION"
  | questionQuestion => "QUESTION_QUESTION"
  | eq => "EQ"
  | eqEq => "EQ_EQ"
  | bangEq => "BANG_EQ"
  | bang => "BANG"
  | lt => "LT"
  | ltEq => "LT_EQ"
  | gt => "GT"
  | gtEq => "GT_EQ"
  | plus => "PLUS"
  | minus => "MINUS"
  | star => "STAR"
  | slash => "SLASH"
  | percent => "PERCENT"
  | ampAmp => "AMP_AMP"
  | pipePipe => "PIPE_PIPE"
  | atSign => "AT"
  | trueKw => "TRUE_KW"
  | falseKw => "FALSE_KW"
  | nullKw => "NULL_KW"
  | targetScopeKw => "TARGET_SCOPE_KW"
  | paramKw => "PARAM_KW"
  | varKw => "VAR_KW"
  | outputKw => "OUTPUT_KW"
  | resourceKw => "RESOURCE_KW"
  | moduleKw => "MODULE_KW"
  | existingKw => "EXISTING_KW"
  | forKw => "FOR_KW"
  | inKw => "IN_KW"
  | errorToken => "ERROR_TOKEN"
  | eof => "EOF"
  | root => "ROOT"
  | decorator => "DECORATOR"
  | targetScopeDecl => "TARGET_SCOPE_DECL"
  | paramDecl => "PARAM_DECL"
  | varDecl => "VAR_DECL"
  | outputDecl => "OUTPUT_DECL"
  | resourceDecl => "RESOURCE_DECL"
  | moduleDecl => "MODULE_DECL"
  | name => "NAME"
  | typeName => "TYPE_NAME"
  | resourceType => "RESOURCE_TYPE"
  | modulePath => "MODULE_PATH"
  | object => "OBJECT"
  | objectProperty => "OBJECT_PROPERTY"
  | propertyKey => "PROPERTY_KEY"
  | array => "ARRAY"
  | arrayItem => "ARRAY_ITEM"
  | forExpr => "FOR_EXPR"
  | string => "STRING"
  | interpolation => "INTERPOLATION"
  | literal => "LITERAL"
  | variableAccess => "VARIABLE_ACCESS"
  | propertyAccess => "PROPERTY_ACCESS"
  | arrayAccess => "ARRAY_ACCESS"
  | callExpr => "CALL_EXPR"
  | argList => "ARG_LIST"
  | parenExpr => "PAREN_EXPR"
  | unaryExpr => "UNARY_EXPR"
  | binaryExpr => "BINARY_EXPR"
  | ternaryExpr => "TERNARY_EXPR"
  | missing => "MISSING"
  | error => "ERROR"

end Kind

end Caret
