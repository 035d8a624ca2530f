import Caret.Kind
import Caret.Span

namespace Caret

/-- What the grammar wanted to see at a place. -/
inductive Expected where
  | token (kind : Kind)
  | expression
  | propertyName
  | loopVariable
  | inKeyword
  | decoratorName
  | name
  | type
  | resourceType
  | modulePath
  deriving DecidableEq, Repr

def Expected.describe : Expected → String
  | token kind => kind.describe
  | expression => "expression"
  | propertyName => "property name"
  | loopVariable => "loop variable"
  | inKeyword => "'in'"
  | decoratorName => "decorator name"
  | name => "name"
  | type => "type"
  | resourceType => "resource type"
  | modulePath => "module path"

namespace SyntaxError

/-- Why a syntax error is recorded. -/
inductive Cause where
  | absent (expected : Expected) (found : Kind)
  | nestingTooDeep
  | unterminatedString
  | strayInHole
  | notAProperty
  | afterProperty
  | notAnItem
  | notAnArgument
  | afterLoop
  | notADeclaration
  | afterDeclaration
  | afterDecorator
  deriving DecidableEq, Repr

def Cause.message : Cause → String
  | absent expected found => "expected " ++ expected.describe ++ ", found " ++ found.describe
  | nestingTooDeep => "nesting too deep"
  | unterminatedString => "unterminated string"
  | strayInHole => "unexpected tokens in interpolation"
  | notAProperty => "expected a property"
  | afterProperty => "expected a new line after the property"
  | notAnItem => "expected an array item"
  | notAnArgument => "expected an argument"
  | afterLoop => "expected ']'"
  | notADeclaration => "expected a declaration"
  | afterDeclaration => "expected a new line after the declaration"
  | afterDecorator => "expected a new line after the decorator"

end SyntaxError

/-- A fault in a text, at the token where it was noticed; it never stops the reading. -/
structure SyntaxError where
  cause : SyntaxError.Cause
  span : Span
  deriving DecidableEq, Repr

def SyntaxError.message (error : SyntaxError) : String := error.cause.message

def SyntaxError.code : String := "lang_syntax::syntax_error"

end Caret
