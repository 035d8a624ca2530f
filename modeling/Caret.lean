import Caret.Analysis
import Caret.Catalog
import Caret.Completion
import Caret.Context
import Caret.Distinct
import Caret.Double
import Caret.Json.Basic
import Caret.Json.Reader
import Caret.Keyed
import Caret.Kind
import Caret.Lexeme
import Caret.Lexer
import Caret.LineTable
import Caret.Machine.Basic
import Caret.Machine.Grammar
import Caret.Proofs.Document.Depth
import Caret.Proofs.Document.Lossless
import Caret.Proofs.Lexer.Cover
import Caret.Proofs.Lexer.Leaves
import Caret.Proofs.Rule.Depth
import Caret.Proofs.Rule.Progress
import Caret.Proofs.Rule.Reading
import Caret.Proofs.Rule.Spelling
import Caret.Rule.Basic
import Caret.Rule.Document
import Caret.Rule.Expr
import Caret.Rule.Literal
import Caret.Scope
import Caret.Session
import Caret.Settings
import Caret.Shape.Basic
import Caret.Shape.Dump
import Caret.Shape.Json
import Caret.Site
import Caret.Span
import Caret.Suggestion.Basic
import Caret.Suggestion.Json
import Caret.SyntaxError
import Caret.Text.Bytes
import Caret.Text.Escaped
import Caret.Text.Identifier
import Caret.Text.Lowercase
import Caret.Text.Quoted
import Caret.Text.Range
import Caret.Token
import Caret.Toml.Reader
import Caret.Toml.Table
import Caret.Tree
import Caret.Tree.Element
import Caret.Tree.Locus
import Caret.Typing
import Caret.View
import Caret.Vocabulary
import Caret.Proofs.Context.Expected
import Caret.Proofs.Context.Insertion
import Caret.Proofs.Context.Silence
import Caret.Proofs.Document.Built
import Caret.Proofs.Scope.Visible
import Caret.Proofs.Context.Anchor
import Caret.Proofs.Context.Edits
import Caret.Proofs.Ast.Basic
import Caret.Proofs.Context.Keys
import Caret.Proofs.Document.Inside
import Caret.Proofs.Document.Region
import Caret.Proofs.Document.Resume
import Caret.Proofs.Document.Append
import Caret.Proofs.Document.Trivia
import Caret.Proofs.Document.Returns
import Caret.Proofs.Context.Paths
import Caret.Proofs.Ast.Declared
import Caret.Proofs.Context.Applied
import Caret.Proofs.Context.Providers
import Caret.Proofs.Document.Literals
import Caret.Proofs.Ast.Parsed
import Caret.Proofs.Ast.Plain
import Caret.Proofs.Ast.Restored
import Caret.Proofs.Context.Finish
import Caret.Proofs.Context.Snippets
import Caret.Proofs.Rule.Rests
import Caret.Proofs.Document.Rests
import Caret.Proofs.Context.LineStart
import Caret.Proofs.Context.KeyInsertion
import Caret.Proofs.Lexer.WellNested
import Caret.Proofs.Lexer.Unterminated
import Caret.Proofs.Document.Operators
import Caret.Proofs.Text.Escapes
import Caret.Proofs.Context.Positions
import Caret.Proofs.Shape.Json
import Caret.Proofs.Shape.Catalog
import Caret.Proofs.Document.Loops
import Caret.Proofs.Document.Sites
import Caret.Proofs.Text.TabStops
import Caret.Proofs.Document.Skeletons
import Caret.Proofs.Machine.Balance
