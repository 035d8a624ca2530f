import Caret.Span

namespace Caret

inductive SuggestionKind where
  | keyword
  | resourceType
  | property
  | function
  | symbol
  | snippet
  | value
  deriving DecidableEq, Repr

inductive InsertFormat where
  | plainText
  | snippet
  deriving DecidableEq, Repr

structure TextEdit where
  span : Span
  newText : String
  deriving DecidableEq, Repr

/-- What is offered at a cursor. A snippet has tab stops, and the additional edits are made besides
the insertion. -/
structure Suggestion where
  label : String
  kind : SuggestionKind
  insertText : String
  format : InsertFormat
  detail : Option String := none
  replacement : Option Span := none
  documentation : Option String := none
  additionalEdits : List TextEdit := []
  deriving DecidableEq, Repr

namespace Suggestion

/-- A suggestion that inserts its label. -/
def ofLabel (label : String) (kind : SuggestionKind) : Suggestion :=
  { label := label, kind := kind, insertText := label, format := .plainText }

def withInsert (suggestion : Suggestion) (text : String) : Suggestion :=
  { suggestion with insertText := text, format := .plainText }

def withSnippet (suggestion : Suggestion) (text : String) : Suggestion :=
  { suggestion with insertText := text, format := .snippet }

def withDetail (suggestion : Suggestion) (detail : String) : Suggestion :=
  { suggestion with detail := some detail }

def withDocumentation (suggestion : Suggestion) (documentation : Option String) : Suggestion :=
  { suggestion with documentation := documentation }

def replacing (suggestion : Suggestion) (span : Span) : Suggestion :=
  { suggestion with replacement := some span }

def withEdit (suggestion : Suggestion) (span : Span) (newText : String) : Suggestion :=
  { suggestion with additionalEdits := suggestion.additionalEdits ++ [⟨span, newText⟩] }

def clampReplacement (suggestion : Suggestion) (size : Nat) : Suggestion :=
  { suggestion with replacement := suggestion.replacement.map fun span => span.clamp size }

def isSnippet (suggestion : Suggestion) : Bool := suggestion.format = .snippet

/-- Each return with a line feed behind it as one line feed. -/
def joinPairs : List Char → List Char
  | [] => []
  | '\r' :: '\n' :: cs => '\n' :: joinPairs cs
  | c :: cs => c :: joinPairs cs

/-- Every line break as one line feed: the pairs first, and then each return that is left. -/
def unifyLines (text : String) : String :=
  String.ofList ((joinPairs text.toList).map fun c => if c = '\r' then '\n' else c)

/-- Unifies line breaks and keeps every span inside a text of the given size. -/
def normalize (suggestion : Suggestion) (size : Nat) : Suggestion :=
  { suggestion with
    insertText := unifyLines suggestion.insertText
    detail := suggestion.detail.map unifyLines
    documentation := suggestion.documentation.map unifyLines
    replacement := suggestion.replacement.map fun span => span.clamp size
    additionalEdits := suggestion.additionalEdits.map fun edit =>
      ⟨edit.span.clamp size, unifyLines edit.newText⟩ }

end Suggestion

end Caret
