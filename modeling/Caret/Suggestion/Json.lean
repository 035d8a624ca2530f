import Caret.Json.Reader
import Caret.Suggestion.Basic

namespace Caret

open Json (entry text)

def Span.toJson (span : Span) : Json :=
  .object [entry "start" (.nat span.start), entry "end" (.nat span.stop)]

def Span.read (json : Json) : Option Span := do
  match ← Json.fields ["start", "end"] json with
  | [some start, some stop] => some ⟨← start.word32?, ← stop.word32?⟩
  | _ => none

namespace SuggestionKind

def name : SuggestionKind → String
  | keyword => "keyword"
  | resourceType => "resourceType"
  | property => "property"
  | function => "function"
  | symbol => "symbol"
  | snippet => "snippet"
  | value => "value"

def all : List SuggestionKind :=
  [keyword, resourceType, property, function, symbol, snippet, value]

def read (json : Json) : Option SuggestionKind := do
  let name ← json.choice?
  all.find? fun kind => kind.name = name

end SuggestionKind

namespace InsertFormat

def name : InsertFormat → String
  | plainText => "plainText"
  | snippet => "snippet"

def read (json : Json) : Option InsertFormat := do
  let name ← json.choice?
  [plainText, snippet].find? fun format => format.name = name

end InsertFormat

namespace TextEdit

def toJson (edit : TextEdit) : Json :=
  .object [entry "range" edit.span.toJson, entry "newText" (text edit.newText)]

def read (json : Json) : Option TextEdit := do
  match ← Json.fields ["range", "newText"] json with
  | [some span, some newText] => some ⟨← Span.read span, ← newText.text?⟩
  | _ => none

end TextEdit

namespace Suggestion

/-- What a suggestion does not have is left out. -/
def toJson (suggestion : Suggestion) : Json :=
  .object (
    [entry "label" (text suggestion.label), entry "kind" (text suggestion.kind.name),
     entry "insertText" (text suggestion.insertText),
     entry "insertTextFormat" (text suggestion.format.name)] ++
    (suggestion.detail.map fun detail => entry "detail" (text detail)).toList ++
    (suggestion.replacement.map fun span => entry "replacementRange" span.toJson).toList ++
    (suggestion.documentation.map fun document => entry "documentation" (text document)).toList ++
    (if suggestion.additionalEdits.isEmpty then []
     else [entry "additionalEdits" (.array (suggestion.additionalEdits.map TextEdit.toJson))]))

def readSpan : Option Json → Option (Option Span)
  | none => some none
  | some .null => some none
  | some json => (Span.read json).map some

def readText (json : Option Json) : Option (Option String) :=
  (json.map Json.nullableText?).getD (some none)

def readEdits : Option Json → Option (List TextEdit)
  | none => some []
  | some json => do (← json.items?).mapM TextEdit.read

def read (json : Json) : Option Suggestion := do
  let names := ["label", "kind", "insertText", "insertTextFormat", "detail", "replacementRange",
    "documentation", "additionalEdits"]
  match ← Json.fields names json with
  | [some label, some kind, some insertText, some format, detail, span, documentation, edits] =>
    some {
      label := ← label.text?
      kind := ← SuggestionKind.read kind
      insertText := ← insertText.text?
      format := ← InsertFormat.read format
      detail := ← readText detail
      replacement := ← readSpan span
      documentation := ← readText documentation
      additionalEdits := ← readEdits edits }
  | _ => none

def parse (source : String) : Option Suggestion := (Json.parse source).bind read

end Suggestion

end Caret
