import Caret.Completion
import Caret.LineTable
import Caret.Rule.Document

namespace Caret

/-- A text with all that is worked out from it alone. -/
structure Analysis where
  text : String
  document : Document
  root : Locus
  scopes : ScopeTable
  lines : LineTable

/-- Why there can be no completion at a place. -/
inductive CompletionError where
  | outOfBounds (offset size : Nat)
  | notBoundary (offset : Nat)
  | invalidPosition (position : LinePosition)
  deriving DecidableEq, Repr

namespace CompletionError

def message : CompletionError → String
  | outOfBounds offset size =>
    "offset " ++ toString offset ++ " is past the end of the document (" ++ toString size ++
      " bytes)"
  | notBoundary offset => "offset " ++ toString offset ++ " is not on a character boundary"
  | invalidPosition position =>
    "position " ++ toString position.line ++ ":" ++ toString position.character ++
      " is outside the document"

def code : CompletionError → String
  | outOfBounds .. => "ide::offset_out_of_bounds"
  | notBoundary _ => "ide::not_char_boundary"
  | invalidPosition _ => "ide::invalid_position"

end CompletionError

namespace Analysis

def ofText (text : String) : Analysis :=
  let document := Document.parse text
  let root := Locus.root (document.tree.locate 0)
  ⟨text, document, root, .ofRoot root, .ofText text⟩

def size (analysis : Analysis) : Nat := analysis.text.utf8ByteSize

def context? (analysis : Analysis) (offset : Nat) : Option Context :=
  Context.at? analysis.root analysis.text offset

/-- An offset is in the text or at its end, between two characters. -/
def check (analysis : Analysis) (offset : Nat) : Except CompletionError Unit :=
  if analysis.size < offset then .error (.outOfBounds offset analysis.size)
  else if Bytes.isBoundary offset analysis.text then .ok ()
  else .error (.notBoundary offset)

/-- The suggestions at an offset, in the order of their labels. -/
def completions (analysis : Analysis) (offset : Nat) (types : Provider) (settings : Settings) :
    Except CompletionError (List Suggestion) := do
  analysis.check offset
  match analysis.context? offset with
  | none => return []
  | some context =>
    let completion : Completion := ⟨context, ⟨analysis.root, analysis.scopes, types⟩, settings⟩
    return completion.suggestions analysis.size

/-- The suggestions at a place that is given by line and character. -/
def completionsAt (analysis : Analysis) (position : LinePosition) (types : Provider)
    (settings : Settings) : Except CompletionError (List Suggestion) :=
  match analysis.lines.offset position with
  | none => .error (.invalidPosition position)
  | some offset => analysis.completions offset types settings

end Analysis

/-- The suggestions at an offset of a text. -/
def completionsIn (text : String) (offset : Nat) (types : Provider) (settings : Settings) :
    Except CompletionError (List Suggestion) :=
  (Analysis.ofText text).completions offset types settings

end Caret
